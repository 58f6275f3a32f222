import Mathlib.Data.List.Forall2
import Reification.Proofs.Layouts
import Reification.Proofs.Ordering

/-!
# Sets on the wire

Alternatives and attributes are sets, which are written as arrays.  Since they are kept in a strict
total order, what is read does not depend on the order of the entries and on how often they are
written: it is the strictly increasing list of the distinct ones.
-/

namespace Reification

section Sets

variable {α : Type} {read? : Json → Option α} {items left right : List Json}

theorem isSome_mapM : (items.mapM read?).isSome = true ↔
    ∀ item ∈ items, (read? item).isSome = true := by
  induction items with
  | nil => simp
  | cons item items ih =>
    rw [List.mapM_cons, List.forall_mem_cons, ← ih]
    cases read? item <;> cases items.mapM read? <;> simp

theorem mem_iff_of_mapM {entries : List α} (mapM_eq : items.mapM read? = some entries)
    (entry : α) : entry ∈ entries ↔ ∃ item ∈ items, read? item = some entry := by
  induction items generalizing entries with
  | nil => simp_all
  | cons item items ih =>
    simp only [List.mapM_cons, Option.bind_eq_bind, Option.bind_eq_some_iff] at mapM_eq
    obtain ⟨head, head_eq, tail, tail_eq, entries_eq⟩ := mapM_eq
    obtain rfl := Option.some.inj entries_eq
    simp [ih tail_eq, head_eq, eq_comm]

variable [Ord α]

/-- Whether all items are read and a set has just the entries which are read, in increasing order. -/
structure Lists (read? : Json → Option α) (items : List Json) (entries : OrderedSet α) : Prop where
  readable : ∀ item ∈ items, (read? item).isSome = true
  mem_iff : ∀ entry, entry ∈ entries.toList ↔ ∃ item ∈ items, read? item = some entry
  increasing : entries.toList.Pairwise fun left right => compare left right = .lt

variable [Std.TransOrd α] [Std.LawfulEqOrd α]

theorem map_ofList_mapM_eq_some_iff {entries : OrderedSet α} :
    (items.mapM read?).map .ofList = some entries ↔ Lists read? items entries := by
  rw [Option.map_eq_some_iff]
  constructor
  · rintro ⟨list, mapM_eq, rfl⟩
    exact ⟨isSome_mapM.mp (by rw [mapM_eq]; rfl),
      fun entry => OrderedSet.mem_ofList.trans (mem_iff_of_mapM mapM_eq entry), OrderedSet.increasing _⟩
  · intro lists
    obtain ⟨list, mapM_eq⟩ := Option.isSome_iff_exists.mp (isSome_mapM.mpr lists.readable)
    refine ⟨list, mapM_eq, OrderedSet.ext fun entry => ?_⟩
    rw [OrderedSet.mem_ofList, mem_iff_of_mapM mapM_eq, ← lists.mem_iff, OrderedSet.mem_toList]

omit [Std.TransOrd α] [Std.LawfulEqOrd α] in
theorem Lists.of_rearranged {entries : OrderedSet α} (lists : Lists read? left entries)
    (forth : ∀ item ∈ left, ∃ other ∈ right, read? item = read? other)
    (back : ∀ other ∈ right, ∃ item ∈ left, read? item = read? other) :
    Lists read? right entries where
  readable other mem := by
    obtain ⟨item, item_mem, read_eq⟩ := back other mem
    exact read_eq ▸ lists.readable item item_mem
  mem_iff entry := by
    rw [lists.mem_iff]
    constructor
    · rintro ⟨item, mem, read_eq⟩
      obtain ⟨other, other_mem, same⟩ := forth item mem
      exact ⟨other, other_mem, same ▸ read_eq⟩
    · rintro ⟨other, mem, read_eq⟩
      obtain ⟨item, item_mem, same⟩ := back other mem
      exact ⟨item, item_mem, same ▸ read_eq⟩
  increasing := lists.increasing

theorem map_ofList_mapM_congr
    (forth : ∀ item ∈ left, ∃ other ∈ right, read? item = read? other)
    (back : ∀ other ∈ right, ∃ item ∈ left, read? item = read? other) :
    (left.mapM read?).map OrderedSet.ofList = (right.mapM read?).map OrderedSet.ofList := by
  refine Option.ext fun entries => ?_
  rw [map_ofList_mapM_eq_some_iff, map_ofList_mapM_eq_some_iff]
  refine ⟨fun lists => lists.of_rearranged forth back, fun lists => lists.of_rearranged ?_ ?_⟩
  · exact fun other mem => (back other mem).imp fun _ found => ⟨found.1, found.2.symm⟩
  · exact fun item mem => (forth item mem).imp fun _ found => ⟨found.1, found.2.symm⟩

end Sets

namespace Json

/-- Whether two trees are arrays with corresponding items, in whichever order and however often. -/
inductive Rearranged (corresponds : Json → Json → Prop) : Json → Json → Prop where
  | array {left right : List Json} (forth : ∀ item ∈ left, ∃ other ∈ right, corresponds item other)
    (back : ∀ other ∈ right, ∃ item ∈ left, corresponds item other) :
    Rearranged corresponds (.array left) (.array right)

/-- Whether two members have the same key, and the same value or corresponding ones of a given
key. -/
def SameMember (key : String) (corresponds : Json → Json → Prop)
    (member other : Literal × Json) : Prop :=
  member.1 = other.1 ∧ (member.2 = other.2 ∨ member.1 = some key ∧ corresponds member.2 other.2)

/-- Whether two objects have the same members but for corresponding values of a given key. -/
inductive SameBut (key : String) (corresponds : Json → Json → Prop) : Json → Json → Prop where
  | object {members others : List (Literal × Json)}
    (same : List.Forall₂ (SameMember key corresponds) members others) :
    SameBut key corresponds (.object members) (.object others)

section Members

variable {key : String} {corresponds : Json → Json → Prop} {members others : List (Literal × Json)}
  {depth : Nat}

theorem map_fst_eq (same : List.Forall₂ (SameMember key corresponds) members others) :
    members.map Prod.fst = others.map Prod.fst := by
  induction same with
  | nil => rfl
  | cons same _ ih => rw [List.map_cons, List.map_cons, same.1, ih]

theorem haveDistinct_eq (same : List.Forall₂ (SameMember key corresponds) members others)
    (names : List String) : haveDistinct members names = haveDistinct others names := by
  have haveDistinct_eq_keys (members : List (Literal × Json)) : haveDistinct members names =
      ((members.map Prod.fst).all Option.isSome &&
        names.all fun name => (members.map Prod.fst).countP (· == some name) ≤ 1) := by
    simp only [haveDistinct, List.all_map, List.countP_map, Function.comp_def]
  rw [haveDistinct_eq_keys, haveDistinct_eq_keys, map_fst_eq same]

/-- What does not tell corresponding values apart does not tell apart what is found under a name. -/
theorem apply_member?_eq (same : List.Forall₂ (SameMember key corresponds) members others)
    {β : Type} (use : Option Json → β) (name : String)
    (use_eq : name = key → ∀ json other, corresponds json other → use (some json) = use (some other)) :
    use (member? members name) = use (member? others name) := by
  induction same with
  | nil => rfl
  | @cons member other members others same _ ih =>
    obtain ⟨first, json⟩ := member
    obtain ⟨_, otherJson⟩ := other
    obtain ⟨rfl, values⟩ := same
    simp only [member?, List.lookup_cons] at ih ⊢
    by_cases found : some name = first
    · subst found
      rcases values with rfl | ⟨name_eq, values⟩
      · simp
      · simpa using use_eq (Option.some.inj name_eq) json otherJson values
    · have passed : (some name == first) = false := beq_eq_false_iff_ne.mpr found
      simpa only [passed] using ih

theorem membersAreReadable_eq (same : List.Forall₂ (SameMember key corresponds) members others)
    (values_eq : ∀ json other, corresponds json other →
      json.isReadable depth = other.isReadable depth) :
    membersAreReadable depth members = membersAreReadable depth others := by
  induction same with
  | nil => rfl
  | @cons member other members others same _ ih =>
    have value_eq : member.2.isReadable depth = other.2.isReadable depth :=
      same.2.elim (congrArg _) fun values => values_eq _ _ values.2
    rw [membersAreReadable, membersAreReadable, same.1, value_eq, ih]

theorem isReadable_rearranged (depth : Nat) {left right : Json}
    (rearranged : Rearranged Eq left right) :
    left.isReadable depth = right.isReadable depth := by
  obtain ⟨forth, back⟩ := rearranged
  cases depth with
  | zero => rfl
  | succ depth =>
    rw [Bool.eq_iff_iff]
    show areReadable depth _ = true ↔ areReadable depth _ = true
    rw [areReadable_iff, areReadable_iff]
    constructor
    · intro readable other mem
      obtain ⟨_, item_mem, rfl⟩ := back other mem
      exact readable _ item_mem
    · intro readable item mem
      obtain ⟨_, other_mem, rfl⟩ := forth item mem
      exact readable _ other_mem

end Members

end Json

namespace Attribute

theorem setOfJson?_eq_some_iff {depth : Nat} {items : List Json} {attributes : OrderedSet Attribute} :
    setOfJson? (depth + 1) (.array items) = some attributes ↔
      Lists (ofJson? depth) items attributes :=
  map_ofList_mapM_eq_some_iff

theorem setOfJson?_rearranged {depth : Nat} {left right : Json}
    (rearranged : Json.Rearranged Eq left right) : setOfJson? depth left = setOfJson? depth right := by
  obtain ⟨forth, back⟩ := rearranged
  cases depth with
  | zero => rfl
  | succ depth =>
    refine map_ofList_mapM_congr (fun item mem => ?_) fun other mem => ?_
    · obtain ⟨other, other_mem, rfl⟩ := forth item mem
      exact ⟨_, other_mem, rfl⟩
    · obtain ⟨item, item_mem, rfl⟩ := back other mem
      exact ⟨_, item_mem, rfl⟩

end Attribute

/-- Whether two trees are the same, or objects which differ in the order of the attributes and in
how often they are written. -/
def Production.Rearranged (left right : Json) : Prop :=
  left = right ∨ Json.SameBut "attributes" (Json.Rearranged Eq) left right

namespace Draft

variable {depth : Nat} {members others : List (Literal × Json)}

theorem ofMembers?_rearranged (depth : Nat)
    (same : List.Forall₂ (Json.SameMember "attributes" (Json.Rearranged Eq)) members others)
    (layout : Layout) : ofMembers? depth members layout = ofMembers? depth others layout := by
  have attributes_eq : attributesOfMember? depth (Json.member? members "attributes") =
      attributesOfMember? depth (Json.member? others "attributes") :=
    Json.apply_member?_eq same _ _ fun _ _ _ => Attribute.setOfJson?_rearranged
  have member_eq (name : String) (other : name ≠ "attributes") :
      Json.member? members name = Json.member? others name :=
    Json.apply_member?_eq same id name fun same => absurd same other
  have subject_eq : Json.member? members layout.subjectKey =
      Json.member? others layout.subjectKey := member_eq _ (by cases layout <;> decide)
  have symbols_eq : Json.member? members layout.symbolsKey =
      Json.member? others layout.symbolsKey := member_eq _ (by cases layout <;> decide)
  rw [ofMembers?, ofMembers?, Json.haveDistinct_eq same, subject_eq, symbols_eq, attributes_eq,
    member_eq "name" (by decide)]

theorem lists_of_attributesOfMember? {json? : Option Json} {attributes : OrderedSet Attribute}
    (read_eq : attributesOfMember? (depth + 1) json? = some attributes) :
    json? = none ∧ attributes = ∅ ∨
      ∃ items, json? = some (.array items) ∧ Lists (Attribute.ofJson? depth) items attributes := by
  cases json? with
  | none => exact .inl ⟨rfl, (Option.some.inj read_eq).symm⟩
  | some json =>
    cases json with
    | array items => exact .inr ⟨items, rfl, Attribute.setOfJson?_eq_some_iff.mp read_eq⟩
    | _ => cases read_eq

theorem attributes_of_ofMembers? {layout : Layout} {draft : Draft}
    (found : ofMembers? depth members layout = some draft) :
    attributesOfMember? depth (Json.member? members "attributes") = some draft.attributes := by
  rw [ofMembers?] at found
  split at found
  · simp only [Option.bind_eq_bind, Option.bind_eq_some_iff] at found
    obtain ⟨_, -, _, -, _, -, _, -, attributes, attributes_eq, draft_eq⟩ := found
    obtain rfl := Option.some.inj draft_eq
    exact attributes_eq
  · cases found

end Draft

namespace Production

variable {depth : Nat} {left right : Json}

theorem ofJson?_rearranged (rearranged : Rearranged left right) :
    ofJson? depth left = ofJson? depth right := by
  rcases rearranged with rfl | ⟨⟨same⟩⟩
  · rfl
  · cases depth with
    | zero => rw [ofJson?_of_unreadable rfl, ofJson?_of_unreadable rfl]
    | succ depth =>
      have readable_eq := Json.membersAreReadable_eq same
        fun _ _ => Json.isReadable_rearranged depth
      have drafts_eq := funext fun layout => Draft.ofMembers?_rearranged depth same layout
      rw [ofJson?, ofJson?, Draft.ofJson?, Draft.ofJson?, Json.isReadable, Json.isReadable]
      simp only [readable_eq, drafts_eq]

theorem setOfJson?_eq_some_iff {items : List Json} {productions : OrderedSet Production} :
    setOfJson? (depth + 1) (.array items) = some productions ↔
      Lists (ofJson? depth) items productions :=
  map_ofList_mapM_eq_some_iff

theorem setOfJson?_rearranged (depth : Nat) (rearranged : Json.Rearranged Rearranged left right) :
    setOfJson? depth left = setOfJson? depth right := by
  obtain ⟨forth, back⟩ := rearranged
  cases depth with
  | zero => rfl
  | succ depth =>
    refine map_ofList_mapM_congr (fun item mem => ?_) fun other mem => ?_
    · obtain ⟨other, other_mem, rearranged⟩ := forth item mem
      exact ⟨other, other_mem, ofJson?_rearranged rearranged⟩
    · obtain ⟨item, item_mem, rearranged⟩ := back other mem
      exact ⟨item, item_mem, ofJson?_rearranged rearranged⟩

theorem attributes_normalize (draft : Draft) : draft.normalize.attributes = draft.attributes := by
  rw [Draft.normalize, liftLabel.eq_def]
  split <;> rfl

/-- A production has just the attributes which are read, or none if the key is missing. -/
theorem attributes_of_ofJson? {members : List (Literal × Json)} {production : Production}
    (read_eq : ofJson? (depth + 2) (.object members) = some production) :
    Json.member? members "attributes" = none ∧ production.attributes = ∅ ∨
      ∃ items, Json.member? members "attributes" = some (.array items) ∧
        Lists (Attribute.ofJson? depth) items production.attributes := by
  obtain ⟨draft, draft_eq, rfl⟩ := Option.map_eq_some_iff.mp read_eq
  rw [Draft.ofJson?] at draft_eq
  split at draft_eq
  · obtain ⟨layout, -, found⟩ := List.exists_of_findSome?_eq_some draft_eq
    rw [attributes_normalize]
    exact Draft.lists_of_attributesOfMember? (Draft.attributes_of_ofMembers? found)
  · cases draft_eq

end Production

/-- Whether two choices on the wire differ in the order of the alternatives and of the attributes of
each of them, and in how often they are written. -/
inductive Choice.Rearranged : Json → Json → Prop where
  | object {left right : Json}
    (same : Json.SameBut "alternatives" (Json.Rearranged Production.Rearranged) left right) :
    Rearranged left right
  | array (subject : Json) {left right : Json}
    (rearranged : Json.Rearranged Production.Rearranged left right) :
    Rearranged (.array [subject, left]) (.array [subject, right])

namespace Choice

variable {depth : Nat}

theorem ofJson?_of_fields {json subject alternatives : Json}
    (fields_eq : json.fields? ["def", "alternatives"] = some [some subject, some alternatives]) :
    ofJson? (depth + 1) json = (Symbol.ofJson? depth subject).bind fun subject =>
      (Production.setOfJson? depth alternatives).map (Choice.mk subject) := by
  rw [ofJson?, fields_eq]
  show (Symbol.ofJson? depth subject).bind _ = _
  congr 1
  funext subject
  cases Production.setOfJson? depth alternatives <;> rfl

theorem exists_fields_of_ofJson? {json : Json} {choice : Choice}
    (read_eq : ofJson? (depth + 1) json = some choice) : ∃ subject alternatives,
      json.fields? ["def", "alternatives"] = some [some subject, some alternatives] := by
  rw [ofJson?] at read_eq
  obtain ⟨fields, fields_eq, read_eq⟩ := Option.bind_eq_some_iff.mp read_eq
  split at read_eq
  · exact ⟨_, _, fields_eq⟩
  · cases read_eq

/-- A choice is read if its subject and all its alternatives are, of which it has just those. -/
theorem ofJson?_eq_some_iff {json : Json} {choice : Choice} :
    ofJson? (depth + 2) json = some choice ↔ ∃ subject items,
      json.fields? ["def", "alternatives"] = some [some subject, some (.array items)] ∧
        Symbol.ofJson? (depth + 1) subject = some choice.subject ∧
          Lists (Production.ofJson? depth) items choice.alternatives := by
  constructor
  · intro read_eq
    obtain ⟨subject, alternatives, fields_eq⟩ := exists_fields_of_ofJson? read_eq
    rw [ofJson?_of_fields fields_eq] at read_eq
    obtain ⟨found, subject_eq, read_eq⟩ := Option.bind_eq_some_iff.mp read_eq
    obtain ⟨productions, productions_eq, rfl⟩ := Option.map_eq_some_iff.mp read_eq
    cases alternatives with
    | array items => exact ⟨subject, items, fields_eq, subject_eq,
        Production.setOfJson?_eq_some_iff.mp productions_eq⟩
    | _ => cases productions_eq
  · rintro ⟨subject, items, fields_eq, subject_eq, lists⟩
    rw [ofJson?_of_fields fields_eq, subject_eq, Production.setOfJson?_eq_some_iff.mpr lists]
    rfl

theorem ofJson?_object (members : List (Literal × Json)) : ofJson? (depth + 1) (.object members) =
    if Json.haveDistinct members ["def", "alternatives"] then do
      let subject ← (Json.member? members "def").bind (Symbol.ofJson? depth)
      let alternatives ←
        (Json.member? members "alternatives").bind (Production.setOfJson? depth)
      return { subject, alternatives }
    else none := by
  rw [ofJson?, Json.fields?]
  split
  · rw [List.map_cons, List.map_cons, List.map_nil]
    cases Json.member? members "def" with
    | none => rfl
    | some subject =>
      cases Json.member? members "alternatives" with
      | none => simp
      | some alternatives => rfl
  · rfl

theorem ofJson?_rearranged {left right : Json} (rearranged : Rearranged left right) :
    ofJson? depth left = ofJson? depth right := by
  cases depth with
  | zero => rfl
  | succ depth =>
    rcases rearranged with ⟨⟨same⟩⟩ | ⟨subject, rearranged⟩
    · have subject_eq := Json.apply_member?_eq same id "def"
        fun equal => absurd equal (by decide)
      have alternatives_eq := Json.apply_member?_eq same
        (fun json? => json?.bind (Production.setOfJson? depth)) "alternatives"
        fun _ _ _ => Production.setOfJson?_rearranged depth
      simp only [id] at subject_eq
      simp only [ofJson?_object, Json.haveDistinct_eq same, subject_eq, alternatives_eq]
    · rw [ofJson?_of_fields rfl, Production.setOfJson?_rearranged depth rearranged]
      exact (ofJson?_of_fields rfl).symm

/-- How symbols, attributes and productions are ordered and sets of them are read. -/
structure ReadsSets : Prop where
  symbols_ordered : IsStrictTotal (compare : Symbol → Symbol → Ordering)
  attributes_ordered : IsStrictTotal (compare : Attribute → Attribute → Ordering)
  productions_ordered : IsStrictTotal (compare : Production → Production → Ordering)
  /-- Kinds are compared first, and then the parts of symbols of one kind. -/
  symbols_compare : ∀ left right : Symbol, compare left right =
    (compare left.kind right.kind).then
      (List.compareLex Symbol.Part.compareContents left.parts right.parts)
  attributes_compare : ∀ left right : Attribute, compare left right =
    (compare left.kind right.kind).then (left.compareContents right)
  productions_compare : ∀ left right : Production, compare left right =
    (compare left.subject right.subject).then
      ((compareOptions Text.compareCodes left.name right.name).then
        ((List.compareLex compare left.symbols right.symbols).then
          (List.compareLex compare left.attributes.toList right.attributes.toList)))
  /-- The order of the entries does not matter, nor how often they are written. -/
  rearranged : ∀ ⦃left right⦄, Rearranged left right → ∀ depth,
    ofJson? depth left = ofJson? depth right
  /-- A choice has the distinct entries in increasing order. -/
  alternatives : ∀ depth json choice, ofJson? (depth + 2) json = some choice ↔ ∃ subject items,
    json.fields? ["def", "alternatives"] = some [some subject, some (.array items)] ∧
      Symbol.ofJson? (depth + 1) subject = some choice.subject ∧
        Lists (Production.ofJson? depth) items choice.alternatives
  attributes : ∀ ⦃depth members production⦄,
    Production.ofJson? (depth + 2) (.object members) = some production →
      Json.member? members "attributes" = none ∧ production.attributes = ∅ ∨
        ∃ items, Json.member? members "attributes" = some (.array items) ∧
          Lists (Attribute.ofJson? depth) items production.attributes

/-- Symbols, attributes and productions are strictly and totally ordered, by their kinds and part by
part, so that a choice is read as the same value from every arrangement of its entries. -/
theorem readsSets : ReadsSets where
  symbols_ordered := isStrictTotal_compare
  attributes_ordered := isStrictTotal_compare
  productions_ordered := isStrictTotal_compare
  symbols_compare := Symbol.compare_eq
  attributes_compare := Attribute.compare_eq
  productions_compare := Production.compare_eq
  rearranged _ _ rearranged _ := ofJson?_rearranged rearranged
  alternatives _ _ _ := ofJson?_eq_some_iff
  attributes _ _ _ := Production.attributes_of_ofJson?

end Choice

/-! A choice which is written in two ways. -/

namespace Operators

def subject : Json := (Symbol.dataRef "Exp" []).toJson

def sum (attributes : List Json) : Json :=
  .record [("def", subject), ("name", .text "sum"), ("attributes", .array attributes)]

def zero : Json := .record [("def", subject), ("name", .text "zero")]

def leftAssociative : Json := .variant "assoc" (.text "left")

def written : Json :=
  .record [("def", subject),
    ("alternatives", .array [sum [leftAssociative, .text "bracket"], zero])]

/-- The alternatives in another order, one of them twice with its attributes in other ways. -/
def rewritten : Json :=
  .record [("def", subject),
    ("alternatives", .array [zero, sum [.text "bracket", leftAssociative],
      sum [leftAssociative, .text "bracket", leftAssociative]])]

theorem sum_rearranged {left right : List Json} (forth : ∀ item ∈ left, item ∈ right)
    (back : ∀ other ∈ right, other ∈ left) : Production.Rearranged (sum left) (sum right) :=
  .inr (.object (.cons ⟨rfl, .inl rfl⟩ (.cons ⟨rfl, .inl rfl⟩ (.cons ⟨rfl, .inr ⟨rfl, .array
    (fun item mem => ⟨item, forth item mem, rfl⟩) fun other mem => ⟨other, back other mem, rfl⟩⟩⟩
    .nil))))

theorem written_rearranged : Choice.Rearranged written rewritten := by
  refine .object (.object (.cons ⟨rfl, .inl rfl⟩ (.cons ⟨rfl, .inr ⟨rfl, .array ?_ ?_⟩⟩ .nil)))
  · intro item mem
    rcases List.mem_pair.mp mem with rfl | rfl
    · exact ⟨_, .tail _ (.head _), sum_rearranged (by simp) (by simp)⟩
    · exact ⟨_, .head _, .inl rfl⟩
  · simp only [List.forall_mem_cons, List.not_mem_nil, false_implies, implies_true, and_true]
    exact ⟨⟨_, .tail _ (.head _), .inl rfl⟩, ⟨_, .head _, sum_rearranged (by simp) (by simp)⟩,
      ⟨_, .head _, sum_rearranged (by simp) (by simp)⟩⟩

theorem written_read : Choice.Rearranged written rewritten ∧
    Choice.ofJson? Json.maxDepth written = Choice.ofJson? Json.maxDepth rewritten ∧
    (Choice.ofJson? Json.maxDepth written).map (·.alternatives.toList.length) = some 2 :=
  ⟨written_rearranged, Choice.readsSets.rearranged written_rearranged Json.maxDepth, by decide⟩

end Operators

end Reification
