import Mathlib.Data.List.Nodup
import Reification.Proofs.Wire

/-!
# Layouts of productions

An object is read as a production in the first layout whose own keys are there as required and hold
what belongs under them.  Keys which belong to later layouts or to none do not matter, whatever they
hold, as long as it can be read at all.  Since the layouts differ only in where the subject and the
symbols are found, and normalization forgets the layout, it does not matter in which of them a
production is laid out.
-/

namespace Reification

namespace Json

section Members

variable {members others : List (Literal × Json)} {key : String} {json : Json}

/-- If no key is repeated, a value is found just where it is. -/
theorem member?_eq_some_iff (distinct : (members.map Prod.fst).Nodup) :
    member? members key = some json ↔ (some key, json) ∈ members := by
  induction members with
  | nil => simp [member?]
  | cons member members ih =>
    obtain ⟨first, value⟩ := member
    obtain ⟨fresh, distinct⟩ := List.nodup_cons.mp distinct
    have rest := ih distinct
    rw [member?] at rest ⊢
    by_cases same : first = some key
    · subst same
      have absent : (some key, json) ∉ members := fun mem =>
        fresh (List.mem_map.mpr ⟨_, mem, rfl⟩)
      simp [absent, eq_comm]
    · have other : (some key == first) = false := beq_eq_false_iff_ne.mpr (Ne.symm same)
      simp only [List.lookup_cons, other, rest, List.mem_cons, Prod.mk.injEq]
      exact ⟨.inr, fun mem => mem.resolve_left fun eq => same eq.1.symm⟩

theorem member?_eq_none_iff (distinct : (members.map Prod.fst).Nodup) :
    member? members key = none ↔ ∀ json, (some key, json) ∉ members := by
  simp only [Option.eq_none_iff_forall_not_mem, Option.mem_def, member?_eq_some_iff distinct]

/-- In a readable object without repeated keys every key stands once. -/
theorem haveDistinct_of_nodup {depth : Nat} (readable : membersAreReadable depth members = true)
    (distinct : (members.map Prod.fst).Nodup) (names : List String) :
    haveDistinct members names = true := by
  have all_some := membersAreReadable_iff.mp readable
  have once (name : String) : members.countP (·.1 == some name) ≤ 1 := by
    have count_le := List.nodup_iff_count_le_one.mp distinct (some name)
    rwa [List.count, List.countP_map] at count_le
  rw [haveDistinct, Bool.and_eq_true, List.all_eq_true, List.all_eq_true]
  exact ⟨fun member mem => (all_some member mem).1, fun name _ => decide_eq_true (once name)⟩

/-- Whether a key holds what is read as some content, or is missing and has a default. -/
def Gives {α : Type} (members : List (Literal × Json)) (key : String) (read? : Json → Option α)
    (default? : Option α) (content : α) : Prop :=
  (∃ json, (some key, json) ∈ members ∧ read? json = some content) ∨
    (∀ json, (some key, json) ∉ members) ∧ default? = some content

theorem gives_iff {α : Type} (distinct : (members.map Prod.fst).Nodup) {read? : Json → Option α}
    {default? : Option α} {content : α} : Gives members key read? default? content ↔
      (member? members key).elim default? read? = some content := by
  rcases member_eq : member? members key with _ | json
  · have absent := (member?_eq_none_iff distinct).mp member_eq
    simp [Gives, absent]
  · have only (other : Json) : (some key, other) ∈ members ↔ other = json := by
      rw [← member?_eq_some_iff distinct, member_eq, Option.some.injEq, eq_comm]
    simp [Gives, only]

/-- Whether two objects hold the same under some keys. -/
def AgreeOn (keys : List String) (members others : List (Literal × Json)) : Prop :=
  ∀ key ∈ keys, ∀ json, (some key, json) ∈ members ↔ (some key, json) ∈ others

theorem AgreeOn.symm {keys : List String} (agree : AgreeOn keys members others) :
    AgreeOn keys others members := fun key mem json => (agree key mem json).symm

theorem AgreeOn.mono {keys fewer : List String} (agree : AgreeOn keys members others)
    (fewer_le : fewer ⊆ keys) : AgreeOn fewer members others := fun key mem =>
  agree key (fewer_le mem)

theorem Gives.of_agreeOn {α : Type} {read? : Json → Option α} {default? : Option α} {content : α}
    (gives : Gives members key read? default? content) {keys : List String}
    (agree : AgreeOn keys members others) (mem : key ∈ keys) :
    Gives others key read? default? content := by
  simpa only [Gives, agree key mem] using gives

end Members

end Json

namespace Layout

/-- The layouts which are tried before a layout. -/
def earlier (layout : Layout) : List Layout := all.takeWhile (· ≠ layout)

theorem exists_all_eq (layout : Layout) : ∃ later, all = layout.earlier ++ layout :: later := by
  cases layout with
  | definition => exact ⟨[data, sort], rfl⟩
  | data => exact ⟨[sort], rfl⟩
  | sort => exact ⟨[], rfl⟩

theorem earlier_eq {layout : Layout} {front back : List Layout}
    (all_eq : all = front ++ layout :: back) (fresh : layout ∉ front) :
    layout.earlier = front := by
  have others : ∀ other ∈ front, decide (other ≠ layout) = true := fun other mem =>
    decide_eq_true fun same => fresh (same ▸ mem)
  rw [earlier, all_eq, List.takeWhile_append_of_pos others,
    List.takeWhile_cons_of_neg (by simp), List.append_nil]

/-- The keys of a layout and of those which are tried before it. -/
def keysTried (layout : Layout) : List String := (layout.earlier ++ [layout]).flatMap keys

theorem keysTried_subset (layout : Layout) : layout.keysTried ⊆ all.flatMap keys := by
  obtain ⟨later, all_eq⟩ := layout.exists_all_eq
  rw [all_eq, List.append_cons, List.flatMap_append]
  exact List.subset_append_left _ _

theorem keys_subset_keysTried {layout other : Layout}
    (tried : other ∈ layout.earlier ++ [layout]) : other.keys ⊆ layout.keysTried := fun _ mem =>
  List.mem_flatMap.mpr ⟨other, tried, mem⟩

end Layout

namespace Draft

theorem nameOfMember?_eq (json? : Option Json) :
    nameOfMember? json? = json?.elim (some none) (nameOfMember? ∘ some) := by
  cases json? <;> rfl

theorem symbolsOfMember?_eq (layout : Layout) (depth : Nat) (json? : Option Json) :
    symbolsOfMember? layout depth json? =
      json?.elim (if layout.hasOptionalSymbols then some [] else none)
        (Symbol.listOfJson? depth) := by
  cases json? <;> rfl

theorem attributesOfMember?_eq (depth : Nat) (json? : Option Json) :
    attributesOfMember? depth json? = json?.elim (some ∅) (Attribute.setOfJson? depth) := by
  cases json? <;> rfl

/-- Whether the keys of the layout of a draft are there as required and hold the parts of the
draft. -/
structure Fits (draft : Draft) (depth : Nat) (members : List (Literal × Json)) : Prop where
  subject : Json.Gives members draft.layout.subjectKey (Symbol.ofJson? depth) none draft.subject
  /-- The name may be null. -/
  name : Json.Gives members "name" (nameOfMember? ∘ some) (some none) draft.name
  symbols : Json.Gives members draft.layout.symbolsKey (Symbol.listOfJson? depth)
    (if draft.layout.hasOptionalSymbols then some [] else none) draft.symbols
  attributes : Json.Gives members "attributes" (Attribute.setOfJson? depth) (some ∅)
    draft.attributes

/-- Whether a draft has the first layout which fits. -/
structure IsFirst (draft : Draft) (depth : Nat) (members : List (Literal × Json)) : Prop where
  fits : draft.Fits depth members
  first : ∀ other : Draft, other.Fits depth members → other.layout ∉ draft.layout.earlier

section Members

variable {draft : Draft} {depth : Nat} {members others : List (Literal × Json)} {layout : Layout}

theorem ofMembers?_eq_some_iff (distinct : (members.map Prod.fst).Nodup)
    (readable : Json.membersAreReadable depth members = true) :
    ofMembers? depth members layout = some draft ↔
      draft.layout = layout ∧ draft.Fits depth members := by
  have have_distinct := Json.haveDistinct_of_nodup readable distinct layout.keys
  constructor
  · intro found
    simp only [ofMembers?, have_distinct, if_true, Option.bind_eq_bind,
      Option.bind_eq_some_iff] at found
    obtain ⟨json, json_eq, subject, subject_eq, name, name_eq, symbols, symbols_eq, attributes,
      attributes_eq, draft_eq⟩ := found
    obtain rfl := Option.some.inj draft_eq
    refine ⟨rfl, (Json.gives_iff distinct).mpr ?_, (Json.gives_iff distinct).mpr ?_,
      (Json.gives_iff distinct).mpr ?_, (Json.gives_iff distinct).mpr ?_⟩
    · rw [json_eq]
      exact subject_eq
    · rw [← nameOfMember?_eq, name_eq]
    · rw [← symbolsOfMember?_eq, symbols_eq]
    · rw [← attributesOfMember?_eq, attributes_eq]
  · rintro ⟨rfl, subject, name, symbols, attributes⟩
    rw [Json.gives_iff distinct] at subject name symbols attributes
    rw [← nameOfMember?_eq] at name
    rw [← symbolsOfMember?_eq] at symbols
    rw [← attributesOfMember?_eq] at attributes
    rcases json_eq : Json.member? members draft.layout.subjectKey with _ | json
    · rw [json_eq] at subject
      cases subject
    · rw [json_eq] at subject
      exact ofMembers?_eq_some have_distinct json_eq subject name symbols attributes

/-- A layout is passed over if no draft of it fits. -/
theorem ofMembers?_eq_none_iff (distinct : (members.map Prod.fst).Nodup)
    (readable : Json.membersAreReadable depth members = true) :
    ofMembers? depth members layout = none ↔
      ∀ draft : Draft, draft.Fits depth members → draft.layout ≠ layout := by
  simp only [Option.eq_none_iff_forall_ne_some, ne_eq, ofMembers?_eq_some_iff distinct readable,
    not_and]
  exact forall_congr' fun draft => forall_comm

/-- A draft is found just if it has the first layout which fits. -/
theorem findSome?_eq_some_iff (distinct : (members.map Prod.fst).Nodup)
    (readable : Json.membersAreReadable depth members = true) :
    Layout.all.findSome? (ofMembers? depth members) = some draft ↔
      draft.IsFirst depth members := by
  constructor
  · intro found
    obtain ⟨front, layout, back, all_eq, found, passed⟩ := List.findSome?_eq_some_iff.mp found
    obtain ⟨rfl, fits⟩ := (ofMembers?_eq_some_iff distinct readable).mp found
    have fresh : draft.layout ∉ front := fun mem => by
      rw [passed _ mem] at found
      cases found
    refine ⟨fits, fun other other_fits mem => ?_⟩
    rw [Layout.earlier_eq all_eq fresh] at mem
    exact (ofMembers?_eq_none_iff distinct readable).mp (passed _ mem) other other_fits rfl
  · intro first
    obtain ⟨back, all_eq⟩ := draft.layout.exists_all_eq
    refine List.findSome?_eq_some_iff.mpr ⟨_, _, back, all_eq,
      (ofMembers?_eq_some_iff distinct readable).mpr ⟨rfl, first.fits⟩, fun layout mem => ?_⟩
    refine (ofMembers?_eq_none_iff distinct readable).mpr fun other fits eq => ?_
    exact first.first other fits (eq ▸ mem)

/-- No draft is found just if none fits. -/
theorem findSome?_eq_none_iff (distinct : (members.map Prod.fst).Nodup)
    (readable : Json.membersAreReadable depth members = true) :
    Layout.all.findSome? (ofMembers? depth members) = none ↔
      ∀ draft : Draft, ¬draft.Fits depth members := by
  simp only [List.findSome?_eq_none_iff, ofMembers?_eq_none_iff distinct readable]
  constructor
  · intro passed draft fits
    have mem : draft.layout ∈ Layout.all := by
      obtain ⟨_, all_eq⟩ := draft.layout.exists_all_eq
      exact all_eq ▸ List.mem_append_right _ (List.mem_cons_self ..)
    exact passed draft.layout mem draft fits rfl
  · exact fun none_fits _ _ draft fits => absurd fits (none_fits draft)

/-- Whether a draft fits depends on the keys of its layout only. -/
theorem Fits.of_agreeOn (fits : draft.Fits depth members)
    (agree : Json.AgreeOn draft.layout.keys members others) : draft.Fits depth others where
  subject := fits.subject.of_agreeOn agree (by simp [Layout.keys])
  name := fits.name.of_agreeOn agree (by simp [Layout.keys])
  symbols := fits.symbols.of_agreeOn agree (by simp [Layout.keys])
  attributes := fits.attributes.of_agreeOn agree (by simp [Layout.keys])

/-- Whether a layout is the first one which fits does not depend on the keys of later ones. -/
theorem IsFirst.of_agreeOn (first : draft.IsFirst depth members)
    (agree : Json.AgreeOn draft.layout.keysTried members others) :
    draft.IsFirst depth others where
  fits := first.fits.of_agreeOn
    (agree.mono (Layout.keys_subset_keysTried (List.mem_append_right _ (List.mem_singleton_self _))))
  first other fits earlier := by
    have agree_other := agree.mono
      (Layout.keys_subset_keysTried (List.mem_append_left [draft.layout] earlier))
    exact first.first other (fits.of_agreeOn agree_other.symm) earlier

end Members

end Draft

namespace Production

section Members

variable {draft : Draft} {production : Production} {depth : Nat}
  {members others : List (Literal × Json)}

theorem ofJson?_object (readable : (Json.object members).isReadable (depth + 1) = true) :
    ofJson? (depth + 1) (.object members) =
      (Layout.all.findSome? (Draft.ofMembers? depth members)).map Draft.normalize := by
  rw [ofJson?, Draft.ofJson?.eq_def, if_pos readable]

/-- An object is read as the normalized draft of the first layout which fits. -/
theorem ofJson?_object_eq_some_iff (distinct : (members.map Prod.fst).Nodup)
    (readable : (Json.object members).isReadable (depth + 1) = true) :
    ofJson? (depth + 1) (.object members) = some production ↔
      ∃ draft : Draft, draft.IsFirst depth members ∧ draft.normalize = production := by
  simp only [ofJson?_object readable, Option.map_eq_some_iff,
    Draft.findSome?_eq_some_iff distinct readable]

/-- An object is not read if no layout fits. -/
theorem ofJson?_object_eq_none_iff (distinct : (members.map Prod.fst).Nodup)
    (readable : (Json.object members).isReadable (depth + 1) = true) :
    ofJson? (depth + 1) (.object members) = none ↔
      ∀ draft : Draft, ¬draft.Fits depth members := by
  simp only [ofJson?_object readable, Option.map_eq_none_iff,
    Draft.findSome?_eq_none_iff distinct readable]

theorem ofJson?_of_unreadable {json : Json} (unreadable : json.isReadable depth = false) :
    ofJson? depth json = none := by
  rw [ofJson?, Draft.ofJson?.eq_def, if_neg (by simp [unreadable]), Option.map_none]

end Members

end Production

namespace Layout

/-- The members of an object in a layout with some parts, of which name and attributes may be
missing. -/
def spell (layout : Layout) (subject : Json) (name : Option Json) (symbols : Json)
    (attributes : Option Json) : List (Literal × Json) :=
  (some layout.subjectKey, subject) :: (name.toList.map fun name => (some "name", name)) ++
    (some layout.symbolsKey, symbols) ::
      attributes.toList.map fun attributes => (some "attributes", attributes)

variable (layout other : Layout) (subject : Json) (name : Option Json) (symbols : Json)
  (attributes : Option Json) (depth : Nat)

theorem isReadable_spell :
    (Json.object (layout.spell subject name symbols attributes)).isReadable depth =
      (Json.object (other.spell subject name symbols attributes)).isReadable depth := by
  cases depth with
  | zero => rfl
  | succ depth => cases name <;> cases attributes <;> rfl

theorem ofMembers?_spell :
    Draft.ofMembers? depth (layout.spell subject name symbols attributes) layout = do
      let subject ← Symbol.ofJson? depth subject
      let name ← Draft.nameOfMember? name
      let symbols ← Symbol.listOfJson? depth symbols
      let attributes ← Draft.attributesOfMember? depth attributes
      return { layout, subject, name, symbols, attributes } := by
  cases layout <;> cases name <;> cases attributes <;> rfl

/-- The other layouts lack the key of their subject. -/
theorem ofMembers?_spell_of_ne (distinct : other ≠ layout) :
    Draft.ofMembers? depth (layout.spell subject name symbols attributes) other = none := by
  refine Draft.ofMembers?_eq_none ?_
  cases layout <;> cases other <;> first
    | exact absurd rfl distinct
    | cases name <;> cases attributes <;> rfl

theorem findSome?_spell :
    all.findSome? (Draft.ofMembers? depth (layout.spell subject name symbols attributes)) =
      Draft.ofMembers? depth (layout.spell subject name symbols attributes) layout := by
  have passed (other : Layout) (distinct : other ≠ layout) :=
    ofMembers?_spell_of_ne layout other subject name symbols attributes depth distinct
  rw [all, List.findSome?_cons, List.findSome?_cons, List.findSome?_cons, List.findSome?_nil]
  cases layout with
  | definition =>
    rw [passed data (by decide), passed sort (by decide)]
    cases Draft.ofMembers? depth (definition.spell subject name symbols attributes) definition <;> rfl
  | data =>
    rw [passed definition (by decide), passed sort (by decide)]
    cases Draft.ofMembers? depth (data.spell subject name symbols attributes) data <;> rfl
  | sort =>
    rw [passed definition (by decide), passed data (by decide)]
    cases Draft.ofMembers? depth (sort.spell subject name symbols attributes) sort <;> rfl

/-- The same parts are read as the same production in every layout. -/
theorem ofJson?_spell :
    Production.ofJson? depth (.object (layout.spell subject name symbols attributes)) =
      Production.ofJson? depth (.object (other.spell subject name symbols attributes)) := by
  have readable_eq := isReadable_spell layout other subject name symbols attributes depth
  rcases readable : (Json.object (other.spell subject name symbols attributes)).isReadable depth
  · rw [Production.ofJson?_of_unreadable readable,
      Production.ofJson?_of_unreadable (readable_eq.trans readable)]
  · cases depth with
    | zero => cases readable
    | succ depth =>
      rw [Production.ofJson?_object readable, Production.ofJson?_object (readable_eq.trans readable)]
      simp [findSome?_spell, ofMembers?_spell, Option.map_bind, Function.comp_def, Draft.normalize]

end Layout

namespace Production

theorem isNormal_liftLabel (production : Production) : production.liftLabel.IsNormal := by
  intro name_eq
  unfold liftLabel at name_eq ⊢
  split at name_eq
  · cases name_eq
  · next no_label =>
    rcases label_eq : production.subject.label? with _ | label
    · rfl
    · obtain ⟨inner, subject_eq⟩ : ∃ inner, production.subject = .label label inner := by
        cases subject_eq : production.subject <;> rw [subject_eq] at label_eq <;>
          first | exact ⟨_, congrArg (Symbol.label · _) (Option.some.inj label_eq)⟩ | cases label_eq
      exact absurd subject_eq (no_label label inner name_eq)

/-- Whatever is read as a production is read again from its canonical layout. -/
theorem ofJson?_toJson_of_ofJson? {depth : Nat} {json : Json} {production : Production}
    (read_eq : ofJson? depth json = some production) {deeper : Nat}
    (shallow : production.toJson.nesting ≤ deeper) :
    ofJson? deeper production.toJson = some production := by
  obtain ⟨draft, -, rfl⟩ := Option.map_eq_some_iff.mp read_eq
  exact ofJson?_toJson (isNormal_liftLabel _) shallow

/-- How productions are read from objects in different layouts. -/
structure ReadsLayouts : Prop where
  /-- The first layout counts which fits. -/
  read_iff : ∀ ⦃depth members⦄, (members.map Prod.fst).Nodup →
    (Json.object members).isReadable (depth + 1) = true → ∀ production,
      ofJson? (depth + 1) (.object members) = some production ↔
        ∃ draft : Draft, draft.IsFirst depth members ∧ draft.normalize = production
  refused_iff : ∀ ⦃depth members⦄, (members.map Prod.fst).Nodup →
    (Json.object members).isReadable (depth + 1) = true →
      (ofJson? (depth + 1) (.object members) = none ↔
        ∀ draft : Draft, ¬draft.Fits depth members)
  /-- Keys of later layouts and further keys do not matter. -/
  unrelated : ∀ ⦃depth members others⦄, (members.map Prod.fst).Nodup →
    (Json.object members).isReadable (depth + 1) = true → (others.map Prod.fst).Nodup →
      (Json.object others).isReadable (depth + 1) = true →
        ((∃ draft : Draft, draft.IsFirst depth members ∧
            Json.AgreeOn draft.layout.keysTried members others) ∨
          Json.AgreeOn (Layout.all.flatMap Layout.keys) members others) →
        ofJson? (depth + 1) (.object others) = ofJson? (depth + 1) (.object members)
  /-- An object is read as a whole. -/
  unreadable : ∀ ⦃depth json⦄, Json.isReadable depth json = false → ofJson? depth json = none
  /-- The same parts are read as the same production in every layout. -/
  spelled : ∀ depth (layout other : Layout) subject name symbols attributes,
    ofJson? depth (.object (layout.spell subject name symbols attributes)) =
      ofJson? depth (.object (other.spell subject name symbols attributes))
  /-- Every subject, name, fields and attributes are read in every layout. -/
  drafted : ∀ ⦃depth⦄ ⦃draft : Draft⦄, draft.toJson.nesting ≤ depth →
    ofJson? depth draft.toJson = some draft.normalize
  /-- A label of the subject stands for a missing name in every layout. -/
  labeled : ∀ layout label subject symbols attributes,
    Draft.normalize ⟨layout, .label label subject, none, symbols, attributes⟩ =
      ⟨subject, some label, symbols, attributes⟩
  /-- What has been read is read again from the canonical layout. -/
  restored : ∀ ⦃depth json production⦄, ofJson? depth json = some production → ∀ ⦃deeper⦄,
    production.toJson.nesting ≤ deeper → ofJson? deeper production.toJson = some production

/-- An object without repeated keys is read as the normalized content of the first layout which
fits, and in which layout a production is laid out makes no difference. -/
theorem readsLayouts : ReadsLayouts where
  read_iff _ _ distinct readable _ := ofJson?_object_eq_some_iff distinct readable
  refused_iff _ _ := ofJson?_object_eq_none_iff
  unrelated depth members others distinct readable others_distinct others_readable agree := by
    rcases agree with ⟨draft, first, agree⟩ | agree
    · have read_eq := (ofJson?_object_eq_some_iff distinct readable).mpr ⟨draft, first, rfl⟩
      rw [read_eq]
      exact (ofJson?_object_eq_some_iff others_distinct others_readable).mpr
        ⟨draft, first.of_agreeOn agree, rfl⟩
    · refine Option.ext fun production => ?_
      rw [ofJson?_object_eq_some_iff distinct readable,
        ofJson?_object_eq_some_iff others_distinct others_readable]
      exact exists_congr fun draft => and_congr_left' ⟨fun first => first.of_agreeOn
        (agree.symm.mono draft.layout.keysTried_subset), fun first => first.of_agreeOn
          (agree.mono draft.layout.keysTried_subset)⟩
  unreadable _ _ := ofJson?_of_unreadable
  spelled depth layout other subject name symbols attributes :=
    Layout.ofJson?_spell layout other subject name symbols attributes depth
  drafted depth draft shallow := by
    rw [ofJson?, Draft.ofJson?_toJson draft shallow, Option.map_some]
  labeled _ _ _ _ _ := rfl
  restored _ _ _ read_eq _ := ofJson?_toJson_of_ofJson? read_eq

end Production

/-! Objects whose keys belong to several layouts. -/

namespace Patchwork

def subject : Symbol := .label "leaf" (.dataRef "Tree" [])

/-- The first layout has no subject, and the third one no symbols. -/
def members : List (Literal × Json) :=
  [(some "def", .integer 3), (some "name", .null), (some "adt", subject.toJson),
    (some "sort", .text "int"), (some "x", .bool true)]

/-- The same without the keys which do not matter. -/
def fewer : List (Literal × Json) :=
  [(some "adt", subject.toJson), (some "def", .integer 3), (some "name", .null)]

theorem isFirst : Draft.IsFirst ⟨.data, subject, none, [], ∅⟩ 126 members := by
  refine ⟨⟨.inl ⟨subject.toJson, by simp [members, Layout.subjectKey], rfl⟩,
    .inl ⟨.null, by simp [members], rfl⟩, .inr ⟨by simp [members, Layout.symbolsKey], rfl⟩,
    .inr ⟨by simp [members], rfl⟩⟩, fun other fits earlier => ?_⟩
  have layout_eq : other.layout = .definition := List.mem_singleton.mp earlier
  rcases fits.subject with ⟨json, mem, subject_eq⟩ | ⟨-, impossible⟩
  · rw [layout_eq] at mem
    obtain rfl : json = .integer 3 := by simpa [members, Layout.subjectKey] using mem
    cases subject_eq
  · cases impossible

theorem agree : Json.AgreeOn (Layout.keysTried .data) members fewer := by
  have keys_eq : Layout.keysTried .data =
      ["def", "name", "symbols", "attributes", "adt", "name", "symbols", "attributes"] := rfl
  rw [keys_eq]
  simp [Json.AgreeOn, members, fewer]

theorem members_read : (members.map Prod.fst).Nodup ∧ (fewer.map Prod.fst).Nodup ∧
    Production.ofJson? 127 (.object members) =
      some { subject := .dataRef "Tree" [], name := some "leaf" } ∧
    Production.ofJson? 127 (.object fewer) = Production.ofJson? 127 (.object members) := by
  have distinct : (members.map Prod.fst).Nodup := by decide
  have fewer_distinct : (fewer.map Prod.fst).Nodup := by decide
  exact ⟨distinct, fewer_distinct,
    (Production.readsLayouts.read_iff distinct rfl _).mpr ⟨_, isFirst, rfl⟩,
    Production.readsLayouts.unrelated distinct rfl fewer_distinct rfl (.inl ⟨_, isFirst, agree⟩)⟩

/-- A number under a further key which is too large to be read. -/
def oversized : List (Literal × Json) :=
  [(some "def", .text "int"), (some "x", .decimal ⟨false, 1, 400⟩)]

example : (Json.object oversized).compact = "\x7b\"def\":\"int\",\"x\":1e400\x7d" := rfl

/-- The first layout fits, but the object cannot be read as a whole. -/
theorem oversized_not_read : (oversized.map Prod.fst).Nodup ∧
    Draft.IsFirst ⟨.definition, .prim .int, none, [], ∅⟩ 126 oversized ∧
    (Json.parse? (Json.object oversized).compact).bind (Production.ofJson? Json.maxDepth) =
      none := by
  refine ⟨by decide, ⟨⟨.inl ⟨.text "int", .head _, rfl⟩, .inr ⟨by simp [oversized], rfl⟩,
    .inr ⟨by simp [oversized, Layout.symbolsKey], rfl⟩, .inr ⟨by simp [oversized], rfl⟩⟩,
    fun _ _ mem => absurd mem List.not_mem_nil⟩, ?_⟩
  rw [Json.parse?_compact, Option.bind_some]
  exact Production.ofJson?_of_unreadable rfl

end Patchwork

end Reification
