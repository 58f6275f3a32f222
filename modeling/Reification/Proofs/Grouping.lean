import Reification.Definitions

/-!
# Grouping pairs

Pairs of a subject and a production are grouped by the name of the subject.  Nothing is lost: the
names are those of the subjects, each with the productions which are paired with it, and lists of
pairs in a row are grouped as each of them is.  The names and the alternatives of each name do not
depend on the order of the pairs.  The subject of a choice does: it is that of the first pair with
the name, while the other subjects of the name may differ from it in labels, in parameters or in
their kind.
-/

namespace Reification

namespace Symbol

/-- Whether a symbol belongs to a name: labels do not matter, and a constructor belongs to the name
of its owner. -/
inductive HasSubject : Symbol → String → Prop where
  | dataRef (name : String) (parameters : List Symbol) : HasSubject (.dataRef name parameters) name
  | aliasRef (name : String) (parameters : List Symbol) :
    HasSubject (.aliasRef name parameters) name
  | sort (name : String) : HasSubject (.sort name) name
  | label {inner : Symbol} {name : String} (text : String) :
    HasSubject inner name → HasSubject (.label text inner) name
  | constructor {owner : Symbol} {name : String} (text : String) (fields : List Symbol) :
    HasSubject owner name → HasSubject (.constructor owner text fields) name

theorem subject?_eq_some_iff {symbol : Symbol} {name : String} :
    symbol.subject? = some name ↔ symbol.HasSubject name := by
  constructor
  · intro subject_eq
    fun_induction subject? symbol with
    | case1 text inner ih => exact .label text (ih subject_eq)
    | case2 other parameters => exact Option.some.inj subject_eq ▸ .dataRef other parameters
    | case3 other parameters => exact Option.some.inj subject_eq ▸ .aliasRef other parameters
    | case4 other => exact Option.some.inj subject_eq ▸ .sort other
    | case5 owner text fields ih => exact .constructor text fields (ih subject_eq)
    | case6 => cases subject_eq
  · intro has_subject
    induction has_subject with
    | dataRef | aliasRef | sort => rfl
    | label text _ ih => exact ih
    | constructor text fields _ ih => exact ih

end Symbol

/-- The alternatives of two choices together, about the subject of the first one. -/
def Choice.union (left right : Choice) : Choice :=
  { left with alternatives := left.alternatives ∪ right.alternatives }

namespace Definitions

variable {pairs left right : List (Symbol × Production)} {name : String}

/-- The pairs whose subject has a name. -/
def pairsOf (name : String) (pairs : List (Symbol × Production)) : List (Symbol × Production) :=
  pairs.filter fun pair => pair.1.subject? = some name

/-- The subject of the first pair with a name. -/
def firstSubject? (name : String) (pairs : List (Symbol × Production)) : Option Symbol :=
  (pairsOf name pairs).head?.map (·.1)

/-- The productions which are paired with a subject of a name. -/
def productionsOf (name : String) (pairs : List (Symbol × Production)) : OrderedSet Production :=
  .ofList ((pairsOf name pairs).map (·.2))

/-- Adds a pair to some definitions, unless its subject has no name. -/
def addPair (definitions : Definitions) (pair : Symbol × Production) : Definitions :=
  match pair.1.subject? with
  | some name => definitions.addAlternatives name pair.1 [pair.2]
  | none => definitions

theorem get?_addPair (definitions : Definitions) (pair : Symbol × Production) (name : String) :
    (definitions.addPair pair).get? name =
      if pair.1.subject? = some name then
        let choice := definitions.entry name pair.1
        some { choice with alternatives := choice.alternatives.insert pair.2 }
      else definitions.get? name := by
  rcases subject_eq : pair.1.subject? with _ | subject
  · simp [addPair, subject_eq]
  · by_cases same : subject = name
    · subst same
      simp [addPair, subject_eq, addAlternatives, OrderedSet.insertAll]
    · simp [addPair, subject_eq, addAlternatives, same, Ne.symm same]

/-- The choice of a name, created for a subject if there is none yet, gets the productions which are
paired with a subject of the name. -/
theorem get?_foldl_addPair (definitions : Definitions) (pairs : List (Symbol × Production))
    (name : String) : (pairs.foldl addPair definitions).get? name =
      ((definitions.get? name).or ((firstSubject? name pairs).map ({ subject := · }))).map
        fun choice => { choice with
          alternatives := choice.alternatives.insertAll ((pairsOf name pairs).map (·.2)) } := by
  induction pairs generalizing definitions with
  | nil => simp [firstSubject?, pairsOf, OrderedSet.insertAll]
  | cons pair pairs ih =>
    rw [List.foldl_cons, ih, get?_addPair]
    by_cases named : pair.1.subject? = some name
    · have pairs_eq : pairsOf name (pair :: pairs) = pair :: pairsOf name pairs :=
        List.filter_cons_of_pos (by simpa using named)
      simp only [if_pos named, firstSubject?, pairs_eq, entry]
      cases definitions.get? name <;> rfl
    · have pairs_eq : pairsOf name (pair :: pairs) = pairsOf name pairs :=
        List.filter_cons_of_neg (by simpa using named)
      simp only [if_neg named, firstSubject?, pairs_eq]

/-- A name has the first subject of that name and all productions which are paired with one. -/
theorem get?_ofPairs (pairs : List (Symbol × Production)) (name : String) :
    (ofPairs pairs).get? name =
      (firstSubject? name pairs).map fun subject => ⟨subject, productionsOf name pairs⟩ := by
  refine (get?_foldl_addPair ∅ pairs name).trans ?_
  rw [Table.get?_empty, Option.none_or, Option.map_map]
  rfl

theorem alternativesOf_ofPairs (pairs : List (Symbol × Production)) (name : String) :
    (ofPairs pairs).alternativesOf name = productionsOf name pairs := by
  rw [alternativesOf, get?_ofPairs]
  rcases pairs_eq : pairsOf name pairs with _ | ⟨pair, rest⟩
  · simp only [firstSubject?, productionsOf, pairs_eq]
    rfl
  · simp only [firstSubject?, pairs_eq, List.head?_cons, Option.map_some]

theorem mem_names_ofPairs : name ∈ (ofPairs pairs).names ↔ pairsOf name pairs ≠ [] := by
  simp [Table.mem_names_iff, get?_ofPairs, firstSubject?]

theorem mem_pairsOf {pair : Symbol × Production} :
    pair ∈ pairsOf name pairs ↔ pair ∈ pairs ∧ pair.1.HasSubject name := by
  simp [pairsOf, Symbol.subject?_eq_some_iff]

theorem mem_productionsOf {production : Production} : production ∈ productionsOf name pairs ↔
    ∃ subject, subject.HasSubject name ∧ (subject, production) ∈ pairs := by
  simp [productionsOf, mem_pairsOf, and_comm]

/-- How definitions group some pairs. -/
structure Groups (pairs : List (Symbol × Production)) (definitions : Definitions) : Prop where
  /-- The names are those of the subjects. -/
  mem_names_iff : ∀ name, name ∈ definitions.names ↔ ∃ pair ∈ pairs, pair.1.HasSubject name
  /-- The alternatives of a name are the productions which are paired with a subject of the name. -/
  mem_alternatives_iff : ∀ name production, production ∈ definitions.alternativesOf name ↔
    ∃ subject, subject.HasSubject name ∧ (subject, production) ∈ pairs
  /-- Every choice has alternatives, and its subject is one of those of the name. -/
  choice_mem : ∀ name choice, definitions.get? name = some choice →
    (∃ production, production ∈ choice.alternatives) ∧ choice.subject.HasSubject name ∧
      choice.subject ∈ pairs.map (·.1)

theorem groups_ofPairs (pairs : List (Symbol × Production)) : Groups pairs (ofPairs pairs) where
  mem_names_iff name := by
    have nonempty_iff : pairsOf name pairs ≠ [] ↔ ∃ pair, pair ∈ pairsOf name pairs :=
      ⟨List.exists_mem_of_ne_nil _, fun ⟨_, mem⟩ => List.ne_nil_of_mem mem⟩
    simp only [mem_names_ofPairs, nonempty_iff, mem_pairsOf]
  mem_alternatives_iff name production := by rw [alternativesOf_ofPairs, mem_productionsOf]
  choice_mem name choice get?_eq := by
    rw [get?_ofPairs, Option.map_eq_some_iff] at get?_eq
    obtain ⟨subject, first_eq, rfl⟩ := get?_eq
    obtain ⟨⟨_, production⟩, head_eq, rfl⟩ := Option.map_eq_some_iff.mp first_eq
    obtain ⟨mem, has_subject⟩ := mem_pairsOf.mp (List.mem_of_head? head_eq)
    exact ⟨⟨production, mem_productionsOf.mpr ⟨_, has_subject, mem⟩⟩, has_subject,
      List.mem_map_of_mem mem⟩

theorem firstSubject?_append : firstSubject? name (left ++ right) =
    (firstSubject? name left).or (firstSubject? name right) := by
  simp only [firstSubject?, pairsOf, List.filter_append, List.head?_append, Option.map_or]

theorem productionsOf_append : productionsOf name (left ++ right) =
    productionsOf name left ∪ productionsOf name right :=
  OrderedSet.ext fun production => by
    simp [mem_productionsOf, and_or_left, exists_or]

theorem productionsOf_eq_empty (none_first : firstSubject? name pairs = none) :
    productionsOf name pairs = ∅ := by
  rw [firstSubject?, Option.map_eq_none_iff, List.head?_eq_none_iff] at none_first
  rw [productionsOf, none_first]
  rfl

theorem get?_ofPairs_append (left right : List (Symbol × Production)) (name : String) :
    (ofPairs (left ++ right)).get? name =
      Option.merge Choice.union ((ofPairs left).get? name) ((ofPairs right).get? name) := by
  simp only [get?_ofPairs, firstSubject?_append, productionsOf_append]
  rcases left_eq : firstSubject? name left with _ | subject <;>
    rcases right_eq : firstSubject? name right with _ | other
  · rfl
  · have union_eq : productionsOf name left ∪ productionsOf name right =
        productionsOf name right := by
      rw [productionsOf_eq_empty left_eq]
      exact OrderedSet.ofList_toList _
    simp [union_eq]
  · have union_eq : productionsOf name left ∪ productionsOf name right =
        productionsOf name left := by
      rw [productionsOf_eq_empty right_eq]
      rfl
    simp [union_eq]
  · simp [Choice.union]

/-- Pairs are grouped without loss, and lists of pairs in a row as each of them is. -/
theorem ofPairs_groups (left right : List (Symbol × Production)) :
    Groups left (ofPairs left) ∧ ∀ name, (ofPairs (left ++ right)).get? name =
      Option.merge Choice.union ((ofPairs left).get? name) ((ofPairs right).get? name) :=
  ⟨groups_ofPairs left, get?_ofPairs_append left right⟩

theorem pairsOf_perm (perm : left.Perm right) (name : String) :
    (pairsOf name left).Perm (pairsOf name right) :=
  perm.filter _

theorem productionsOf_perm (perm : left.Perm right) (name : String) :
    productionsOf name left = productionsOf name right :=
  OrderedSet.ext fun production => by
    rw [productionsOf, productionsOf, OrderedSet.mem_ofList, OrderedSet.mem_ofList]
    exact ((pairsOf_perm perm name).map _).mem_iff

/-- In another order, pairs give the same names with the same alternatives.  They give the same
definitions just if the first subject of each name stays the same. -/
theorem ofPairs_perm (perm : left.Perm right) :
    (∀ name, name ∈ (ofPairs left).names ↔ name ∈ (ofPairs right).names) ∧
      (∀ name, (ofPairs left).alternativesOf name = (ofPairs right).alternativesOf name) ∧
      (ofPairs left = ofPairs right ↔
        ∀ name, firstSubject? name left = firstSubject? name right) := by
  refine ⟨fun name => ?_, fun name => ?_, fun equal name => ?_, fun subjects_eq => ?_⟩
  · rw [mem_names_ofPairs, mem_names_ofPairs, ← List.length_pos_iff, ← List.length_pos_iff,
      (pairsOf_perm perm name).length_eq]
  · rw [alternativesOf_ofPairs, alternativesOf_ofPairs, productionsOf_perm perm]
  · have choices_eq := congrArg (fun definitions : Definitions =>
      (definitions.get? name).map (·.subject)) equal
    simpa [get?_ofPairs, Option.map_map, Function.comp_def] using choices_eq
  · refine Table.ext fun name => ?_
    rw [get?_ofPairs, get?_ofPairs, subjects_eq, productionsOf_perm perm]

/-- Two constructors of a data type; the subject of the first one is labeled. -/
def labeledList : List (Symbol × Production) :=
  [(.label "elements" (.dataRef "List" []), {
      subject := .dataRef "List" []
      name := some "empty"
      symbols := [] }),
    (.dataRef "List" [], {
      subject := .dataRef "List" []
      name := some "more"
      symbols := [.prim .int, .dataRef "List" []] })]

/-- The subject of the first pair is kept with its label, so that the order matters. -/
theorem ofPairs_reverse_ne : labeledList.Perm labeledList.reverse ∧
    ofPairs labeledList ≠ ofPairs labeledList.reverse :=
  ⟨(List.reverse_perm _).symm, by decide⟩

theorem ofPairs_reverse_alternativesOf : labeledList.Perm labeledList.reverse ∧
    ∀ name, (ofPairs labeledList).alternativesOf name =
      (ofPairs labeledList.reverse).alternativesOf name :=
  ⟨(List.reverse_perm _).symm, (ofPairs_perm (List.reverse_perm _).symm).2.1⟩

end Definitions

end Reification
