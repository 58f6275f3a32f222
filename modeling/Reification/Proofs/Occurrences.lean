import Mathlib.Data.Finset.Dedup
import Reification.Proofs.Declaring

/-!
# What occurs in a reconstruction

The nodes which occur in a reconstruction are found from its result, from the declared types and from
the declared constructors, through parameters, fields and bounds and through the bodies of aliases.

A node whose name is declared without formal parameters is the declared object itself, and every
alias which occurs has its body, unless it is a copy of one with formal parameters which is reached
from its own body.
-/

namespace Reification

namespace World

/-- The nodes of which a type consists directly; for an alias, its body as well. -/
def nodesOf (world : World) : Ty → List Ty
  | .aliasRef reference => reference.parameters ++ (world.store.body? reference).toList
  | type => type.children

/-- Whether a node is found from the type which was reconstructed or from what is declared. -/
def Occurs (world : World) (result node : Ty) : Prop :=
  ∃ root, (root = result ∨ (∃ name, world.registry.lookup? name = some root) ∨
      ∃ name, ∃ constructor ∈ world.registry.own.constructorsOf name,
        root = .constructor constructor) ∧
    Relation.ReflTransGen (fun whole part => part ∈ world.nodesOf whole) root node

end World

namespace Reconstruct

variable {definitions : Definitions} {symbol : Symbol} {result : Ty} {world : World}

/-- Whether an owner of some name is made up for a constructor: its symbol has an owner which is no
data type, but a type of that name or, if it has none, of that text. -/
def MakesUp (resolve : Resolver) (symbol : Symbol) (ownerName name : String) : Prop :=
  ∃ visited owner fields, GoesThrough resolve symbol visited ∧
    visited.Contains (.constructor owner name fields) ∧ ¬IsData resolve owner ∧
      ∃ type : Ty, owner.Suits type.name? ∧ ownerName = type.name?.getD type.display

namespace Setting

/-- What the reconstruction of a symbol into a fresh registry goes by. -/
def fresh (definitions : Definitions) (symbol : Symbol) : Setting where
  resolve := definitions.alternativesOf
  exempt := MakesUp definitions.alternativesOf symbol
  pending _ := False

theorem fresh_tidy (definitions : Definitions) (symbol : Symbol) :
    (fresh definitions symbol).Tidy {} where
  inherited_eq := rfl
  declared _ _ declared := by simp [Registry.lookup?, Registry.layers] at declared
  constructors _ _ mem := by simp [Layer.constructorsOf] at mem
  bodies _ _ body_eq := by simp [Store.body?] at body_eq

theorem fresh_exempts {visited : Symbol}
    (goes : GoesThrough definitions.alternativesOf symbol visited) :
    (fresh definitions symbol).Exempts visited :=
  fun owner _ fields contains no_data type suits =>
    ⟨visited, owner, fields, goes, contains, no_data, type, suits, rfl⟩

/-- Reconstructing a symbol into a fresh registry leaves a tidy world. -/
theorem fresh_tidies (definitions : Definitions) (symbol : Symbol) :
    (fresh definitions symbol).Tidies (Reified.reconstruct ⟨symbol, definitions⟩) {}
      fun result after => (fresh definitions symbol).Fits after symbol result := by
  refine (expandWithin_tidies (fun _ => mem_names_of_first?) (maxDepth definitions)).typeWithin_tidies
    (fresh_exempts (.inl rfl)) (fun name symbol_names => ?_) (.refl {}) (fresh_tidy _ _)
  exact {
    encloses := fun _ => False.elim
    pending_declared := fun _ => False.elim
    exempts := fun other path part mem =>
      fresh_exempts (.inr ⟨other, ⟨name, symbol_names, path⟩, mem⟩)
    suffices_ := fun _ _ => .of_maxDepth (card_names_le definitions) {} name }

/-- Whatever occurs in a tidy world in which nothing is pending may occur. -/
theorem Tidy.accepts_of_occurs {setting : Setting} (tidy : setting.Tidy world)
    (settled : ∀ name, ¬setting.pending name) (all : result.All (setting.Accepts world)) {node : Ty}
    (occurs : world.Occurs result node) : setting.Accepts world node := by
  have root_all : ∀ root, (root = result ∨ (∃ name, world.registry.lookup? name = some root) ∨
      ∃ name, ∃ constructor ∈ world.registry.own.constructorsOf name,
        root = .constructor constructor) → root.All (setting.Accepts world) := by
    rintro root (rfl | ⟨name, declared⟩ | ⟨name, constructor, mem, rfl⟩)
    · exact all
    · exact (tidy.declared declared).all declared fun pending => absurd pending (settled name)
    · exact (tidy.constructors mem).2.2
  obtain ⟨root, is_root, path⟩ := occurs
  suffices node_all : node.All (setting.Accepts world) from node_all.self
  induction path with
  | refl => exact root_all root is_root
  | @tail whole part _ mem ih =>
    obtain ⟨-, children⟩ := Ty.all_iff.mp ih
    cases whole with
    | aliasRef reference =>
      rcases List.mem_append.mp mem with mem | mem
      · exact children part mem
      · exact tidy.bodies (Option.mem_toList.mp mem)
    | _ => exact children part mem

/-- A node whose name is declared without formal parameters is the declared object. -/
theorem Canonical.eq_of_declared {setting : Setting} {name : String} {declared node : Ty}
    (tidy : setting.Tidy world) (canonical : setting.Canonical world.registry name node)
    (lookup_eq : world.registry.lookup? name = some declared)
    (no_formal : declared.parameters = []) : node = declared := by
  obtain none | ⟨other, other_eq, same⟩ := canonical
  · exact absurd none (tidy.declared lookup_eq).resolved
  · obtain rfl := Option.some.inj (lookup_eq.symm.trans other_eq)
    exact same no_formal

end Setting

section Results

variable (run_eq : (Reified.reconstruct ⟨symbol, definitions⟩).run.run {} = (.ok result, world))

include run_eq

theorem tidy_of_reconstruct : (Setting.fresh definitions symbol).Tidy world :=
  have ⟨_, tidy, _⟩ := (Building.meets_iff_of_run_eq_ok run_eq).mp
    (Setting.fresh_tidies definitions symbol)
  tidy

theorem accepts_of_reconstruct {node : Ty} (occurs : world.Occurs result node) :
    (Setting.fresh definitions symbol).Accepts world node :=
  have ⟨_, tidy, fits⟩ := (Building.meets_iff_of_run_eq_ok run_eq).mp
    (Setting.fresh_tidies definitions symbol)
  tidy.accepts_of_occurs (fun _ => id) fits.all occurs

end Results

/-- A data type with a field of an alias for lists of it. -/
def listsOfNodes : Definitions where
  entries := [
    ("N", {
      subject := .dataRef "N" []
      alternatives := ⟨[{
        subject := .dataRef "N" []
        name := some "n"
        symbols := [.aliasRef "P" [.dataRef "N" []]] }], List.pairwise_singleton _ _⟩ }),
    ("P", {
      subject := .aliasRef "P" [.parameter "T" (.prim .value)]
      alternatives := ⟨[{
        subject := .aliasRef "P" [.parameter "T" (.prim .value)]
        symbols := [.list (.parameter "T" (.prim .value))] }], List.pairwise_singleton _ _⟩ })]
  increasing := by decide

/-- What is reconstructed from the alias for the data type. -/
def listsOfNodes.outcome : Except Failure Ty × World :=
  (Reified.reconstruct ⟨.aliasRef "P" [.dataRef "N" []], listsOfNodes⟩).run.run {}

theorem listsOfNodes_evaluates :
    (listsOfNodes.outcome.1, listsOfNodes.outcome.2.registry.lookup? "N") =
      (.ok (.aliasRef ⟨2, "P", [.dataRef ⟨0, "N", []⟩]⟩), some (.dataRef ⟨0, "N", []⟩)) := rfl

theorem listsOfNodes_run_eq :
    (Reified.reconstruct ⟨.aliasRef "P" [.dataRef "N" []], listsOfNodes⟩).run.run {} =
      (.ok (.aliasRef ⟨2, "P", [.dataRef ⟨0, "N", []⟩]⟩), listsOfNodes.outcome.2) := by
  rw [← (Prod.mk.inj listsOfNodes_evaluates).1, ← listsOfNodes.outcome]

theorem listsOfNodes_lookup?_eq :
    listsOfNodes.outcome.2.registry.lookup? "N" = some (.dataRef ⟨0, "N", []⟩) :=
  (Prod.mk.inj listsOfNodes_evaluates).2

/-- An alias with a parameter, whose body is a list of the same alias for integers. -/
def listOfItself : Definitions where
  entries := [
    ("A", {
      subject := .aliasRef "A" [.parameter "T" (.prim .value)]
      alternatives := ⟨[{
        subject := .aliasRef "A" [.parameter "T" (.prim .value)]
        symbols := [.list (.aliasRef "A" [.prim .int])] }], List.pairwise_singleton _ _⟩ })]
  increasing := by decide

/-- What is reconstructed from the alias. -/
def listOfItself.outcome : Except Failure Ty × World :=
  (Reified.reconstruct ⟨.aliasRef "A" [], listOfItself⟩).run.run {}

end Reconstruct

end Reification
