import Reification.Proofs.Meaning

/-!
# The leaves of a meaning

The aliases which are not unfolded in what a symbol means are those in what its names stand for.
Replacing type parameters adds only the ones in what is given.
-/

namespace Reification

namespace Tree

variable {given : Substitution} {name : String}

/-- Replacing type parameters adds only leaves of what is given. -/
theorem mem_leaves_subst {tree : Tree} (mem : name ∈ (tree.subst given).leaves) :
    name ∈ tree.leaves ∨ ∃ formal actual, given formal = some actual ∧ name ∈ actual.leaves := by
  have all {trees : List Tree} (ih : ∀ tree ∈ trees, name ∈ (tree.subst given).leaves →
      name ∈ tree.leaves ∨ ∃ formal actual, given formal = some actual ∧ name ∈ actual.leaves)
      (mem : name ∈ leavesOfAll (trees.map (subst given))) : name ∈ leavesOfAll trees ∨
        ∃ formal actual, given formal = some actual ∧ name ∈ actual.leaves := by
    simp only [leavesOfAll_eq, List.flatMap_map, List.mem_flatMap] at mem ⊢
    obtain ⟨tree, tree_mem, mem⟩ := mem
    exact (ih tree tree_mem mem).imp_left fun mem => ⟨tree, tree_mem, mem⟩
  have fields {trees : List (Field Tree)} (ih : ∀ field ∈ trees,
      name ∈ (field.type.subst given).leaves → name ∈ field.type.leaves ∨
        ∃ formal actual, given formal = some actual ∧ name ∈ actual.leaves)
      (mem : name ∈ leavesOfFields (trees.map (Field.map (subst given)))) :
      name ∈ leavesOfFields trees ∨
        ∃ formal actual, given formal = some actual ∧ name ∈ actual.leaves := by
    simp only [leavesOfFields_eq, List.flatMap_map, List.mem_flatMap, Field.map] at mem ⊢
    obtain ⟨field, field_mem, mem⟩ := mem
    exact (ih field field_mem mem).imp_left fun mem => ⟨field, field_mem, mem⟩
  have append {lefts rights lefts' rights' : List String}
      (left : name ∈ lefts' → name ∈ lefts ∨
        ∃ formal actual, given formal = some actual ∧ name ∈ actual.leaves)
      (right : name ∈ rights' → name ∈ rights ∨
        ∃ formal actual, given formal = some actual ∧ name ∈ actual.leaves)
      (mem : name ∈ lefts' ++ rights') : name ∈ lefts ++ rights ∨
        ∃ formal actual, given formal = some actual ∧ name ∈ actual.leaves := by
    rcases List.mem_append.mp mem with mem | mem
    · exact (left mem).imp_left (List.mem_append_left _)
    · exact (right mem).imp_left (List.mem_append_right _)
  induction tree using Tree.induction with
  | prim | sort => exact .inl mem
  | list _ ih | set _ ih | reified _ ih => exact ih mem
  | map _ _ ih_key ih_value => exact append ih_key ih_value mem
  | tuple _ ih =>
    rw [subst, substFields_eq] at mem
    exact fields ih mem
  | func _ _ ih ih_arguments =>
    rw [subst, substFields_eq] at mem
    exact append ih (fields ih_arguments) mem
  | parameter formal bound =>
    rw [subst] at mem
    rcases given_eq : given formal with _ | actual
    · rw [given_eq] at mem
      exact .inl mem
    · rw [given_eq] at mem
      exact .inr ⟨formal, actual, given_eq, mem⟩
  | dataRef _ _ ih =>
    rw [subst, substAll_eq] at mem
    exact all ih mem
  | aliasRef _ _ body ih ih_body =>
    rw [subst, substAll_eq, substBody_eq] at mem
    refine append (all ih) (fun mem => ?_) mem
    cases body with
    | none => exact .inl mem
    | some body => exact ih_body body rfl mem
  | constructor owner parameters _ _ ih ih_fields =>
    by_cases none : parameters = []
    · subst none
      exact .inl mem
    · rw [subst_constructor given none] at mem
      exact append (all ih) (fields ih_fields) mem

/-- Binding formal to actual parameters gives only actual ones. -/
theorem mem_of_foldl_bind {formals actuals : List Tree} {formal : String} {actual : Tree}
    (given_eq : ((formals.zip actuals).foldl Substitution.bind given) formal = some actual) :
    given formal = some actual ∨ actual ∈ actuals := by
  induction formals generalizing actuals given with
  | nil => exact .inl given_eq
  | cons first formals ih =>
    cases actuals with
    | nil => exact .inl given_eq
    | cons head actuals =>
      rcases ih given_eq with bound_eq | mem
      · cases first with
        | parameter other bound =>
          rw [Substitution.bind, Function.update_apply] at bound_eq
          split at bound_eq
          · exact .inr (by simp [Option.some.inj bound_eq])
          · exact .inl bound_eq
        | _ => exact .inl bound_eq
      · exact .inr (List.mem_cons_of_mem _ mem)

/-- The leaves of a declaration for some actual parameters are leaves of either. -/
theorem mem_leaves_applied {declared : Tree} {actuals : List Tree}
    (mem : name ∈ (declared.applied actuals).leaves) :
    name ∈ declared.leaves ∨ ∃ actual ∈ actuals, name ∈ actual.leaves := by
  unfold applied at mem
  split at mem
  · exact .inl mem
  · refine (mem_leaves_subst mem).imp_right ?_
    rintro ⟨formal, actual, given_eq, mem⟩
    exact ⟨actual, (mem_of_foldl_bind given_eq).resolve_left (by simp), mem⟩

theorem mem_leaves_of_parameters {tree part : Tree} (part_mem : part ∈ tree.parameters)
    (mem : name ∈ part.leaves) : name ∈ tree.leaves := by
  cases tree with
  | dataRef _ parameters =>
    rw [leaves, leavesOfAll_eq]
    exact List.mem_flatMap.mpr ⟨part, part_mem, mem⟩
  | aliasRef _ parameters _ =>
    rw [leaves, leavesOfAll_eq]
    exact List.mem_append_left _ (List.mem_flatMap.mpr ⟨part, part_mem, mem⟩)
  | _ => cases part_mem

end Tree

/-- The leaves of what a symbol means are those of what its names stand for. -/
theorem Symbol.exists_of_mem_leaves {meaning : Meaning} {name : String} {symbol : Symbol}
    (mem : name ∈ (symbol.tree meaning).leaves) : ∃ other tree, symbol.Names other ∧
      meaning other = some tree ∧ name ∈ tree.leaves := by
  have all {symbols : List Symbol} (ih : ∀ symbol ∈ symbols,
      name ∈ (symbol.tree meaning).leaves → ∃ other tree, symbol.Names other ∧
        meaning other = some tree ∧ name ∈ tree.leaves)
      (mem : ∃ tree ∈ symbols.map (Symbol.tree meaning), name ∈ tree.leaves) :
      ∃ other tree, (∃ symbol ∈ symbols, symbol.Names other) ∧
        meaning other = some tree ∧ name ∈ tree.leaves := by
    obtain ⟨_, tree_mem, mem⟩ := mem
    obtain ⟨symbol, symbol_mem, rfl⟩ := List.mem_map.mp tree_mem
    obtain ⟨other, tree, names, rest⟩ := ih symbol symbol_mem mem
    exact ⟨other, tree, ⟨symbol, symbol_mem, names⟩, rest⟩
  have fields {symbols : List Symbol} (ih : ∀ symbol ∈ symbols,
      name ∈ (symbol.tree meaning).leaves → ∃ other tree, symbol.Names other ∧
        meaning other = some tree ∧ name ∈ tree.leaves)
      (mem : name ∈ Tree.leavesOfFields (fieldTrees meaning symbols)) :
      ∃ other tree, (∃ symbol ∈ symbols, symbol.Names other) ∧
        meaning other = some tree ∧ name ∈ tree.leaves := by
    refine all ih ?_
    rw [Tree.leavesOfFields_eq, fieldTrees_eq, List.flatMap_map, List.mem_flatMap] at mem
    obtain ⟨symbol, symbol_mem, mem⟩ := mem
    exact ⟨_, List.mem_map_of_mem symbol_mem, mem⟩
  have named {other : String} {symbols : List Symbol} (ih : ∀ symbol ∈ symbols,
      name ∈ (symbol.tree meaning).leaves → ∃ other tree, symbol.Names other ∧
        meaning other = some tree ∧ name ∈ tree.leaves)
      (mem : name ∈ (meaning.named other (symbols.map (Symbol.tree meaning))).leaves) :
      ∃ last tree, (other = last ∨ ∃ symbol ∈ symbols, symbol.Names last) ∧
        meaning last = some tree ∧ name ∈ tree.leaves := by
    rw [Meaning.named] at mem
    split at mem
    · next declared declared_eq =>
      rcases Tree.mem_leaves_applied mem with mem | mem
      · exact ⟨other, declared, .inl rfl, declared_eq, mem⟩
      · obtain ⟨last, tree, names, rest⟩ := all ih mem
        exact ⟨last, tree, .inr names, rest⟩
    · rw [Tree.leaves, Tree.leavesOfAll_eq, List.mem_flatMap] at mem
      obtain ⟨last, tree, names, rest⟩ := all ih mem
      exact ⟨last, tree, .inr names, rest⟩
  induction symbol using Symbol.induction with
  | prim | sort => cases mem
  | label _ _ ih | list _ ih | set _ ih | reified _ ih | parameter _ _ ih => exact ih mem
  | map _ _ ih_key ih_value =>
    rcases List.mem_append.mp mem with mem | mem
    · obtain ⟨other, tree, names, rest⟩ := ih_key mem
      exact ⟨other, tree, names_map.mpr (.inl names), rest⟩
    · obtain ⟨other, tree, names, rest⟩ := ih_value mem
      exact ⟨other, tree, names_map.mpr (.inr names), rest⟩
  | tuple _ ih =>
    obtain ⟨other, tree, names, rest⟩ := fields ih mem
    exact ⟨other, tree, names_tuple.mpr names, rest⟩
  | func _ _ ih ih_arguments =>
    rcases List.mem_append.mp mem with mem | mem
    · obtain ⟨other, tree, names, rest⟩ := ih mem
      exact ⟨other, tree, names_func.mpr (.inl names), rest⟩
    · obtain ⟨other, tree, names, rest⟩ := fields ih_arguments mem
      exact ⟨other, tree, names_func.mpr (.inr names), rest⟩
  | dataRef _ _ ih =>
    rw [Symbol.tree, trees_eq] at mem
    obtain ⟨other, tree, names, rest⟩ := named ih mem
    exact ⟨other, tree, names_dataRef.mpr names, rest⟩
  | aliasRef _ _ ih =>
    rw [Symbol.tree, trees_eq] at mem
    obtain ⟨other, tree, names, rest⟩ := named ih mem
    exact ⟨other, tree, names_aliasRef.mpr names, rest⟩
  | constructor owner _ _ ih ih_fields =>
    rcases List.mem_append.mp mem with mem | mem
    · rw [Tree.leavesOfAll_eq, List.mem_flatMap] at mem
      obtain ⟨part, part_mem, mem⟩ := mem
      obtain ⟨other, tree, names, rest⟩ := ih (Tree.mem_leaves_of_parameters part_mem mem)
      exact ⟨other, tree, names_constructor.mpr (.inl names), rest⟩
    · obtain ⟨other, tree, names, rest⟩ := fields ih_fields mem
      exact ⟨other, tree, names_constructor.mpr (.inr names), rest⟩

end Reification
