/-
TreeRewriting/Proofs/Node/ClauseSet.lean

Clause sets as trees.

A clause set over literals is a list of lists of literals, and it is written down
as a tree of three levels.  Its truth under an assignment is read off the
literals, and below its clauses stand predicates and nothing else.
-/
import TreeRewriting.Proofs.Node.Truth

namespace TreeRewriting.Node

variable {cs : List (List Literal)} {ls : List Literal} {m : Node}

/-- The clause of the given literals. -/
def ofLiterals (ls : List Literal) : Node := .clause (ls.map .predicate)

/-- The clause set of the given clauses. -/
def ofClauses (cs : List (List Literal)) : Node := .clauseSet (cs.map ofLiterals)

theorem arity_ofLiterals (ls : List Literal) : (ofLiterals ls).arity = ls.length := by
  rw [ofLiterals, arity_nary, List.length_map]

theorem at?_ofClauses (cs : List (List Literal)) (i : Nat) :
    (ofClauses cs).at? [i] = cs[i]?.map ofLiterals := by
  rw [at?_singleton]
  exact List.getElem?_map

/-- A clause at a place of the tree is one of the clauses written down. -/
theorem exists_of_at?_ofClauses {i : Nat} {xs : List Node}
    (h : (ofClauses cs).at? [i] = some (.clause xs)) :
    ∃ ls, cs[i]? = some ls ∧ xs = ls.map .predicate := by
  rw [at?_ofClauses] at h
  obtain ⟨ls, hls, h⟩ := Option.map_eq_some_iff.mp h
  injection h with _ h
  exact ⟨ls, hls, h.symm⟩

/-- A predicate among the children of a clause is one of its literals. -/
theorem getElem?_of_predicate {k : Nat} {l : Literal}
    (h : (ls.map predicate)[k]? = some (.predicate l)) : ls[k]? = some l := by
  rw [List.getElem?_map] at h
  obtain ⟨l', hl, h⟩ := Option.map_eq_some_iff.mp h
  injection h with h
  injection h with h
  rw [hl, h]

/-! ### Truth -/

section

variable (I : Assignment) (env : Nat → Option Bool)

theorem truth_ofLiterals (ls : List Literal) :
    (ofLiterals ls).truth I env = some (ls.any (·.truth I)) := by
  have hlist : truthList I env (ls.map predicate) = some (ls.map (·.truth I)) := by
    induction ls with
    | nil => rfl
    | cons l ls ih => rw [List.map_cons, truthList, ih]; rfl
  rw [ofLiterals, truth, hlist, Option.map_some, List.any_map]
  rfl

/-- A clause set is true when every clause has a true literal. -/
theorem truth_ofClauses (cs : List (List Literal)) :
    (ofClauses cs).truth I env = some (cs.all fun ls => ls.any (·.truth I)) := by
  have hlist : truthList I env (cs.map ofLiterals)
      = some (cs.map fun ls => ls.any (·.truth I)) := by
    induction cs with
    | nil => rfl
    | cons ls cs ih => rw [List.map_cons, truthList, truth_ofLiterals, ih]; rfl
  rw [ofClauses, truth, hlist, Option.map_some, List.all_map]
  rfl

end

/-! ### Subtrees -/

/-- What stands strictly inside a clause set has predicates for operands, if any. -/
theorem kind_child_of_ofClauses {i : Nat} {p : Location} (h : (ofClauses cs).at? (i :: p) = some m)
    {c : Node} (hc : c ∈ m.children) : c.kind = .predicate := by
  rw [at?_cons] at h
  obtain ⟨u, hu, h⟩ := Option.bind_eq_some_iff.mp h
  obtain ⟨ls, -, rfl⟩ := List.mem_map.mp (List.mem_of_getElem? hu)
  cases p with
  | nil =>
    obtain rfl := Option.some.inj h
    obtain ⟨l, -, rfl⟩ := List.mem_map.mp hc
    rfl
  | cons j p =>
    rw [at?_cons] at h
    obtain ⟨v, hv, h⟩ := Option.bind_eq_some_iff.mp h
    obtain ⟨l, -, rfl⟩ := List.mem_map.mp (List.mem_of_getElem? hv)
    -- a predicate has no operands, so the way ends here
    cases p with
    | nil =>
      obtain rfl := Option.some.inj h
      cases hc
    | cons => cases h

end TreeRewriting.Node
