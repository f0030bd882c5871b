/-
TreeRewriting/Proofs/Node/Postorder.lean

The locations of a tree in post-order, and the walks that agree with it.

Design.  What is listed before what is told by the locations alone: a location
comes after all that is below it, and otherwise the smaller index comes first
where two locations part (`Precedes`).  The list is sorted by that order, which
relates no location to itself, so no location is listed twice and the order can
be read off the places in the list.

Two other walks carry locations along.  Both are described for any place they
may have got to: collecting at a location puts that location in front of what is
listed, and the walk with a stack has yet to see the locations of the trees on
it (`pending`).  It succeeds iff none of their addresses is seen twice
(`checkFrom_eq_ok_iff`).

Main result: `Node.locations_exact`.
-/
import Mathlib.Data.List.Nodup
import TreeRewriting.Node.Cost
import TreeRewriting.Node.Traversal

namespace TreeRewriting

/-! ### The order -/

/-- Post-order: what is below comes first, and then what has the smaller index where the
locations part. -/
inductive Location.Precedes : Location → Location → Prop
  | under (i : Nat) (p : Location) : Precedes (i :: p) []
  | left {i j : Nat} (p q : Location) (h : i < j) : Precedes (i :: p) (j :: q)
  | inside (i : Nat) {p q : Location} (h : Precedes p q) : Precedes (i :: p) (i :: q)

namespace Location

theorem Precedes.asymm {p q : Location} (h : Precedes p q) : ¬ Precedes q p := by
  induction h with
  | under i p => nofun
  | left p q h =>
    intro h'
    cases h' with
    | left _ _ h' => exact Nat.lt_asymm h h'
    | inside _ _ => exact Nat.lt_irrefl _ h
  | inside i h ih =>
    intro h'
    cases h' with
    | left _ _ h' => exact Nat.lt_irrefl _ h'
    | inside _ h' => exact ih h'

theorem Precedes.ne {p q : Location} (h : Precedes p q) : p ≠ q := by
  rintro rfl
  exact h.asymm h

/-- Below a location the order is the same. -/
theorem Precedes.append {p q : Location} (r : Location) (h : Precedes p q) :
    Precedes (r ++ p) (r ++ q) := by
  induction r with
  | nil => exact h
  | cons i r ih => exact .inside i ih

/-- What lies strictly below comes first. -/
theorem precedes_of_isBelow {p q : Location} (h : p.isBelow q = true) : Precedes p q := by
  obtain ⟨r, hr, rfl⟩ := isBelow_iff.mp h
  obtain ⟨i, r, rfl⟩ := List.exists_cons_of_ne_nil hr
  have h := (Precedes.under i r).append q
  rwa [List.append_nil] at h

/-- A location comes before everything under a later sibling. -/
theorem precedes_of_sibling (r : Location) {i j : Nat} (hij : i < j) (s : Location) :
    Precedes (r.child i) (r.child j ++ s) := by
  rw [child, child, List.append_assoc]
  exact (Precedes.left [] s hij).append r

end Location

namespace Node

open Location

/-! ### The list of locations -/

/-- The locations are listed in post-order. -/
theorem pairwise_locations (n : Node) : n.locations.Pairwise Precedes := by
  induction n using induct with
  | node n ih =>
    -- within a sibling the order is that of its own locations, between siblings that of indices
    have siblings : ∀ (xs : List Node) (i : Nat), (∀ x ∈ xs, x ∈ n.children) →
        (locationsFrom i xs).Pairwise Precedes := by
      intro xs
      induction xs with
      | nil => exact fun i _ => .nil
      | cons x xs ihs =>
        intro i hmem
        have hfirst : (x.locations.map (i :: ·)).Pairwise Precedes :=
          List.pairwise_map.mpr ((ih x (hmem x List.mem_cons_self)).imp (.inside i))
        have hrest := ihs (i + 1) fun y hy => hmem y (List.mem_cons_of_mem x hy)
        refine List.pairwise_append.mpr ⟨hfirst, hrest, ?_⟩
        intro p hp q hq
        obtain ⟨p, -, rfl⟩ := List.mem_map.mp hp
        obtain ⟨j, -, q, -, -, rfl⟩ := mem_locationsFrom.mp hq
        exact .left p q (by omega)
    rw [locations_eq]
    refine List.pairwise_append.mpr
      ⟨siblings n.children 0 fun _ hx => hx, List.pairwise_singleton _ _, ?_⟩
    intro p hp q hq
    obtain ⟨j, -, p, -, -, rfl⟩ := mem_locationsFrom.mp hp
    obtain rfl := List.mem_singleton.mp hq
    exact .under _ p

example : (Node.plus (.negate (.var 0)) (.number 1)).locations = [[0, 0], [0], [1], []] := rfl

theorem nodup_locations (n : Node) : n.locations.Nodup :=
  n.pairwise_locations.imp Precedes.ne

/-- What precedes has the smaller place in the list. -/
theorem idxOf_lt_idxOf {n : Node} {p q : Location} (hp : p ∈ n.locations) (hq : q ∈ n.locations)
    (h : Precedes p q) : n.locations.idxOf p < n.locations.idxOf q := by
  have hp' := List.idxOf_lt_length_of_mem hp
  have hq' := List.idxOf_lt_length_of_mem hq
  rcases Nat.lt_trichotomy (n.locations.idxOf p) (n.locations.idxOf q) with hlt | heq | hgt
  · exact hlt
  · exact absurd ((List.idxOf_inj hp).mp heq) h.ne
  · have hqp := List.pairwise_iff_getElem.mp n.pairwise_locations _ _ hq' hp' hgt
    rw [List.getElem_idxOf, List.getElem_idxOf] at hqp
    exact absurd hqp h.asymm

/-! ### Collecting at a location -/

mutual

/-- Collecting at a location puts it in front of what is listed. -/
theorem collect_eq (here : Location) :
    (n : Node) → n.collect here = n.locations.map (here ++ ·)
  | .leaf _ => by simp [collect, locations]
  | .unary _ x => by simp [collect, locations, collect_eq _ x, child, Function.comp_def]
  | .binary _ a b => by
    simp [collect, locations, collect_eq _ a, collect_eq _ b, child, Function.comp_def]
  | .nary _ xs => by simp [collect, locations, collectFrom_eq here 0 xs]

theorem collectFrom_eq (here : Location) (i : Nat) :
    (xs : List Node) → collectFrom here i xs = (locationsFrom i xs).map (here ++ ·)
  | [] => rfl
  | x :: xs => by
    simp [collectFrom, locationsFrom, collect_eq _ x, collectFrom_eq here (i + 1) xs, child,
      Function.comp_def]

end

/-! ### Walking with a stack -/

/-- The locations that a walk has yet to see. -/
def pending (stack : List (Location × Node)) : List Location :=
  stack.flatMap fun c => c.2.locations.map (c.1 ++ ·)

theorem pending_cons (p : Location) (n : Node) (rest : List (Location × Node)) :
    pending ((p, n) :: rest) = n.locations.map (p ++ ·) ++ pending rest :=
  List.flatMap_cons

theorem pending_placedFrom (here : Location) (i : Nat) (xs : List Node) :
    pending (placedFrom here i xs) = (locationsFrom i xs).map (here ++ ·) := by
  induction xs generalizing i with
  | nil => rfl
  | cons x xs ih =>
    simp [placedFrom, locationsFrom, pending_cons, ih, child, Function.comp_def]

/-- A visit takes the location at the top off what is pending. -/
theorem pending_perm (p : Location) (n : Node) (rest : List (Location × Node)) :
    (p :: pending ((placedFrom p 0 n.children).reverse ++ rest)).Perm
      (pending ((p, n) :: rest)) := by
  have hreverse : (pending (placedFrom p 0 n.children).reverse).Perm
      ((locationsFrom 0 n.children).map (p ++ ·)) := by
    rw [← pending_placedFrom]
    exact (List.reverse_perm _).flatMap_right _
  have hsplit : pending ((placedFrom p 0 n.children).reverse ++ rest)
      = pending (placedFrom p 0 n.children).reverse ++ pending rest :=
    List.flatMap_append
  have htop : pending ((p, n) :: rest)
      = (locationsFrom 0 n.children).map (p ++ ·) ++ p :: pending rest := by
    simp [pending_cons, locations_eq]
  rw [hsplit, htop]
  exact ((hreverse.append_right _).cons p).trans List.perm_middle.symm

section

variable {α : Type} [DecidableEq α] {address : Location → α}

/-- The walk succeeds iff no address is seen twice, and then it has counted all of them. -/
theorem checkFrom_eq_ok_iff {seen : List α} {stack : List (Location × Node)} {k : Nat}
    (hseen : seen.Nodup) :
    checkFrom address seen stack = .ok k ↔
      (seen ++ (pending stack).map address).Nodup ∧
        k = (seen ++ (pending stack).map address).length := by
  fun_induction checkFrom address seen stack with
  | case1 seen => simp [pending, hseen, eq_comm]
  | case2 seen p n rest hmem =>
    refine iff_of_false nofun ?_
    rintro ⟨hnodup, -⟩
    -- the address at the top is pending, and it has been seen
    have hp : address p ∈ (pending ((p, n) :: rest)).map address :=
      List.mem_map_of_mem ((pending_perm p n rest).subset List.mem_cons_self)
    exact List.disjoint_of_nodup_append hnodup hmem hp
  | case3 seen p n rest hmem ih =>
    have hperm : (address p :: seen
          ++ (pending ((placedFrom p 0 n.children).reverse ++ rest)).map address).Perm
        (seen ++ (pending ((p, n) :: rest)).map address) :=
      List.perm_middle.symm.trans (((pending_perm p n rest).map address).append_left seen)
    rw [ih (List.nodup_cons.mpr ⟨hmem, hseen⟩), hperm.nodup_iff, hperm.length_eq]

/-- The check succeeds iff all nodes have different addresses, and then it has counted the
nodes. -/
theorem checkStrict_eq_ok_iff {n : Node} {k : Nat} :
    n.checkStrict address = .ok k ↔
      (∀ p ∈ n.locations, ∀ q ∈ n.locations, address p = address q → p = q) ∧
        k = n.locations.length := by
  rw [checkStrict, checkFrom_eq_ok_iff List.nodup_nil]
  have hpending : pending [([], n)] = n.locations := by simp [pending]
  rw [List.nil_append, hpending, List.nodup_map_iff_inj_on n.nodup_locations, List.length_map]

end

/-! ### All walks together -/

/-- **The list of locations is exact.**  It holds the locations of the tree and no other, none
of them twice; each of them behind all that are strictly below it and before all that are
under its later siblings; and the root last.  It is what collecting on the way gives, and is
as long as the tree has nodes, whether these are counted by recursion, as a cost of one for
each, or by the walk with a stack.  That walk succeeds iff all nodes have different addresses,
as they have when each location has a node of its own. -/
theorem locations_exact {α : Type} [DecidableEq α] (n : Node) :
    n.collect [] = n.locations ∧
      (∀ p, p ∈ n.locations ↔ (n.at? p).isSome = true) ∧
      n.locations.Nodup ∧
      (∀ p ∈ n.locations, ∀ q ∈ n.locations, q.isBelow p = true →
        n.locations.idxOf q < n.locations.idxOf p) ∧
      (∀ (r : Location) (i j : Nat) (s : Location), i < j → r.child i ∈ n.locations →
        r.child j ++ s ∈ n.locations →
        n.locations.idxOf (r.child i) < n.locations.idxOf (r.child j ++ s)) ∧
      n.locations.getLast? = some [] ∧
      n.locations.length = n.size ∧
      n.locations.length = n.cost unitWeight ∧
      n.checkStrict id = .ok n.locations.length ∧
      ∀ (address : Location → α) (k : Nat), n.checkStrict address = .ok k ↔
        (∀ p ∈ n.locations, ∀ q ∈ n.locations, address p = address q → p = q) ∧
          k = n.locations.length := by
  refine ⟨?collect, ?exact, n.nodup_locations, ?below, ?siblings, ?root, n.length_locations, ?cost,
    ?own, fun _ _ => checkStrict_eq_ok_iff⟩
  case collect => simp [collect_eq]
  case exact =>
    intro p
    rw [mem_locations_iff, Option.isSome_iff_exists]
  case below =>
    intro p hp q hq hbelow
    exact idxOf_lt_idxOf hq hp (precedes_of_isBelow hbelow)
  case siblings =>
    intro r i j s hij hi hj
    exact idxOf_lt_idxOf hi hj (precedes_of_sibling r hij s)
  case root => rw [locations_eq, List.getLast?_concat]
  case cost => rw [n.length_locations, n.cost_unitWeight]
  case own => exact checkStrict_eq_ok_iff.mpr ⟨fun _ _ _ _ h => h, rfl⟩

end Node

end TreeRewriting
