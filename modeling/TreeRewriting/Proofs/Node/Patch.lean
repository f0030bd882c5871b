/-
TreeRewriting/Proofs/Node/Patch.lean

Many subtrees put in place at once.

Design.  A patch gives some locations a subtree.  `patch` rebuilds the tree on
one walk down from the root and puts in what is given where the walk meets it;
what is put in is not walked through, so of a location and one below it only the
upper one counts.

Reading below a location on which nothing is given, nor above it, is reading in
the patched subtree (`at?_patch`).  Putting a subtree in place of another one
after patching is patching with that subtree given too (`set_patch`).  Both go
by induction on the location, one step of the walk at a time.
-/
import TreeRewriting.Node.Location

namespace TreeRewriting

namespace Location

theorem cons_isBelow_nil (i : Nat) (p : Location) : isBelow (i :: p) [] = true := rfl

theorem cons_isBelow_cons (i : Nat) (p q : Location) :
    isBelow (i :: p) (i :: q) = p.isBelow q := by
  simp [isBelow]

theorem isBelow_irrefl (p : Location) : ¬ p.isBelow p = true := by
  simp [isBelow]

theorem isBelow_trans {p q r : Location} (hpq : p.isBelow q = true) (hqr : q.isBelow r = true) :
    p.isBelow r = true := by
  obtain ⟨u, hu, rfl⟩ := isBelow_iff.mp hpq
  obtain ⟨v, -, rfl⟩ := isBelow_iff.mp hqr
  exact isBelow_iff.mpr ⟨v ++ u, by simp [hu], List.append_assoc r v u⟩

/-- A location leads to another one or to one above it iff it is a beginning of it. -/
theorem prefix_iff_eq_or_isBelow {p q : Location} : q <+: p ↔ p = q ∨ p.isBelow q = true := by
  rw [isBelow_iff]
  constructor
  · rintro ⟨r, rfl⟩
    rcases r with - | ⟨i, r⟩
    · exact .inl (List.append_nil q)
    · exact .inr ⟨i :: r, by simp, rfl⟩
  · rintro (rfl | ⟨r, -, rfl⟩)
    · exact List.prefix_refl p
    · exact List.prefix_append q r

end Location

namespace Node

mutual

/-- The tree with a subtree in place of its own at every location that is given one. -/
def patch (f : Location → Option Node) : Node → Node
  | .leaf l => (f []).getD (.leaf l)
  | .unary op x => (f []).getD (.unary op (patch (fun p => f (0 :: p)) x))
  | .binary op a b =>
    (f []).getD (.binary op (patch (fun p => f (0 :: p)) a) (patch (fun p => f (1 :: p)) b))
  | .nary op xs => (f []).getD (.nary op (patchFrom f 0 xs))

/-- Siblings, of which the first has the given index, with subtrees in place of theirs. -/
def patchFrom (f : Location → Option Node) (i : Nat) : List Node → List Node
  | [] => []
  | x :: xs => patch (fun p => f (i :: p)) x :: patchFrom f (i + 1) xs

end

section

variable {f : Location → Option Node}

theorem patch_eq (f : Location → Option Node) (n : Node) :
    n.patch f = (f []).getD (n.withChildren (patchFrom f 0 n.children)) := by
  cases n <;> rfl

theorem getElem?_patchFrom (f : Location → Option Node) (i j : Nat) (xs : List Node) :
    (patchFrom f i xs)[j]? = xs[j]?.map (patch fun p => f ((i + j) :: p)) := by
  induction xs generalizing i j with
  | nil => rfl
  | cons x xs ih =>
    rcases j with - | j
    · rfl
    · rw [patchFrom, List.getElem?_cons_succ, List.getElem?_cons_succ, ih, Nat.add_right_comm]
      rfl

@[simp] theorem length_patchFrom (f : Location → Option Node) (i : Nat) (xs : List Node) :
    (patchFrom f i xs).length = xs.length := by
  induction xs generalizing i with
  | nil => rfl
  | cons x xs ih => rw [patchFrom, List.length_cons, ih, List.length_cons]

/-! ### At the root -/

theorem patch_of_some {m : Node} (h : f [] = some m) (n : Node) : n.patch f = m := by
  rw [patch_eq, h, Option.getD_some]

theorem patch_of_none (h : f [] = none) (n : Node) :
    n.patch f = n.withChildren (patchFrom f 0 n.children) := by
  rw [patch_eq, h, Option.getD_none]

/-- A node that stays has its operands patched. -/
theorem getElem?_children_patch (h : f [] = none) (n : Node) (i : Nat) :
    (n.patch f).children[i]? = n.children[i]?.map (patch fun p => f (i :: p)) := by
  rw [patch_of_none h, children_withChildren (length_patchFrom f 0 _), getElem?_patchFrom,
    Nat.zero_add]

/-- A tree in which nothing is replaced stays as it is. -/
theorem patch_eq_self {n : Node} (h : ∀ p, f p = none) : n.patch f = n := by
  induction n using induct generalizing f with
  | node n ih =>
    have hchildren : patchFrom f 0 n.children = n.children := by
      refine List.ext_getElem? fun j => ?_
      rw [getElem?_patchFrom]
      rcases hc : n.children[j]? with - | c
      · rfl
      · exact congrArg some (ih c (List.mem_of_getElem? hc) fun p => h _)
    rw [patch_of_none (h []), hchildren, withChildren_children]

/-- Patches that give the same where the tree has a subtree make the same tree. -/
theorem patch_congr {g : Location → Option Node} {n : Node}
    (h : ∀ p c, n.at? p = some c → f p = g p) : n.patch f = n.patch g := by
  induction n using induct generalizing f g with
  | node n ih =>
    have hchildren : patchFrom f 0 n.children = patchFrom g 0 n.children := by
      refine List.ext_getElem? fun j => ?_
      rw [getElem?_patchFrom, getElem?_patchFrom]
      rcases hc : n.children[j]? with - | c
      · rfl
      · refine congrArg some (ih c (List.mem_of_getElem? hc) fun p d hd => h _ d ?_)
        rw [Nat.zero_add, at?_cons, hc]
        exact hd
    rw [patch_eq, patch_eq, h [] n rfl, hchildren]

/-! ### At a location -/

/-- Where nothing is put in above, what is read is the patched subtree. -/
theorem at?_patch {p : Location} (h : ∀ q, p.isBelow q = true → f q = none) (n : Node) :
    (n.patch f).at? p = (n.at? p).map (·.patch fun r => f (p ++ r)) := by
  induction p generalizing f n with
  | nil => rfl
  | cons i p ih =>
    have hroot : f [] = none := h [] (Location.cons_isBelow_nil i p)
    rw [at?_cons, at?_cons, getElem?_children_patch hroot]
    rcases n.children[i]? with - | c
    · rfl
    · -- what is given above the location in the child is given above it in the tree
      refine ih (f := fun q => f (i :: q)) (fun q hq => h (i :: q) ?_) c
      rwa [Location.cons_isBelow_cons]

/-- Siblings of which one is replaced by its patch under what is given now, where nothing
else is given for the others. -/
theorem set_patchFrom {g : Location → Option Node} {xs : List Node} {i : Nat} {x : Node}
    (hx : xs[i]? = some x) (hother : ∀ j q, j ≠ i → g (j :: q) = f (j :: q)) :
    (patchFrom f 0 xs).set i (x.patch fun q => g (i :: q)) = patchFrom g 0 xs := by
  refine List.ext_getElem? fun j => ?_
  rw [List.getElem?_set, getElem?_patchFrom, getElem?_patchFrom, length_patchFrom, Nat.zero_add]
  by_cases hij : i = j
  · subst hij
    rw [if_pos rfl, if_pos (List.getElem?_eq_some_iff.mp hx).1, hx, Option.map_some]
  · rw [if_neg hij]
    rcases xs[j]? with - | y
    · rfl
    · exact congrArg some (patch_congr fun q _ _ => (hother j q (Ne.symm hij)).symm)

/-- Where nothing is put in above, putting a subtree in place is giving it too. -/
theorem set_patch {g : Location → Option Node} {n m : Node} {p : Location}
    (hf : ∀ q, p.isBelow q = true → f q = none) (hg : ∀ q, p.isBelow q = true → g q = none)
    (hp : g p = some m) (hother : ∀ q, ¬ p <+: q → g q = f q) (hn : ∃ c, n.at? p = some c) :
    (n.patch f).set p m = n.patch g := by
  induction p generalizing f g n with
  | nil => rw [set_nil, patch_of_some hp]
  | cons i p ih =>
    have hroot : f [] = none := hf [] (Location.cons_isBelow_nil i p)
    have hroot' : g [] = none := hg [] (Location.cons_isBelow_nil i p)
    obtain ⟨c, hc⟩ := hn
    rw [at?_cons] at hc
    obtain ⟨d, hd, hc⟩ := Option.bind_eq_some_iff.mp hc
    -- the child on the way, then its siblings
    have hchild : (d.patch fun q => f (i :: q)).set p m = d.patch fun q => g (i :: q) := by
      refine ih ?_ ?_ hp (fun q hq => hother (i :: q) ?_) ⟨c, hc⟩
      · exact fun q hq => hf (i :: q) (by rwa [Location.cons_isBelow_cons])
      · exact fun q hq => hg (i :: q) (by rwa [Location.cons_isBelow_cons])
      · exact fun h => hq (List.cons_prefix_cons.mp h).2
    have hsiblings : ∀ j q, j ≠ i → g (j :: q) = f (j :: q) := fun j q hj =>
      hother (j :: q) fun h => hj (List.cons_prefix_cons.mp h).1.symm
    have hd' : (n.patch f).children[i]? = some (d.patch fun q => f (i :: q)) := by
      rw [getElem?_children_patch hroot, hd, Option.map_some]
    rw [set_cons hd', hchild, patch_of_none hroot, patch_of_none hroot',
      children_withChildren (length_patchFrom f 0 _),
      withChildren_withChildren (length_patchFrom f 0 _) (by simp [arity]),
      set_patchFrom hd hsiblings]

end

end Node

end TreeRewriting
