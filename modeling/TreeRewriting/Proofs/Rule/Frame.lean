/-
TreeRewriting/Proofs/Rule/Frame.lean

What the calls of an action leave of the tree.

Design.  The scope is what its history says, so the tree is the original one
with some subtrees put in place of others, all at once.  Their locations are
not above one another, because a change above would have detached the lower
position.  What the tree is at a location follows by reading in the patched
tree: outside these locations each node is the one it was, possibly with other
operands, and at them stands what the last change has left.

Main result: `tree_after_calls`.
-/
import TreeRewriting.Proofs.Pattern.Fit
import TreeRewriting.Proofs.Rule.History

namespace TreeRewriting.Scope

variable {s₀ s : Scope} {h : History} {i j : Nat}

/-- Above what is outside of all that has been put in, nothing has been put in. -/
theorem swap_above_outside {q q' : Location} (hq : ∀ i, s.Swapped h i → ¬ s.location i <+: q)
    (hq' : q.isBelow q' = true) : s.swap h q' = none := by
  refine swap_eq_none ?_
  rintro i hi rfl
  exact hq i hi (Location.prefix_iff_eq_or_isBelow.mpr (.inr hq'))

namespace Recorded

/-- The positions that have been changed and are not detached are bound to locations that
are not above one another. -/
theorem not_prefix (hr : Recorded s₀ h s) (hi : s.Swapped h i) (hj : s.Swapped h j)
    (hij : i ≠ j) : ¬ s.location i <+: s.location j := by
  obtain ⟨-, c, hc⟩ := hi
  obtain ⟨hd, d, hd'⟩ := hj
  have hi := hr.bound i c hc
  have hj := hr.bound j d hd'
  rw [Location.prefix_iff_eq_or_isBelow]
  rintro (heq | hbelow)
  · exact hij (hr.eq_of_location hj hi heq).symm
  · exact hr.not_isBelow hj hd hc hbelow

/-- Outside what has been put in, each node is the one at the start with its operands
patched. -/
theorem at?_outside_eq (hr : Recorded s₀ h s) {q : Location}
    (hq : ∀ i, s.Swapped h i → ¬ s.location i <+: q) :
    s.tree.at? q = (s₀.tree.at? q).map fun c =>
      c.withChildren (Node.patchFrom (fun r => s.swap h (q ++ r)) 0 c.children) := by
  have habove : ∀ q', q.isBelow q' = true → s.swap h q' = none := fun q' hq' =>
    swap_above_outside hq hq'
  have hhere : s.swap h (q ++ []) = none := by
    rw [List.append_nil]
    refine swap_eq_none ?_
    rintro i hi rfl
    exact hq i hi (List.prefix_refl _)
  rw [hr.tree, Node.at?_patch habove]
  refine congrArg (Option.map · _) (funext fun c => ?_)
  exact Node.patch_of_none hhere c

/-- Outside what has been put in, a node stays, with operands that may have changed. -/
theorem at?_outside (hr : Recorded s₀ h s) {q : Location} {c : Node}
    (hq : ∀ i, s.Swapped h i → ¬ s.location i <+: q) (hc : s₀.tree.at? q = some c) :
    ∃ xs, xs.length = c.arity ∧ s.tree.at? q = some (c.withChildren xs) := by
  rw [hr.at?_outside_eq hq, hc]
  exact ⟨_, Node.length_patchFrom _ _ _, rfl⟩

/-- A subtree that nothing is put in, above or below, stays. -/
theorem at?_untouched (hr : Recorded s₀ h s) {q : Location}
    (hq : ∀ i, s.Swapped h i → ¬ s.location i <+: q ∧ ¬ q <+: s.location i) :
    s.tree.at? q = s₀.tree.at? q := by
  have habove : ∀ q', q.isBelow q' = true → s.swap h q' = none := fun q' hq' =>
    swap_above_outside (fun i hi => (hq i hi).1) hq'
  have hbelow : ∀ r, s.swap h (q ++ r) = none := by
    refine fun r => swap_eq_none ?_
    intro i hi heq
    exact (hq i hi).2 (heq ▸ List.prefix_append q r)
  rw [hr.tree, Node.at?_patch habove]
  rcases s₀.tree.at? q with - | c
  · rfl
  · rw [Option.map_some, Node.patch_eq_self hbelow]

/-- At a position that is not detached stands what its last change has left. -/
theorem at?_location (hr : Recorded s₀ h s) (hd : s.standing i ≠ .detached) {c : Change}
    (hc : h.last? i = some c) : s.tree.at? (s.location i) = some c.node := by
  have hi : i < s.binding.length := hr.bound i c (History.mem_of_last? hc)
  obtain ⟨m, -, hm⟩ := hr.exists_at? hi hd
  have hswap : s.swap h (s.location i ++ []) = some c.node := by
    rw [List.append_nil, hr.swap_location hi]
    exact content?_eq_some_iff.mpr ⟨hd, c, hc, rfl⟩
  rw [hm, Node.patch_of_some hswap]

end Recorded

/-- **What the calls of an action leave of the tree.**  Of the positions of a binding those
that have been taken or replaced and are not detached have locations none of which leads to
another; the tree is the one at the start with, at once, the subtree at each of them
replaced by what its last change has left, which is what is read there.  A node that is not
within one of them stays, with operands that may have changed, and a subtree that has none
of them in it stays as it is.  A label whose position was last changed by putting a subtree
there is answered that subtree, as long as it is answered. -/
theorem tree_after_calls {p : Pattern} {n : Node} {b : Binding} (hb : b ∈ p.bindings n)
    (rule : String) (calls : List Call) :
    let s₀ := enter rule p b n
    let s := s₀.after calls
    let h := s₀.changes calls
    (∀ i j, s.Swapped h i → s.Swapped h j → i ≠ j → ¬ s.location i <+: s.location j) ∧
      s.tree = n.patch (s.swap h) ∧
      (∀ i, s.Swapped h i →
        ∃ c, h.last? i = some c ∧ s.tree.at? (s.location i) = some c.node) ∧
      (∀ q c, (∀ i, s.Swapped h i → ¬ s.location i <+: q) → n.at? q = some c →
        ∃ xs, xs.length = c.arity ∧ s.tree.at? q = some (c.withChildren xs)) ∧
      (∀ q, (∀ i, s.Swapped h i → ¬ s.location i <+: q ∧ ¬ q <+: s.location i) →
        s.tree.at? q = n.at? q) ∧
      ∀ l i m k, p.indexOf? l = some i → h.last? i = some (.replaced m) →
        s.node l = .ok k → k = m := by
  intro s₀ s h
  have hr : Recorded s₀ h s := recorded_after hb rule calls
  refine ⟨fun i j => hr.not_prefix, hr.tree, fun i hi => ?here, fun q c => hr.at?_outside,
    fun q => hr.at?_untouched, fun l i m k hl hlast hk => ?answered⟩
  case here =>
    obtain ⟨hd, c, hc⟩ := hi
    obtain ⟨d, hlast⟩ := History.exists_last? hc
    exact ⟨d, hlast, hr.at?_location hd hlast⟩
  case answered =>
    rw [← show s.pattern = p from hr.pattern] at hl
    obtain ⟨i', hlive, hk⟩ := node_eq_ok_iff.mp hk
    obtain ⟨hl', hstanding⟩ := live_eq_ok_iff.mp hlive
    obtain rfl := Option.some.inj (hl.symm.trans hl')
    have hm := hr.at?_location (by simp [hstanding]) hlast
    exact Option.some.inj (hk.symm.trans hm)

/-- The operands of a product are exchanged for others, with a call in between that
faults. -/
theorem tree_after_calls_product :
    let p := Pattern.ofShape (.group "p" .fixed "a" ["b"])
    let n : Node := .product (.var 0) (.var 1)
    let b : Binding := [[], [0], [1]]
    let calls : List Call := [.take "b", .node "b", .replace "a" (.var 2), .replace "b" (.var 3)]
    b ∈ p.bindings n ∧
      ((enter "exchange" p b n).after calls).tree = .product (.var 2) (.var 3) := by
  have hb : [[], [0], [1]] ∈
      (Pattern.ofShape (.group "p" .fixed "a" ["b"])).bindings (.product (.var 0) (.var 1)) :=
    mem_bindings_binary.mpr ⟨Nat.le_refl 2, .var 0, rfl, .var 1, rfl, rfl⟩
  exact ⟨hb, (tree_after_calls hb "exchange" _).2.1.trans rfl⟩

end TreeRewriting.Scope
