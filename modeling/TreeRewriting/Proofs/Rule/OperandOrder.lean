/-
TreeRewriting/Proofs/Rule/OperandOrder.lean

Rules that do not see the order of the operands.

Design.  Two nodes with the same children in another order come with a
permutation of the child indices (`Rearranged`).  Locations below them
correspond: the first step goes to the child in its new place, and the further
steps are the same (`relocate`).  If the group at the top of a pattern is free,
this takes valid bindings to valid bindings, since no position fixes the index
that has changed, and every position but the top one stays bound to the node
it had.  There is a way back, so nothing is lost and nothing comes twice.

The top position is bound to a node that is not the same.  Of that node a rule
sees its kind, and whatever its guard looks at.

Main result: `Rule.operand_order_irrelevant`.
-/
import Mathlib.Data.List.Nodup
import Mathlib.Logic.Equiv.Basic
import TreeRewriting.Proofs.Pattern.ValidBinding
import TreeRewriting.Table.Logic

namespace TreeRewriting

/-! ### Permutations of child indices -/

/-- A permutation of the indices behind the first one. -/
def behindHead (σ : Equiv.Perm Nat) : Equiv.Perm Nat where
  toFun
    | 0 => 0
    | i + 1 => σ i + 1
  invFun
    | 0 => 0
    | i + 1 => σ.symm i + 1
  left_inv := by rintro (- | i) <;> simp
  right_inv := by rintro (- | i) <;> simp

/-- The elements of a list in another order have moved along a permutation of the indices. -/
theorem exists_perm_getElem? {α : Type} {xs ys : List α} (h : xs.Perm ys) :
    ∃ σ : Equiv.Perm Nat, ∀ i, ys[σ i]? = xs[i]? := by
  induction h with
  | nil => exact ⟨Equiv.refl Nat, fun _ => rfl⟩
  | cons x _ ih =>
    obtain ⟨σ, hσ⟩ := ih
    refine ⟨behindHead σ, ?_⟩
    rintro (- | i)
    · rfl
    · exact hσ i
  | swap x y l =>
    refine ⟨Equiv.swap 0 1, ?_⟩
    rintro (- | - | i)
    · rfl
    · rfl
    · rw [Equiv.swap_apply_of_ne_of_ne (by simp) (by simp)]
      rfl
  | trans _ _ ih ih' =>
    obtain ⟨σ, hσ⟩ := ih
    obtain ⟨τ, hτ⟩ := ih'
    exact ⟨σ.trans τ, fun i => (hτ (σ i)).trans (hσ i)⟩

/-- The second node is the first one with its children moved to other indices. -/
structure Rearranged (σ : Equiv.Perm Nat) (n n' : Node) : Prop where
  kind_eq : n'.kind = n.kind
  arity_eq : n'.arity = n.arity
  child : ∀ i, n'.children[σ i]? = n.children[i]?

theorem Rearranged.symm {σ : Equiv.Perm Nat} {n n' : Node} (h : Rearranged σ n n') :
    Rearranged σ.symm n' n := by
  refine ⟨h.kind_eq.symm, h.arity_eq.symm, fun i => ?_⟩
  rw [← h.child, Equiv.apply_symm_apply]

theorem exists_rearranged {n n' : Node} (hkind : n'.kind = n.kind)
    (hchildren : n.children.Perm n'.children) : ∃ σ, Rearranged σ n n' := by
  obtain ⟨σ, hσ⟩ := exists_perm_getElem? hchildren
  exact ⟨σ, hkind, hchildren.length_eq.symm, hσ⟩

/-! ### Locations that correspond -/

section

variable {σ : Equiv.Perm Nat} {n n' : Node}

/-- The location when the children at the top have been moved. -/
def relocate (σ : Equiv.Perm Nat) : Location → Location
  | [] => []
  | i :: l => σ i :: l

/-- Where a child has been moved to: only at the top it has. -/
def movedAt (σ : Equiv.Perm Nat) : Location → Equiv.Perm Nat
  | [] => σ
  | _ :: _ => Equiv.refl Nat

@[simp] theorem relocate_nil : relocate σ [] = [] := rfl

theorem relocate_child (here : Location) (c : Nat) :
    relocate σ (here.child c) = (relocate σ here).child (movedAt σ here c) := by
  cases here <;> rfl

@[simp] theorem relocate_symm_relocate (l : Location) : relocate σ.symm (relocate σ l) = l := by
  cases l <;> simp [relocate]

/-- Below the top the same nodes are found at locations that correspond. -/
theorem Rearranged.at?_relocate (h : Rearranged σ n n') {l : Location} (hl : l ≠ []) :
    n'.at? (relocate σ l) = n.at? l := by
  rcases l with - | ⟨i, l⟩
  · exact absurd rfl hl
  · rw [relocate, Node.at?_cons, Node.at?_cons, h.child]

end

/-- An expectation asks of a node no more than its kind. -/
theorem Expect.accepts_of_kind_eq {n n' : Node} (e : Expect) (h : n'.kind = n.kind) :
    e.accepts n' = e.accepts n := by
  cases e <;> simp [accepts, h]

namespace Pattern

/-! ### Bindings that correspond -/

section

variable {p : Pattern} {σ : Equiv.Perm Nat} {n n' : Node} {b : Binding} {i : Nat} {l : Location}

/-- Only the top position is bound to the node itself. -/
theorem Valid.ne_nil (h : p.Valid n b) (hi : b[i + 1]? = some l) : l ≠ [] := by
  have hlt : i + 1 < p.positions.length := h.length_eq ▸ (List.getElem?_eq_some_iff.mp hi).1
  obtain ⟨q, hq⟩ : ∃ q, p.positions[i + 1]? = some q := ⟨_, List.getElem?_eq_getElem hlt⟩
  rcases hj : q.parent with - | j
  · exact absurd (Shape.eq_zero_of_parent_eq_none (p.positions_eq ▸ hq) hj) (Nat.succ_ne_zero i)
  · obtain ⟨here, c, -, hchild, -⟩ := h.below (i + 1) q j hq hj
    obtain rfl := Option.some.inj (hi.symm.trans hchild)
    simp [Location.child]

/-- In a free group at the top the children have no index of their own, and in a group
below the top they have not been moved. -/
theorem Valid.moved_eq_of_fixed (h : p.Valid n b) (hfree : p.shape.order? = some .free)
    {q : Position} {j c k : Nat} {here : Location} (hq : p.positions[i]? = some q)
    (hj : q.parent = some j) (hhere : b[j]? = some here) (hk : q.slot = .fixed k) :
    movedAt σ here c = c := by
  rcases here with - | ⟨m, here⟩
  · rcases j with - | j
    · obtain ⟨o, k', ho, hslot⟩ := Shape.slot_of_parent_eq_zero (p.positions_eq ▸ hq) hj
      obtain rfl : Order.free = o := Option.some.inj (hfree.symm.trans ho)
      rw [hk] at hslot
      cases hslot
    · exact absurd rfl (h.ne_nil hhere)
  · rfl

/-- A rearranged node has a valid binding for every one of the node. -/
theorem Valid.rearrange (h : p.Valid n b) (hn : Rearranged σ n n')
    (hfree : p.shape.order? = some .free) : p.Valid n' (b.map (relocate σ)) := by
  refine ⟨?length, ?top, ?below, ?distinct, ?inTree⟩
  case length => rw [List.length_map, h.length_eq]
  case top => rw [List.getElem?_map, h.top, Option.map_some, relocate_nil]
  case below =>
    intro i q j hq hj
    obtain ⟨here, c, hhere, hchild, hfixed⟩ := h.below i q j hq hj
    refine ⟨relocate σ here, movedAt σ here c, ?_, ?_, fun k hk => ?_⟩
    · rw [List.getElem?_map, hhere, Option.map_some]
    · rw [List.getElem?_map, hchild, Option.map_some, relocate_child]
    · rw [h.moved_eq_of_fixed hfree hq hj hhere hk, hfixed k hk]
  case distinct =>
    intro i i' q q' j l l' hq hq' hj hj' hne hl hl'
    obtain ⟨here, c, hhere, hchild, -⟩ := h.below i q j hq hj
    obtain ⟨here', c', hhere', hchild', -⟩ := h.below i' q' j hq' hj'
    obtain rfl := Option.some.inj (hhere.symm.trans hhere')
    have hc : c ≠ c' := by
      simpa [Location.child] using h.distinct i i' q q' j _ _ hq hq' hj hj' hne hchild hchild'
    rw [List.getElem?_map, hchild, Option.map_some, relocate_child] at hl
    rw [List.getElem?_map, hchild', Option.map_some, relocate_child] at hl'
    obtain rfl := Option.some.inj hl
    obtain rfl := Option.some.inj hl'
    simpa [Location.child] using hc
  case inTree =>
    intro i q hq
    obtain ⟨l, m, hl, hm, hmin⟩ := h.inTree i q hq
    rcases i with - | i
    · obtain rfl := Option.some.inj (hl.symm.trans h.top)
      obtain rfl := Option.some.inj hm
      refine ⟨[], n', ?_, rfl, ?_⟩
      · rw [List.getElem?_map, h.top, Option.map_some, relocate_nil]
      · rwa [hn.arity_eq]
    · refine ⟨relocate σ l, m, ?_, ?_, hmin⟩
      · rw [List.getElem?_map, hl, Option.map_some]
      · rw [hn.at?_relocate (h.ne_nil hl), hm]

/-- The nodes at the positions below the top.  A valid binding has one at each. -/
def nodesBelow (n : Node) (b : Binding) : List (Option Node) := b.tail.map n.at?

/-- Bindings that correspond give the positions below the top the same nodes. -/
theorem Valid.nodesBelow_relocate (h : p.Valid n b) (hn : Rearranged σ n n') :
    nodesBelow n' (b.map (relocate σ)) = nodesBelow n b := by
  rw [nodesBelow, nodesBelow, ← List.map_tail, List.map_map]
  apply List.map_congr_left
  intro l hl
  obtain ⟨i, hi⟩ := List.mem_iff_getElem?.mp hl
  rw [List.getElem?_tail] at hi
  exact hn.at?_relocate (h.ne_nil hi)

end

theorem getElem?_nodesBelow (n : Node) (b : Binding) (i : Nat) :
    (nodesBelow n b)[i]? = b[i + 1]?.map n.at? := by
  rw [nodesBelow, List.getElem?_map, List.getElem?_tail]

end Pattern

open Pattern

/-- The nodes below the top are what all labels but the one at the top are bound to. -/
theorem Match.node?_eq_of_nodesBelow {p : Pattern} {n n' : Node} {b b' : Binding} {label : String}
    (htop : p.indexOf? label ≠ some 0) (h : nodesBelow n b = nodesBelow n' b') :
    node? ⟨n, p, b⟩ label = node? ⟨n', p, b'⟩ label := by
  rw [node?, node?, location?, location?]
  rcases hi : p.indexOf? label with - | - | i
  · rfl
  · exact absurd hi htop
  · have hnode : b[i + 1]?.map n.at? = b'[i + 1]?.map n'.at? := by
      rw [← getElem?_nodesBelow, ← getElem?_nodesBelow, h]
    simpa [Option.bind_map] using congrArg (·.bind id) hnode

namespace Rule

variable {r : Rule} {σ : Equiv.Perm Nat} {n n' : Node} {b : Binding}

/-! ### What a rule accepts -/

/-- The bindings at a node that the rule accepts, each once. -/
def accepted (r : Rule) (n : Node) : List Binding := (r.pattern.bindings n).filter (r.accepts n)

/-- What the guard says depends on the nodes at the positions below the top only. -/
def GuardsBelow (r : Rule) : Prop :=
  ∀ guard, r.guard = some guard → ∀ (n n' : Node) (b b' : Binding), r.pattern.Valid n b →
    r.pattern.Valid n' b' → nodesBelow n b = nodesBelow n' b' →
      guard ⟨n, r.pattern, b⟩ = guard ⟨n', r.pattern, b'⟩

theorem mem_accepted_iff : b ∈ r.accepted n ↔ r.pattern.Valid n b ∧ r.Admits n b := by
  rw [accepted, List.mem_filter, mem_bindings_iff, accepts_iff]

theorem nodup_accepted (r : Rule) (n : Node) : (r.accepted n).Nodup :=
  ((pairwise_bindings r.pattern n).imp Precedes.ne).filter _

theorem applies_eq_true_iff : r.applies n = true ↔ r.accepted n ≠ [] := by
  rw [applies, find?, findBinding_eq, List.find?_isSome, accepted, Ne, List.filter_eq_nil_iff]
  simp

theorem relocate_mem_accepted (hfree : r.pattern.shape.order? = some .free) (hguard : r.GuardsBelow)
    (hn : Rearranged σ n n') (hb : b ∈ r.accepted n) : b.map (relocate σ) ∈ r.accepted n' := by
  obtain ⟨hvalid, hadmits⟩ := mem_accepted_iff.mp hb
  have hvalid' := hvalid.rearrange hn hfree
  refine mem_accepted_iff.mpr ⟨hvalid', fun i e l he hl => ?_, fun guard hg => ?_⟩
  · rw [List.getElem?_map] at hl
    obtain ⟨m, hm, rfl⟩ := Option.map_eq_some_iff.mp hl
    obtain ⟨u, hu, haccepts⟩ := hadmits.expected i e m he hm
    rcases i with - | i
    · obtain rfl := Option.some.inj (hm.symm.trans hvalid.top)
      obtain rfl := Option.some.inj hu
      exact ⟨n', rfl, by rwa [e.accepts_of_kind_eq hn.kind_eq]⟩
    · exact ⟨u, by rwa [hn.at?_relocate (hvalid.ne_nil hm)], haccepts⟩
  · rw [hguard guard hg n' n _ b hvalid' hvalid (hvalid.nodesBelow_relocate hn)]
    exact hadmits.guarded guard hg

/-- The bindings accepted at a rearranged node are those accepted at the node, rearranged. -/
theorem accepted_perm (hfree : r.pattern.shape.order? = some .free) (hguard : r.GuardsBelow)
    (hn : Rearranged σ n n') :
    ((r.accepted n).map (List.map (relocate σ))).Perm (r.accepted n') := by
  have hback : ∀ (τ : Equiv.Perm Nat) (b : Binding),
      (b.map (relocate τ)).map (relocate τ.symm) = b := by
    intro τ b
    simp [Function.comp_def]
  have hinjective : Function.Injective (List.map (relocate σ)) :=
    Function.LeftInverse.injective (hback σ)
  rw [List.perm_ext_iff_of_nodup (List.Nodup.map hinjective (nodup_accepted r n))
    (nodup_accepted r n')]
  intro b'
  rw [List.mem_map]
  constructor
  · rintro ⟨b, hb, rfl⟩
    exact relocate_mem_accepted hfree hguard hn hb
  · intro hb'
    exact ⟨_, relocate_mem_accepted hfree hguard hn.symm hb', hback σ.symm b'⟩

/-- **Operand order does not matter for a free group.**  If the group at the top of a rule's
pattern is free, and the guard depends on the nodes below the top only, the rule applies at a
node iff it applies at a node of the same kind with the same children in another order.  The
tuples of nodes that the accepted bindings give the positions below the top are then the same
too, each as often. -/
theorem operand_order_irrelevant (hfree : r.pattern.shape.order? = some .free)
    (hguard : r.GuardsBelow) (hkind : n'.kind = n.kind) (hchildren : n.children.Perm n'.children) :
    r.applies n = r.applies n' ∧
      ((r.accepted n).map (nodesBelow n)).Perm ((r.accepted n').map (nodesBelow n')) := by
  obtain ⟨σ, hn⟩ := exists_rearranged hkind hchildren
  have hperm := accepted_perm hfree hguard hn
  have hnodes : ((r.accepted n).map (List.map (relocate σ))).map (nodesBelow n')
      = (r.accepted n).map (nodesBelow n) := by
    rw [List.map_map]
    apply List.map_congr_left
    intro b hb
    exact (mem_accepted_iff.mp hb).1.nodesBelow_relocate hn
  refine ⟨?_, hnodes ▸ hperm.map (nodesBelow n')⟩
  rw [Bool.eq_iff_iff, applies_eq_true_iff, applies_eq_true_iff, Ne, Ne, ← List.length_eq_zero_iff,
    ← List.length_eq_zero_iff, ← hperm.length_eq, List.length_map]

/-- A tree next to its own negation: the operand that is negated brings its own operand
along. -/
theorem operand_order_irrelevant_tautology :
    Logic.tautology.applies (.or (.var 0) (.not (.var 0))) = true ∧
      Logic.tautology.applies (.or (.var 0) (.not (.var 0)))
        = Logic.tautology.applies (.or (.not (.var 0)) (.var 0)) ∧
      ((Logic.tautology.accepted (.or (.var 0) (.not (.var 0)))).map
          (nodesBelow (.or (.var 0) (.not (.var 0))))).Perm
        ((Logic.tautology.accepted (.or (.not (.var 0)) (.var 0))).map
          (nodesBelow (.or (.not (.var 0)) (.var 0)))) := by
  refine ⟨by decide, operand_order_irrelevant rfl ?_ rfl (.swap _ _ _)⟩
  -- the guard compares what two labels below the top are bound to
  rintro guard hguard n n' b b' - - hnodes
  obtain rfl := Option.some.inj hguard
  have hx := Match.node?_eq_of_nodesBelow
    (show Logic.tautology.pattern.indexOf? "x" ≠ some 0 by decide) hnodes
  have hy := Match.node?_eq_of_nodesBelow
    (show Logic.tautology.pattern.indexOf? "y" ≠ some 0 by decide) hnodes
  simp only [Logic.sameNode, hx, hy]

end Rule

end TreeRewriting
