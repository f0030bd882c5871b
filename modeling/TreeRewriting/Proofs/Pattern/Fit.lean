/-
TreeRewriting/Proofs/Pattern/Fit.lean

Where a pattern with expectations fits.

Design.  A binding fits when the nodes at it are as expected; what a guard says
about them comes on top (`Rule.fits_of_find?`).  The rules of the tables share a
few shapes of patterns, and nearly all expect an operator at the top.  For each
such shape one statement says which nodes it fits and at which bindings, for any
labels and whatever is expected of the operands, so that what a rule does is
asked of trees that are written out.
-/
import TreeRewriting.Proofs.Pattern.Enumeration
import TreeRewriting.Rule

namespace TreeRewriting

open Pattern

/-- A binding of a pattern at which every node is as expected. -/
structure Pattern.Fits (p : Pattern) (expects : List Expect) (n : Node) (b : Binding) : Prop where
  bound : b ∈ p.bindings n
  expected : ((expects.zip b).all fun e => (n.at? e.2).any e.1.accepts) = true

/-- The node itself is of the kind that is expected at the top. -/
theorem Pattern.Fits.kind_eq {p : Pattern} {k : Kind} {expects : List Expect} {n : Node}
    {b : Binding} (h : p.Fits (.is k :: expects) n b) : n.kind = k := by
  obtain ⟨below, rfl⟩ := exists_eq_cons_of_mem_bindings h.bound
  have hexpected := h.expected
  rw [List.zip_cons_cons, List.all_cons, Bool.and_eq_true] at hexpected
  exact Expect.accepts_is.mp hexpected.1

namespace Rule

/-- A binding at which the nodes are as the rule expects, whatever its guard says. -/
abbrev Fits (r : Rule) (n : Node) (b : Binding) : Prop := r.pattern.Fits r.expects n b

/-- Where a rule matches its pattern fits and its guard has let the match pass. -/
theorem fits_of_find? {r : Rule} {n : Node} {b : Binding} (h : r.find? n = some b) :
    r.Fits n b ∧ ∀ guard, r.guard = some guard → guard ⟨n, r.pattern, b⟩ = true := by
  rw [find?, findBinding_eq] at h
  have hb := List.mem_of_find?_eq_some h
  have haccepts := List.find?_some h
  simp only [accepts, Bool.and_eq_true] at haccepts
  refine ⟨⟨hb, haccepts.1⟩, fun guard hguard => ?_⟩
  simpa only [hguard] using haccepts.2

/-- A rule applies where its pattern fits and its guard, if there is one, lets the match
pass. -/
theorem applies_of_fits {r : Rule} {n : Node} {b : Binding} (hfit : r.Fits n b)
    (hguard : ∀ guard, r.guard = some guard → guard ⟨n, r.pattern, b⟩ = true) :
    r.applies n = true := by
  rw [applies, find?, findBinding_eq, List.find?_isSome]
  refine ⟨b, hfit.bound, ?_⟩
  rw [accepts, hfit.expected, Bool.true_and]
  rcases hg : r.guard with - | guard
  · rfl
  · exact hguard guard hg

/-- A rule without a guard applies where its pattern fits. -/
theorem applies_of_unguarded {r : Rule} {n : Node} {b : Binding} (hguard : r.guard = none)
    (hfit : r.Fits n b) : r.applies n = true := by
  refine applies_of_fits hfit fun guard h => ?_
  rw [hguard] at h
  cases h

/-- A rule that expects one of these kinds at the top fits no node of another kind. -/
theorem kind_mem_of_fits {r : Rule} {kinds : List Kind} {n : Node} {b : Binding}
    (h : ∃ k ∈ kinds, r.expects.head? = some (.is k)) (hfit : r.Fits n b) : n.kind ∈ kinds := by
  obtain ⟨k, hk, htop⟩ := h
  obtain ⟨expects, hexpects⟩ := List.head?_eq_some_iff.mp htop
  rw [Fits, hexpects] at hfit
  exact hfit.kind_eq ▸ hk

end Rule

/-- What an action leaves that ends without a fault and writes no answers down. -/
def Outcome.done (m : Node) : Outcome := ⟨m, [], none⟩

@[simp] theorem Outcome.tree_done (m : Node) : (done m).tree = m := rfl

@[simp] theorem Outcome.fault_done (m : Node) : (done m).fault = none := rfl

variable {g h a c e : String} {n : Node} {b : Binding}

/-! ### Bindings of small shapes -/

theorem mem_bindings_unary :
    b ∈ (ofShape (.group g .fixed a [])).bindings n ↔
      1 ≤ n.arity ∧ ∃ u, n.at? [0] = some u ∧ b = [[], [0]] := by
  change b ∈ extensions n [] [] [⟨g, none, .root, 1⟩, ⟨a, some 0, .fixed 0, 0⟩] ↔ _
  simp [mem_extensions_top, mem_extensions_child, Allows, Location.child]

theorem mem_bindings_binary :
    b ∈ (ofShape (.group g .fixed a [c])).bindings n ↔
      2 ≤ n.arity ∧ ∃ u, n.at? [0] = some u ∧ ∃ v, n.at? [1] = some v ∧ b = [[], [0], [1]] := by
  change b ∈ extensions n [] [] [⟨g, none, .root, 2⟩, ⟨a, some 0, .fixed 0, 0⟩,
    ⟨c, some 0, .fixed 1, 0⟩] ↔ _
  simp [mem_extensions_top, mem_extensions_child, Allows, Location.child]

theorem mem_bindings_two :
    b ∈ (ofShape (.group g .free a [c])).bindings n ↔
      2 ≤ n.arity ∧ ∃ i u, n.at? [i] = some u ∧ ∃ j, j ≠ i ∧ ∃ v, n.at? [j] = some v ∧
        b = [[], [i], [j]] := by
  change b ∈ extensions n [] [] [⟨g, none, .root, 2⟩, ⟨a, some 0, .free, 0⟩,
    ⟨c, some 0, .free, 0⟩] ↔ _
  simp [mem_extensions_top, mem_extensions_child, Allows, Location.child, taken]

theorem mem_bindings_unary_unary :
    b ∈ (ofShape (.group g .fixed (.group h .fixed a []) [])).bindings n ↔
      1 ≤ n.arity ∧ ∃ u, n.at? [0] = some u ∧ 1 ≤ u.arity ∧
        ∃ v, n.at? [0, 0] = some v ∧ b = [[], [0], [0, 0]] := by
  change b ∈ extensions n [] [] [⟨g, none, .root, 1⟩, ⟨h, some 0, .fixed 0, 1⟩,
    ⟨a, some 1, .fixed 0, 0⟩] ↔ _
  simp [mem_extensions_top, mem_extensions_child, Allows, Location.child]

theorem mem_bindings_binary_unary :
    b ∈ (ofShape (.group g .fixed (.group h .fixed a []) [c])).bindings n ↔
      2 ≤ n.arity ∧ ∃ u, n.at? [0] = some u ∧ 1 ≤ u.arity ∧ ∃ v, n.at? [0, 0] = some v ∧
        ∃ w, n.at? [1] = some w ∧ b = [[], [0], [0, 0], [1]] := by
  change b ∈ extensions n [] [] [⟨g, none, .root, 2⟩, ⟨h, some 0, .fixed 0, 1⟩,
    ⟨a, some 1, .fixed 0, 0⟩, ⟨c, some 0, .fixed 1, 0⟩] ↔ _
  simp [mem_extensions_top, mem_extensions_child, Allows, Location.child]

theorem mem_bindings_binary_binary :
    b ∈ (ofShape (.group g .fixed (.group h .fixed a [c]) [e])).bindings n ↔
      2 ≤ n.arity ∧ ∃ u, n.at? [0] = some u ∧ 2 ≤ u.arity ∧ ∃ v, n.at? [0, 0] = some v ∧
        ∃ w, n.at? [0, 1] = some w ∧ ∃ x, n.at? [1] = some x ∧
          b = [[], [0], [0, 0], [0, 1], [1]] := by
  change b ∈ extensions n [] [] [⟨g, none, .root, 2⟩, ⟨h, some 0, .fixed 0, 2⟩,
    ⟨a, some 1, .fixed 0, 0⟩, ⟨c, some 1, .fixed 1, 0⟩, ⟨e, some 0, .fixed 1, 0⟩] ↔ _
  simp [mem_extensions_top, mem_extensions_child, Allows, Location.child]

theorem mem_bindings_two_unary :
    b ∈ (ofShape (.group g .free a [.group h .fixed c []])).bindings n ↔
      2 ≤ n.arity ∧ ∃ i u, n.at? [i] = some u ∧ ∃ j, j ≠ i ∧ ∃ v, n.at? [j] = some v ∧
        1 ≤ v.arity ∧ ∃ w, n.at? [j, 0] = some w ∧ b = [[], [i], [j], [j, 0]] := by
  change b ∈ extensions n [] [] [⟨g, none, .root, 2⟩, ⟨a, some 0, .free, 0⟩,
    ⟨h, some 0, .free, 1⟩, ⟨c, some 2, .fixed 0, 0⟩] ↔ _
  simp [mem_extensions_top, mem_extensions_child, Allows, Location.child, taken]

theorem mem_bindings_two_one {d : String} :
    b ∈ (ofShape (.group g .free (.group h .free a []) [.group c .free d []])).bindings n ↔
      2 ≤ n.arity ∧ ∃ i u, n.at? [i] = some u ∧ 1 ≤ u.arity ∧ ∃ k v, n.at? [i, k] = some v ∧
        ∃ j, j ≠ i ∧ ∃ w, n.at? [j] = some w ∧ 1 ≤ w.arity ∧ ∃ l x, n.at? [j, l] = some x ∧
          b = [[], [i], [i, k], [j], [j, l]] := by
  change b ∈ extensions n [] [] [⟨g, none, .root, 2⟩, ⟨h, some 0, .free, 1⟩,
    ⟨a, some 1, .free, 0⟩, ⟨c, some 0, .free, 1⟩, ⟨d, some 3, .free, 0⟩] ↔ _
  simp [mem_extensions_top, mem_extensions_child, Allows, Location.child, taken]

/-! ### Nodes and bindings that fit -/

variable {e₁ e₂ : Expect}

/-- An operator on one operand. -/
theorem fits_unary (op : UnaryOp) :
    (ofShape (.group g .fixed a [])).Fits [.is op.kind, e₁] n b ↔
      ∃ u, n = .unary op u ∧ e₁.accepts u = true ∧ b = [[], [0]] := by
  constructor
  · rintro ⟨hb, he⟩
    obtain ⟨-, u, hu, rfl⟩ := mem_bindings_unary.mp hb
    obtain ⟨hn, he⟩ : n.kind = op.kind ∧ e₁.accepts u = true := by simpa [hu] using he
    obtain ⟨x, rfl⟩ := Node.kind_eq_unary.mp hn
    obtain rfl : x = u := by simpa using hu
    exact ⟨x, rfl, he, rfl⟩
  · rintro ⟨u, rfl, he, rfl⟩
    exact ⟨mem_bindings_unary.mpr ⟨Nat.le_refl 1, u, rfl, rfl⟩, by simp [he]⟩

/-- An operator on two operands. -/
theorem fits_binary (op : BinaryOp) :
    (ofShape (.group g .fixed a [c])).Fits [.is op.kind, e₁, e₂] n b ↔
      ∃ u v, n = .binary op u v ∧ e₁.accepts u = true ∧ e₂.accepts v = true ∧
        b = [[], [0], [1]] := by
  constructor
  · rintro ⟨hb, he⟩
    obtain ⟨-, u, hu, v, hv, rfl⟩ := mem_bindings_binary.mp hb
    obtain ⟨hn, hu', hv'⟩ : n.kind = op.kind ∧ e₁.accepts u = true ∧ e₂.accepts v = true := by
      simpa [hu, hv] using he
    obtain ⟨x, y, rfl⟩ := Node.kind_eq_binary.mp hn
    obtain rfl : x = u := by simpa using hu
    obtain rfl : y = v := by simpa using hv
    exact ⟨x, y, rfl, hu', hv', rfl⟩
  · rintro ⟨u, v, rfl, hu, hv, rfl⟩
    exact ⟨mem_bindings_binary.mpr ⟨Nat.le_refl 2, u, rfl, v, rfl, rfl⟩, by simp [hu, hv]⟩

/-- An operator on two operands, which may stand in either order. -/
theorem fits_two (op : BinaryOp) :
    (ofShape (.group g .free a [c])).Fits [.is op.kind, e₁, e₂] n b ↔
      ∃ u v, e₁.accepts u = true ∧ e₂.accepts v = true ∧
        (n = .binary op u v ∧ b = [[], [0], [1]] ∨ n = .binary op v u ∧ b = [[], [1], [0]]) := by
  constructor
  · rintro ⟨hb, he⟩
    obtain ⟨-, i, u, hu, j, hij, v, hv, rfl⟩ := mem_bindings_two.mp hb
    obtain ⟨hn, hu', hv'⟩ : n.kind = op.kind ∧ e₁.accepts u = true ∧ e₂.accepts v = true := by
      simpa [hu, hv] using he
    obtain ⟨x, y, rfl⟩ := Node.kind_eq_binary.mp hn
    refine ⟨u, v, hu', hv', ?_⟩
    -- of the four ways to pick two operands, those that pick one twice are excluded
    obtain ⟨rfl, rfl⟩ | ⟨rfl, rfl⟩ := Node.at?_binary_eq_some.mp hu <;>
      obtain ⟨rfl, rfl⟩ | ⟨rfl, rfl⟩ := Node.at?_binary_eq_some.mp hv
    · exact absurd rfl hij
    · exact .inl ⟨rfl, rfl⟩
    · exact .inr ⟨rfl, rfl⟩
    · exact absurd rfl hij
  · rintro ⟨u, v, hu, hv, ⟨rfl, rfl⟩ | ⟨rfl, rfl⟩⟩
    · exact ⟨mem_bindings_two.mpr ⟨Nat.le_refl 2, 0, u, rfl, 1, by decide, v, rfl, rfl⟩,
        by simp [hu, hv]⟩
    · exact ⟨mem_bindings_two.mpr ⟨Nat.le_refl 2, 1, u, rfl, 0, by decide, v, rfl, rfl⟩,
        by simp [hu, hv]⟩

/-- An operator on any number of operands, and two of them. -/
theorem fits_two_of_many (op : NaryOp) :
    (ofShape (.group g .free a [c])).Fits [.is op.kind, e₁, e₂] n b ↔
      ∃ xs i j u v, n = .nary op xs ∧ i ≠ j ∧ xs[i]? = some u ∧ xs[j]? = some v ∧
        e₁.accepts u = true ∧ e₂.accepts v = true ∧ b = [[], [i], [j]] := by
  constructor
  · rintro ⟨hb, he⟩
    obtain ⟨-, i, u, hu, j, hij, v, hv, rfl⟩ := mem_bindings_two.mp hb
    obtain ⟨hn, hu', hv'⟩ : n.kind = op.kind ∧ e₁.accepts u = true ∧ e₂.accepts v = true := by
      simpa [hu, hv] using he
    obtain ⟨xs, rfl⟩ := Node.kind_eq_nary.mp hn
    rw [Node.at?_singleton] at hu hv
    exact ⟨xs, i, j, u, v, rfl, hij.symm, hu, hv, hu', hv', rfl⟩
  · rintro ⟨xs, i, j, u, v, rfl, hij, hu, hv, hu', hv', rfl⟩
    have hi := (List.getElem?_eq_some_iff.mp hu).1
    have hj := (List.getElem?_eq_some_iff.mp hv).1
    replace hu : (Node.nary op xs).at? [i] = some u := (Node.at?_singleton _ i).trans hu
    replace hv : (Node.nary op xs).at? [j] = some v := (Node.at?_singleton _ j).trans hv
    have harity : 2 ≤ xs.length := by omega
    exact ⟨mem_bindings_two.mpr ⟨harity, i, u, hu, j, hij.symm, v, hv, rfl⟩,
      by simp [hu, hv, hu', hv']⟩

/-- An operator on one operand, which is another such operator. -/
theorem fits_unary_unary (op op' : UnaryOp) :
    (ofShape (.group g .fixed (.group h .fixed a []) [])).Fits
        [.is op.kind, .is op'.kind, e₁] n b ↔
      ∃ u, n = .unary op (.unary op' u) ∧ e₁.accepts u = true ∧ b = [[], [0], [0, 0]] := by
  constructor
  · rintro ⟨hb, he⟩
    obtain ⟨-, u, hu, -, v, hv, rfl⟩ := mem_bindings_unary_unary.mp hb
    obtain ⟨hn, hu', hv'⟩ : n.kind = op.kind ∧ u.kind = op'.kind ∧ e₁.accepts v = true := by
      simpa [hu, hv] using he
    obtain ⟨x, rfl⟩ := Node.kind_eq_unary.mp hn
    obtain rfl : x = u := by simpa using hu
    obtain ⟨y, rfl⟩ := Node.kind_eq_unary.mp hu'
    obtain rfl : y = v := by simpa using hv
    exact ⟨y, rfl, hv', rfl⟩
  · rintro ⟨u, rfl, hu, rfl⟩
    exact ⟨mem_bindings_unary_unary.mpr ⟨Nat.le_refl 1, _, rfl, Nat.le_refl 1, u, rfl, rfl⟩,
      by simp [hu]⟩

/-- An operator on two operands, of which the first is an operator on one. -/
theorem fits_binary_unary (op : BinaryOp) (op' : UnaryOp) :
    (ofShape (.group g .fixed (.group h .fixed a []) [c])).Fits
        [.is op.kind, .is op'.kind, e₁, e₂] n b ↔
      ∃ u v, n = .binary op (.unary op' u) v ∧ e₁.accepts u = true ∧ e₂.accepts v = true ∧
        b = [[], [0], [0, 0], [1]] := by
  constructor
  · rintro ⟨hb, he⟩
    obtain ⟨-, u, hu, -, v, hv, w, hw, rfl⟩ := mem_bindings_binary_unary.mp hb
    obtain ⟨hn, hu', hv', hw'⟩ : n.kind = op.kind ∧ u.kind = op'.kind ∧ e₁.accepts v = true ∧
        e₂.accepts w = true := by
      simpa [hu, hv, hw] using he
    obtain ⟨x, y, rfl⟩ := Node.kind_eq_binary.mp hn
    obtain rfl : x = u := by simpa using hu
    obtain rfl : y = w := by simpa using hw
    obtain ⟨z, rfl⟩ := Node.kind_eq_unary.mp hu'
    obtain rfl : z = v := by simpa using hv
    exact ⟨z, y, rfl, hv', hw', rfl⟩
  · rintro ⟨u, v, rfl, hu, hv, rfl⟩
    exact ⟨mem_bindings_binary_unary.mpr
      ⟨Nat.le_refl 2, _, rfl, Nat.le_refl 1, u, rfl, v, rfl, rfl⟩, by simp [hu, hv]⟩

/-- An operator on two operands, of which the first is such an operator too. -/
theorem fits_binary_binary (op op' : BinaryOp) {e₃ : Expect} :
    (ofShape (.group g .fixed (.group h .fixed a [c]) [e])).Fits
        [.is op.kind, .is op'.kind, e₁, e₂, e₃] n b ↔
      ∃ u v w, n = .binary op (.binary op' u v) w ∧ e₁.accepts u = true ∧ e₂.accepts v = true ∧
        e₃.accepts w = true ∧ b = [[], [0], [0, 0], [0, 1], [1]] := by
  constructor
  · rintro ⟨hb, he⟩
    obtain ⟨-, u, hu, -, v, hv, w, hw, x, hx, rfl⟩ := mem_bindings_binary_binary.mp hb
    obtain ⟨hn, hu', hv', hw', hx'⟩ : n.kind = op.kind ∧ u.kind = op'.kind ∧
        e₁.accepts v = true ∧ e₂.accepts w = true ∧ e₃.accepts x = true := by
      simpa [hu, hv, hw, hx] using he
    obtain ⟨y, z, rfl⟩ := Node.kind_eq_binary.mp hn
    obtain rfl : y = u := by simpa using hu
    obtain rfl : z = x := by simpa using hx
    obtain ⟨v', w', rfl⟩ := Node.kind_eq_binary.mp hu'
    obtain rfl : v' = v := by simpa using hv
    obtain rfl : w' = w := by simpa using hw
    exact ⟨v', w', z, rfl, hv', hw', hx', rfl⟩
  · rintro ⟨u, v, w, rfl, hu, hv, hw, rfl⟩
    exact ⟨mem_bindings_binary_binary.mpr
      ⟨Nat.le_refl 2, _, rfl, Nat.le_refl 2, u, rfl, v, rfl, w, rfl, rfl⟩, by simp [hu, hv, hw]⟩

/-- An operator on two operands, in either order, of which one is an operator on one. -/
theorem fits_two_unary (op : BinaryOp) (op' : UnaryOp) :
    (ofShape (.group g .free a [.group h .fixed c []])).Fits
        [.is op.kind, e₁, .is op'.kind, e₂] n b ↔
      ∃ u v, e₁.accepts u = true ∧ e₂.accepts v = true ∧
        (n = .binary op u (.unary op' v) ∧ b = [[], [0], [1], [1, 0]] ∨
          n = .binary op (.unary op' v) u ∧ b = [[], [1], [0], [0, 0]]) := by
  constructor
  · rintro ⟨hb, he⟩
    obtain ⟨-, i, u, hu, j, hij, v, hv, -, w, hw, rfl⟩ := mem_bindings_two_unary.mp hb
    obtain ⟨hn, hu', hv', hw'⟩ : n.kind = op.kind ∧ e₁.accepts u = true ∧ v.kind = op'.kind ∧
        e₂.accepts w = true := by
      simpa [hu, hv, hw] using he
    obtain ⟨x, y, rfl⟩ := Node.kind_eq_binary.mp hn
    obtain ⟨z, rfl⟩ := Node.kind_eq_unary.mp hv'
    refine ⟨u, w, hu', hw', ?_⟩
    obtain ⟨rfl, rfl⟩ | ⟨rfl, rfl⟩ := Node.at?_binary_eq_some.mp hu <;>
      obtain ⟨rfl, rfl⟩ | ⟨rfl, rfl⟩ := Node.at?_binary_eq_some.mp hv
    · exact absurd rfl hij
    · obtain rfl : z = w := by simpa using hw
      exact .inl ⟨rfl, rfl⟩
    · obtain rfl : z = w := by simpa using hw
      exact .inr ⟨rfl, rfl⟩
    · exact absurd rfl hij
  · rintro ⟨u, v, hu, hv, ⟨rfl, rfl⟩ | ⟨rfl, rfl⟩⟩
    · exact ⟨mem_bindings_two_unary.mpr
        ⟨Nat.le_refl 2, 0, u, rfl, 1, by decide, _, rfl, Nat.le_refl 1, v, rfl, rfl⟩,
        by simp [hu, hv]⟩
    · exact ⟨mem_bindings_two_unary.mpr
        ⟨Nat.le_refl 2, 1, u, rfl, 0, by decide, _, rfl, Nat.le_refl 1, v, rfl, rfl⟩,
        by simp [hu, hv]⟩

end TreeRewriting
