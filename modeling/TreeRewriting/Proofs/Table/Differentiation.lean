/-
TreeRewriting/Proofs/Table/Differentiation.lean

What the rules of differentiation do to a tree.

Where a rule fits, the tree is written out, and so is the tree its action
leaves.  Operands that occur twice in the result are copied before they are
taken, and a position is not looked at again once a subtree above it is gone.
What the rules have in common, guards and numbers aside, is the relation
`Contracts`.  Only the two rules for variables have guards, which tell them
apart.
-/
import TreeRewriting.Proofs.Pattern.Fit
import TreeRewriting.Table.Differentiation

namespace TreeRewriting.Differentiation

variable {n : Node} {b : Binding}

/-! ### Leaves -/

theorem constant_of_fits (h : constant.Fits n b) :
    ∃ c i, n = .differentiate (.number c) (.var i) ∧ b = [[], [0], [1]] ∧
      constant.rewrite n b = .done (.number 0) := by
  obtain ⟨u, v, rfl, hu, hv, rfl⟩ := (fits_binary .differentiate).mp h
  obtain ⟨c, rfl⟩ := Node.kind_eq_number.mp (Expect.accepts_is.mp hu)
  obtain ⟨i, rfl⟩ := Node.kind_eq_var.mp (Expect.accepts_is.mp hv)
  exact ⟨c, i, rfl, rfl, rfl⟩

theorem self_of_fits (h : self.Fits n b) :
    ∃ j i, n = .differentiate (.var j) (.var i) ∧ b = [[], [0], [1]] ∧
      self.rewrite n b = .done (.number 1) := by
  obtain ⟨u, v, rfl, hu, hv, rfl⟩ := (fits_binary .differentiate).mp h
  obtain ⟨j, rfl⟩ := Node.kind_eq_var.mp (Expect.accepts_is.mp hu)
  obtain ⟨i, rfl⟩ := Node.kind_eq_var.mp (Expect.accepts_is.mp hv)
  exact ⟨j, i, rfl, rfl, rfl⟩

theorem otherVariable_of_fits (h : otherVariable.Fits n b) :
    ∃ j i, n = .differentiate (.var j) (.var i) ∧ b = [[], [0], [1]] ∧
      otherVariable.rewrite n b = .done (.number 0) := by
  obtain ⟨u, v, rfl, hu, hv, rfl⟩ := (fits_binary .differentiate).mp h
  obtain ⟨j, rfl⟩ := Node.kind_eq_var.mp (Expect.accepts_is.mp hu)
  obtain ⟨i, rfl⟩ := Node.kind_eq_var.mp (Expect.accepts_is.mp hv)
  exact ⟨j, i, rfl, rfl, rfl⟩

/-! ### Operators -/

theorem plus_of_fits (h : plus.Fits n b) :
    ∃ u v i, n = .differentiate (.plus u v) (.var i) ∧ b = [[], [0], [0, 0], [0, 1], [1]] ∧
      plus.rewrite n b
        = .done (.plus (.differentiate u (.var i)) (.differentiate v (.var i))) := by
  obtain ⟨u, v, x, rfl, -, -, hx, rfl⟩ := (fits_binary_binary .differentiate .plus).mp h
  obtain ⟨i, rfl⟩ := Node.kind_eq_var.mp (Expect.accepts_is.mp hx)
  exact ⟨u, v, i, rfl, rfl, rfl⟩

theorem product_of_fits (h : product.Fits n b) :
    ∃ u v i, n = .differentiate (.product u v) (.var i) ∧ b = [[], [0], [0, 0], [0, 1], [1]] ∧
      product.rewrite n b
        = .done (.plus (.product (.differentiate u (.var i)) v)
            (.product (.differentiate v (.var i)) u)) := by
  obtain ⟨u, v, x, rfl, -, -, hx, rfl⟩ := (fits_binary_binary .differentiate .product).mp h
  obtain ⟨i, rfl⟩ := Node.kind_eq_var.mp (Expect.accepts_is.mp hx)
  exact ⟨u, v, i, rfl, rfl, rfl⟩

theorem negate_of_fits (h : negate.Fits n b) :
    ∃ u i, n = .differentiate (.negate u) (.var i) ∧ b = [[], [0], [0, 0], [1]] ∧
      negate.rewrite n b = .done (.negate (.differentiate u (.var i))) := by
  obtain ⟨u, x, rfl, -, hx, rfl⟩ := (fits_binary_unary .differentiate .negate).mp h
  obtain ⟨i, rfl⟩ := Node.kind_eq_var.mp (Expect.accepts_is.mp hx)
  exact ⟨u, i, rfl, rfl, rfl⟩

theorem power_of_fits (h : power.Fits n b) :
    ∃ u k i, n = .differentiate (.power u (.number k)) (.var i) ∧
      b = [[], [0], [0, 0], [0, 1], [1]] ∧
      power.rewrite n b
        = .done (.product (.product (.number k) (.power u (.number (k - 1))))
            (.differentiate u (.var i))) := by
  obtain ⟨u, v, x, rfl, -, hv, hx, rfl⟩ := (fits_binary_binary .differentiate .power).mp h
  obtain ⟨k, rfl⟩ := Node.kind_eq_number.mp (Expect.accepts_is.mp hv)
  obtain ⟨i, rfl⟩ := Node.kind_eq_var.mp (Expect.accepts_is.mp hx)
  exact ⟨u, k, i, rfl, rfl, rfl⟩

theorem ln_of_fits (h : ln.Fits n b) :
    ∃ u i, n = .differentiate (.ln u) (.var i) ∧ b = [[], [0], [0, 0], [1]] ∧
      ln.rewrite n b
        = .done (.product (.differentiate u (.var i)) (.power u (.number (-1)))) := by
  obtain ⟨u, x, rfl, -, hx, rfl⟩ := (fits_binary_unary .differentiate .ln).mp h
  obtain ⟨i, rfl⟩ := Node.kind_eq_var.mp (Expect.accepts_is.mp hx)
  exact ⟨u, i, rfl, rfl, rfl⟩

/-! ### Guards -/

theorem self_of_find? (h : self.find? n = some b) :
    ∃ i, n = .differentiate (.var i) (.var i) ∧ self.rewrite n b = .done (.number 1) := by
  obtain ⟨hfit, hguard⟩ := Rule.fits_of_find? h
  obtain ⟨j, i, rfl, rfl, hdone⟩ := self_of_fits hfit
  have hji : (some j == some i) = true := hguard _ rfl
  obtain rfl : j = i := Option.some.inj (beq_iff_eq.mp hji)
  exact ⟨j, rfl, hdone⟩

theorem otherVariable_of_find? (h : otherVariable.find? n = some b) :
    ∃ j i, j ≠ i ∧ n = .differentiate (.var j) (.var i) ∧
      otherVariable.rewrite n b = .done (.number 0) := by
  obtain ⟨hfit, hguard⟩ := Rule.fits_of_find? h
  obtain ⟨j, i, rfl, rfl, hdone⟩ := otherVariable_of_fits hfit
  have hji : (some j != some i) = true := hguard _ rfl
  refine ⟨j, i, ?_, rfl, hdone⟩
  rintro rfl
  exact bne_iff_ne.mp hji rfl

/-! ### The table -/

/-- The rules of differentiation rewrite derivatives only. -/
theorem kind_of_fits {r : Rule} (h : r ∈ rules) (hfit : r.Fits n b) :
    n.kind = .differentiate := by
  have htop : ∀ r ∈ rules, ∃ k ∈ [Kind.differentiate], r.expects.head? = some (.is k) := by
    decide
  exact List.mem_singleton.mp (Rule.kind_mem_of_fits (htop r h) hfit)

/-- What a rule of differentiation makes of a node, when neither guards nor the values of
numbers are looked at. -/
inductive Contracts : Node → Node → Prop
  | leaf (l : Leaf) (i : Nat) (z : Number) :
      Contracts (.differentiate (.leaf l) (.var i)) (.number z)
  | plus (u v : Node) (i : Nat) :
      Contracts (.differentiate (.plus u v) (.var i))
        (.plus (.differentiate u (.var i)) (.differentiate v (.var i)))
  | product (u v : Node) (i : Nat) :
      Contracts (.differentiate (.product u v) (.var i))
        (.plus (.product (.differentiate u (.var i)) v) (.product (.differentiate v (.var i)) u))
  | negate (u : Node) (i : Nat) :
      Contracts (.differentiate (.negate u) (.var i)) (.negate (.differentiate u (.var i)))
  | power (u : Node) (k k' : Number) (i : Nat) :
      Contracts (.differentiate (.power u (.number k)) (.var i))
        (.product (.product (.number k) (.power u (.number k'))) (.differentiate u (.var i)))
  | ln (u : Node) (i : Nat) (z : Number) :
      Contracts (.differentiate (.ln u) (.var i))
        (.product (.differentiate u (.var i)) (.power u (.number z)))

/-- What holds of each rule holds of every rule of the table. -/
@[elab_as_elim]
theorem rules_cases {motive : Rule → Prop} (constant : motive constant) (self : motive self)
    (otherVariable : motive otherVariable) (plus : motive plus) (product : motive product)
    (negate : motive negate) (power : motive power) (ln : motive ln) {r : Rule}
    (h : r ∈ rules) : motive r := by
  simp only [rules, List.mem_cons, List.not_mem_nil, or_false] at h
  rcases h with rfl | rfl | rfl | rfl | rfl | rfl | rfl | rfl
  · exact constant
  · exact self
  · exact otherVariable
  · exact plus
  · exact product
  · exact negate
  · exact power
  · exact ln

/-- Where a rule of the table fits, its action contracts the node and does not fault. -/
theorem contracts_of_fits {r : Rule} (h : r ∈ rules) (hfit : r.Fits n b) :
    ∃ m, r.rewrite n b = .done m ∧ Contracts n m := by
  revert hfit
  refine rules_cases ?constant ?self ?otherVariable ?plus ?product ?negate ?power ?ln h
  case constant =>
    intro hfit
    obtain ⟨c, i, rfl, -, hdone⟩ := constant_of_fits hfit
    exact ⟨_, hdone, .leaf (.number c) i _⟩
  case self =>
    intro hfit
    obtain ⟨j, i, rfl, -, hdone⟩ := self_of_fits hfit
    exact ⟨_, hdone, .leaf (.var j) i _⟩
  case otherVariable =>
    intro hfit
    obtain ⟨j, i, rfl, -, hdone⟩ := otherVariable_of_fits hfit
    exact ⟨_, hdone, .leaf (.var j) i _⟩
  case plus =>
    intro hfit
    obtain ⟨u, v, i, rfl, -, hdone⟩ := plus_of_fits hfit
    exact ⟨_, hdone, .plus u v i⟩
  case product =>
    intro hfit
    obtain ⟨u, v, i, rfl, -, hdone⟩ := product_of_fits hfit
    exact ⟨_, hdone, .product u v i⟩
  case negate =>
    intro hfit
    obtain ⟨u, i, rfl, -, hdone⟩ := negate_of_fits hfit
    exact ⟨_, hdone, .negate u i⟩
  case power =>
    intro hfit
    obtain ⟨u, k, i, rfl, -, hdone⟩ := power_of_fits hfit
    exact ⟨_, hdone, .power u k _ i⟩
  case ln =>
    intro hfit
    obtain ⟨u, i, rfl, -, hdone⟩ := ln_of_fits hfit
    exact ⟨_, hdone, .ln u i _⟩

end TreeRewriting.Differentiation
