/-
TreeRewriting/Proofs/Table/Algebra.lean

What the rules of algebra do to a tree.

Where a rule fits, the tree is written out, and so is the tree its action
leaves.  None of these statements needs the guard: no action looks for more
than what the pattern and the expectations have promised.  What the rules have
in common, guards and numbers aside, is the relation `Contracts`.  Where an
identity matches, its guard says more: what the number compares equal to, or
that both operands are the same.
-/
import TreeRewriting.Proofs.Node.Identity
import TreeRewriting.Proofs.Pattern.Fit
import TreeRewriting.Table.Algebra

namespace TreeRewriting.Algebra

variable {n : Node} {b : Binding}

/-! ### Constant folding -/

theorem fold_of_fits {name : String} {op : BinaryOp} {f : Number → Number → Number}
    (h : (fold name op.kind f).Fits n b) :
    ∃ x y, n = .binary op (.number x) (.number y) ∧ b = [[], [0], [1]] ∧
      (fold name op.kind f).rewrite n b = .done (.number (f x y)) := by
  obtain ⟨u, v, rfl, hu, hv, rfl⟩ := (fits_binary op).mp h
  obtain ⟨x, rfl⟩ := Node.kind_eq_number.mp (Expect.accepts_is.mp hu)
  obtain ⟨y, rfl⟩ := Node.kind_eq_number.mp (Expect.accepts_is.mp hv)
  exact ⟨x, y, rfl, rfl, rfl⟩

theorem foldNegate_of_fits (h : foldNegate.Fits n b) :
    ∃ x, n = .negate (.number x) ∧ b = [[], [0]] ∧
      foldNegate.rewrite n b = .done (.number (-x)) := by
  obtain ⟨u, rfl, hu, rfl⟩ := (fits_unary .negate).mp h
  obtain ⟨x, rfl⟩ := Node.kind_eq_number.mp (Expect.accepts_is.mp hu)
  exact ⟨x, rfl, rfl, rfl⟩

theorem foldLn_of_fits (h : foldLn.Fits n b) :
    ∃ x, n = .ln (.number x) ∧ b = [[], [0]] ∧ foldLn.rewrite n b = .done (.number x.log) := by
  obtain ⟨u, rfl, hu, rfl⟩ := (fits_unary .ln).mp h
  obtain ⟨x, rfl⟩ := Node.kind_eq_number.mp (Expect.accepts_is.mp hu)
  exact ⟨x, rfl, rfl, rfl⟩

/-! ### Identities -/

theorem dropUnit_of_fits {name : String} {op : BinaryOp} {unit : Number}
    (h : (dropUnit name op.kind unit).Fits n b) :
    ∃ x u, (n = .binary op (.number x) u ∧ b = [[], [0], [1]] ∨
        n = .binary op u (.number x) ∧ b = [[], [1], [0]]) ∧
      (dropUnit name op.kind unit).rewrite n b = .done u := by
  obtain ⟨v, u, hv, -, hn⟩ := (fits_two op).mp h
  obtain ⟨x, rfl⟩ := Node.kind_eq_number.mp (Expect.accepts_is.mp hv)
  refine ⟨x, u, hn, ?_⟩
  obtain ⟨rfl, rfl⟩ | ⟨rfl, rfl⟩ := hn <;> rfl

theorem productByZero_of_fits (h : productByZero.Fits n b) :
    ∃ x u, (n = .product (.number x) u ∧ b = [[], [0], [1]] ∨
        n = .product u (.number x) ∧ b = [[], [1], [0]]) ∧
      productByZero.rewrite n b = .done (.number 0) := by
  obtain ⟨v, u, hv, -, hn⟩ := (fits_two .product).mp h
  obtain ⟨x, rfl⟩ := Node.kind_eq_number.mp (Expect.accepts_is.mp hv)
  refine ⟨x, u, hn, ?_⟩
  obtain ⟨rfl, rfl⟩ | ⟨rfl, rfl⟩ := hn <;> rfl

theorem powerOne_of_fits (h : powerOne.Fits n b) :
    ∃ u k, n = .power u (.number k) ∧ b = [[], [0], [1]] ∧ powerOne.rewrite n b = .done u := by
  obtain ⟨u, v, rfl, -, hv, rfl⟩ := (fits_binary .power).mp h
  obtain ⟨k, rfl⟩ := Node.kind_eq_number.mp (Expect.accepts_is.mp hv)
  exact ⟨u, k, rfl, rfl, rfl⟩

theorem powerZero_of_fits (h : powerZero.Fits n b) :
    ∃ u k, n = .power u (.number k) ∧ b = [[], [0], [1]] ∧
      powerZero.rewrite n b = .done (.number 1) := by
  obtain ⟨u, v, rfl, -, hv, rfl⟩ := (fits_binary .power).mp h
  obtain ⟨k, rfl⟩ := Node.kind_eq_number.mp (Expect.accepts_is.mp hv)
  exact ⟨u, k, rfl, rfl, rfl⟩

theorem negateNegate_of_fits (h : negateNegate.Fits n b) :
    ∃ u, n = .negate (.negate u) ∧ b = [[], [0], [0, 0]] ∧
      negateNegate.rewrite n b = .done u := by
  obtain ⟨u, rfl, -, rfl⟩ := (fits_unary_unary .negate .negate).mp h
  exact ⟨u, rfl, rfl, rfl⟩

theorem lnOne_of_fits (h : lnOne.Fits n b) :
    ∃ x, n = .ln (.number x) ∧ b = [[], [0]] ∧ lnOne.rewrite n b = .done (.number 0) := by
  obtain ⟨u, rfl, hu, rfl⟩ := (fits_unary .ln).mp h
  obtain ⟨x, rfl⟩ := Node.kind_eq_number.mp (Expect.accepts_is.mp hu)
  exact ⟨x, rfl, rfl, rfl⟩

theorem plusSelf_of_fits (h : plusSelf.Fits n b) :
    ∃ u v, n = .plus u v ∧ b = [[], [0], [1]] ∧
      plusSelf.rewrite n b = .done (.product (.number 2) u) := by
  obtain ⟨u, v, rfl, -, -, rfl⟩ := (fits_binary .plus).mp h
  exact ⟨u, v, rfl, rfl, rfl⟩

/-! ### Guards -/

theorem dropUnit_of_find? {name : String} {op : BinaryOp} {unit : Number}
    (h : (dropUnit name op.kind unit).find? n = some b) :
    ∃ x u, (x == unit) = true ∧ (n = .binary op (.number x) u ∨ n = .binary op u (.number x)) ∧
      (dropUnit name op.kind unit).rewrite n b = .done u := by
  obtain ⟨hfit, hguard⟩ := Rule.fits_of_find? h
  obtain ⟨x, u, hn, hdone⟩ := dropUnit_of_fits hfit
  rcases hn with ⟨rfl, rfl⟩ | ⟨rfl, rfl⟩
  · exact ⟨x, u, hguard _ rfl, .inl rfl, hdone⟩
  · exact ⟨x, u, hguard _ rfl, .inr rfl, hdone⟩

theorem productByZero_of_find? (h : productByZero.find? n = some b) :
    ∃ x u, (x == 0) = true ∧ (n = .product (.number x) u ∨ n = .product u (.number x)) ∧
      productByZero.rewrite n b = .done (.number 0) := by
  obtain ⟨hfit, hguard⟩ := Rule.fits_of_find? h
  obtain ⟨x, u, hn, hdone⟩ := productByZero_of_fits hfit
  rcases hn with ⟨rfl, rfl⟩ | ⟨rfl, rfl⟩
  · exact ⟨x, u, hguard _ rfl, .inl rfl, hdone⟩
  · exact ⟨x, u, hguard _ rfl, .inr rfl, hdone⟩

theorem powerOne_of_find? (h : powerOne.find? n = some b) :
    ∃ u k, (k == 1) = true ∧ n = .power u (.number k) ∧ powerOne.rewrite n b = .done u := by
  obtain ⟨hfit, hguard⟩ := Rule.fits_of_find? h
  obtain ⟨u, k, rfl, rfl, hdone⟩ := powerOne_of_fits hfit
  exact ⟨u, k, hguard _ rfl, rfl, hdone⟩

theorem powerZero_of_find? (h : powerZero.find? n = some b) :
    ∃ u k, (k == 0) = true ∧ n = .power u (.number k) ∧
      powerZero.rewrite n b = .done (.number 1) := by
  obtain ⟨hfit, hguard⟩ := Rule.fits_of_find? h
  obtain ⟨u, k, rfl, rfl, hdone⟩ := powerZero_of_fits hfit
  exact ⟨u, k, hguard _ rfl, rfl, hdone⟩

theorem lnOne_of_find? (h : lnOne.find? n = some b) :
    ∃ x, (x == 1) = true ∧ n = .ln (.number x) ∧ lnOne.rewrite n b = .done (.number 0) := by
  obtain ⟨hfit, hguard⟩ := Rule.fits_of_find? h
  obtain ⟨x, rfl, rfl, hdone⟩ := lnOne_of_fits hfit
  exact ⟨x, hguard _ rfl, rfl, hdone⟩

theorem plusSelf_of_find? (h : plusSelf.find? n = some b) :
    ∃ u, u.kind.isConstant = false ∧ n = .plus u u ∧
      plusSelf.rewrite n b = .done (.product (.number 2) u) := by
  obtain ⟨hfit, hguard⟩ := Rule.fits_of_find? h
  obtain ⟨u, v, rfl, rfl, hdone⟩ := plusSelf_of_fits hfit
  have hpassed : (!u.kind.isConstant && u.structurallyEqual true v) = true := hguard _ rfl
  obtain ⟨hconstant, huv⟩ := Bool.and_eq_true_iff.mp hpassed
  obtain rfl : u = v := Node.structurallyEqual_strict_iff.mp huv
  exact ⟨u, (Bool.not_eq_true' _).mp hconstant, rfl, hdone⟩

/-! ### The table -/

/-- The kinds of nodes that the rules of algebra rewrite. -/
theorem kind_of_fits {r : Rule} (h : r ∈ rules) (hfit : r.Fits n b) :
    n.kind ∈ [Kind.negate, .ln, .plus, .product, .power] := by
  have htop : ∀ r ∈ rules, ∃ k ∈ [Kind.negate, .ln, .plus, .product, .power],
      r.expects.head? = some (.is k) := by
    decide
  exact Rule.kind_mem_of_fits (htop r h) hfit

/-- What a rule of algebra makes of a node, when neither guards nor the values of numbers are
looked at. -/
inductive Contracts : Node → Node → Prop
  | fold (op : BinaryOp) (x y z : Number) :
      Contracts (.binary op (.number x) (.number y)) (.number z)
  | foldUnary (op : UnaryOp) (x z : Number) : Contracts (.unary op (.number x)) (.number z)
  | dropLeft (op : BinaryOp) (x : Number) (u : Node) : Contracts (.binary op (.number x) u) u
  | dropRight (op : BinaryOp) (x : Number) (u : Node) : Contracts (.binary op u (.number x)) u
  | absorbLeft (op : BinaryOp) (x z : Number) (u : Node) :
      Contracts (.binary op (.number x) u) (.number z)
  | absorbRight (op : BinaryOp) (x z : Number) (u : Node) :
      Contracts (.binary op u (.number x)) (.number z)
  | negateNegate (u : Node) : Contracts (.negate (.negate u)) u
  | plusSelf (u v : Node) : Contracts (.plus u v) (.product (.number 2) u)

/-- What holds of each kind of rule holds of every rule of the table. -/
@[elab_as_elim]
theorem rules_cases {motive : Rule → Prop}
    (fold : ∀ name (op : BinaryOp) f, motive (fold name op.kind f))
    (foldNegate : motive foldNegate) (foldLn : motive foldLn)
    (dropUnit : ∀ name (op : BinaryOp) unit, motive (dropUnit name op.kind unit))
    (productByZero : motive productByZero) (powerOne : motive powerOne)
    (powerZero : motive powerZero) (negateNegate : motive negateNegate) (lnOne : motive lnOne)
    (plusSelf : motive plusSelf) {r : Rule} (h : r ∈ rules) : motive r := by
  simp only [rules, folding, identities, List.cons_append, List.nil_append, List.mem_cons,
    List.not_mem_nil, or_false] at h
  rcases h with rfl | rfl | rfl | rfl | rfl | rfl | rfl | rfl | rfl | rfl | rfl | rfl | rfl
  · exact fold _ .plus _
  · exact fold _ .product _
  · exact fold _ .power _
  · exact foldNegate
  · exact foldLn
  · exact dropUnit _ .plus _
  · exact dropUnit _ .product _
  · exact productByZero
  · exact powerOne
  · exact powerZero
  · exact negateNegate
  · exact lnOne
  · exact plusSelf

/-- Where a rule of the table fits, its action contracts the node and does not fault. -/
theorem contracts_of_fits {r : Rule} (h : r ∈ rules) (hfit : r.Fits n b) :
    ∃ m, r.rewrite n b = .done m ∧ Contracts n m := by
  revert hfit
  refine rules_cases ?fold ?foldNegate ?foldLn ?dropUnit ?productByZero ?powerOne ?powerZero
    ?negateNegate ?lnOne ?plusSelf h
  case fold =>
    intro name op f hfit
    obtain ⟨x, y, rfl, -, hdone⟩ := fold_of_fits hfit
    exact ⟨_, hdone, .fold op x y _⟩
  case foldNegate =>
    intro hfit
    obtain ⟨x, rfl, -, hdone⟩ := foldNegate_of_fits hfit
    exact ⟨_, hdone, .foldUnary .negate x _⟩
  case foldLn =>
    intro hfit
    obtain ⟨x, rfl, -, hdone⟩ := foldLn_of_fits hfit
    exact ⟨_, hdone, .foldUnary .ln x _⟩
  case dropUnit =>
    intro name op unit hfit
    obtain ⟨x, u, ⟨rfl, -⟩ | ⟨rfl, -⟩, hdone⟩ := dropUnit_of_fits hfit
    · exact ⟨_, hdone, .dropLeft op x u⟩
    · exact ⟨_, hdone, .dropRight op x u⟩
  case productByZero =>
    intro hfit
    obtain ⟨x, u, ⟨rfl, -⟩ | ⟨rfl, -⟩, hdone⟩ := productByZero_of_fits hfit
    · exact ⟨_, hdone, .absorbLeft .product x _ u⟩
    · exact ⟨_, hdone, .absorbRight .product x _ u⟩
  case powerOne =>
    intro hfit
    obtain ⟨u, k, rfl, -, hdone⟩ := powerOne_of_fits hfit
    exact ⟨_, hdone, .dropRight .power k u⟩
  case powerZero =>
    intro hfit
    obtain ⟨u, k, rfl, -, hdone⟩ := powerZero_of_fits hfit
    exact ⟨_, hdone, .absorbRight .power k _ u⟩
  case negateNegate =>
    intro hfit
    obtain ⟨u, rfl, -, hdone⟩ := negateNegate_of_fits hfit
    exact ⟨_, hdone, .negateNegate u⟩
  case lnOne =>
    intro hfit
    obtain ⟨x, rfl, -, hdone⟩ := lnOne_of_fits hfit
    exact ⟨_, hdone, .foldUnary .ln x _⟩
  case plusSelf =>
    intro hfit
    obtain ⟨u, v, rfl, -, hdone⟩ := plusSelf_of_fits hfit
    exact ⟨_, hdone, .plusSelf u v⟩

end TreeRewriting.Algebra
