/-
TreeRewriting/Proofs/Table/Finiteness.lean

No rule introduces an infinity or a not-a-number.

Design.  A rule that copies, moves or drops subtrees leaves no number that was
not there before.  The others make numbers of their own: constants of the table,
results of the three operators whose guards ask for a finite result, negations,
exponents lowered by one, and logarithms.  Negation and subtraction of one are
finite on finite numbers (`isFinite_neg`, `isFinite_sub_one`).  The logarithm is
the platform's, and the guard of its rule looks at the operand only.  It is
therefore a parameter here (`allBy`), of which nothing else is asked than that it
be finite on finite positive numbers.

Main result: `Table.numbers_stay_finite`.
-/
import TreeRewriting.Proofs.Node.Finiteness
import TreeRewriting.Proofs.Number.Finiteness
import TreeRewriting.Proofs.Session.Preservation
import TreeRewriting.Proofs.Table.Contraction

namespace TreeRewriting

open Node

variable {n m : Node} {b : Binding}

theorem Node.staysFinite_precongruence : Precongruence StaysFinite where
  refl _ := id
  trans hnm hmo hn := hmo (hnm hn)
  context := contextClosed_staysFinite

/-! ### Algebra -/

namespace Algebra

open Rewriting

/-- Takes the logarithm of a positive number, with the given logarithm. -/
def foldLnBy (log : Number → Number) : Rule :=
  { foldLn with
    action := do
      let a ← read (·.number "a")
      replace "l" (.number (log a)) }

/-- The rules of algebra with the given logarithm. -/
def rulesBy (log : Number → Number) : List Rule :=
  [foldPlus, foldProduct, foldPower, foldNegate, foldLnBy log] ++ identities

/-- With the logarithm of the platform these are the rules of algebra. -/
theorem rulesBy_log : rulesBy Number.log = rules := rfl

variable {log : Number → Number}

theorem foldLnBy_of_find? (h : (foldLnBy log).find? n = some b) :
    ∃ x, 0 < x ∧ n = .ln (.number x) ∧
      (foldLnBy log).rewrite n b = .done (.number (log x)) := by
  obtain ⟨hfit, hguard⟩ := Rule.fits_of_find? h
  obtain ⟨u, rfl, hu, rfl⟩ := (fits_unary .ln).mp hfit
  obtain ⟨x, rfl⟩ := Node.kind_eq_number.mp (Expect.accepts_is.mp hu)
  have hpositive : decide (x > 0) = true := hguard _ rfl
  exact ⟨x, of_decide_eq_true hpositive, rfl, rfl⟩

/-- What an operator on two numbers gives is put into the tree only if it is finite. -/
theorem fold_of_find? {name : String} {op : BinaryOp} {f : Number → Number → Number}
    (h : (fold name op.kind f).find? n = some b) :
    ∃ x y, (f x y).isFinite = true ∧ n = .binary op (.number x) (.number y) ∧
      (fold name op.kind f).rewrite n b = .done (.number (f x y)) := by
  obtain ⟨hfit, hguard⟩ := Rule.fits_of_find? h
  obtain ⟨x, y, rfl, rfl, hdone⟩ := fold_of_fits hfit
  exact ⟨x, y, hguard _ rfl, rfl, hdone⟩

theorem fold_keeps_finite (name : String) (op : BinaryOp) (f : Number → Number → Number) :
    (fold name op.kind f).Keeps StaysFinite := by
  apply Rule.keeps_of_done
  intro n b hfind
  obtain ⟨x, y, hxy, rfl, hdone⟩ := fold_of_find? hfind
  exact ⟨_, hdone, fun _ => finiteNumbers_number.mpr hxy⟩

theorem foldNegate_keeps_finite : foldNegate.Keeps StaysFinite := by
  apply Rule.keeps_of_fits
  intro n b hfit
  obtain ⟨x, rfl, -, hdone⟩ := foldNegate_of_fits hfit
  refine ⟨_, hdone, ?_⟩
  intro hn
  have hx : x.isFinite = true := by simpa using hn
  exact finiteNumbers_number.mpr (Number.isFinite_neg hx)

theorem foldLnBy_keeps_finite
    (hlog : ∀ x : Number, x.isFinite = true → 0 < x → (log x).isFinite = true) :
    (foldLnBy log).Keeps StaysFinite := by
  apply Rule.keeps_of_done
  intro n b hfind
  obtain ⟨x, hpositive, rfl, hdone⟩ := foldLnBy_of_find? hfind
  refine ⟨_, hdone, ?_⟩
  intro hn
  have hx : x.isFinite = true := by simpa using hn
  exact finiteNumbers_number.mpr (hlog x hx hpositive)

theorem dropUnit_keeps_finite (name : String) (op : BinaryOp) (unit : Number) :
    (dropUnit name op.kind unit).Keeps StaysFinite := by
  apply Rule.keeps_of_fits
  intro n b hfit
  obtain ⟨x, u, ⟨rfl, -⟩ | ⟨rfl, -⟩, hdone⟩ := dropUnit_of_fits hfit
  · exact ⟨_, hdone, fun hn => (finiteNumbers_binary.mp hn).2⟩
  · exact ⟨_, hdone, fun hn => (finiteNumbers_binary.mp hn).1⟩

theorem productByZero_keeps_finite : productByZero.Keeps StaysFinite := by
  apply Rule.keeps_of_fits
  intro n b hfit
  obtain ⟨x, u, -, hdone⟩ := productByZero_of_fits hfit
  exact ⟨_, hdone, fun _ => finiteNumbers_number.mpr Number.isFinite_zero⟩

theorem powerOne_keeps_finite : powerOne.Keeps StaysFinite := by
  apply Rule.keeps_of_fits
  intro n b hfit
  obtain ⟨u, k, rfl, -, hdone⟩ := powerOne_of_fits hfit
  exact ⟨_, hdone, fun hn => (finiteNumbers_binary.mp hn).1⟩

theorem powerZero_keeps_finite : powerZero.Keeps StaysFinite := by
  apply Rule.keeps_of_fits
  intro n b hfit
  obtain ⟨u, k, -, -, hdone⟩ := powerZero_of_fits hfit
  exact ⟨_, hdone, fun _ => finiteNumbers_number.mpr Number.isFinite_one⟩

theorem negateNegate_keeps_finite : negateNegate.Keeps StaysFinite := by
  apply Rule.keeps_of_fits
  intro n b hfit
  obtain ⟨u, rfl, -, hdone⟩ := negateNegate_of_fits hfit
  refine ⟨_, hdone, ?_⟩
  intro hn
  simpa using hn

theorem lnOne_keeps_finite : lnOne.Keeps StaysFinite := by
  apply Rule.keeps_of_fits
  intro n b hfit
  obtain ⟨x, -, -, hdone⟩ := lnOne_of_fits hfit
  exact ⟨_, hdone, fun _ => finiteNumbers_number.mpr Number.isFinite_zero⟩

theorem plusSelf_keeps_finite : plusSelf.Keeps StaysFinite := by
  apply Rule.keeps_of_fits
  intro n b hfit
  obtain ⟨u, v, rfl, -, hdone⟩ := plusSelf_of_fits hfit
  refine ⟨_, hdone, ?_⟩
  intro hn
  have hu : u.FiniteNumbers := (finiteNumbers_binary.mp hn).1
  simp [hu]

/-- No rule of algebra makes a number that is not finite. -/
theorem rulesBy_keep_finite
    (hlog : ∀ x : Number, x.isFinite = true → 0 < x → (log x).isFinite = true) :
    ∀ r ∈ rulesBy log, r.Keeps StaysFinite := by
  intro r h
  simp only [rulesBy, identities, List.cons_append, List.nil_append, List.mem_cons,
    List.not_mem_nil, or_false] at h
  rcases h with rfl | rfl | rfl | rfl | rfl | rfl | rfl | rfl | rfl | rfl | rfl | rfl | rfl
  · exact fold_keeps_finite _ .plus _
  · exact fold_keeps_finite _ .product _
  · exact fold_keeps_finite _ .power _
  · exact foldNegate_keeps_finite
  · exact foldLnBy_keeps_finite hlog
  · exact dropUnit_keeps_finite _ .plus _
  · exact dropUnit_keeps_finite _ .product _
  · exact productByZero_keeps_finite
  · exact powerOne_keeps_finite
  · exact powerZero_keeps_finite
  · exact negateNegate_keeps_finite
  · exact lnOne_keeps_finite
  · exact plusSelf_keeps_finite

end Algebra

/-! ### Differentiation -/

/-- No rule of differentiation makes a number that is not finite. -/
theorem Differentiation.rules_keep_finite {r : Rule} (h : r ∈ Differentiation.rules) :
    r.Keeps StaysFinite := by
  apply Rule.keeps_of_fits
  intro n b
  refine rules_cases ?constant ?self ?otherVariable ?plus ?product ?negate ?power ?ln h
  case constant =>
    intro hfit
    obtain ⟨c, i, -, -, hdone⟩ := constant_of_fits hfit
    exact ⟨_, hdone, fun _ => finiteNumbers_number.mpr Number.isFinite_zero⟩
  case self =>
    intro hfit
    obtain ⟨j, i, -, -, hdone⟩ := self_of_fits hfit
    exact ⟨_, hdone, fun _ => finiteNumbers_number.mpr Number.isFinite_one⟩
  case otherVariable =>
    intro hfit
    obtain ⟨j, i, -, -, hdone⟩ := otherVariable_of_fits hfit
    exact ⟨_, hdone, fun _ => finiteNumbers_number.mpr Number.isFinite_zero⟩
  case plus =>
    intro hfit
    obtain ⟨u, v, i, rfl, -, hdone⟩ := plus_of_fits hfit
    refine ⟨_, hdone, ?_⟩
    intro hn
    simpa using hn
  case product =>
    intro hfit
    obtain ⟨u, v, i, rfl, -, hdone⟩ := product_of_fits hfit
    refine ⟨_, hdone, ?_⟩
    intro hn
    have huv : u.FiniteNumbers ∧ v.FiniteNumbers := by simpa using hn
    simp [huv]
  case negate =>
    intro hfit
    obtain ⟨u, i, rfl, -, hdone⟩ := negate_of_fits hfit
    refine ⟨_, hdone, ?_⟩
    intro hn
    simpa using hn
  case power =>
    intro hfit
    obtain ⟨u, k, i, rfl, -, hdone⟩ := power_of_fits hfit
    refine ⟨_, hdone, ?_⟩
    intro hn
    obtain ⟨hu, hk⟩ : u.FiniteNumbers ∧ k.isFinite = true := by simpa using hn
    simp [hu, hk, Number.isFinite_sub_one hk]
  case ln =>
    intro hfit
    obtain ⟨u, i, rfl, -, hdone⟩ := ln_of_fits hfit
    refine ⟨_, hdone, ?_⟩
    intro hn
    have hu : u.FiniteNumbers := by simpa using hn
    simp [hu]

/-! ### Logic -/

namespace Logic

/-- What a rule of logic leaves are operands and truth constants. -/
theorem Contracts.staysFinite (h : Contracts n m) : StaysFinite n m := by
  intro hn
  cases h with
  | notNot u => simpa using hn
  | notConstant t => exact finiteNumbers_bool _
  | keepLeft op u v => exact (finiteNumbers_binary.mp hn).1
  | keepRight op u v => exact (finiteNumbers_binary.mp hn).2
  | decide op u v t => exact finiteNumbers_bool t
  | tautology => exact finiteNumbers_bool true

theorem rules_keep_finite {r : Rule} (h : r ∈ rules) : r.Keeps StaysFinite := by
  apply Rule.keeps_of_fits
  intro n b hfit
  obtain ⟨m, hdone, hm⟩ := contracts_of_fits h hfit
  exact ⟨m, hdone, hm.staysFinite⟩

end Logic

/-! ### Resolution -/

namespace Resolution

theorem finiteNumbers_resolvent (s : Substitution) (i : Nat) {ls : List Node}
    (h : (Node.clause ls).FiniteNumbers) : (resolvent s i (.clause ls)).FiniteNumbers := by
  show (s.applyNode (.clause (ls.eraseIdx i))).FiniteNumbers
  rw [finiteNumbers_applyNode, finiteNumbers_nary]
  intro u hu
  exact finiteNumbers_nary.mp h u (List.mem_of_mem_eraseIdx hu)

/-- Both clauses are put back with numbers that they had before. -/
theorem Clash.staysFinite_resolve (c : Clash n) (s : Substitution) :
    StaysFinite n (c.resolve s) := by
  -- the right clause is still in its place when the left one has been put back
  have hleft : StaysFinite n (n.set [c.i] (resolvent s c.k (.clause c.ls))) :=
    contextClosed_staysFinite.set c.left (finiteNumbers_resolvent s c.k)
  have hright := contextClosed_staysFinite.set (c.right_after (resolvent s c.k (.clause c.ls)))
    (finiteNumbers_resolvent s c.l)
  intro hn
  exact hright (hleft hn)

theorem rule_keeps_finite (check : Bool) : (rule check).Keeps StaysFinite := by
  apply Rule.keeps_of_done
  intro n b hfind
  obtain ⟨c, s, rfl, hs⟩ := unify_of_find? hfind
  exact ⟨_, rewrite_of_unify c hs, c.staysFinite_resolve s⟩

end Resolution

/-! ### Sessions -/

namespace Table

/-- Every rule, with the given logarithm. -/
def allBy (log : Number → Number) : RuleSet :=
  .ofList (Algebra.rulesBy log ++ Differentiation.rules ++ Logic.rules ++ [Resolution.rule false])

/-- With the logarithm of the platform these are all rules of the tables. -/
theorem allBy_log : allBy Number.log = all := by
  rw [allBy, Algebra.rulesBy_log, all]

variable {log : Number → Number}

theorem allBy_keep_finite
    (hlog : ∀ x : Number, x.isFinite = true → 0 < x → (log x).isFinite = true) :
    ∀ r ∈ (allBy log).rules, r.Keeps StaysFinite := by
  intro r h
  simp only [allBy, RuleSet.ofList, List.mem_append, List.mem_singleton] at h
  rcases h with ((h | h) | h) | rfl
  · exact Algebra.rulesBy_keep_finite hlog r h
  · exact Differentiation.rules_keep_finite h
  · exact Logic.rules_keep_finite h
  · exact Resolution.rule_keeps_finite false

/-- **Rewriting never introduces a number that is not finite.**  Let the logarithm of a finite
positive number be finite.  Then a session over any selection of the rules of all tables, in
any order, leaves a tree in which every number is finite when it starts from one, whatever
the strategy and the limit, and however it ends.  With the logarithm of the platform these
are the rules that run (`allBy_log`). -/
theorem numbers_stay_finite
    (hlog : ∀ x : Number, x.isFinite = true → 0 < x → (log x).isFinite = true) {rules : RuleSet}
    (h : ∀ r ∈ rules.rules, r ∈ (allBy log).rules) (config : Config) (n : Node)
    (hn : n.FiniteNumbers) : (Session.run config rules n).after.FiniteNumbers := by
  have hrules : ∀ r ∈ rules.rules, r.Keeps StaysFinite := by
    intro r hr
    exact allBy_keep_finite hlog r (h r hr)
  exact Session.related_after staysFinite_precongruence hrules config n hn

/-- All rules in reverse order, on the logarithm of one plus the derivative of an inverted
square.  The only logarithm to take is that of one, and there the given one is exact. -/
theorem numbers_stay_finite_square :
    let log : Number → Number := fun _ => 0
    let rules := RuleSet.ofList (allBy log).rules.reverse
    let u : Node := .negate (.power (.var 0) (.number 2))
    let n : Node := .plus (.ln (.number 1)) (.differentiate u (.var 0))
    (∀ x : Number, x.isFinite = true → 0 < x → (log x).isFinite = true) ∧
      (∀ r ∈ rules.rules, r ∈ (allBy log).rules) ∧ n.FiniteNumbers ∧
      (Session.run ⟨100, .fixpoint⟩ rules n).after.FiniteNumbers := by
  intro log rules u n
  have hlog : ∀ x : Number, x.isFinite = true → 0 < x → (log x).isFinite = true :=
    fun _ _ _ => Number.isFinite_zero
  have hrules : ∀ r ∈ rules.rules, r ∈ (allBy log).rules := by
    intro r hr
    exact List.mem_reverse.mp hr
  have hn : n.FiniteNumbers := by simp [n, u]
  exact ⟨hlog, hrules, hn, numbers_stay_finite hlog hrules ⟨100, .fixpoint⟩ n hn⟩

end Table

end TreeRewriting
