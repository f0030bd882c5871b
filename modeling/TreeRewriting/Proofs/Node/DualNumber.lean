/-
TreeRewriting/Proofs/Node/DualNumber.lean

Derivatives by dual numbers.

Design.  A dual number is a value and a derivative.  An expression without
derivatives is evaluated in dual numbers by the rules of calculus for each of
its operators (`dual`); powers and logarithms have the derivatives that are
stated with them, and nothing is asked of them beyond that.

While derivatives are carried out a tree holds derivatives and plain
expressions side by side.  Such a tree is given a value by taking a derivative
for the one that dual numbers give (`derived`).  What keeps that value in every
context must keep the dual numbers of expressions too, since a context may take
their derivatives, and must leave variables and exponents alone
(`KeepsDerived`).
-/
import Mathlib.Algebra.DualNumber
import TreeRewriting.Proofs.Node.Derivative
import TreeRewriting.Proofs.Node.Value

namespace TreeRewriting.Node

universe u

open TrivSqZeroExt

variable {R : Type u} [CommRing R]

section

variable (const : Number → R) (ln : R → R) (pow : R → R → R)

/-! ### The two readings -/

/-- The value of an expression and its derivative by a variable, as a dual number. -/
def dual (x : Nat) (env : Nat → Option R) : Node → Option (DualNumber R)
  | .number c => some (inl (const c))
  | .var i => (env i).map fun r => inl r + inr (if i = x then 1 else 0)
  | .negate u => (dual x env u).map fun d => -d
  | .ln u =>
    (dual x env u).map fun d => inl (ln d.fst) + inr (d.snd * pow d.fst (const (-1)))
  | .plus u v => (dual x env u).bind fun d => (dual x env v).map fun e => d + e
  | .product u v => (dual x env u).bind fun d => (dual x env v).map fun e => d * e
  | .power u (.number k) =>
    (dual x env u).map fun d =>
      inl (pow d.fst (const k)) + inr (const k * pow d.fst (const (k - 1)) * d.snd)
  | _ => none

/-- The value of a tree in which a derivative has the value that dual numbers give it. -/
def derived (env : Nat → Option R) : Node → Option R
  | .number c => some (const c)
  | .var i => env i
  | .differentiate e (.var i) => (dual const ln pow i env e).map snd
  | .unary op u =>
    ((Arithmetic.ofRing const ln pow).unary? op).bind fun g => (derived env u).map g
  | .binary op u v =>
    ((Arithmetic.ofRing const ln pow).binary? op).bind fun g =>
      (derived env u).bind fun r => (derived env v).map (g r)
  | _ => none

end

variable {const : Number → R} {ln : R → R} {pow : R → R → R} {env : Nat → Option R}

theorem derived_unary_eq_some {op : UnaryOp} {u : Node} {w : R} :
    derived const ln pow env (.unary op u) = some w ↔
      ∃ g r, (Arithmetic.ofRing const ln pow).unary? op = some g ∧
        derived const ln pow env u = some r ∧ g r = w := by
  simp [derived, Option.bind_eq_some_iff]

theorem derived_binary_eq_some {op : BinaryOp} (hop : op ≠ .differentiate) {u v : Node} {w : R} :
    derived const ln pow env (.binary op u v) = some w ↔
      ∃ g r s, (Arithmetic.ofRing const ln pow).binary? op = some g ∧
        derived const ln pow env u = some r ∧ derived const ln pow env v = some s ∧
          g r s = w := by
  cases op <;> simp [derived, Option.bind_eq_some_iff] at hop ⊢

section

variable {u v : Node} {r s : R} (hu : derived const ln pow env u = some r)
  (hv : derived const ln pow env v = some s)

include hu hv

theorem derived_plus : derived const ln pow env (.plus u v) = some (r + s) :=
  (derived_binary_eq_some (by decide)).mpr ⟨_, r, s, rfl, hu, hv, rfl⟩

theorem derived_product : derived const ln pow env (.product u v) = some (r * s) :=
  (derived_binary_eq_some (by decide)).mpr ⟨_, r, s, rfl, hu, hv, rfl⟩

theorem derived_power : derived const ln pow env (.power u v) = some (pow r s) :=
  (derived_binary_eq_some (by decide)).mpr ⟨_, r, s, rfl, hu, hv, rfl⟩

end

/-- A derivative has a value when it is taken by a variable of an expression that has a dual
number. -/
theorem derived_differentiate_eq_some {u v : Node} {w : R} :
    derived const ln pow env (.differentiate u v) = some w ↔
      ∃ i d, v = .var i ∧ dual const ln pow i env u = some d ∧ d.snd = w := by
  cases v with
  | leaf l => cases l <;> simp [derived, Arithmetic.binary?]
  | _ => simp [derived, Arithmetic.binary?]

theorem derived_differentiate {i : Nat} {u : Node} {d : DualNumber R}
    (h : dual const ln pow i env u = some d) :
    derived const ln pow env (.differentiate u (.var i)) = some d.snd :=
  derived_differentiate_eq_some.mpr ⟨i, d, rfl, h, rfl⟩

theorem dual_plus_eq_some {x : Nat} {u v : Node} {d : DualNumber R} :
    dual const ln pow x env (.plus u v) = some d ↔
      ∃ e e', dual const ln pow x env u = some e ∧ dual const ln pow x env v = some e' ∧
        e + e' = d := by
  simp [dual, Option.bind_eq_some_iff]

theorem dual_product_eq_some {x : Nat} {u v : Node} {d : DualNumber R} :
    dual const ln pow x env (.product u v) = some d ↔
      ∃ e e', dual const ln pow x env u = some e ∧ dual const ln pow x env v = some e' ∧
        e * e' = d := by
  simp [dual, Option.bind_eq_some_iff]

theorem dual_power_eq_some {x : Nat} {u v : Node} {d : DualNumber R} :
    dual const ln pow x env (.power u v) = some d ↔
      ∃ k e, v = .number k ∧ dual const ln pow x env u = some e ∧
        inl (pow e.fst (const k)) + inr (const k * pow e.fst (const (k - 1)) * e.snd) = d := by
  cases v with
  | leaf l => cases l <;> simp [dual]
  | _ => simp [dual]

/-! ### How the readings agree -/

/-- The value of an expression is the value in its dual number. -/
theorem derived_of_dual {x : Nat} : (n : Node) → ∀ d : DualNumber R,
    dual const ln pow x env n = some d → derived const ln pow env n = some d.fst
  | .leaf l, d, h => by
    cases l with
    | number c =>
      obtain rfl := Option.some.inj h
      rw [derived, fst_inl]
    | var i =>
      obtain ⟨r, hr, rfl⟩ := Option.map_eq_some_iff.mp h
      rw [derived, hr, fst_add, fst_inl, fst_inr, add_zero]
    | bool b => cases h
    | predicate l => cases h
  | .unary op u, d, h => by
    rw [derived_unary_eq_some]
    cases op with
    | negate =>
      obtain ⟨e, he, rfl⟩ := Option.map_eq_some_iff.mp h
      exact ⟨_, _, rfl, derived_of_dual u e he, (fst_neg e).symm⟩
    | ln =>
      obtain ⟨e, he, rfl⟩ := Option.map_eq_some_iff.mp h
      refine ⟨_, _, rfl, derived_of_dual u e he, ?_⟩
      rw [fst_add, fst_inl, fst_inr, add_zero]
      rfl
    | not => cases h
  | .binary op u v, d, h => by
    cases op with
    | plus =>
      obtain ⟨e, e', he, he', rfl⟩ := dual_plus_eq_some.mp h
      rw [fst_add]
      exact derived_plus (derived_of_dual u e he) (derived_of_dual v e' he')
    | product =>
      obtain ⟨e, e', he, he', rfl⟩ := dual_product_eq_some.mp h
      rw [fst_mul]
      exact derived_product (derived_of_dual u e he) (derived_of_dual v e' he')
    | power =>
      obtain ⟨k, e, rfl, he, rfl⟩ := dual_power_eq_some.mp h
      rw [fst_add, fst_inl, fst_inr, add_zero]
      exact derived_power (derived_of_dual u e he) rfl
    | differentiate => cases h
    | and => cases h
    | or => cases h
  | .nary _ _, d, h => by cases h

/-- Without derivatives there is only the plain value. -/
theorem derived_of_derivativeFree : (n : Node) → n.DerivativeFree →
    derived const ln pow env n = eval (.ofRing const ln pow) env n
  | .leaf l, _ => by cases l <;> rfl
  | .unary op u, h => by
    have hu := derived_of_derivativeFree u (everywhere_unary.mp h).2
    apply Option.ext
    intro w
    rw [derived_unary_eq_some, eval_unary_eq_some, hu]
  | .binary op u v, h => by
    obtain ⟨hhere, hu, hv⟩ := everywhere_binary.mp h
    have hop : op ≠ .differentiate := by
      rintro rfl
      exact hhere rfl
    apply Option.ext
    intro w
    rw [derived_binary_eq_some hop, eval_binary_eq_some, derived_of_derivativeFree u hu,
      derived_of_derivativeFree v hv]
  | .nary _ _, _ => rfl

/-- The environment gives every variable of the tree a value. -/
def Covers (env : Nat → Option R) (n : Node) : Prop :=
  Everywhere (fun m => ∀ i, m = .var i → ∃ r, env i = some r) n

/-- A differentiable expression without derivatives has a dual number when its variables have
values. -/
theorem exists_dual {n : Node} (hn : n.Differentiable) (hfree : n.DerivativeFree)
    (hcovers : n.Covers env) (x : Nat) : ∃ d, dual const ln pow x env n = some d := by
  induction hn with
  | number c => exact ⟨_, rfl⟩
  | var i =>
    obtain ⟨r, hr⟩ := everywhere_leaf.mp hcovers i rfl
    exact ⟨_, Option.map_eq_some_iff.mpr ⟨r, hr, rfl⟩⟩
  | negate hu ih =>
    obtain ⟨d, hd⟩ := ih (everywhere_unary.mp hfree).2 (everywhere_unary.mp hcovers).2
    exact ⟨_, Option.map_eq_some_iff.mpr ⟨d, hd, rfl⟩⟩
  | ln hu ih =>
    obtain ⟨d, hd⟩ := ih (everywhere_unary.mp hfree).2 (everywhere_unary.mp hcovers).2
    exact ⟨_, Option.map_eq_some_iff.mpr ⟨d, hd, rfl⟩⟩
  | plus hu hv ihu ihv =>
    obtain ⟨-, hfreeu, hfreev⟩ := everywhere_binary.mp hfree
    obtain ⟨-, hcoversu, hcoversv⟩ := everywhere_binary.mp hcovers
    obtain ⟨d, hd⟩ := ihu hfreeu hcoversu
    obtain ⟨e, he⟩ := ihv hfreev hcoversv
    exact ⟨_, dual_plus_eq_some.mpr ⟨d, e, hd, he, rfl⟩⟩
  | product hu hv ihu ihv =>
    obtain ⟨-, hfreeu, hfreev⟩ := everywhere_binary.mp hfree
    obtain ⟨-, hcoversu, hcoversv⟩ := everywhere_binary.mp hcovers
    obtain ⟨d, hd⟩ := ihu hfreeu hcoversu
    obtain ⟨e, he⟩ := ihv hfreev hcoversv
    exact ⟨_, dual_product_eq_some.mpr ⟨d, e, hd, he, rfl⟩⟩
  | power k hu ih =>
    obtain ⟨d, hd⟩ := ih (everywhere_binary.mp hfree).2.1 (everywhere_binary.mp hcovers).2.1
    exact ⟨_, dual_power_eq_some.mpr ⟨k, d, rfl, hd, rfl⟩⟩
  | differentiate i hu => exact absurd rfl (everywhere_binary.mp hfree).1

/-! ### Rules of calculus -/

section

variable (i : Nat) (u v : Node)

theorem refines_differentiate_number (hzero : const 0 = 0) (c : Number) :
    Refines (derived const ln pow env) (.differentiate (.number c) (.var i)) (.number 0) := by
  intro w hw
  obtain ⟨d, hd, rfl⟩ := Option.map_eq_some_iff.mp hw
  obtain rfl := Option.some.inj hd
  rw [derived, hzero, snd_inl]

theorem refines_differentiate_self (hone : const 1 = 1) :
    Refines (derived const ln pow env) (.differentiate (.var i) (.var i)) (.number 1) := by
  intro w hw
  obtain ⟨d, hd, rfl⟩ := Option.map_eq_some_iff.mp hw
  obtain ⟨r, -, rfl⟩ := Option.map_eq_some_iff.mp hd
  rw [derived, hone, snd_add, snd_inl, snd_inr, if_pos rfl, zero_add]

theorem refines_differentiate_other (hzero : const 0 = 0) {j : Nat} (h : j ≠ i) :
    Refines (derived const ln pow env) (.differentiate (.var j) (.var i)) (.number 0) := by
  intro w hw
  obtain ⟨d, hd, rfl⟩ := Option.map_eq_some_iff.mp hw
  obtain ⟨r, -, rfl⟩ := Option.map_eq_some_iff.mp hd
  rw [derived, hzero, snd_add, snd_inl, snd_inr, if_neg h, add_zero]

theorem refines_differentiate_plus :
    Refines (derived const ln pow env) (.differentiate (.plus u v) (.var i))
      (.plus (.differentiate u (.var i)) (.differentiate v (.var i))) := by
  intro w hw
  obtain ⟨d, hd, rfl⟩ := Option.map_eq_some_iff.mp hw
  obtain ⟨e, e', he, he', rfl⟩ := dual_plus_eq_some.mp hd
  rw [snd_add]
  exact derived_plus (derived_differentiate he) (derived_differentiate he')

theorem refines_differentiate_product :
    Refines (derived const ln pow env) (.differentiate (.product u v) (.var i))
      (.plus (.product (.differentiate u (.var i)) v) (.product (.differentiate v (.var i)) u)) := by
  intro w hw
  obtain ⟨d, hd, rfl⟩ := Option.map_eq_some_iff.mp hw
  obtain ⟨e, e', he, he', rfl⟩ := dual_product_eq_some.mp hd
  have hleft := derived_product (derived_differentiate he) (derived_of_dual v e' he')
  have hright := derived_product (derived_differentiate he') (derived_of_dual u e he)
  rw [DualNumber.snd_mul, add_comm, mul_comm e.fst]
  exact derived_plus hleft hright

theorem refines_differentiate_negate :
    Refines (derived const ln pow env) (.differentiate (.negate u) (.var i))
      (.negate (.differentiate u (.var i))) := by
  intro w hw
  obtain ⟨d, hd, rfl⟩ := Option.map_eq_some_iff.mp hw
  obtain ⟨e, he, rfl⟩ := Option.map_eq_some_iff.mp hd
  exact derived_unary_eq_some.mpr ⟨_, _, rfl, derived_differentiate he, (snd_neg e).symm⟩

theorem refines_differentiate_power (k : Number) :
    Refines (derived const ln pow env) (.differentiate (.power u (.number k)) (.var i))
      (.product (.product (.number k) (.power u (.number (k - 1))))
        (.differentiate u (.var i))) := by
  intro w hw
  obtain ⟨d, hd, rfl⟩ := Option.map_eq_some_iff.mp hw
  obtain ⟨e, he, rfl⟩ := Option.map_eq_some_iff.mp hd
  have hpower : derived const ln pow env (.power u (.number (k - 1)))
      = some (pow e.fst (const (k - 1))) :=
    derived_power (derived_of_dual u e he) rfl
  rw [snd_add, snd_inl, snd_inr, zero_add]
  exact derived_product (derived_product rfl hpower) (derived_differentiate he)

theorem refines_differentiate_ln :
    Refines (derived const ln pow env) (.differentiate (.ln u) (.var i))
      (.product (.differentiate u (.var i)) (.power u (.number (-1)))) := by
  intro w hw
  obtain ⟨d, hd, rfl⟩ := Option.map_eq_some_iff.mp hw
  obtain ⟨e, he, rfl⟩ := Option.map_eq_some_iff.mp hd
  have hpower : derived const ln pow env (.power u (.number (-1)))
      = some (pow e.fst (const (-1))) :=
    derived_power (derived_of_dual u e he) rfl
  rw [snd_add, snd_inl, snd_inr, zero_add]
  exact derived_product (derived_differentiate he) hpower

end

/-! ### Contexts -/

/-- Values and dual numbers of the first tree are those of the second, and a tree without
operands stays as it is. -/
structure KeepsDerived (const : Number → R) (ln : R → R) (pow : R → R → R) (env : Nat → Option R)
    (n m : Node) : Prop where
  value : Refines (derived const ln pow env) n m
  dual : ∀ x, Refines (dual const ln pow x env) n m
  leaf : n.kind.isLeaf = true → m = n

theorem contextClosed_keepsDerived : ContextClosed (KeepsDerived const ln pow env) := by
  apply ContextClosed.of_operators
  case unary =>
    intro op c d h
    refine ⟨?value, ?dual, by cases op <;> nofun⟩
    case value =>
      intro w hw
      obtain ⟨g, r, hg, hr, rfl⟩ := derived_unary_eq_some.mp hw
      exact derived_unary_eq_some.mpr ⟨g, r, hg, h.value r hr, rfl⟩
    case dual =>
      intro x w hw
      cases op with
      | negate =>
        obtain ⟨e, he, rfl⟩ := Option.map_eq_some_iff.mp hw
        exact Option.map_eq_some_iff.mpr ⟨e, h.dual x e he, rfl⟩
      | ln =>
        obtain ⟨e, he, rfl⟩ := Option.map_eq_some_iff.mp hw
        exact Option.map_eq_some_iff.mpr ⟨e, h.dual x e he, rfl⟩
      | not => cases hw
  case left =>
    intro op c d b h
    refine ⟨?value, ?dual, by cases op <;> nofun⟩
    case value =>
      intro w hw
      by_cases hop : op = .differentiate
      · subst hop
        obtain ⟨i, e, rfl, he, rfl⟩ := derived_differentiate_eq_some.mp hw
        exact derived_differentiate_eq_some.mpr ⟨i, e, rfl, h.dual i e he, rfl⟩
      · obtain ⟨g, r, s, hg, hr, hs, rfl⟩ := (derived_binary_eq_some hop).mp hw
        exact (derived_binary_eq_some hop).mpr ⟨g, r, s, hg, h.value r hr, hs, rfl⟩
    case dual =>
      intro x w hw
      cases op with
      | plus =>
        obtain ⟨e, e', he, he', rfl⟩ := dual_plus_eq_some.mp hw
        exact dual_plus_eq_some.mpr ⟨e, e', h.dual x e he, he', rfl⟩
      | product =>
        obtain ⟨e, e', he, he', rfl⟩ := dual_product_eq_some.mp hw
        exact dual_product_eq_some.mpr ⟨e, e', h.dual x e he, he', rfl⟩
      | power =>
        obtain ⟨k, e, rfl, he, rfl⟩ := dual_power_eq_some.mp hw
        exact dual_power_eq_some.mpr ⟨k, e, rfl, h.dual x e he, rfl⟩
      | differentiate => cases hw
      | and => cases hw
      | or => cases hw
  case right =>
    intro op a c d h
    refine ⟨?value, ?dual, by cases op <;> nofun⟩
    case value =>
      intro w hw
      by_cases hop : op = .differentiate
      · subst hop
        obtain ⟨i, e, rfl, he, rfl⟩ := derived_differentiate_eq_some.mp hw
        exact derived_differentiate_eq_some.mpr ⟨i, e, h.leaf rfl, he, rfl⟩
      · obtain ⟨g, r, s, hg, hr, hs, rfl⟩ := (derived_binary_eq_some hop).mp hw
        exact (derived_binary_eq_some hop).mpr ⟨g, r, s, hg, hr, h.value s hs, rfl⟩
    case dual =>
      intro x w hw
      cases op with
      | plus =>
        obtain ⟨e, e', he, he', rfl⟩ := dual_plus_eq_some.mp hw
        exact dual_plus_eq_some.mpr ⟨e, e', he, h.dual x e' he', rfl⟩
      | product =>
        obtain ⟨e, e', he, he', rfl⟩ := dual_product_eq_some.mp hw
        exact dual_product_eq_some.mpr ⟨e, e', he, h.dual x e' he', rfl⟩
      | power =>
        obtain ⟨k, e, rfl, he, rfl⟩ := dual_power_eq_some.mp hw
        exact dual_power_eq_some.mpr ⟨k, e, h.leaf rfl, he, rfl⟩
      | differentiate => cases hw
      | and => cases hw
      | or => cases hw
  case nary =>
    intro op xs i c d hc h
    exact ⟨.of_none rfl, fun x => .of_none rfl, by cases op <;> nofun⟩

end TreeRewriting.Node
