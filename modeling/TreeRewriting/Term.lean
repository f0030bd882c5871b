/-
TreeRewriting/Term.lean

First-order terms: a variable, or a symbol applied to a list of terms.

Variables are numbers; a constant is a symbol applied to nothing.  Everything
about terms is defined together with its companion on argument lists, so that
the recursion is structural.
-/
namespace TreeRewriting

/-- A first-order term. -/
inductive Term where
  | var (index : Nat)
  | app (symbol : String) (args : List Term)
  deriving Inhabited

namespace Term

/-! ### Induction and equality -/

/-- Induction on terms, with the hypothesis for every argument. -/
@[elab_as_elim, induction_eliminator]
theorem induct {motive : Term → Prop} (var : ∀ v, motive (.var v))
    (app : ∀ f ts, (∀ t ∈ ts, motive t) → motive (.app f ts)) : ∀ t, motive t
  | .var v => var v
  | .app f ts => app f ts fun t ht =>
    have : sizeOf t < sizeOf ts := List.sizeOf_lt_of_mem ht
    induct var app t
termination_by t => sizeOf t
decreasing_by simp only [Term.app.sizeOf_spec]; omega

mutual

/-- Decides whether two terms are equal. -/
def decEq : (s t : Term) → Decidable (s = t)
  | .var v, .var w =>
    if h : v = w then isTrue (by rw [h]) else isFalse (by simp [h])
  | .var _, .app _ _ => isFalse (by simp)
  | .app _ _, .var _ => isFalse (by simp)
  | .app f ss, .app g ts =>
    if h : f = g then
      match decEqList ss ts with
      | isTrue h' => isTrue (by rw [h, h'])
      | isFalse h' => isFalse (by simp [h'])
    else isFalse (by simp [h])

/-- Decides whether two argument lists are equal. -/
def decEqList : (ss ts : List Term) → Decidable (ss = ts)
  | [], [] => isTrue rfl
  | [], _ :: _ => isFalse (by simp)
  | _ :: _, [] => isFalse (by simp)
  | s :: ss, t :: ts =>
    match decEq s t with
    | isTrue h =>
      match decEqList ss ts with
      | isTrue h' => isTrue (by rw [h, h'])
      | isFalse h' => isFalse (by simp [h'])
    | isFalse h => isFalse (by simp [h])

end

instance : DecidableEq Term := decEq

/-! ### Size and variables -/

mutual

/-- The number of variables and symbols written in a term. -/
def size : Term → Nat
  | .var _ => 1
  | .app _ ts => sizeList ts + 1

/-- The sizes of a list of terms, added up. -/
def sizeList : List Term → Nat
  | [] => 0
  | t :: ts => size t + sizeList ts

end

theorem sizeList_append (ts us : List Term) : sizeList (ts ++ us) = sizeList ts + sizeList us := by
  induction ts with
  | nil => simp [sizeList]
  | cons t ts ih => simp [sizeList, ih, Nat.add_assoc]

theorem sizeList_reverse (ts : List Term) : sizeList ts.reverse = sizeList ts := by
  induction ts with
  | nil => rfl
  | cons t ts ih => simp [sizeList, sizeList_append, ih, Nat.add_comm]

theorem size_pos (t : Term) : 0 < t.size := by
  cases t <;> simp [size]

theorem size_le_sizeList {t : Term} {ts : List Term} (h : t ∈ ts) : t.size ≤ sizeList ts := by
  induction ts with
  | nil => simp at h
  | cons s ts ih =>
    rcases List.mem_cons.mp h with rfl | h
    · simp [sizeList]
    · have := ih h
      simp only [sizeList]
      omega

mutual

/-- The variables of a term, one entry per occurrence, left to right. -/
def vars : Term → List Nat
  | .var v => [v]
  | .app _ ts => varsList ts

/-- The variables of a list of terms, one entry per occurrence, left to right. -/
def varsList : List Term → List Nat
  | [] => []
  | t :: ts => vars t ++ varsList ts

end

theorem mem_varsList {v : Nat} {ts : List Term} : v ∈ varsList ts ↔ ∃ t ∈ ts, v ∈ t.vars := by
  induction ts with
  | nil => simp [varsList]
  | cons t ts ih => simp [varsList, ih]

@[simp] theorem mem_vars_var {v w : Nat} : v ∈ (var w).vars ↔ v = w := by
  simp [vars]

@[simp] theorem mem_vars_app {v : Nat} {f : String} {ts : List Term} :
    v ∈ (app f ts).vars ↔ ∃ t ∈ ts, v ∈ t.vars := by
  rw [vars, mem_varsList]

/-- Whether a variable occurs in a term. -/
def mentions (t : Term) (v : Nat) : Bool := t.vars.contains v

/-! ### Text -/

mutual

/-- The text of a term: a capital X and the number of a variable, a bare symbol for a
constant, and the arguments of an application in parentheses. -/
def text : Term → String
  | .var v => "X" ++ toString v
  | .app f [] => f
  | .app f (t :: ts) => f ++ "(" ++ text t ++ textRest ts ++ ")"

/-- The texts of further arguments, each after a comma. -/
def textRest : List Term → String
  | [] => ""
  | t :: ts => ", " ++ text t ++ textRest ts

end

/-- The texts of terms, separated by commas. -/
def textList : List Term → String
  | [] => ""
  | t :: ts => text t ++ textRest ts

end Term

end TreeRewriting
