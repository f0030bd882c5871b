/-
TreeRewriting/Proofs/Substitution/Walk.lean

Walks along bindings, none of which is set aside.

Design.  `chase`, `reaches` and `expand` set a binding aside once it has been
followed, so they end whatever is bound.  The plain walks keep all bindings:
they follow one binding after the other at the top of a term (`Follow`), or
look for a variable with a stack of terms still to be visited (`Search`), and
on the wrong bindings they never end.  What they need is that no variable is an
alias of itself (`terminates_follow`), and that there is no cycle at all
(`terminates_search`).  Where they end, they come to what `chase` and `reaches`
return.

Expansion needs neither: a variable met again below itself is left alone, so
its calls get fewer bindings or smaller terms (`terminates_expands`).
-/
import TreeRewriting.Proofs.Substitution.Closure
import TreeRewriting.Proofs.Termination

namespace TreeRewriting

open Relation

namespace Substitution

variable {s : Substitution} {v : Nat} {t u : Term}

/-! ### Following bindings at the top of a term -/

theorem Follow.unique {a b c : Term} (h : s.Follow a b) (h' : s.Follow a c) : b = c := by
  obtain ⟨v, rfl, hb⟩ := h
  obtain ⟨w, hw, hc⟩ := h'
  obtain rfl := Term.var.inj hw
  exact Option.some.inj (hb.symm.trans hc)

/-- Without a cycle of aliases nothing is left to follow after a chase. -/
theorem not_follow_chase (hs : s.NoAliasCycle) (t u : Term) : ¬ s.Follow (s.chase t) u := by
  rintro ⟨v, hv, hu⟩
  rw [unbound_of_chase hs hv] at hu
  cases hu

/-- Without a cycle of aliases following bindings comes to an end. -/
theorem terminates_follow (hs : s.NoAliasCycle) (t : Term) : Terminates s.Follow t :=
  .of_path Follow.unique (follow_chase s t) (not_follow_chase hs t)

/-- Without a cycle a term expands as the term to which its bindings lead does. -/
theorem expand_of_follow (hs : s.Acyclic) (h : ReflTransGen s.Follow t u) :
    s.expand u = s.expand t := by
  induction h with
  | refl => rfl
  | tail _ hstep ih =>
    obtain ⟨v, rfl, hv⟩ := hstep
    rw [← expand_var hs hv, ih]

theorem expand_chase (hs : s.Acyclic) (t : Term) : s.expand (s.chase t) = s.expand t :=
  expand_of_follow hs (follow_chase s t)

/-- Without a cycle a variable is reached from a term when it is from the chased term. -/
theorem reaches_chase (hs : s.Acyclic) (v : Nat) (t : Term) :
    s.reaches v (s.chase t) = s.reaches v t := by
  rw [Bool.eq_iff_iff, ← mem_vars_expand_iff_reaches, ← mem_vars_expand_iff_reaches,
    expand_chase hs]

/-! ### Looking for a variable at every depth -/

/-- One step of the search for a variable: the term on top of the stack is chased, another
variable is passed over, and an application leaves its arguments on the stack, the last
one on top.  At the variable that is looked for there is no step. -/
inductive Search (s : Substitution) (v : Nat) : List Term → List Term → Prop
  | pass {t : Term} {w : Nat} {rest : List Term} (top : s.chase t = .var w) (other : w ≠ v) :
      Search s v (t :: rest) rest
  | enter {t : Term} {f : String} {ts rest : List Term} (top : s.chase t = .app f ts) :
      Search s v (t :: rest) (ts.reverse ++ rest)

theorem Search.unique {a b c : List Term} (h : s.Search v a b) (h' : s.Search v a c) :
    b = c := by
  cases h with
  | pass top other =>
    cases h' with
    | pass => rfl
    | enter top' => cases top.symm.trans top'
  | enter top =>
    cases h' with
    | pass top' => cases top.symm.trans top'
    | enter top' =>
      obtain ⟨rfl, rfl⟩ := Term.app.inj (top.symm.trans top')
      rfl

/-- The sizes of what the terms of a stack expand to, added up. -/
def expandedSize (s : Substitution) (stack : List Term) : Nat :=
  Term.sizeList (stack.map s.expand)

/-- Without a cycle every step of the search leaves less to expand. -/
theorem expandedSize_lt_of_search (hs : s.Acyclic) {a b : List Term} (h : s.Search v a b) :
    s.expandedSize b < s.expandedSize a := by
  cases h with
  | @pass t w rest top other =>
    have hpos := Term.size_pos (s.expand t)
    simp only [expandedSize, List.map_cons, Term.sizeList]
    omega
  | @enter t f ts rest top =>
    -- the term expands as the application does, which counts one more than its arguments
    have hsize : (s.expand t).size = Term.sizeList (ts.map s.expand) + 1 := by
      rw [← expand_chase hs, top, expand_app, Term.size]
    simp only [expandedSize, List.map_append, List.map_reverse, Term.sizeList_append,
      Term.sizeList_reverse, List.map_cons, Term.sizeList]
    omega

/-- Without a cycle the search for a variable comes to an end. -/
theorem terminates_search (hs : s.Acyclic) (v : Nat) (stack : List Term) :
    Terminates (s.Search v) stack :=
  .of_decreasing (P := fun _ => True) s.expandedSize
    (fun _ _ _ h => ⟨trivial, expandedSize_lt_of_search hs h⟩) trivial

/-- The search comes to a term that is chased to the variable. -/
def Finds (s : Substitution) (v : Nat) (stack : List Term) : Prop :=
  ∃ t rest, ReflTransGen (s.Search v) stack (t :: rest) ∧ s.chase t = .var v

/-- A step of the search does not decide it. -/
theorem finds_iff_of_search {a b : List Term} (h : s.Search v a b) : s.Finds v a ↔ s.Finds v b := by
  constructor
  · rintro ⟨t, rest, hpath, ht⟩
    rcases hpath.cases_head with rfl | ⟨c, hac, hpath⟩
    · -- there is no step at the variable
      cases h with
      | pass top other =>
        obtain rfl := Term.var.inj (top.symm.trans ht)
        exact absurd rfl other
      | enter top => cases top.symm.trans ht
    · obtain rfl := hac.unique h
      exact ⟨t, rest, hpath, ht⟩
  · rintro ⟨t, rest, hpath, ht⟩
    exact ⟨t, rest, .head h hpath, ht⟩

theorem not_finds_nil (s : Substitution) (v : Nat) : ¬ s.Finds v [] := by
  rintro ⟨t, rest, hpath, -⟩
  rcases hpath.cases_head with h | ⟨c, h, -⟩
  · cases h
  · cases h

/-- **The search finds what is reached**: it comes to the variable when that is reached from
a term of the stack. -/
theorem finds_iff (hs : s.Acyclic) (stack : List Term) :
    s.Finds v stack ↔ ∃ t ∈ stack, s.reaches v t = true := by
  have hend := terminates_iff_acc.mp (terminates_search hs v stack)
  -- along the steps of the search
  induction hend with
  | intro stack _ ih =>
    rcases stack with - | ⟨t, rest⟩
    · simp [not_finds_nil]
    · have htop := reaches_chase hs v t
      rcases hc : s.chase t with w | ⟨f, ts⟩
      · have hw := unbound_of_chase hs.noAliasCycle hc
        rw [hc, reaches_var_of_none hw] at htop
        by_cases hwv : w = v
        · subst hwv
          exact iff_of_true ⟨t, rest, .refl, hc⟩ ⟨t, List.mem_cons_self, by simp [← htop]⟩
        · have hstep : s.Search v (t :: rest) rest := .pass hc hwv
          refine (finds_iff_of_search hstep).trans ((ih rest hstep).trans ?_)
          simp [← htop, hwv]
      · have hstep : s.Search v (t :: rest) (ts.reverse ++ rest) := .enter hc
        rw [hc, reaches_app] at htop
        refine (finds_iff_of_search hstep).trans ((ih _ hstep).trans ?_)
        simp [← htop, or_and_right, exists_or]

/-! ### Expansion -/

/-- The calls that expansion makes: for a bound variable its term, without the variable's
binding, and for an application its arguments. -/
inductive Expands : Substitution × Term → Substitution × Term → Prop
  | binding {s : Substitution} {v : Nat} {t : Term} (bound : s.get? v = some t) :
      Expands (s, .var v) (s.erase v, t)
  | argument {s : Substitution} {f : String} {ts : List Term} {t : Term} (mem : t ∈ ts) :
      Expands (s, .app f ts) (s, t)

/-- Expansion comes to an end, on cyclic bindings too. -/
theorem terminates_expands (s : Substitution) (t : Term) : Terminates Expands (s, t) := by
  refine .of_decreasing (P := fun _ => True) (fun e => (e.1.size, e.2.size)) ?_ trivial
  intro a b _ h
  refine ⟨trivial, ?_⟩
  cases h with
  | binding bound => exact .left _ _ (size_erase_lt bound)
  | @argument s f ts t mem =>
    have hlt : t.size < (Term.app f ts).size := Nat.lt_succ_of_le (Term.size_le_sizeList mem)
    exact .right _ hlt

end Substitution

end TreeRewriting
