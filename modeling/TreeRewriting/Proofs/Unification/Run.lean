/-
TreeRewriting/Proofs/Unification/Run.lean

Runs of unification as sequences of moves.

Design.  Everything that is proved about unification is proved about one step
and carried along the steps of a run.  What a step can do is said once: it makes
a `Move`, which drops a pair, binds a variable or splits two applications, or
it is `Stuck` (`step_eq_next_iff`, `stuck_of_step`).  A run ends where the moves
from its start end (`run_eq_ok_iff`, `stuck_of_run_eq_error`).

One invariant is needed by all later arguments: bindings never form a cycle of
aliases (`noAliasCycle_of_moves`).  So the term at the end of a chase is an
application or a variable that is not bound, and a move never takes a binding
back (`Move.le`).
-/
import TreeRewriting.Proofs.Substitution.Closure
import TreeRewriting.Unification

namespace TreeRewriting.Unification

open Relation

/-! ### What a step does -/

/-- Of two terms the first that is a variable, and the other one. -/
inductive Assigns : Term → Term → Nat → Term → Prop
  | left (v : Nat) (t : Term) : Assigns (.var v) t v t
  | right (f : String) (ts : List Term) (v : Nat) : Assigns (.app f ts) (.var v) v (.app f ts)

/-- Two terms are assigned one to the other, or they are applications. -/
theorem assigns_or_apps (a b : Term) :
    (∃ v t, Assigns a b v t) ∨ ∃ f ss g ts, a = .app f ss ∧ b = .app g ts := by
  cases a with
  | var v => exact .inl ⟨v, b, .left v b⟩
  | app f ss =>
    cases b with
    | var v => exact .inl ⟨v, _, .right f ss v⟩
    | app g ts => exact .inr ⟨f, ss, g, ts, rfl, rfl⟩

theorem Assigns.ne_var {a b : Term} {v w : Nat} (h : Assigns a b v (.var w)) (hne : a ≠ b) :
    w ≠ v := by
  rintro rfl
  cases h
  exact hne rfl

namespace State

/-- The first pending pair of a state, its terms chased, and the pairs behind it. -/
structure Front (s : State) (a b a' b' : Term) (rest : List (Term × Term)) : Prop where
  pending : s.pending = (a, b) :: rest
  left : s.bindings.chase a = a'
  right : s.bindings.chase b = b'

/-- The pair is equal or has been met before. -/
def Known (s : State) (a b : Term) : Prop := a = b ∨ (a, b) ∈ s.met

/-- What a step does: a known pair is dropped, a variable is bound to the other side, or
two applications are split into their arguments. -/
inductive Move (check : Bool) (s : State) : State → Prop
  | drop {a b a' b' : Term} {rest : List (Term × Term)} (front : s.Front a b a' b' rest)
      (known : s.Known a' b') : Move check s ⟨s.bindings, s.met, rest⟩
  | bind {a b a' b' t : Term} {v : Nat} {rest : List (Term × Term)}
      (front : s.Front a b a' b' rest) (new : ¬ s.Known a' b') (assigns : Assigns a' b' v t)
      (free : check = true → s.bindings.reaches v t = false) :
      Move check s ⟨s.bindings.insert v t, (a', b') :: s.met, rest⟩
  | split {a b : Term} {f : String} {ss ts : List Term} {rest : List (Term × Term)}
      (front : s.Front a b (.app f ss) (.app f ts) rest)
      (new : ¬ s.Known (.app f ss) (.app f ts)) (arity : ss.length = ts.length) :
      Move check s ⟨s.bindings, (.app f ss, .app f ts) :: s.met, ss.zip ts ++ rest⟩

/-- Where a step fails: the variable is found in what it would be bound to, or two
applications differ. -/
inductive Stuck (check : Bool) (s : State) : Clash → Prop
  | occurs {a b a' b' t : Term} {v : Nat} {rest : List (Term × Term)}
      (front : s.Front a b a' b' rest) (new : ¬ s.Known a' b') (assigns : Assigns a' b' v t)
      (checked : check = true) (found : s.bindings.reaches v t = true) :
      Stuck check s (.occurs v t)
  | symbols {a b : Term} {f g : String} {ss ts : List Term} {rest : List (Term × Term)}
      (front : s.Front a b (.app f ss) (.app g ts) rest)
      (new : ¬ s.Known (.app f ss) (.app g ts)) (differ : ¬ (f = g ∧ ss.length = ts.length)) :
      Stuck check s (.symbols f g)

variable {check : Bool} {s s' : State}

theorem step_of_known {a b a' b' : Term} {rest : List (Term × Term)}
    (front : s.Front a b a' b' rest) (known : s.Known a' b') :
    s.step check = .next ⟨s.bindings, s.met, rest⟩ := by
  obtain ⟨pending, rfl, rfl⟩ := front
  rw [step, pending]
  exact if_pos known

theorem step_of_new {a b a' b' : Term} {rest : List (Term × Term)}
    (front : s.Front a b a' b' rest) (new : ¬ s.Known a' b') :
    s.step check = solve check ⟨s.bindings, (a', b') :: s.met, rest⟩ a' b' := by
  obtain ⟨pending, rfl, rfl⟩ := front
  rw [step, pending]
  exact if_neg new

theorem solve_of_assigns {a b t : Term} {v : Nat} (h : Assigns a b v t) :
    s.solve check a b = s.bind check v t := by
  cases h <;> rfl

/-- A step of a state with a pending pair is a move, or the state is stuck. -/
theorem move_or_stuck (check : Bool) {a b : Term} {rest : List (Term × Term)}
    (h : s.pending = (a, b) :: rest) :
    (∃ s', s.step check = .next s' ∧ Move check s s') ∨
      ∃ c, s.step check = .clash c ∧ Stuck check s c := by
  obtain ⟨a', ha⟩ : ∃ a', s.bindings.chase a = a' := ⟨_, rfl⟩
  obtain ⟨b', hb⟩ : ∃ b', s.bindings.chase b = b' := ⟨_, rfl⟩
  have front : s.Front a b a' b' rest := ⟨h, ha, hb⟩
  by_cases known : s.Known a' b'
  · exact .inl ⟨_, step_of_known front known, .drop front known⟩
  · rw [step_of_new front known]
    rcases assigns_or_apps a' b' with ⟨v, t, assigns⟩ | ⟨f, ss, g, ts, rfl, rfl⟩
    · rw [solve_of_assigns assigns, State.bind]
      by_cases found : check = true ∧ s.bindings.reaches v t = true
      · rw [if_pos (by simpa using found)]
        exact .inr ⟨_, rfl, .occurs front known assigns found.1 found.2⟩
      · rw [if_neg (by simpa using found)]
        exact .inl ⟨_, rfl, .bind front known assigns fun hc => by simpa [hc] using found⟩
    · rw [solve]
      by_cases same : f = g ∧ ss.length = ts.length
      · obtain ⟨rfl, arity⟩ := same
        rw [if_pos ⟨rfl, arity⟩]
        exact .inl ⟨_, rfl, .split front known arity⟩
      · rw [if_neg same]
        exact .inr ⟨_, rfl, .symbols front known same⟩

theorem step_eq_done_iff : s.step check = .done ↔ s.pending = [] := by
  rcases h : s.pending with - | ⟨⟨a, b⟩, rest⟩
  · simp [step, h]
  · rcases move_or_stuck check h with ⟨s', hs, -⟩ | ⟨c, hs, -⟩ <;> simp [hs]

theorem step_eq_next_iff : s.step check = .next s' ↔ Move check s s' := by
  constructor
  · intro h
    rcases hp : s.pending with - | ⟨⟨a, b⟩, rest⟩
    · rw [step_eq_done_iff.mpr hp] at h
      cases h
    · rcases move_or_stuck check hp with ⟨s'', hs, hmove⟩ | ⟨c, hs, -⟩
      · obtain rfl : s'' = s' := Step.next.inj (hs.symm.trans h)
        exact hmove
      · rw [hs] at h
        cases h
  · intro h
    cases h with
    | drop front known => exact step_of_known front known
    | @bind _ _ _ _ t v _ front new assigns free =>
      have hfree : ¬ (check && s.bindings.reaches v t) = true := by
        intro hfound
        rw [Bool.and_eq_true] at hfound
        rw [free hfound.1] at hfound
        cases hfound.2
      rw [step_of_new front new, solve_of_assigns assigns, State.bind, if_neg hfree]
    | split front new arity => rw [step_of_new front new, solve, if_pos ⟨rfl, arity⟩]

theorem stuck_of_step {c : Clash} (h : s.step check = .clash c) : Stuck check s c := by
  rcases hp : s.pending with - | ⟨⟨a, b⟩, rest⟩
  · rw [step_eq_done_iff.mpr hp] at h
    cases h
  · rcases move_or_stuck check hp with ⟨s', hs, -⟩ | ⟨d, hs, hstuck⟩
    · rw [hs] at h
      cases h
    · obtain rfl : d = c := Step.clash.inj (hs.symm.trans h)
      exact hstuck

end State

/-! ### Runs -/

/-- The states to which moves lead. -/
def Moves (check : Bool) : State → State → Prop := ReflTransGen (State.Move check)

section

variable {check : Bool} {stock : List Term} {hc : Term.Closed stock} {s : State}
variable {hs : s.Within stock}

theorem run_of_done (h : s.step check = .done) : run check stock hc s hs = .ok s.bindings := by
  rw [run]
  split
  · rfl
  · rename_i h'
    cases h.symm.trans h'
  · rename_i h'
    cases h.symm.trans h'

theorem run_of_clash {c : Clash} (h : s.step check = .clash c) :
    run check stock hc s hs = .error c := by
  rw [run]
  split
  · rename_i h'
    cases h.symm.trans h'
  · rename_i d h'
    obtain rfl : c = d := Step.clash.inj (h.symm.trans h')
    rfl
  · rename_i h'
    cases h.symm.trans h'

theorem run_of_next {s' : State} (h : s.step check = .next s') :
    run check stock hc s hs = run check stock hc s' (State.fewer_of_step hc hs h).1 := by
  rw [run]
  split
  · rename_i h'
    cases h.symm.trans h'
  · rename_i h'
    cases h.symm.trans h'
  · rename_i t h'
    obtain rfl : s' = t := Step.next.inj (h.symm.trans h')
    rfl

/-- Where no pair is pending the moves have ended. -/
theorem moves_of_done {s' : State} (h : s.pending = []) (hm : Moves check s s') : s' = s := by
  rcases hm.cases_head with e | ⟨t, hmove, -⟩
  · exact e.symm
  · rw [← State.step_eq_next_iff, State.step_eq_done_iff.mpr h] at hmove
    cases hmove

/-- A run that succeeds ends in a state in which no pair is pending. -/
theorem run_eq_ok_iff {b : Substitution} :
    run check stock hc s hs = .ok b ↔
      ∃ s', Moves check s s' ∧ s'.pending = [] ∧ s'.bindings = b := by
  induction s, hs using run.induct check stock hc with
  | case1 s hs h =>
    have hp := State.step_eq_done_iff.mp h
    rw [run_of_done h]
    constructor
    · intro e
      exact ⟨s, .refl, hp, Except.ok.inj e⟩
    · rintro ⟨s', hm, -, rfl⟩
      rw [moves_of_done hp hm]
  | case2 s hs c h =>
    rw [run_of_clash h]
    constructor
    · intro e
      cases e
    · rintro ⟨s', hm, hp, -⟩
      -- no move leaves a state in which the step is a clash, and something is pending in it
      rcases hm.cases_head with rfl | ⟨t, hmove, -⟩
      · rw [State.step_eq_done_iff.mpr hp] at h
        cases h
      · rw [← State.step_eq_next_iff, h] at hmove
        cases hmove
  | case3 s hs t h ih =>
    rw [run_of_next h, ih]
    constructor
    · rintro ⟨s', hm, hp, hb⟩
      exact ⟨s', .head (State.step_eq_next_iff.mp h) hm, hp, hb⟩
    · rintro ⟨s', hm, hp, hb⟩
      -- the first move is the step that the run takes
      rcases hm.cases_head with rfl | ⟨u, hmove, hm⟩
      · rw [State.step_eq_done_iff.mpr hp] at h
        cases h
      · obtain rfl : t = u := Step.next.inj (h.symm.trans (State.step_eq_next_iff.mpr hmove))
        exact ⟨s', hm, hp, hb⟩

/-- A run that fails ends in a stuck state. -/
theorem stuck_of_run_eq_error {c : Clash} (h : run check stock hc s hs = .error c) :
    ∃ s', Moves check s s' ∧ State.Stuck check s' c := by
  induction s, hs using run.induct check stock hc with
  | case1 s hs hstep =>
    rw [run_of_done hstep] at h
    cases h
  | case2 s hs d hstep =>
    rw [run_of_clash hstep] at h
    obtain rfl := Except.error.inj h
    exact ⟨s, .refl, State.stuck_of_step hstep⟩
  | case3 s hs t hstep ih =>
    rw [run_of_next hstep] at h
    obtain ⟨s', hm, hstuck⟩ := ih h
    exact ⟨s', .head (State.step_eq_next_iff.mp hstep) hm, hstuck⟩

end

/-- Two lists have a unifier when the moves from their pairs end. -/
theorem unify_eq_ok_iff {check : Bool} {left right : List Term} {b : Substitution} :
    unify check left right = .ok b ↔
      left.length = right.length ∧ ∃ s, Moves check (start left right) s ∧ s.pending = [] ∧
        s.bindings.resolve = b := by
  rw [unify]
  split
  · rename_i hlen
    rcases h : triangular check left right with c | t
    · simp only [Except.map, reduceCtorEq, hlen, true_and, false_iff]
      rintro ⟨s, hm, hp, -⟩
      cases h.symm.trans (run_eq_ok_iff.mpr ⟨s, hm, hp, rfl⟩)
    · obtain ⟨s, hm, hp, rfl⟩ := run_eq_ok_iff.mp h
      simp only [Except.map, Except.ok.injEq, hlen, true_and]
      constructor
      · rintro rfl
        exact ⟨s, hm, hp, rfl⟩
      · rintro ⟨s', hm', hp', rfl⟩
        have h' := h.symm.trans (run_eq_ok_iff.mpr ⟨s', hm', hp', rfl⟩)
        rw [Except.ok.inj h']
  · rename_i hlen
    simp [hlen]

/-- Where two lists of equal length have no unifier, the moves from their pairs end in a
stuck state. -/
theorem stuck_of_unify_eq_error {check : Bool} {left right : List Term} {c : Clash}
    (hlen : left.length = right.length) (h : unify check left right = .error c) :
    ∃ s, Moves check (start left right) s ∧ State.Stuck check s c := by
  rw [unify, if_pos hlen] at h
  rcases hr : triangular check left right with d | t
  · rw [hr] at h
    obtain rfl : d = c := Except.error.inj h
    exact stuck_of_run_eq_error hr
  · rw [hr] at h
    cases h

/-! ### Bindings along a run -/

namespace State

variable {check : Bool} {s s' : State}

/-- The variable that is to be bound is not bound, nor is it to be bound to a variable that
is. -/
theorem Front.unbound {a b a' b' t : Term} {v : Nat} {rest : List (Term × Term)}
    (front : s.Front a b a' b' rest) (assigns : Assigns a' b' v t)
    (hs : s.bindings.NoAliasCycle) :
    s.bindings.get? v = none ∧ ∀ w, t = .var w → s.bindings.get? w = none := by
  obtain ⟨-, ha, hb⟩ := front
  cases assigns with
  | left v t =>
    refine ⟨Substitution.unbound_of_chase hs ha, ?_⟩
    rintro w rfl
    exact Substitution.unbound_of_chase hs hb
  | right f ts v => exact ⟨Substitution.unbound_of_chase hs hb, fun w hw => by cases hw⟩

/-- A move forms no cycle of aliases. -/
theorem Move.noAliasCycle (h : Move check s s') (hs : s.bindings.NoAliasCycle) :
    s'.bindings.NoAliasCycle := by
  cases h with
  | drop => exact hs
  | bind front new assigns free =>
    -- an alias of a variable that is not bound closes no cycle
    obtain ⟨-, hunbound⟩ := front.unbound assigns hs
    apply hs.insert
    rintro w rfl
    exact ⟨assigns.ne_var fun e => new (.inl e), hunbound w rfl⟩
  | split => exact hs

/-- A move keeps all bindings. -/
theorem Move.le (h : Move check s s') (hs : s.bindings.NoAliasCycle) :
    s.bindings ≤ s'.bindings := by
  cases h with
  | drop => exact le_refl _
  | bind front new assigns free =>
    exact Substitution.le_insert (front.unbound assigns hs).1 _
  | split => exact le_refl _

end State

/-- No cycle of aliases is formed along a run. -/
theorem noAliasCycle_of_moves {check : Bool} {s s' : State} (h : Moves check s s')
    (hs : s.bindings.NoAliasCycle) : s'.bindings.NoAliasCycle := by
  induction h with
  | refl => exact hs
  | tail _ hmove ih => exact hmove.noAliasCycle ih

end TreeRewriting.Unification
