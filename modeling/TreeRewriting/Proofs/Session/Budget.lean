/-
TreeRewriting/Proofs/Session/Budget.lean

A budget only cuts a session short.

Design.  The loop that starts over and the loop over locations look at their
budget at one point: a match has been found, and the tree has not been touched.
Up to that point a larger budget makes no difference.  So a loop that ends for
another reason is the same within every larger budget, and one that is cut off
goes on with the match at which it was (`Outlasts`): to one more rewrite, or to
the fault in which that attempt ends.

A session under either strategy is one of the two loops, passes and all
(`passesFrom_fixpoint_eq_session`, `passesFrom_singlePass`), and so what holds
of the loops holds of it.

Main result: `Session.run_truncates`.
-/
import TreeRewriting.Proofs.Session.Refinement
import TreeRewriting.Proofs.Session.Tour
import TreeRewriting.Table.Logic

namespace TreeRewriting

/-! ### Going on where a budget was used up -/

/-- Rewrites that go on where others were cut off by a budget: those come first, and then
there is at least one more, or an attempt at one that ends in a fault. -/
structure Outlasts (budget : Nat) (fs gs : List Firing) (faulted : Prop) : Prop where
  initial : fs <+: gs
  further : budget < gs.length ∨ gs.length = budget ∧ faulted

/-- One more rewrite in front of both. -/
theorem Outlasts.cons {budget : Nat} {fs gs : List Firing} {faulted : Prop}
    (h : Outlasts budget fs gs faulted) (f : Firing) :
    Outlasts (budget + 1) (f :: fs) (f :: gs) faulted where
  initial := (List.prefix_cons_inj f).mpr h.initial
  further := h.further.imp Nat.succ_lt_succ fun ⟨hlength, hfault⟩ =>
    ⟨congrArg (· + 1) hlength, hfault⟩

variable {rules : RuleSet} {k k' : Nat} {n : Node}

/-! ### The loops -/

/-- The loop that starts over within a larger budget: the same, unless it was cut off. -/
theorem restart_of_lt (rules : RuleSet) (n : Node) (hk : k < k') :
    ((restart rules k n).ending ≠ .stopped .iterationLimit →
      restart rules k' n = restart rules k n) ∧
    ((restart rules k n).ending = .stopped .iterationLimit →
      Outlasts k (restart rules k n).firings (restart rules k' n).firings
        (∃ attempt e, (restart rules k' n).ending = .faulted attempt e)) := by
  obtain ⟨j, rfl⟩ := Nat.exists_eq_add_one_of_ne_zero (Nat.ne_zero_of_lt hk)
  fun_induction restart rules k n generalizing j with
  | case1 n k clear => exact ⟨fun _ => restart_of_clear clear _, by rintro ⟨⟩⟩
  | case2 n x first =>
    refine ⟨fun hne => absurd rfl hne, fun _ => ⟨List.nil_prefix, ?_⟩⟩
    -- one more is allowed, be it a rewrite or a fault
    rcases hfault : x.outcome.fault with - | e
    · rw [restart_of_done first hfault]
      exact .inl (Nat.succ_pos _)
    · rw [restart_of_fault first hfault]
      exact .inr ⟨rfl, _, _, rfl⟩
  | case3 n x first k e fault =>
    exact ⟨fun _ => restart_of_fault first fault _, by rintro ⟨⟩⟩
  | case4 n x first k done ih =>
    have hk := Nat.lt_of_succ_lt_succ hk
    obtain ⟨i, rfl⟩ := Nat.exists_eq_add_one_of_ne_zero (Nat.ne_zero_of_lt hk)
    obtain ⟨hsame, hcut⟩ := ih i hk
    rw [restart_of_done first done]
    exact ⟨fun hne => congrArg _ (hsame hne), fun hend => (hcut hend).cons _⟩

/-- The loop over locations within a larger budget: the same, unless it was cut off. -/
theorem tour_of_lt (hk : k < k') {ps : List Location} {t t' : Tour}
    (ht : tour rules k n ps = some t) (ht' : tour rules k' n ps = some t') :
    (t.halt ≠ some .exhausted → t' = t) ∧
      (t.halt = some .exhausted →
        Outlasts k t.firings t'.firings (∃ attempt e, t'.halt = some (.faulted attempt e))) := by
  obtain ⟨j, rfl⟩ := Nat.exists_eq_add_one_of_ne_zero (Nat.ne_zero_of_lt hk)
  fun_induction tour rules k n ps generalizing j t t' with
  | case1 =>
    cases ht
    cases ht'
    exact ⟨fun _ => rfl, by rintro ⟨⟩⟩
  | case2 => cases ht
  | case3 n k p ps m found clear ih =>
    simp only [tour, found, clear] at ht'
    exact ih ht j hk ht'
  | case4 n p ps m found x redex =>
    cases ht
    refine ⟨fun hne => absurd rfl hne, fun _ => ⟨List.nil_prefix, ?_⟩⟩
    -- one more is allowed, be it a rewrite or a fault
    rcases hfault : x.outcome.fault with - | e
    · simp only [tour, found, redex, hfault, Option.map_eq_some_iff] at ht'
      obtain ⟨t', -, rfl⟩ := ht'
      simp [Tour.prepend]
    · simp only [tour, found, redex, hfault] at ht'
      cases ht'
      simp
  | case5 n p ps m found x redex k e hfault =>
    cases ht
    simp only [tour, found, redex, hfault] at ht'
    cases ht'
    exact ⟨fun _ => rfl, by rintro ⟨⟩⟩
  | case6 n p ps m found x redex k done ih =>
    have hk := Nat.lt_of_succ_lt_succ hk
    obtain ⟨i, rfl⟩ := Nat.exists_eq_add_one_of_ne_zero (Nat.ne_zero_of_lt hk)
    simp only [tour, found, redex, done] at ht'
    obtain ⟨u, hu, rfl⟩ := Option.map_eq_some_iff.mp ht
    obtain ⟨u', hu', rfl⟩ := Option.map_eq_some_iff.mp ht'
    obtain ⟨hsame, hcut⟩ := ih hu i hk hu'
    exact ⟨fun hne => congrArg _ (hsame hne), fun hend => (hcut hend).cons _⟩

/-! ### Sessions -/

namespace Session

/-- A session within a larger limit: the same, unless it was cut off. -/
theorem run_of_lt (strategy : Strategy) (rules : RuleSet) (n : Node) (hk : k < k') :
    let s := run ⟨k, strategy⟩ rules n
    let s' := run ⟨k', strategy⟩ rules n
    (s.ending ≠ .stopped .iterationLimit → s' = s) ∧
      (s.ending = .stopped .iterationLimit →
        Outlasts k s.firings s'.firings (∃ attempt e, s'.ending = .faulted attempt e)) := by
  intro s s'
  cases strategy with
  | fixpoint =>
    have hs : s = (restart rules k n).session n := passesFrom_fixpoint_eq_session rules k n
    have hs' : s' = (restart rules k' n).session n := passesFrom_fixpoint_eq_session rules k' n
    obtain ⟨hsame, hcut⟩ := restart_of_lt rules n hk
    rw [hs, hs', Restart.firings_session, Restart.firings_session]
    exact ⟨fun hne => congrArg (·.session n) (hsame hne), hcut⟩
  | singlePass =>
    obtain ⟨t, htoured, hs⟩ := passesFrom_singlePass rules k n
    obtain ⟨t', htoured', hs'⟩ := passesFrom_singlePass rules k' n
    have hs : s = t.session n := hs
    have hs' : s' = t'.session n := hs'
    have ht : tour rules k n n.locations = some t := htoured.tour_eq
    have ht' : tour rules k' n n.locations = some t' := htoured'.tour_eq
    obtain ⟨hsame, hcut⟩ := tour_of_lt hk ht ht'
    rw [hs, hs', Tour.firings_session, Tour.firings_session]
    refine ⟨fun hne => ?same, fun hend => ?cut⟩
    case same =>
      have hhalt : t.halt ≠ some .exhausted := mt Tour.ending_eq_iterationLimit_iff.mpr hne
      rw [hsame hhalt]
    case cut =>
      obtain ⟨hinitial, hfurther⟩ := hcut (Tour.ending_eq_iterationLimit_iff.mp hend)
      refine ⟨hinitial, hfurther.imp_right ?_⟩
      rintro ⟨hlength, attempt, e, hhalt⟩
      have hend' : t'.ending = .faulted attempt e := by rw [Tour.ending, hhalt]
      exact ⟨hlength, attempt, e, hend'⟩

/-- **A limit only truncates.**  Within a larger limit a session makes the same rewrites
first.  If it ended for another reason than its limit, nothing changes: tree, ending, passes
and all that is read off the history are the same.  If it ended at its limit and the limit is
raised, there is at least one rewrite more, or the attempt at the next one ends in a fault. -/
theorem run_truncates (strategy : Strategy) (rules : RuleSet) (n : Node) {k k' : Nat}
    (h : k ≤ k') :
    let s := run ⟨k, strategy⟩ rules n
    let s' := run ⟨k', strategy⟩ rules n
    s.firings <+: s'.firings ∧
      (s.ending ≠ .stopped .iterationLimit → s' = s) ∧
      (s.ending = .stopped .iterationLimit → k < k' →
        k + 1 ≤ s'.rewrites ∨
          s'.rewrites = k ∧ ∃ attempt e, s'.ending = .faulted attempt e) := by
  intro s s'
  rcases Nat.eq_or_lt_of_le h with rfl | hk
  · exact ⟨List.prefix_rfl, fun _ => rfl, fun _ hk => absurd hk (Nat.lt_irrefl k)⟩
  · obtain ⟨hsame, hcut⟩ : (s.ending ≠ _ → s' = s) ∧ (s.ending = _ → Outlasts k _ _ _) :=
      run_of_lt strategy rules n hk
    refine ⟨?initial, hsame, fun hend _ => (hcut hend).further⟩
    by_cases hend : s.ending = .stopped .iterationLimit
    · exact (hcut hend).initial
    · have hfirings : s'.firings = s.firings := congrArg firings (hsame hend)
      exact hfirings ▸ List.prefix_rfl

/-- Of four negations one pair cancels within a limit of one; within a limit of two the other
follows. -/
theorem run_truncates_negations :
    let rules := RuleSet.ofList [Logic.notNot]
    let s := run ⟨1, .fixpoint⟩ rules (.not (.not (.not (.not (.bool true)))))
    let s' := run ⟨2, .fixpoint⟩ rules (.not (.not (.not (.not (.bool true)))))
    s.ending = .stopped .iterationLimit ∧ s.firings <+: s'.firings ∧
      (2 ≤ s'.rewrites ∨ s'.rewrites = 1 ∧ ∃ attempt e, s'.ending = .faulted attempt e) := by
  have hend : (run ⟨1, .fixpoint⟩ (.ofList [Logic.notNot])
      (.not (.not (.not (.not (.bool true)))))).ending = .stopped .iterationLimit :=
    (passesFrom_fixpoint _ 1 _).2.2
  obtain ⟨hinitial, -, hfurther⟩ := run_truncates .fixpoint (.ofList [Logic.notNot])
    (.not (.not (.not (.not (.bool true))))) (Nat.le_succ 1)
  exact ⟨hend, hinitial, hfurther hend (Nat.lt_succ_self 1)⟩

end Session

end TreeRewriting
