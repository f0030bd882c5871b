/-
TreeRewriting/Proofs/Table/Refutation.lean

What empty clauses say about a clause set without variables.

Design.  A resolution step takes two clauses and adds none: one loses a literal,
the other the negation of that literal (`Cancels`).  Under an assignment one of
the two literals is false, and the clause that loses it is as true as before.  So
a step makes at most one clause false, and that is one of the two which it
shortens (`Cancels.false_of_false`).  Along a run the clauses that have become
false are no more than the steps that shorten them
(`exists_clauses_of_trail`), and an empty clause is false.

A single empty clause therefore says nothing.  Of the clause of `P` and `Q` and the
clause of the negation of `P` the second is emptied, although both are true when
`Q` is and `P` is not (`emptied_of_satisfiable`).  Empty clauses refute a set
when they outnumber the steps that have shortened them.

Main result: `refutation_sound`.
-/
import Mathlib.Data.Finset.Card
import Mathlib.Data.List.InsertIdx
import TreeRewriting.Proofs.Node.ClauseSet
import TreeRewriting.Proofs.Session.Refinement
import TreeRewriting.Proofs.Session.Trail
import TreeRewriting.Proofs.Table.Faultless
import TreeRewriting.Proofs.Table.ResolutionStep
import TreeRewriting.Proofs.Unification.Ground

namespace TreeRewriting.Resolution

open Node

variable {check : Bool} {cs cs' : List (List Literal)} {i j t : Nat} {I : Assignment}
variable {T : Finset Nat}

/-! ### Clauses that lose opposite literals -/

/-- Every literal is without variables. -/
def Ground (cs : List (List Literal)) : Prop := ∀ ls ∈ cs, ∀ l ∈ ls, l.Ground

instance : DecidablePred Ground := fun cs =>
  inferInstanceAs (Decidable (∀ ls ∈ cs, ∀ l ∈ ls, l.Ground))

/-- Of two clauses one loses a literal and the other its negation. -/
inductive Cancels (cs : List (List Literal)) (i j : Nat) : List (List Literal) → Prop
  | intro {ls ms : List Literal} {k l : Nat} {p : Literal} (apart : i ≠ j)
      (left : cs[i]? = some ls) (leftLiteral : ls[k]? = some p) (right : cs[j]? = some ms)
      (rightLiteral : ms[l]? = some p.negate) :
      Cancels cs i j ((cs.set i (ls.eraseIdx k)).set j (ms.eraseIdx l))

theorem Cancels.ground (h : Cancels cs i j cs') (hcs : Ground cs) : Ground cs' := by
  have hshorter : ∀ {ls : List Literal} {i : Nat}, cs[i]? = some ls → ∀ k, ∀ l ∈ ls.eraseIdx k,
      l.Ground := fun hls k l hl =>
    hcs _ (List.mem_of_getElem? hls) l (List.mem_of_mem_eraseIdx hl)
  cases h with
  | intro apart left _ right _ =>
    intro ls hls
    rcases List.mem_or_eq_of_mem_set hls with hls | rfl
    · rcases List.mem_or_eq_of_mem_set hls with hls | rfl
      · exact hcs ls hls
      · exact hshorter left _
    · exact hshorter right _

/-! ### False clauses -/

/-- The clause at a place is false. -/
def FalseAt (I : Assignment) (cs : List (List Literal)) (t : Nat) : Prop :=
  ∃ ls, cs[t]? = some ls ∧ ls.any (·.truth I) = false

instance (I : Assignment) (cs : List (List Literal)) : DecidablePred (FalseAt I cs) := fun t =>
  decidable_of_iff (cs[t]?.any fun ls => !ls.any (·.truth I)) (by
    simp [FalseAt, Option.any_eq_true])

/-- A clause that is false after it has lost a false literal was false before. -/
theorem false_of_eraseIdx {ls : List Literal} {k : Nat} {p : Literal} (hp : ls[k]? = some p)
    (hfalse : p.truth I = false) (h : (ls.eraseIdx k).any (·.truth I) = false) :
    ls.any (·.truth I) = false := by
  rw [List.any_eq_false] at h ⊢
  intro l hl
  obtain ⟨i, hi⟩ := List.mem_iff_getElem?.mp hl
  by_cases hik : i = k
  · obtain rfl : p = l := by
      rw [hik, hp] at hi
      exact Option.some.inj hi
    simp [hfalse]
  · exact h l (List.mem_eraseIdx_iff_getElem?.mpr ⟨i, hik, hi⟩)

theorem falseAt_set_of_ne (hij : t ≠ i) (ls : List Literal) :
    FalseAt I (cs.set i ls) t ↔ FalseAt I cs t := by
  rw [FalseAt, FalseAt, List.getElem?_set_ne hij.symm]

/-- No clause becomes false when one loses a false literal. -/
theorem FalseAt.of_eraseIdx {ls : List Literal} {k : Nat} {p : Literal} (hls : cs[i]? = some ls)
    (hp : ls[k]? = some p) (hfalse : p.truth I = false)
    (h : FalseAt I (cs.set i (ls.eraseIdx k)) t) : FalseAt I cs t := by
  by_cases hti : t = i
  · subst hti
    obtain ⟨ms, hms, hempty⟩ := h
    have hi := (List.getElem?_eq_some_iff.mp hls).1
    rw [List.getElem?_set_self hi] at hms
    obtain rfl := Option.some.inj hms
    exact ⟨ls, hls, false_of_eraseIdx hp hfalse hempty⟩
  · exact (falseAt_set_of_ne hti _).mp h

/-- A step makes at most one clause false, and that is one which it shortens. -/
theorem Cancels.false_of_false (h : Cancels cs i j cs') (I : Assignment) :
    ∃ x, (x = i ∨ x = j) ∧ ∀ t, t ≠ x → FalseAt I cs' t → FalseAt I cs t := by
  cases h with
  | @intro ls ms k l p apart left leftLiteral right rightLiteral =>
    rcases hp : p.truth I with - | -
    · -- the left clause has lost a false literal
      refine ⟨j, .inr rfl, fun t ht hfalse => ?_⟩
      exact ((falseAt_set_of_ne ht _).mp hfalse).of_eraseIdx left leftLiteral hp
    · have hnegate : p.negate.truth I = false := by
        rw [Literal.truth_negate, hp]
        rfl
      refine ⟨i, .inl rfl, fun t ht hfalse => ?_⟩
      rw [List.set_comm _ _ apart] at hfalse
      exact ((falseAt_set_of_ne ht _).mp hfalse).of_eraseIdx right rightLiteral hnegate

/-- The places in a set at which the clause is false. -/
def falseClauses (I : Assignment) (T : Finset Nat) (cs : List (List Literal)) : Finset Nat :=
  T.filter (FalseAt I cs)

theorem Cancels.card_falseClauses_le (h : Cancels cs i j cs') (I : Assignment) (T : Finset Nat) :
    (falseClauses I T cs').card
      ≤ (falseClauses I T cs).card + if i ∈ T ∨ j ∈ T then 1 else 0 := by
  obtain ⟨x, hx, hkeep⟩ := h.false_of_false I
  split
  · have hsubset : falseClauses I T cs' ⊆ insert x (falseClauses I T cs) := by
      intro t ht
      obtain ⟨htT, hfalse⟩ := Finset.mem_filter.mp ht
      by_cases htx : t = x
      · exact Finset.mem_insert.mpr (.inl htx)
      · exact Finset.mem_insert_of_mem (Finset.mem_filter.mpr ⟨htT, hkeep t htx hfalse⟩)
    exact Nat.le_trans (Finset.card_le_card hsubset) (Finset.card_insert_le _ _)
  · rename_i hout
    -- the clause that may have become false is not looked at
    have hxT : x ∉ T := by
      rcases hx with rfl | rfl
      · exact fun hmem => hout (.inl hmem)
      · exact fun hmem => hout (.inr hmem)
    apply Finset.card_le_card
    intro t ht
    obtain ⟨htT, hfalse⟩ := Finset.mem_filter.mp ht
    exact Finset.mem_filter.mpr ⟨htT, hkeep t (fun e => hxT (e ▸ htT)) hfalse⟩

/-! ### The rule on clause sets without variables -/

theorem instance_ofLiterals (ls : List Literal) (k : Nat) :
    clause (((ls.map predicate).eraseIdx k).map Substitution.empty.applyNode)
      = ofLiterals (ls.eraseIdx k) := by
  have happly : Substitution.empty.applyNode ∘ predicate = predicate := by
    funext l
    show predicate (Substitution.empty.applyLiteral l) = predicate l
    rw [Substitution.applyLiteral_empty]
  rw [List.eraseIdx_map, List.map_map, happly, ofLiterals]

/-- The clauses and literals of a clash are among those written down. -/
theorem Clash.exists_clauses (c : Clash (ofClauses cs)) :
    ∃ ls ms, cs[c.i]? = some ls ∧ c.ls = ls.map .predicate ∧ ls[c.k]? = some c.p ∧
      cs[c.j]? = some ms ∧ c.ms = ms.map .predicate ∧ ms[c.l]? = some c.q := by
  obtain ⟨ls, hls, hleft⟩ := exists_of_at?_ofClauses c.left
  obtain ⟨ms, hms, hright⟩ := exists_of_at?_ofClauses c.right
  exact ⟨ls, ms, hls, hleft, getElem?_of_predicate (hleft ▸ c.leftLiteral), hms, hright,
    getElem?_of_predicate (hright ▸ c.rightLiteral)⟩

theorem Clash.ground (c : Clash (ofClauses cs)) (hcs : Ground cs) :
    c.p.Ground ∧ c.q.Ground := by
  obtain ⟨ls, ms, hls, -, hp, hms, -, hq⟩ := c.exists_clauses
  exact ⟨hcs ls (List.mem_of_getElem? hls) c.p (List.mem_of_getElem? hp),
    hcs ms (List.mem_of_getElem? hms) c.q (List.mem_of_getElem? hq)⟩

/-- A step of the rule at the top of a clause set cancels two literals. -/
theorem Clash.exists_cancels (c : Clash (ofClauses cs)) (hcs : Ground cs) (hc : c.Unifiable check)
    {s : Substitution} (hs : c.p.unify check c.q = .ok s) :
    ∃ cs', Cancels cs c.i c.j cs' ∧ c.resolve s = ofClauses cs' := by
  obtain ⟨ls, ms, hls, hleft, hp, hms, hright, hq⟩ := c.exists_clauses
  obtain ⟨hpground, hqground⟩ := c.ground hcs
  have hnegate : c.q = c.p.negate := (Literal.canUnify_iff_of_ground hpground hqground).mp hc
  obtain ⟨-, -, rfl⟩ := (Literal.unify_eq_ok_iff_of_ground hpground hqground).mp hs
  refine ⟨_, .intro c.apart hls hp hms (hnegate ▸ hq), ?_⟩
  obtain ⟨xs, hxs⟩ : ∃ xs, c.resolve .empty = .clauseSet xs :=
    kind_eq_nary.mp (c.kind_resolve .empty)
  have hchildren := c.children_resolve .empty
  rw [hxs, hleft, hright, instance_ofLiterals, instance_ofLiterals] at hchildren
  rw [hxs, ofClauses, List.map_set, List.map_set]
  exact congrArg clauseSet hchildren

/-- In a clause set without variables the rule applies at the top only. -/
theorem cancels_of_redexAt? (hcs : Ground cs) {p : Location} {x : Redex}
    (hx : (RuleSet.ofList [rule check]).redexAt? (ofClauses cs) p = some x) :
    p = [] ∧ x.subtree = ofClauses cs ∧
      ∃ i j cs', Cancels cs i j cs' ∧ x.contract (ofClauses cs) = ofClauses cs' ∧
        (rule check).outcome? (ofClauses cs) = some (.done (ofClauses cs')) := by
  obtain ⟨hlocation, -, -⟩ := RuleSet.redexAt?_eq_some_iff.mp hx
  obtain ⟨hat, hr, hfind⟩ := RuleSet.applies_of_redexAt? hx
  obtain ⟨location, subtree, r, b⟩ := x
  dsimp only at hlocation hat hr hfind
  obtain rfl : r = rule check := List.mem_singleton.mp hr
  obtain ⟨c, rfl, hc, -⟩ := find?_eq_some_iff.mp hfind
  cases p with
  | nil =>
    obtain rfl : ofClauses cs = subtree := Option.some.inj hat
    obtain ⟨-, s, hs⟩ := Literal.canUnify_iff.mp hc
    obtain ⟨cs', hcancels, hresolve⟩ := c.exists_cancels hcs hc hs
    have hrewrite := rewrite_of_unify c hs
    rw [hresolve] at hrewrite
    refine ⟨rfl, rfl, c.i, c.j, cs', hcancels, ?_, ?_⟩
    · subst hlocation
      rw [Redex.contract, Redex.outcome, hrewrite]
      rfl
    · rw [Rule.outcome?, hfind, Option.map_some, hrewrite]
  | cons a p =>
    -- further down there are no two clauses below a node
    have hmem := List.mem_of_getElem? ((subtree.at?_singleton c.i).symm.trans c.left)
    cases kind_child_of_ofClauses hat hmem

/-! ### Runs -/

/-- The rewrite that the rule makes at a node changes the number of operands of the child at
a place. -/
def shortens (check : Bool) (n : Node) (t : Nat) : Bool :=
  match (rule check).outcome? n with
  | some out => (out.tree.at? [t]).map arity != (n.at? [t]).map arity
  | none => false

/-- The rewrites of a list that shorten a clause at a place in a set. -/
def shortenings (check : Bool) (T : Finset Nat) (fs : List Firing) : Nat :=
  fs.countP fun f => decide (∃ t ∈ T, shortens check f.before t = true)

theorem shortenings_le_length (check : Bool) (T : Finset Nat) (fs : List Firing) :
    shortenings check T fs ≤ fs.length := List.countP_le_length

/-- The places in a set at which there is an empty clause. -/
def emptyClauses (T : Finset Nat) (n : Node) : Finset Nat :=
  T.filter fun t => (n.at? [t]).any (fun m => m.kind == .clause && m.arity == 0) = true

/-- A step shortens both of its clauses. -/
theorem Cancels.shortens (h : Cancels cs i j cs')
    (hout : (rule check).outcome? (ofClauses cs) = some (.done (ofClauses cs'))) :
    shortens check (ofClauses cs) i = true ∧ shortens check (ofClauses cs) j = true := by
  have hne : ∀ {ls : List Literal} {k : Nat} {p : Literal}, ls[k]? = some p →
      (ls.eraseIdx k).length ≠ ls.length := by
    intro ls k p hp
    have hk := (List.getElem?_eq_some_iff.mp hp).1
    rw [List.length_eraseIdx_of_lt hk]
    omega
  cases h with
  | intro apart left leftLiteral right rightLiteral =>
    have hi := (List.getElem?_eq_some_iff.mp left).1
    have hj := (List.getElem?_eq_some_iff.mp right).1
    simp only [Resolution.shortens, hout, Outcome.tree_done, at?_ofClauses]
    rw [List.getElem?_set_ne apart.symm, List.getElem?_set_self hi, left,
      List.getElem?_set_self (by rwa [List.length_set]), right]
    simp [arity_ofLiterals, hne leftLiteral, hne rightLiteral]

/-- Along a run no more clauses become false than there are steps that shorten them. -/
theorem exists_clauses_of_trail {n m : Node} {fs : List Firing}
    (h : Trail (.ofList [rule check]) [] n fs m) (hcs : Ground cs) (hn : n = ofClauses cs)
    (T : Finset Nat) :
    ∃ cs', m = ofClauses cs' ∧ ∀ I, (falseClauses I T cs').card
      ≤ (falseClauses I T cs).card + shortenings check T fs := by
  induction h generalizing cs with
  | nil => exact ⟨cs, hn, fun I => Nat.le_add_right _ _⟩
  | @cons _ _ fs x p redex done rest ih =>
    subst hn
    obtain ⟨-, hsubtree, i, j, cs', hcancels, hcontract, hout⟩ := cancels_of_redexAt? hcs redex
    obtain ⟨cs'', rfl, hrest⟩ := ih (hcancels.ground hcs) hcontract
    refine ⟨cs'', rfl, fun I => ?_⟩
    have hstep := hcancels.card_falseClauses_le I T
    have hfirst : (if i ∈ T ∨ j ∈ T then 1 else 0)
        ≤ if ∃ t ∈ T, shortens check (ofClauses cs) t = true then 1 else 0 := by
      obtain ⟨hi, hj⟩ := hcancels.shortens hout
      split
      · rename_i hmem
        rw [if_pos (hmem.elim (fun h => ⟨i, h, hi⟩) fun h => ⟨j, h, hj⟩)]
      · exact Nat.zero_le _
    have hbefore : (x.firing []).before = ofClauses cs := hsubtree
    have hlater := hrest I
    simp only [shortenings, List.countP_cons, hbefore, decide_eq_true_eq] at hlater ⊢
    omega

/-- The rule does not fault, so a session leaves a trail. -/
theorem trail_run (check : Bool) (config : Config) (n : Node) :
    Trail (.ofList [rule check]) [] n (Session.run config (.ofList [rule check]) n).firings
      (Session.run config (.ofList [rule check]) n).after := by
  apply (Session.passesFrom_account config.strategy _ config.limit n).trail_of_done
  intro o p x hx
  obtain ⟨-, hr, hfind⟩ := RuleSet.applies_of_redexAt? hx
  have hlisted : Table.Listed x.rule := .inr ⟨check, List.mem_singleton.mp hr⟩
  exact hlisted.faultless x.subtree x.binding hfind

/-- An empty clause is false. -/
theorem emptyClauses_subset (I : Assignment) (T : Finset Nat) (cs : List (List Literal)) :
    emptyClauses T (ofClauses cs) ⊆ falseClauses I T cs := by
  intro t ht
  obtain ⟨htT, hempty⟩ := Finset.mem_filter.mp ht
  rw [at?_ofClauses] at hempty
  rcases hls : cs[t]? with - | ls
  · rw [hls] at hempty
    cases hempty
  · obtain rfl : ls = [] := by simpa [hls, arity_ofLiterals, ofLiterals, NaryOp.kind] using hempty
    exact Finset.mem_filter.mpr ⟨htT, [], hls, rfl⟩

/-! ### One step that leaves nothing to do -/

/-- Without variables it is enough to compare the literals. -/
theorem find?_of_ground (check : Bool) (hcs : Ground cs) :
    (rule check).find? (ofClauses cs)
      = (testing true fun p q => q == p.negate).find? (ofClauses cs) := by
  rw [rule_eq_testing]
  apply find?_testing_congr
  intro c
  obtain ⟨hp, hq⟩ := c.ground hcs
  exact Bool.eq_iff_iff.mpr ((Literal.canUnify_iff_of_ground hp hq).trans beq_iff_eq.symm)

/-- Below the top of a clause set without variables the rule matches nowhere. -/
theorem firstRedex?_ofClauses (check : Bool) (hcs : Ground cs) :
    (RuleSet.ofList [rule check]).firstRedex? (ofClauses cs)
      = ((rule check).find? (ofClauses cs)).map fun b =>
          .whole (ofClauses cs) (rule check, b) := by
  rw [RuleSet.firstRedex?_of_operands_clear]
  · rcases h : (rule check).find? (ofClauses cs) with - | b
    · simp [RuleSet.firstMatch?, RuleSet.ofList, h]
    · simp [RuleSet.firstMatch?, RuleSet.ofList, h]
  · intro m hm
    obtain ⟨i, hi⟩ := List.mem_iff_getElem?.mp hm
    rw [RuleSet.firstRedex?_eq_none_iff]
    intro p
    rcases hx : (RuleSet.ofList [rule check]).redexAt? m p with - | x
    · rfl
    · have hbelow : (RuleSet.ofList [rule check]).redexAt? (ofClauses cs) (i :: p)
          = some (x.below i) := by
        rw [RuleSet.redexAt?_cons hi, hx, Option.map_some]
      cases (cancels_of_redexAt? hcs hbelow).1

/-- A session that makes one step, after which no literals are left to cancel. -/
theorem run_of_clash (hcs : Ground cs) (c : Clash (ofClauses cs))
    (hfind : (testing true fun p q => q == p.negate).find? (ofClauses cs) = some c.binding)
    (hcs' : Ground cs') (hresolve : c.resolve .empty = ofClauses cs')
    (hclear : (testing true fun p q => q == p.negate).find? (ofClauses cs') = none)
    (check : Bool) (limit : Nat) :
    (Session.run ⟨limit + 1, .fixpoint⟩ (.ofList [rule check]) (ofClauses cs)).after
        = ofClauses cs' ∧
      (Session.run ⟨limit + 1, .fixpoint⟩ (.ofList [rule check]) (ofClauses cs)).rewrites = 1 := by
  rw [← find?_of_ground check hcs] at hfind
  rw [← find?_of_ground check hcs'] at hclear
  have haccepts : (rule check).accepts (ofClauses cs) c.binding = true := by
    rw [Rule.find?, Pattern.findBinding_eq] at hfind
    exact List.find?_some hfind
  have hunify : c.p.unify check c.q = .ok .empty := by
    obtain ⟨hp, hq⟩ := c.ground hcs
    obtain ⟨-, s, hs⟩ := Literal.canUnify_iff.mp ((accepts_binding_iff c).mp haccepts)
    obtain ⟨-, -, rfl⟩ := (Literal.unify_eq_ok_iff_of_ground hp hq).mp hs
    exact hs
  have hrewrite := rewrite_of_unify c hunify
  rw [hresolve] at hrewrite
  -- one round of the loop, and nothing is left
  have hfirst := firstRedex?_ofClauses check hcs
  have hlast := firstRedex?_ofClauses check hcs'
  rw [hfind, Option.map_some] at hfirst
  rw [hclear, Option.map_none] at hlast
  have hdone : (Redex.whole (ofClauses cs) (rule check, c.binding)).outcome.fault = none := by
    show ((rule check).rewrite (ofClauses cs) c.binding).fault = none
    rw [hrewrite, Outcome.fault_done]
  have hcontract : (Redex.whole (ofClauses cs) (rule check, c.binding)).contract (ofClauses cs)
      = ofClauses cs' := by
    rw [Redex.contract_whole, hrewrite, Outcome.tree_done]
  have hchain : Chain (.ofList [rule check]) [] (ofClauses cs) [_] (ofClauses cs') :=
    .cons hfirst hdone (hcontract ▸ .nil _)
  obtain ⟨hafter, hfirings, -⟩ :=
    Session.run_saturated_iff.mpr ⟨hchain, Nat.le_add_left 1 limit, hlast⟩
  exact ⟨hafter, congrArg List.length hfirings⟩

/-- **Empty clauses that outnumber the steps refute a clause set.**  A session with the
resolution rule is run on a set of clauses of literals without variables, with any limit and
under either strategy.  If of the clauses at some places more are empty in the end than
there were rewrites that have shortened any of these clauses, then the set from which the
session has started is false under every assignment. -/
theorem refutation_sound (hcs : Ground cs) (check : Bool) (config : Config) (T : Finset Nat)
    (hcount : shortenings check T
        (Session.run config (.ofList [rule check]) (ofClauses cs)).firings
      < (emptyClauses T (Session.run config (.ofList [rule check]) (ofClauses cs)).after).card)
    (I : Assignment) (env : Nat → Option Bool) : (ofClauses cs).truth I env = some false := by
  obtain ⟨cs', hafter, hfalse⟩ :=
    exists_clauses_of_trail (trail_run check config (ofClauses cs)) hcs rfl T
  rw [hafter] at hcount
  have hempty := Finset.card_le_card (emptyClauses_subset I T cs')
  -- so some clause was false from the start
  have hpos : 0 < (falseClauses I T cs).card := by
    have := hfalse I
    omega
  obtain ⟨t, ht⟩ := Finset.card_pos.mp hpos
  obtain ⟨-, ls, hls, hlsfalse⟩ := Finset.mem_filter.mp ht
  rw [truth_ofClauses, Option.some.injEq, List.all_eq_false]
  exact ⟨ls, List.mem_of_getElem? hls, by simp [hlsfalse]⟩

/-- A literal and its negation as clauses: one step empties both. -/
theorem refutation_sound_units :
    let p : Literal := ⟨"P", [.app "a" []], false⟩
    let cs : List (List Literal) := [[p], [p.negate]]
    let s := Session.run ⟨1, .fixpoint⟩ (.ofList [rule true]) (ofClauses cs)
    Ground cs ∧ shortenings true {0, 1} s.firings < (emptyClauses {0, 1} s.after).card ∧
      ∀ I env, (ofClauses cs).truth I env = some false := by
  intro p cs s
  have hcs : Ground cs := by decide
  have hempty : Ground [[], []] := by decide
  let c : Clash (ofClauses cs) :=
    { i := 0, k := 0, j := 1, l := 0, ls := [.predicate p], ms := [.predicate p.negate], p := p
      q := p.negate, apart := by decide, left := rfl, leftLiteral := rfl, right := rfl
      rightLiteral := rfl }
  obtain ⟨hafter, hrewrites⟩ := run_of_clash hcs c rfl hempty rfl rfl true 0
  have hcount : shortenings true {0, 1} s.firings < (emptyClauses {0, 1} s.after).card := by
    calc shortenings true {0, 1} s.firings
        ≤ s.firings.length := shortenings_le_length _ _ _
      _ = 1 := hrewrites
      _ < 2 := by decide
      _ = (emptyClauses {0, 1} s.after).card := by rw [hafter]; rfl
  exact ⟨hcs, hcount, refutation_sound hcs true ⟨1, .fixpoint⟩ {0, 1} hcount⟩

/-- **One empty clause refutes nothing.**  Of the clause of `P` and `Q` and the clause of the
negation of `P` the second is emptied, although the set is true when `Q` is and `P` is not. -/
theorem emptied_of_satisfiable :
    let p : Literal := ⟨"P", [], false⟩
    let q : Literal := ⟨"Q", [], false⟩
    let cs : List (List Literal) := [[p, q], [p.negate]]
    let s := Session.run ⟨10000, .fixpoint⟩ (.ofList [rule false]) (ofClauses cs)
    Ground cs ∧ 1 ∉ emptyClauses {0, 1} (ofClauses cs) ∧ 1 ∈ emptyClauses {0, 1} s.after ∧
      ∃ I, ∀ env, (ofClauses cs).truth I env = some true := by
  intro p q cs s
  have hcs : Ground cs := by decide
  have hleft : Ground [[q], []] := by decide
  let c : Clash (ofClauses cs) :=
    { i := 0, k := 0, j := 1, l := 0, ls := [.predicate p, .predicate q]
      ms := [.predicate p.negate], p := p, q := p.negate, apart := by decide, left := rfl
      leftLiteral := rfl, right := rfl, rightLiteral := rfl }
  obtain ⟨hafter, -⟩ := run_of_clash hcs c rfl hleft rfl rfl false 9999
  refine ⟨hcs, by decide, ?_, fun name _ => name == "Q", fun env => ?_⟩
  · show 1 ∈ emptyClauses {0, 1} s.after
    rw [hafter]
    decide
  · rfl

end TreeRewriting.Resolution
