/-
TreeRewriting/Proofs/Session/Refinement.lean

A session under the fixpoint strategy is the loop that starts over.

Design.  A sweep never starts over: it works through the operands, loops at a
node, and goes on with the operands of the node above, whatever became of the
ones before.  What carries the proof is that a sweep that runs to its end
leaves a tree in which nothing matches, so whatever the sweep has passed has no
redex and the loop, too, would look at what comes next.  `Progress` says how
far a sweep has come in terms of the loop on the swept tree alone: a chain of
rounds, and then either no redex, or one for which there is no budget, or one
whose action ends in a fault.

Main result: `Session.run_fixpoint_eq_restart`.  The second pass of a session
finds nothing, because the first one left nothing (`passesFrom_of_clear`).
-/
import TreeRewriting.Proofs.Session.Trail

namespace TreeRewriting

/-! ### How far a sweep has come -/

/-- A sweep of a tree at a location has come as far as a chain of rounds of the loop, and
then found no redex, or one beyond the budget, or one whose action ends in a fault. -/
inductive Progress (rules : RuleSet) (here : Location) (budget : Nat) (n : Node) :
    Node → List Firing → Option Halt → Prop
  | clear {m : Node} {fs : List Firing} (chain : Chain rules here n fs m)
      (within : fs.length ≤ budget) (last : rules.firstRedex? m = none) :
      Progress rules here budget n m fs none
  | exhausted {m : Node} {fs : List Firing} {x : Redex} (chain : Chain rules here n fs m)
      (spent : fs.length = budget) (last : rules.firstRedex? m = some x) :
      Progress rules here budget n m fs (some .exhausted)
  | faulted {m : Node} {fs : List Firing} {x : Redex} {e : Fault}
      (chain : Chain rules here n fs m) (within : fs.length < budget)
      (last : rules.firstRedex? m = some x) (fault : x.outcome.fault = some e) :
      Progress rules here budget n (x.contract m) fs (some (.faulted (x.firing here) e))

/-- How the loop ends when a sweep ends in this way. -/
def Halt.ending : Option Halt → Ending
  | none => .stopped .saturated
  | some .exhausted => .stopped .iterationLimit
  | some (.faulted attempt e) => .faulted attempt e

namespace Progress

variable {rules : RuleSet} {here : Location} {budget : Nat}

theorem finished {n m : Node} {fs : List Firing} (h : Progress rules here budget n m fs none) :
    Chain rules here n fs m ∧ rules.firstRedex? m = none := by
  cases h with
  | clear chain _ last => exact ⟨chain, last⟩

/-- Rounds that come before count for the budget. -/
theorem after {n m o : Node} {fs gs : List Firing} {halt : Option Halt}
    (h : Chain rules here n fs m) (hb : fs.length ≤ budget)
    (h' : Progress rules here (budget - fs.length) m o gs halt) :
    Progress rules here budget n o (fs ++ gs) halt := by
  cases h' with
  | clear chain within last =>
    exact .clear (h.append chain) (by rw [List.length_append]; omega) last
  | exhausted chain spent last =>
    exact .exhausted (h.append chain) (by rw [List.length_append]; omega) last
  | faulted chain within last fault =>
    exact .faulted (h.append chain) (by rw [List.length_append]; omega) last fault

/-- A sweep that ends early in an operand, with nothing left in the operands before it,
ends early in the whole tree. -/
theorem inOperand {n c d : Node} {pre post : List Node} {fs : List Firing} {halt : Halt}
    (hn : (pre ++ c :: post).length = n.arity) (hpre : ∀ x ∈ pre, rules.firstRedex? x = none)
    (h : Progress rules (here.child pre.length) budget c d fs (some halt)) :
    Progress rules here budget (n.withChildren (pre ++ c :: post))
      (n.withChildren (pre ++ d :: post)) fs (some halt) := by
  cases h with
  | exhausted chain spent last =>
    have hm : (pre ++ d :: post).length = n.arity := by simpa using hn
    have hlast := RuleSet.firstRedex?_of_operand (Node.children_withChildren hm) hpre last
    exact .exhausted (chain.inOperand hn hpre) spent hlast
  | @faulted m _ x e chain within last fault =>
    have hm : (pre ++ m :: post).length = n.arity := by simpa using hn
    have hlast := RuleSet.firstRedex?_of_operand (Node.children_withChildren hm) hpre last
    rw [← x.contract_below hm, ← x.firing_below]
    exact .faulted (chain.inOperand hn hpre) within hlast fault

/-- The loop comes to the same tree by the same rewrites, and ends in the same way. -/
theorem restart_eq {n m : Node} {fs : List Firing} {halt : Option Halt}
    (h : Progress rules [] budget n m fs halt) :
    restart rules budget n = ⟨m, fs, Halt.ending halt⟩ := by
  cases h with
  | clear chain within last => exact restart_saturated_iff.mpr ⟨chain, within, last⟩
  | exhausted chain spent last =>
    rw [chain.restart_eq (Nat.le_of_eq spent), spent, Nat.sub_self, restart, last]
    simp [Restart.prepend, Halt.ending]
  | faulted chain within last fault =>
    obtain ⟨k, hk⟩ := Nat.exists_eq_add_of_lt within
    have hleft : budget - fs.length = k + 1 := by omega
    rw [chain.restart_eq (Nat.le_of_lt within), hleft, restart_of_fault last fault]
    simp [Restart.prepend, Halt.ending]

end Progress

/-! ### Sweeps -/

/-- What the sweep of the operands of a node behind those already swept comes to: if it
runs to its end, rounds of the loop on the whole node that leave nothing to match in these
operands; if it ends early, the loop on the whole node ends with it. -/
structure OperandProgress (rules : RuleSet) (here : Location) (budget : Nat) (n : Node)
    (pre xs : List Node) (s : Sweep (List Node) budget) : Prop where
  length : s.result.length = xs.length
  finished : s.halt = none →
    Chain rules here (n.withChildren (pre ++ xs)) s.firings (n.withChildren (pre ++ s.result)) ∧
      ∀ x ∈ s.result, rules.firstRedex? x = none
  stopped : ∀ h, s.halt = some h →
    Progress rules here budget (n.withChildren (pre ++ xs)) (n.withChildren (pre ++ s.result))
      s.firings (some h)

/-- What a sweep of a node has to do with the loop. -/
def SweptAsRestarted (rules : RuleSet) (strategy : Strategy) (budget : Nat) (here : Location)
    (n : Node) : Prop :=
  let s := sweep strategy rules budget here n
  strategy = .fixpoint → Progress rules here budget n s.result s.firings s.halt

/-- What a sweep of operands has to do with the loop, whatever the node and the operands
already swept. -/
def OperandsSweptAsRestarted (rules : RuleSet) (strategy : Strategy) (budget : Nat)
    (here : Location) (index : Nat) (xs : List Node) : Prop :=
  strategy = .fixpoint → ∀ (n : Node) (pre : List Node), (pre ++ xs).length = n.arity →
    pre.length = index → (∀ x ∈ pre, rules.firstRedex? x = none) →
      OperandProgress rules here budget n pre xs (sweepList strategy rules budget here index xs)

/-- The sweep of all operands of a node. -/
theorem OperandsSweptAsRestarted.all {rules : RuleSet} {budget : Nat} {here : Location} {n : Node}
    {below : Sweep (List Node) budget}
    (h : OperandsSweptAsRestarted rules .fixpoint budget here 0 n.children)
    (hbelow : sweepList .fixpoint rules budget here 0 n.children = below) :
    OperandProgress rules here budget n [] n.children below := by
  rw [← hbelow]
  exact h rfl n [] rfl rfl (by simp)

/-- When the sweep of the operands has run to its end, the first redex is the node itself,
if anything is. -/
theorem OperandProgress.finished_all {rules : RuleSet} {here : Location} {budget : Nat}
    {n m : Node} {below : Sweep (List Node) budget}
    (h : OperandProgress rules here budget n [] n.children below) (hhalt : below.halt = none)
    (hm : n.withChildren below.result = m) :
    Chain rules here n below.firings m ∧
      rules.firstRedex? m = (rules.firstMatch? m).map (Redex.whole m) := by
  obtain ⟨hchain, hclear⟩ := h.finished hhalt
  rw [List.nil_append, Node.withChildren_children, List.nil_append, hm] at hchain
  refine ⟨hchain, RuleSet.firstRedex?_of_operands_clear ?_⟩
  intro c hc
  rw [← hm, Node.children_withChildren h.length] at hc
  exact hclear c hc

/-- The operand in front, and the operands behind it. -/
theorem OperandProgress.cons {rules : RuleSet} {here : Location} {budget : Nat} {n x : Node}
    {pre xs : List Node} {first : Sweep Node budget} {rest : Sweep (List Node) first.left}
    (hn : (pre ++ x :: xs).length = n.arity) (hpre : ∀ y ∈ pre, rules.firstRedex? y = none)
    (hchain : Chain rules (here.child pre.length) x first.firings first.result)
    (hclear : rules.firstRedex? first.result = none)
    (hrest : OperandProgress rules here first.left n (pre ++ [first.result]) xs rest) :
    OperandProgress rules here budget n pre (x :: xs)
      ((first.andThen rest).withResult (first.result :: rest.result)) := by
  obtain ⟨hlen, hfinished, hstopped⟩ := hrest
  simp only [List.append_assoc, List.singleton_append] at hfinished hstopped
  have hfirst := hchain.inOperand hn hpre
  refine ⟨congrArg (· + 1) hlen, ?_, ?_⟩
  · intro h
    obtain ⟨hchain', hclear'⟩ := hfinished h
    refine ⟨hfirst.append hchain', ?_⟩
    intro y hy
    rcases List.mem_cons.mp hy with rfl | hy
    · exact hclear
    · exact hclear' y hy
  · intro h hh
    exact (hstopped h hh).after hfirst first.within

/-- Under the fixpoint strategy a sweep comes as far as the loop. -/
theorem sweep_progress (rules : RuleSet) (budget : Nat) (here : Location) (n : Node) :
    let s := sweep .fixpoint rules budget here n
    Progress rules here budget n s.result s.firings s.halt := by
  suffices h : SweptAsRestarted rules .fixpoint budget here n from h rfl
  -- by induction along the calls of a sweep, which are made under either strategy
  refine sweep.induct rules (SweptAsRestarted rules) (OperandsSweptAsRestarted rules) ?halted
    ?clear ?faulted ?once ?fired ?spent ?nil ?first ?rest .fixpoint budget here n
  case halted =>
    rintro _ budget here n below halt hhalt ih rfl
    have hp := (ih.all rfl).stopped halt hhalt
    rw [List.nil_append, Node.withChildren_children] at hp
    rw [sweep_of_halt rfl hhalt]
    exact hhalt ▸ hp
  case clear =>
    rintro _ budget here n below m hhalt hmatch ih rfl
    obtain ⟨hchain, hfirst⟩ := (ih.all rfl).finished_all hhalt rfl
    rw [hmatch] at hfirst
    rw [sweep_of_no_match rfl hhalt rfl hmatch]
    exact hhalt ▸ .clear hchain below.within hfirst
  case faulted =>
    rintro _ budget here n below m hhalt r b hmatch hleft out e hfault ih rfl
    obtain ⟨hchain, hfirst⟩ := (ih.all rfl).finished_all hhalt rfl
    rw [hmatch] at hfirst
    rw [sweep_of_fault rfl hhalt rfl hmatch hleft hfault]
    have hp := Progress.faulted hchain hleft hfirst hfault
    rw [Redex.firing_whole] at hp
    exact hp
  case once =>
    -- a single pass is not under the fixpoint strategy
    rintro budget here n r b below m hhalt hmatch hleft out hdone ih ⟨⟩
  case fired =>
    rintro budget here n r b below m hhalt hmatch hleft out firing hdone fired ih ih' -
    obtain ⟨hchain, hfirst⟩ := (ih.all rfl).finished_all hhalt rfl
    rw [hmatch] at hfirst
    -- one more round, at the node itself, after those in its operands
    have hround : Chain rules here m [firing] out.tree := by
      have hcons : Chain rules here m _ _ := .cons hfirst hdone (.nil _)
      rw [Redex.firing_whole, Redex.contract_whole] at hcons
      exact hcons
    rw [sweep_fixpoint_of_fired rfl hhalt rfl hmatch hleft hdone rfl]
    exact (ih' rfl).after (hchain.append hround) fired.within
  case spent =>
    rintro _ budget here n below m hhalt r b hmatch hspent ih rfl
    obtain ⟨hchain, hfirst⟩ := (ih.all rfl).finished_all hhalt rfl
    rw [hmatch] at hfirst
    rw [sweep_of_spent rfl hhalt rfl hmatch hspent]
    exact .exhausted hchain (Nat.le_antisymm below.within (Nat.le_of_not_lt hspent)) hfirst
  case nil =>
    rintro _ budget here index rfl n pre - - -
    rw [sweepList_nil]
    exact ⟨rfl, fun _ => ⟨.nil _, by simp⟩, by simp⟩
  case first =>
    rintro _ budget here index x xs first halt hhalt ih rfl n pre hn rfl hpre
    have hp : Progress rules _ budget x first.result first.firings first.halt := ih rfl
    rw [hhalt] at hp
    rw [sweepList_of_halt rfl hhalt]
    refine ⟨rfl, ?_, ?_⟩
    · intro h
      exact absurd (hhalt.symm.trans h) (by simp)
    · intro h hh
      obtain rfl : halt = h := Option.some.inj (hhalt.symm.trans hh)
      exact hp.inOperand hn hpre
  case rest =>
    rintro _ budget here index x xs first hhalt ih ih' rfl n pre hn rfl hpre
    have hp : Progress rules _ budget x first.result first.firings first.halt := ih rfl
    rw [hhalt] at hp
    obtain ⟨hchain, hclear⟩ := hp.finished
    -- nothing matches any more in this operand, so it joins those that have been passed
    have hdone : ∀ y ∈ pre ++ [first.result], rules.firstRedex? y = none := by
      intro y hy
      rcases List.mem_append.mp hy with hy | hy
      · exact hpre y hy
      · rw [List.mem_singleton.mp hy]
        exact hclear
    have hrest := ih' rfl n (pre ++ [first.result]) (by simpa using hn) (by simp) hdone
    rw [sweepList_of_finished rfl hhalt rfl]
    exact .cons hn hpre hchain hclear hrest

/-! ### Sessions -/

namespace Restart

/-- The passes of a session that does what the loop does: all rewrites are made in the
first.  A second one follows, without a rewrite, when the first has rewritten something and
left nothing to match. -/
def passes (r : Restart) : List (List Firing) :=
  match r.ending with
  | .stopped .saturated => if r.firings.isEmpty then [r.firings] else [r.firings, []]
  | _ => [r.firings]

/-- The session on a tree that does what the loop does. -/
def session (r : Restart) (n : Node) : Session := ⟨n, r.after, r.passes, r.ending⟩

@[simp] theorem firings_session (r : Restart) (n : Node) : (r.session n).firings = r.firings := by
  unfold Session.firings session passes
  split
  · split <;> simp
  · simp

end Restart

namespace Session

variable {rules : RuleSet}

/-- Passes under the fixpoint strategy do what the loop does.  A first pass that rewrites
something and runs to its end leaves nothing to match, so the second is the last. -/
theorem passesFrom_fixpoint_eq_session (rules : RuleSet) (budget : Nat) (n : Node) :
    passesFrom .fixpoint rules budget n = (restart rules budget n).session n := by
  have hp := sweep_progress rules budget [] n
  rcases hs : sweep .fixpoint rules budget [] n with ⟨m, fs, halt, within⟩
  rw [hs] at hp
  rw [hp.restart_eq]
  rcases halt with - | - | ⟨attempt, e⟩
  · -- a pass that has run to its end
    by_cases hidle : fs = []
    · rw [passesFrom_of_unchanged hs rfl fun hleft => Sweep.left_lt_iff.mp hleft hidle]
      simp [last, Restart.session, Restart.passes, Halt.ending, hidle]
    · have hchanged : (Sweep.mk m fs none within).left < budget := Sweep.left_lt_iff.mpr hidle
      rw [passesFrom_fixpoint_of_changed hs rfl hchanged, passesFrom_of_clear hp.finished.2]
      simp [cons, Restart.session, Restart.passes, Halt.ending, hidle]
  · rw [passesFrom_of_exhausted hs rfl]
    rfl
  · rw [passesFrom_of_fault hs rfl]
    rfl

/-- Passes under the fixpoint strategy come to the tree of the loop, by its rewrites, and end
as it ends. -/
theorem passesFrom_fixpoint (rules : RuleSet) (budget : Nat) (n : Node) :
    (passesFrom .fixpoint rules budget n).after = (restart rules budget n).after ∧
      (passesFrom .fixpoint rules budget n).firings = (restart rules budget n).firings ∧
      (passesFrom .fixpoint rules budget n).ending = (restart rules budget n).ending := by
  rw [passesFrom_fixpoint_eq_session]
  exact ⟨rfl, Restart.firings_session _ n, rfl⟩

/-- A session under the fixpoint strategy saturates exactly by a chain, within the limit, to
a tree without a redex. -/
theorem run_saturated_iff {limit : Nat} {n m : Node} {fs : List Firing} :
    let s := run ⟨limit, .fixpoint⟩ rules n
    s.after = m ∧ s.firings = fs ∧ s.ending = .stopped .saturated ↔
      Chain rules [] n fs m ∧ fs.length ≤ limit ∧ rules.firstRedex? m = none := by
  intro s
  obtain ⟨hafter, hfirings, hending⟩ :
      s.after = _ ∧ s.firings = _ ∧ s.ending = _ := passesFrom_fixpoint rules limit n
  rw [← restart_saturated_iff, hafter, hfirings, hending]
  rcases restart rules limit n with ⟨o, gs, ending⟩
  simp

/-- **A session under the fixpoint strategy is the loop that starts over**: it makes the
same rewrites in the same order, and ends with the same tree and in the same way, be it a
stop or a fault, after as many rewrites in all and of each rule. -/
theorem run_fixpoint_eq_restart (rules : RuleSet) (limit : Nat) (n : Node) :
    let session := run ⟨limit, .fixpoint⟩ rules n
    let loop := restart rules limit n
    session.firings = loop.firings ∧ session.after = loop.after ∧
      session.ending = loop.ending ∧ session.rewrites = loop.firings.length ∧
      ∀ name, session.fired name = loop.fired name := by
  intro session loop
  obtain ⟨hafter, hfirings, hending⟩ := passesFrom_fixpoint rules limit n
  refine ⟨hfirings, hafter, hending, congrArg List.length hfirings, ?_⟩
  intro name
  exact congrArg (List.countP (·.rule == name)) hfirings

end Session

end TreeRewriting
