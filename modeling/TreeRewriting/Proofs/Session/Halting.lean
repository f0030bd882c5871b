/-
TreeRewriting/Proofs/Session/Halting.lean

A session comes to an end, and to what end.

Design.  The machine stops from every state (`terminates_moves`); here it is
followed to where it stops.  A call that sweeps a node comes back, with the calls
around it untouched, with what `sweep` says: it returns the tree and whether
anything was rewritten, or fails with the fault, and the log has the rewrites
(`moves_sweep`).  The induction is on the calls of `sweep`, with the stack, the
log and the changes noted before left open.  Pass after pass the machine then
comes to the session that `passesFrom` describes (`moves_passes`).

Main result: `session_terminates`.
-/
import TreeRewriting.Proofs.Session.Machine

namespace TreeRewriting.Machine

open Relation

variable {config : Config} {rules : RuleSet}

/-! ### Single steps -/

section

variable {f : Frame} {stack : List Frame} {log : Log} {n : Node} {changed : Bool}

theorem moves_operand {c : Node} {cs : List Node} (hrest : f.rest = c :: cs) :
    Moves config rules (.running (.sweeping f) stack log)
      (.running (.sweeping (.start (f.here.child f.swept.length) c false))
        ({ f with rest := cs } :: stack) log) := by
  simp only [Moves, step, hrest]

theorem moves_settle (hrest : f.rest = []) {control : Control} {log' : Log}
    (hsettle : settle config rules f log = (control, log')) :
    Moves config rules (.running (.sweeping f) stack log) (.running control stack log') := by
  simp only [Moves, step, hrest, hsettle]

theorem moves_receive (hgoing : log.exhausted = false) :
    Moves config rules (.running (.returning n changed) (f :: stack) log)
      (.running (.sweeping (f.receive n changed)) stack log) := by
  simp [Moves, step, hgoing]

theorem moves_unwind (hspent : log.exhausted = true) :
    Moves config rules (.running (.returning n changed) (f :: stack) log)
      (.running (.returning (f.receive n changed).tree (f.receive n changed).changed) stack log) := by
  simp [Moves, step, hspent]

theorem moves_raise {attempt : Firing} {e : Fault} :
    Moves config rules (.running (.raising n attempt e) (f :: stack) log)
      (.running (.raising (f.receive n false).tree attempt e) stack log) := rfl

theorem moves_limit (hspent : log.exhausted = true) :
    Moves config rules (.running (.returning n changed) [] log)
      (.ended (log.session n (.stopped .iterationLimit))) := by
  simp [Moves, step, endPass, hspent]

theorem moves_saturated (hgoing : log.exhausted = false) :
    Moves config rules (.running (.returning n false) [] log)
      (.ended (log.session n (.stopped .saturated))) := by
  simp [Moves, step, endPass, hgoing]

theorem moves_singlePass {limit : Nat} (hgoing : log.exhausted = false) :
    Moves ⟨limit, .singlePass⟩ rules (.running (.returning n true) [] log)
      (.ended (log.session n (.stopped .singlePass))) := by
  simp [Moves, step, endPass, hgoing]

theorem moves_nextPass {limit : Nat} (hgoing : log.exhausted = false) :
    Moves ⟨limit, .fixpoint⟩ rules (.running (.returning n true) [] log)
      (.running (.sweeping (.start [] n false)) [] log.nextPass) := by
  simp [Moves, step, endPass, hgoing]

theorem moves_fault {attempt : Firing} {e : Fault} :
    Moves config rules (.running (.raising n attempt e) [] log)
      (.ended (log.session n (.faulted attempt e))) := rfl

end

/-! ### What a sweep leaves in the machine -/

/-- The rewrites of a sweep are put down. -/
def Log.record (log : Log) (fs : List Firing) : Log := { log with firings := log.firings ++ fs }

/-- What the log says after a sweep. -/
def Log.after (log : Log) (fs : List Firing) : Option Halt → Log
  | some .exhausted => (log.record fs).exhaust
  | _ => log.record fs

/-- How a call comes back that has noted changes before and has made these rewrites since. -/
def answer (changed : Bool) (n : Node) (fs : List Firing) : Option Halt → Control
  | some (.faulted attempt e) => .raising n attempt e
  | _ => .returning n (changed || !fs.isEmpty)

/-- The call whose operands have all been swept, to these nodes and with these rewrites. -/
def Frame.done (f : Frame) (xs : List Node) (fs : List Firing) : Frame :=
  { f with swept := f.swept ++ xs, rest := [], changed := f.changed || !fs.isEmpty }

/-- What a call does after the sweep of its operands. -/
def Frame.afterOperands (f : Frame) (xs : List Node) (fs : List Firing) : Option Halt → Control
  | none => .sweeping (f.done xs fs)
  | some halt => answer f.changed (f.node.withChildren (f.swept ++ xs)) fs (some halt)

theorem Frame.tree_done (f : Frame) (xs : List Node) (fs : List Firing) :
    (f.done xs fs).tree = f.node.withChildren (f.swept ++ xs) := by
  simp [tree, done]

/-- What an operand is swept to stands between the operands before it and those behind it. -/
theorem Frame.tree_receive (f : Frame) (n : Node) (changed : Bool) :
    (f.receive n changed).tree = f.node.withChildren (f.swept ++ n :: f.rest) := by
  simp [tree, receive]

/-- What comes of the operands behind one comes of all of them. -/
theorem Frame.afterOperands_receive (f : Frame) (n : Node) (fs : List Firing) (xs ys : List Node)
    (gs : List Firing) (halt : Option Halt) :
    (({ f with rest := xs } : Frame).receive n !fs.isEmpty).afterOperands ys gs halt
      = f.afterOperands (n :: ys) (fs ++ gs) halt := by
  have hempty : (fs ++ gs).isEmpty = (fs.isEmpty && gs.isEmpty) := by cases fs <;> simp
  rcases halt with - | - | - <;>
    simp [afterOperands, done, receive, answer, Bool.or_assoc, hempty]

/-- With no operands left there is nothing to sweep. -/
theorem Frame.done_nil {f : Frame} (hrest : f.rest = []) : f.done [] [] = f := by
  obtain ⟨node, here, swept, rest, changed⟩ := f
  obtain rfl : rest = [] := hrest
  simp [done]

/-- After a rewrite a change has been noted, whatever was noted before. -/
theorem answer_concat (changed : Bool) (n : Node) (fs : List Firing) (f : Firing)
    (gs : List Firing) (halt : Option Halt) :
    answer changed n (fs ++ [f] ++ gs) halt = answer true n gs halt := by
  rcases halt with - | - | - <;> simp [answer]

theorem Log.record_nil (log : Log) : log.record [] = log := by
  simp [record]

theorem Log.rewrites_record (log : Log) (fs : List Firing) :
    (log.record fs).rewrites = log.rewrites + fs.length := by
  simp [rewrites, record, Nat.add_assoc]

theorem Log.fire_record (log : Log) (fs : List Firing) (f : Firing) :
    (log.record fs).fire f = log.record (fs ++ [f]) := by
  simp [fire, record]

theorem Log.after_record (log : Log) (fs gs : List Firing) (halt : Option Halt) :
    (log.record fs).after gs halt = log.after (fs ++ gs) halt := by
  rcases halt with - | - | - <;> simp [after, record, exhaust]

/-- What is left of the budget after a sweep. -/
theorem Log.rewrites_record_lt_iff (log : Log) {limit budget : Nat}
    (hbudget : limit - log.rewrites = budget) (fs : List Firing) :
    (log.record fs).rewrites < limit ↔ fs.length < budget := by
  rw [rewrites_record]
  omega

/-! ### Sweeps -/

section

variable (rules : RuleSet) (limit : Nat) (strategy : Strategy) {budget : Nat}

/-- A call that begins with a node comes back as a sweep says. -/
def SweepRuns (here : Location) (n : Node) (s : Sweep Node budget) : Prop :=
  ∀ changed stack log, log.exhausted = false → limit - log.rewrites = budget →
    ReflTransGen (Moves ⟨limit, strategy⟩ rules)
      (.running (.sweeping (.start here n changed)) stack log)
      (.running (answer changed s.result s.firings s.halt) stack (log.after s.firings s.halt))

/-- A call at a location works through the operands that it has left as a sweep of them says. -/
def OperandsRun (here : Location) (index : Nat) (xs : List Node) (s : Sweep (List Node) budget) :
    Prop :=
  ∀ (f : Frame) stack log, f.here = here → f.swept.length = index → f.rest = xs →
    log.exhausted = false → limit - log.rewrites = budget →
    ReflTransGen (Moves ⟨limit, strategy⟩ rules) (.running (.sweeping f) stack log)
      (.running (f.afterOperands s.result s.firings s.halt) stack (log.after s.firings s.halt))

end

section

variable {limit budget : Nat} {strategy : Strategy} {here : Location} {n m : Node}
variable {below : Sweep (List Node) budget} {r : Rule} {b : Binding}

/-- When all operands have been swept, the call settles the node. -/
theorem OperandsRun.thenSettle (h : OperandsRun rules limit strategy here 0 n.children below)
    (hhalt : below.halt = none) (hm : n.withChildren below.result = m) {changed : Bool}
    {stack : List Frame} {log log' : Log} {control : Control} (hgoing : log.exhausted = false)
    (hbudget : limit - log.rewrites = budget)
    (hsettle : ∀ f : Frame, f.here = here → f.tree = m →
      f.changed = (changed || !below.firings.isEmpty) →
        settle ⟨limit, strategy⟩ rules f (log.record below.firings) = (control, log')) :
    ReflTransGen (Moves ⟨limit, strategy⟩ rules)
      (.running (.sweeping (.start here n changed)) stack log) (.running control stack log') := by
  have hrun := h (.start here n changed) stack log rfl rfl rfl hgoing hbudget
  rw [hhalt] at hrun
  refine hrun.tail (moves_settle rfl (hsettle _ rfl ?_ rfl))
  rw [Frame.tree_done, ← hm]
  rfl

/-- A call whose operands end early ends early. -/
theorem OperandsRun.halted (h : OperandsRun rules limit strategy here 0 n.children below)
    {halt : Halt} (hhalt : below.halt = some halt) :
    SweepRuns rules limit strategy here n (below.withResult (n.withChildren below.result)) := by
  intro changed stack log hgoing hbudget
  have hrun := h (.start here n changed) stack log rfl rfl rfl hgoing hbudget
  rw [hhalt] at hrun
  exact hhalt.symm ▸ hrun

theorem OperandsRun.clear (h : OperandsRun rules limit strategy here 0 n.children below)
    (hhalt : below.halt = none) (hm : n.withChildren below.result = m)
    (hmatch : rules.firstMatch? m = none) :
    SweepRuns rules limit strategy here n (below.withResult m) := by
  intro changed stack log hgoing hbudget
  simp only [Sweep.withResult, hhalt]
  refine h.thenSettle hhalt hm hgoing hbudget fun f _ htree hchanged => ?_
  rw [settle_of_no_match (htree ▸ hmatch), htree, hchanged]
  rfl

theorem OperandsRun.spent (h : OperandsRun rules limit strategy here 0 n.children below)
    (hhalt : below.halt = none) (hm : n.withChildren below.result = m)
    (hmatch : rules.firstMatch? m = some (r, b)) (hspent : ¬ below.firings.length < budget) :
    SweepRuns rules limit strategy here n ((below.withResult m).stop .exhausted) := by
  intro changed stack log hgoing hbudget
  refine h.thenSettle hhalt hm hgoing hbudget fun f _ htree hchanged => ?_
  have hused := mt (log.rewrites_record_lt_iff hbudget below.firings).mp hspent
  rw [settle_of_spent (htree ▸ hmatch) hused, htree, hchanged]
  rfl

theorem OperandsRun.faulted (h : OperandsRun rules limit strategy here 0 n.children below)
    (hhalt : below.halt = none) (hm : n.withChildren below.result = m)
    (hmatch : rules.firstMatch? m = some (r, b)) (hleft : below.firings.length < budget)
    {e : Fault} (hfault : (r.rewrite m b).fault = some e) :
    SweepRuns rules limit strategy here n ((below.withResult (r.rewrite m b).tree).stop
      (.faulted ⟨r.name, here, m, (r.rewrite m b).journal⟩ e)) := by
  intro changed stack log hgoing hbudget
  refine h.thenSettle hhalt hm hgoing hbudget fun f hhere htree _ => ?_
  have hwithin := (log.rewrites_record_lt_iff hbudget below.firings).mpr hleft
  subst htree hhere
  rw [settle_of_fault hmatch hwithin hfault]
  rfl

/-- A rewrite of the node itself, in the machine. -/
theorem OperandsRun.thenRewrite (h : OperandsRun rules limit strategy here 0 n.children below)
    (hhalt : below.halt = none) (hm : n.withChildren below.result = m)
    (hmatch : rules.firstMatch? m = some (r, b)) (hleft : below.firings.length < budget)
    (hdone : (r.rewrite m b).fault = none) (changed : Bool) (stack : List Frame) {log : Log}
    (hgoing : log.exhausted = false) (hbudget : limit - log.rewrites = budget) :
    ReflTransGen (Moves ⟨limit, strategy⟩ rules)
      (.running (.sweeping (.start here n changed)) stack log)
      (.running (afterRewrite strategy here (r.rewrite m b).tree) stack
        (log.record (below.firings ++ [⟨r.name, here, m, (r.rewrite m b).journal⟩]))) := by
  refine h.thenSettle hhalt hm hgoing hbudget fun f hhere htree _ => ?_
  have hwithin := (log.rewrites_record_lt_iff hbudget below.firings).mpr hleft
  subst htree hhere
  rw [settle_of_done hmatch hwithin hdone, Log.fire_record]

theorem OperandsRun.once (h : OperandsRun rules limit .singlePass here 0 n.children below)
    (hhalt : below.halt = none) (hm : n.withChildren below.result = m)
    (hmatch : rules.firstMatch? m = some (r, b)) (hleft : below.firings.length < budget)
    (hdone : (r.rewrite m b).fault = none) :
    SweepRuns rules limit .singlePass here n
      (below.fire hleft ⟨r.name, here, m, (r.rewrite m b).journal⟩ (r.rewrite m b).tree) := by
  intro changed stack log hgoing hbudget
  have hrun := h.thenRewrite hhalt hm hmatch hleft hdone changed stack hgoing hbudget
  have hanswer := answer_concat changed (r.rewrite m b).tree below.firings
    ⟨r.name, here, m, (r.rewrite m b).journal⟩ [] none
  rw [List.append_nil] at hanswer
  simp only [Sweep.fire, hanswer]
  exact hrun

theorem OperandsRun.fired (h : OperandsRun rules limit .fixpoint here 0 n.children below)
    (hhalt : below.halt = none) (hm : n.withChildren below.result = m)
    (hmatch : rules.firstMatch? m = some (r, b)) (hleft : below.firings.length < budget)
    (hdone : (r.rewrite m b).fault = none) {fired : Sweep Node budget}
    (hfired : below.fire hleft ⟨r.name, here, m, (r.rewrite m b).journal⟩ (r.rewrite m b).tree
      = fired) {again : Sweep Node fired.left}
    (hagain : SweepRuns rules limit .fixpoint here fired.result again) :
    SweepRuns rules limit .fixpoint here n (fired.andThen again) := by
  intro changed stack log hgoing hbudget
  have hrun := h.thenRewrite hhalt hm hmatch hleft hdone changed stack hgoing hbudget
  subst hfired
  -- the call starts over, and notes that something has been changed
  have hrun' := hagain true stack (log.record (below.firings ++ [_])) hgoing
    (by rw [Log.rewrites_record, Nat.sub_add_eq, hbudget]; rfl)
  simp only [Sweep.andThen, Sweep.fire, answer_concat]
  rw [Log.after_record] at hrun'
  exact hrun.trans hrun'

theorem OperandsRun.nil (rules : RuleSet) (limit : Nat) (strategy : Strategy) (budget : Nat)
    (here : Location) (index : Nat) :
    OperandsRun rules limit strategy here index [] ⟨[], [], none, Nat.zero_le budget⟩ := by
  intro f stack log _ _ hrest _ _
  simp only [Frame.afterOperands, Frame.done_nil hrest, Log.after, Log.record_nil]
  exact .refl

/-- An operand whose call ends early ends the call above. -/
theorem OperandsRun.of_halted {index : Nat} {x : Node} {xs : List Node} {first : Sweep Node budget}
    (h : SweepRuns rules limit strategy (here.child index) x first) {halt : Halt}
    (hhalt : first.halt = some halt) :
    OperandsRun rules limit strategy here index (x :: xs)
      (first.withResult (first.result :: xs)) := by
  rintro f stack log rfl rfl hrest hgoing hbudget
  have hcall : Moves ⟨limit, strategy⟩ rules (.running (.sweeping f) stack log) _ :=
    moves_operand hrest
  have hrun := h false ({ f with rest := xs } :: stack) log hgoing hbudget
  have hend : (first.withResult (first.result :: xs)).halt = some halt := hhalt
  rw [hhalt] at hrun
  rw [hend]
  cases halt with
  | exhausted =>
    have hback := (ReflTransGen.head hcall hrun).tail (moves_unwind rfl)
    rw [Frame.tree_receive] at hback
    exact hback
  | faulted attempt e =>
    have hback := (ReflTransGen.head hcall hrun).tail moves_raise
    rw [Frame.tree_receive] at hback
    exact hback

/-- An operand, and the operands behind it. -/
theorem OperandsRun.cons {index : Nat} {x : Node} {xs : List Node} {first : Sweep Node budget}
    (h : SweepRuns rules limit strategy (here.child index) x first) (hhalt : first.halt = none)
    {rest : Sweep (List Node) first.left}
    (hrest : OperandsRun rules limit strategy here (index + 1) xs rest) :
    OperandsRun rules limit strategy here index (x :: xs)
      ((first.andThen rest).withResult (first.result :: rest.result)) := by
  rintro f stack log rfl rfl hoperands hgoing hbudget
  have hcall : Moves ⟨limit, strategy⟩ rules (.running (.sweeping f) stack log) _ :=
    moves_operand hoperands
  have hrun := h false ({ f with rest := xs } :: stack) log hgoing hbudget
  rw [hhalt] at hrun
  have hback := (ReflTransGen.head hcall hrun).tail (moves_receive hgoing)
  rw [Bool.false_or] at hback
  -- the same call goes on with the operands behind
  have hlength : (f.swept ++ [first.result]).length = f.swept.length + 1 := by simp
  have hleft : limit - (log.record first.firings).rewrites = first.left := by
    rw [Log.rewrites_record, Nat.sub_add_eq, hbudget]
    rfl
  have hothers := hrest (({ f with rest := xs } : Frame).receive first.result
    !first.firings.isEmpty) stack (log.record first.firings) rfl hlength rfl hgoing hleft
  rw [Log.after_record, Frame.afterOperands_receive] at hothers
  exact hback.trans hothers

end

/-- A call comes back from the sweep of its node as `sweep` says. -/
theorem moves_sweep (rules : RuleSet) (limit : Nat) (strategy : Strategy) (budget : Nat)
    (here : Location) (n : Node) :
    SweepRuns rules limit strategy here n (sweep strategy rules budget here n) := by
  -- by induction along the calls of a sweep
  refine sweep.induct rules
    (fun strategy budget here n =>
      SweepRuns rules limit strategy here n (sweep strategy rules budget here n))
    (fun strategy budget here index xs =>
      OperandsRun rules limit strategy here index xs (sweepList strategy rules budget here index xs))
    ?halted ?clear ?faulted ?once ?fired ?spent ?nil ?first ?rest strategy budget here n
  case halted =>
    intro strategy budget here n below halt hhalt ih
    rw [sweep_of_halt rfl hhalt]
    exact ih.halted hhalt
  case clear =>
    intro strategy budget here n below m hhalt hmatch ih
    rw [sweep_of_no_match rfl hhalt rfl hmatch]
    exact ih.clear hhalt rfl hmatch
  case faulted =>
    intro strategy budget here n below m hhalt r b hmatch hleft out e hfault ih
    rw [sweep_of_fault rfl hhalt rfl hmatch hleft hfault]
    exact ih.faulted hhalt rfl hmatch hleft hfault
  case once =>
    intro budget here n r b below m hhalt hmatch hleft out hdone ih
    rw [sweep_singlePass_of_fired rfl hhalt rfl hmatch hleft hdone]
    exact ih.once hhalt rfl hmatch hleft hdone
  case fired =>
    intro budget here n r b below m hhalt hmatch hleft out firing hdone fired ih ih'
    rw [sweep_fixpoint_of_fired rfl hhalt rfl hmatch hleft hdone rfl]
    exact ih.fired hhalt rfl hmatch hleft hdone rfl ih'
  case spent =>
    intro strategy budget here n below m hhalt r b hmatch hspent ih
    rw [sweep_of_spent rfl hhalt rfl hmatch hspent]
    exact ih.spent hhalt rfl hmatch hspent
  case nil =>
    intro strategy budget here index
    rw [sweepList_nil]
    exact .nil rules limit strategy budget here index
  case first =>
    intro strategy budget here index x xs first halt hhalt ih
    rw [sweepList_of_halt rfl hhalt]
    exact .of_halted ih hhalt
  case rest =>
    intro strategy budget here index x xs first hhalt ih ih'
    rw [sweepList_of_finished rfl hhalt rfl]
    exact .cons ih hhalt ih'

/-! ### Sessions -/

/-- The session that goes on with passes over a tree that it has left so far. -/
def Log.followedBy (log : Log) (s : Session) : Session :=
  ⟨log.before, s.after, log.passes ++ s.passes, s.ending⟩

/-- The session that ends with a pass is the pass after those before. -/
theorem Log.session_record {log : Log} (hfresh : log.firings = []) {budget : Nat} (n : Node)
    (s : Sweep Node budget) (ending : Ending) :
    (log.record s.firings).session s.result ending = log.followedBy (Session.last n s ending) := by
  simp [session, record, followedBy, Session.last, hfresh]

/-- Further passes after a pass. -/
theorem Log.followedBy_record {log : Log} (hfresh : log.firings = []) {budget : Nat} (n : Node)
    (s : Sweep Node budget) (rest : Session) :
    (log.record s.firings).nextPass.followedBy rest = log.followedBy (Session.cons n s rest) := by
  simp [nextPass, record, followedBy, Session.cons, hfresh]

/-- Pass after pass the machine comes to the session that makes these passes. -/
theorem moves_passes (rules : RuleSet) (limit : Nat) (strategy : Strategy) (budget : Nat)
    (n : Node) {log : Log} (hgoing : log.exhausted = false) (hfresh : log.firings = [])
    (hbudget : limit - log.rewrites = budget) :
    ReflTransGen (Moves ⟨limit, strategy⟩ rules)
      (.running (.sweeping (.start [] n false)) [] log)
      (.ended (log.followedBy (Session.passesFrom strategy rules budget n))) := by
  induction budget using Nat.strongRecOn generalizing n log with
  | ind budget ih =>
    have hrun := moves_sweep rules limit strategy budget [] n false [] log hgoing hbudget
    rcases hs : sweep strategy rules budget [] n with ⟨m, fs, halt, within⟩
    rw [hs] at hrun
    rcases halt with - | - | ⟨attempt, e⟩
    · -- the pass has come to its end
      by_cases hidle : fs = []
      · subst hidle
        rw [Session.passesFrom_of_unchanged hs rfl fun hleft => Sweep.left_lt_iff.mp hleft rfl,
          ← Log.session_record hfresh]
        exact hrun.tail (moves_saturated hgoing)
      have hchanged : (Sweep.mk m fs none within).left < budget := Sweep.left_lt_iff.mpr hidle
      have hanswer : answer false m fs none = .returning m true := by simp [answer, hidle]
      rw [hanswer] at hrun
      cases strategy with
      | singlePass =>
        rw [Session.passesFrom_singlePass_of_changed hs rfl hchanged, ← Log.session_record hfresh]
        exact hrun.tail (moves_singlePass hgoing)
      | fixpoint =>
        rw [Session.passesFrom_fixpoint_of_changed hs rfl hchanged,
          ← Log.followedBy_record hfresh]
        have hleft : limit - (log.record fs).nextPass.rewrites
            = (Sweep.mk m fs none within).left := by
          rw [Log.rewrites_nextPass, Log.rewrites_record, Nat.sub_add_eq, hbudget]
          rfl
        exact (hrun.tail (moves_nextPass hgoing)).trans (ih _ hchanged m hgoing rfl hleft)
    · rw [Session.passesFrom_of_exhausted hs rfl, ← Log.session_record hfresh]
      exact hrun.tail (moves_limit rfl)
    · rw [Session.passesFrom_of_fault hs rfl, ← Log.session_record hfresh]
      exact hrun.tail moves_fault

/-- **A session comes to an end**, whatever the rules do: match for ever, let the tree grow, or
leave it as it was.  Guards and actions are functions and give their answers; then for every
tree, strategy and limit the calls, loops and passes of the session have no infinite run.  From
every state on the way they go on to the end, which is the session that `run` describes. -/
theorem session_terminates (config : Config) (rules : RuleSet) (n : Node) :
    Terminates (Moves config rules) (State.start n) ∧
      ∀ s, ReflTransGen (Moves config rules) (State.start n) s →
        ReflTransGen (Moves config rules) s (.ended (Session.run config rules n)) := by
  refine ⟨terminates_moves config rules _, fun s hs => ?_⟩
  have hend : ReflTransGen (Moves config rules) (State.start n)
      (.ended (Session.run config rules n)) := by
    have hrun : Log.followedBy ⟨n, [], [], false⟩ (Session.run config rules n)
        = Session.run config rules n := by
      rw [Log.followedBy, List.nil_append]
      exact congrArg (Session.mk · _ _ _) (Session.before_passesFrom ..).symm
    rw [← hrun]
    exact moves_passes rules config.limit config.strategy config.limit n rfl rfl (Nat.sub_zero _)
  -- there is no choice on the way, and no step from the end
  rcases hs.total_of_right_unique Moves.rightUnique hend with h | h
  · exact h
  · rcases h.cases_head with h | ⟨t, ht, -⟩
    · exact h ▸ .refl
    · cases ht

end TreeRewriting.Machine
