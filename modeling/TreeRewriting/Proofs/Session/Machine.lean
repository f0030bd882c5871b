/-
TreeRewriting/Proofs/Session/Machine.lean

Sessions step by step.

Design.  `sweep` and `passesFrom` are functions because their calls get less and
less of the budget or of the tree; that is part of how they are defined.  Here
the same work is done by a machine which has no such promise built in.  It keeps
the calls of a sweep on a stack.  A call works through the operands of its node
by a call for each (`Frame`), and when none is left it looks for a rule; after a
rewrite under the fixpoint strategy it starts over with the operands of whatever
the rule has left.  A call returns whether anything has been changed, and its
caller takes note; pass follows pass as long as the last one reports a change.
A spent budget makes every call return at once, and a fault makes every call
fail.  The rewrites are counted, and the count is compared with the limit in one
place.  Each step looks for a match at most once and runs at most one action.

No run of the machine goes on for ever, from any state whatever, be it one that
a session can come to or not (`terminates_moves`).  A rewrite uses up budget.
Between rewrites a new pass begins only when a change has been noted, which it
takes back; and otherwise there is less left to visit, on the stack and below
the node at hand.
-/
import TreeRewriting.Proofs.Session.Trail
import TreeRewriting.Proofs.Termination

namespace TreeRewriting.Machine

/-! ### States -/

/-- A call of a sweep: the node as its loop has found it, its location, the operands that
have been swept, those behind the one that is being swept, and whether anything has been
changed. -/
structure Frame where
  node : Node
  here : Location
  swept : List Node
  rest : List Node
  changed : Bool

namespace Frame

/-- A call that begins with the operands of a node. -/
def start (here : Location) (n : Node) (changed : Bool) : Frame :=
  ⟨n, here, [], n.children, changed⟩

/-- The node with its operands as they are now. -/
def tree (f : Frame) : Node := f.node.withChildren (f.swept ++ f.rest)

/-- An operand comes back from its call, and what its call has changed is noted. -/
def receive (f : Frame) (n : Node) (changed : Bool) : Frame :=
  { f with swept := f.swept ++ [n], changed := f.changed || changed }

end Frame

/-- What the innermost call is doing. -/
inductive Control where
  /-- it works at its node -/
  | sweeping (f : Frame)
  /-- it returns a node, and whether anything has been changed -/
  | returning (n : Node) (changed : Bool)
  /-- it fails and leaves a node, because an action ended in a fault there or below -/
  | raising (n : Node) (attempt : Firing) (e : Fault)

/-- What a session keeps track of: the tree it started from, the rewrites of the passes that
have ended and of the one under way, and whether the budget is used up. -/
structure Log where
  before : Node
  passes : List (List Firing)
  firings : List Firing
  exhausted : Bool

namespace Log

/-- The number of rewrites so far. -/
def rewrites (log : Log) : Nat := (log.passes.flatten ++ log.firings).length

/-- One more rewrite. -/
def fire (log : Log) (f : Firing) : Log := { log with firings := log.firings ++ [f] }

/-- The budget is used up. -/
def exhaust (log : Log) : Log := { log with exhausted := true }

/-- The next pass begins. -/
def nextPass (log : Log) : Log :=
  { log with passes := log.passes ++ [log.firings], firings := [] }

/-- The session that ends with this pass. -/
def session (log : Log) (n : Node) (ending : Ending) : Session :=
  ⟨log.before, n, log.passes ++ [log.firings], ending⟩

@[simp] theorem rewrites_fire (log : Log) (f : Firing) :
    (log.fire f).rewrites = log.rewrites + 1 := by
  simp [rewrites, fire]
  omega

@[simp] theorem rewrites_exhaust (log : Log) : log.exhaust.rewrites = log.rewrites := rfl

@[simp] theorem rewrites_nextPass (log : Log) : log.nextPass.rewrites = log.rewrites := by
  simp [rewrites, nextPass]

end Log

/-- A session under way, with the calls that wait for the innermost one, or one that has
ended. -/
inductive State where
  | running (control : Control) (stack : List Frame) (log : Log)
  | ended (s : Session)

/-- A session begins with a sweep of the tree. -/
def State.start (n : Node) : State :=
  .running (.sweeping (.start [] n false)) [] ⟨n, [], [], false⟩

/-! ### Steps -/

section

variable (config : Config) (rules : RuleSet)

/-- What a call does when all operands have been swept. -/
def settle (f : Frame) (log : Log) : Control × Log :=
  match rules.firstMatch? f.tree with
  | none => (.returning f.tree f.changed, log)
  | some (r, b) =>
    if log.rewrites < config.limit then
      let out := r.rewrite f.tree b
      let firing : Firing := ⟨r.name, f.here, f.tree, out.journal⟩
      match out.fault with
      | some e => (.raising out.tree firing e, log)
      | none =>
        match config.strategy with
        | .singlePass => (.returning out.tree true, log.fire firing)
        | .fixpoint => (.sweeping (.start f.here out.tree true), log.fire firing)
    else (.returning f.tree f.changed, log.exhaust)

/-- What happens when a pass has come to its end. -/
def endPass (n : Node) (changed : Bool) (log : Log) : State :=
  if log.exhausted then .ended (log.session n (.stopped .iterationLimit))
  else if changed then
    match config.strategy with
    | .singlePass => .ended (log.session n (.stopped .singlePass))
    | .fixpoint => .running (.sweeping (.start [] n false)) [] log.nextPass
  else .ended (log.session n (.stopped .saturated))

/-- One step of a session; there is none when it has ended. -/
def step : State → Option State
  | .ended _ => none
  | .running (.sweeping f) stack log =>
    match f.rest with
    | c :: cs =>
      some (.running (.sweeping (.start (f.here.child f.swept.length) c false))
        ({ f with rest := cs } :: stack) log)
    | [] => some (.running (settle config rules f log).1 stack (settle config rules f log).2)
  | .running (.returning n changed) (f :: stack) log =>
    let g := f.receive n changed
    some (.running (if log.exhausted then .returning g.tree g.changed else .sweeping g) stack log)
  | .running (.returning n changed) [] log => some (endPass config n changed log)
  | .running (.raising n attempt e) (f :: stack) log =>
    some (.running (.raising (f.receive n false).tree attempt e) stack log)
  | .running (.raising n attempt e) [] log => some (.ended (log.session n (.faulted attempt e)))

/-- A step leads from one state to another. -/
def Moves (s s' : State) : Prop := step config rules s = some s'

end

variable {config : Config} {rules : RuleSet}

theorem Moves.rightUnique : Relator.RightUnique (Moves config rules) :=
  fun _ _ _ h h' => Option.some.inj (h.symm.trans h')

/-! ### The ways a call settles its node -/

section

variable {f : Frame} {log : Log} {r : Rule} {b : Binding}

theorem settle_of_no_match (hmatch : rules.firstMatch? f.tree = none) :
    settle config rules f log = (.returning f.tree f.changed, log) := by
  simp only [settle, hmatch]

/-- Where a rule matches and the budget is used up, the call returns. -/
theorem settle_of_spent (hmatch : rules.firstMatch? f.tree = some (r, b))
    (hspent : ¬ log.rewrites < config.limit) :
    settle config rules f log = (.returning f.tree f.changed, log.exhaust) := by
  simp only [settle, hmatch, if_neg hspent]

/-- Where the action ends in a fault, the call fails. -/
theorem settle_of_fault (hmatch : rules.firstMatch? f.tree = some (r, b))
    (hleft : log.rewrites < config.limit) {e : Fault}
    (hfault : (r.rewrite f.tree b).fault = some e) :
    settle config rules f log
      = (.raising (r.rewrite f.tree b).tree
          ⟨r.name, f.here, f.tree, (r.rewrite f.tree b).journal⟩ e, log) := by
  simp only [settle, hmatch, if_pos hleft, hfault]

/-- What a call does after a rewrite: return in a single pass, and otherwise start over. -/
def afterRewrite : Strategy → Location → Node → Control
  | .singlePass, _, n => .returning n true
  | .fixpoint, here, n => .sweeping (.start here n true)

theorem settle_of_done (hmatch : rules.firstMatch? f.tree = some (r, b))
    (hleft : log.rewrites < config.limit) (hdone : (r.rewrite f.tree b).fault = none) :
    settle config rules f log
      = (afterRewrite config.strategy f.here (r.rewrite f.tree b).tree,
          log.fire ⟨r.name, f.here, f.tree, (r.rewrite f.tree b).journal⟩) := by
  simp only [settle, hmatch, if_pos hleft, hdone]
  cases config.strategy <;> rfl

end

/-! ### Why the machine stops -/

/-- What a call has left to do: three steps for each node that is still to be visited, a
step at its own node and the return. -/
def Frame.work (f : Frame) : Nat := 3 * Node.sizeList f.rest + 2

/-- What the calls on a stack have left to do. -/
def Frame.workAll : List Frame → Nat
  | [] => 0
  | f :: stack => f.work + workAll stack

/-- What the innermost call has left to do. -/
def Control.work : Control → Nat
  | .sweeping f => f.work
  | .returning _ _ => 1
  | .raising _ _ _ => 1

/-- Whether the innermost call has noted a change. -/
def Control.changed : Control → Bool
  | .sweeping f => f.changed
  | .returning _ changed => changed
  | .raising _ _ _ => false

/-- What decreases: the budget, then whether a change has been noted anywhere, then what is
left to do. -/
def State.measure (config : Config) : State → Nat × Nat × Nat
  | .running control stack log =>
    (config.limit - log.rewrites, (control.changed || stack.any Frame.changed).toNat,
      control.work + Frame.workAll stack)
  | .ended _ => (0, 0, 0)

theorem Frame.work_start (here : Location) (n : Node) (changed : Bool) :
    (Frame.start here n changed).work + 1 = 3 * n.size := by
  simp only [work, start, Node.size_eq n]
  omega

/-- Neither more budget nor another change, and less to do. -/
theorem smaller_of_le {a a' b b' c c' : Nat} (ha : a' ≤ a) (hb : b' ≤ b) (hc : c' < c) :
    Sweep.Smaller (a', b', c') (a, b, c) := by
  rcases Nat.eq_or_lt_of_le ha with rfl | ha
  · rcases Nat.eq_or_lt_of_le hb with rfl | hb
    · exact .right _ (.right _ hc)
    · exact .right _ (.left _ _ hb)
  · exact .left _ _ ha

/-- Where a change is noted before whenever it is noted after, it is noted no more often. -/
theorem toNat_le_of_imp {a a' : Bool} (h : a' = true → a = true) : a'.toNat ≤ a.toNat := by
  cases a' with
  | false => exact Nat.zero_le _
  | true => rw [h rfl]

/-- A call that turns to its return, with no more rewrites and no change noted. -/
theorem smaller_of_leaving {f : Frame} {control : Control} {stack : List Frame} {log log' : Log}
    (hrewrites : log'.rewrites = log.rewrites)
    (hchanged : control.changed = true → f.changed = true) (hwork : control.work = 1) :
    Sweep.Smaller (State.measure config (.running control stack log'))
      (State.measure config (.running (.sweeping f) stack log)) := by
  have hpending : (control.changed || stack.any Frame.changed) = true →
      (f.changed || stack.any Frame.changed) = true := by
    simp only [Bool.or_eq_true]
    exact Or.imp_left hchanged
  refine smaller_of_le (by rw [hrewrites]) (toNat_le_of_imp hpending) ?_
  rw [hwork]
  simp only [Control.work, Frame.work]
  omega

/-- At its own node a call uses up budget, or has only its return left to do. -/
theorem settle_smaller (f : Frame) (stack : List Frame) (log : Log) :
    let next := settle config rules f log
    Sweep.Smaller (State.measure config (.running next.1 stack next.2))
      (State.measure config (.running (.sweeping f) stack log)) := by
  intro next
  rcases hmatch : rules.firstMatch? f.tree with - | ⟨r, b⟩
  · have hnext : next = _ := settle_of_no_match hmatch
    rw [hnext]
    exact smaller_of_leaving rfl id rfl
  by_cases hleft : log.rewrites < config.limit
  · rcases hfault : (r.rewrite f.tree b).fault with - | e
    · have hnext : next = _ := settle_of_done hmatch hleft hfault
      rw [hnext]
      refine .left _ _ ?_
      rw [Log.rewrites_fire]
      omega
    · have hnext : next = _ := settle_of_fault hmatch hleft hfault
      rw [hnext]
      exact smaller_of_leaving rfl (by rintro ⟨⟩) rfl
  · have hnext : next = _ := settle_of_spent hmatch hleft
    rw [hnext]
    exact smaller_of_leaving log.rewrites_exhaust id rfl

/-- After a pass either the session has ended, or a change is taken back. -/
theorem endPass_smaller (n : Node) (changed : Bool) (log : Log) :
    Sweep.Smaller (State.measure config (endPass config n changed log))
      (State.measure config (.running (.returning n changed) [] log)) := by
  have hended : ∀ s, Sweep.Smaller (State.measure config (.ended s))
      (State.measure config (.running (.returning n changed) [] log)) :=
    fun _ => smaller_of_le (Nat.zero_le _) (Nat.zero_le _) Nat.zero_lt_one
  unfold endPass
  split
  · exact hended _
  split
  case isFalse => exact hended _
  case isTrue hchanged =>
    split
    · exact hended _
    · subst hchanged
      simp only [State.measure, Log.rewrites_nextPass]
      exact .right _ (.left _ _ Nat.zero_lt_one)

/-- Every step makes the state smaller. -/
theorem smaller_of_moves {s s' : State} (h : Moves config rules s s') :
    Sweep.Smaller (State.measure config s') (State.measure config s) := by
  rcases s with ⟨f | ⟨n, changed⟩ | ⟨n, attempt, e⟩, stack, log⟩ | s
  · rcases hrest : f.rest with - | ⟨c, cs⟩
    · simp only [Moves, step, hrest, Option.some.injEq] at h
      subst h
      exact settle_smaller f stack log
    · simp only [Moves, step, hrest, Option.some.injEq] at h
      subst h
      have hwork := Frame.work_start (f.here.child f.swept.length) c false
      refine smaller_of_le le_rfl (by simp [Control.changed, Frame.start]) ?_
      simp only [Control.work, Frame.work, Frame.workAll, hrest, Node.sizeList]
        at hwork ⊢
      omega
  · rcases stack with - | ⟨f, stack⟩
    · obtain rfl := Option.some.inj h
      exact endPass_smaller n changed log
    · -- the caller goes on, or returns in its turn
      have hpending : ((f.changed || changed) || stack.any Frame.changed) = true →
          (changed || (f.changed || stack.any Frame.changed)) = true := by
        simp only [Bool.or_eq_true]
        grind
      simp only [Moves, step, Option.some.injEq] at h
      subst h
      split
      · refine smaller_of_le le_rfl (toNat_le_of_imp hpending) ?_
        simp only [Control.work, Frame.work, Frame.workAll]
        omega
      · refine smaller_of_le le_rfl (toNat_le_of_imp hpending) ?_
        simp only [Control.work, Frame.work, Frame.receive, Frame.workAll]
        omega
  · rcases stack with - | ⟨f, stack⟩
    · obtain rfl := Option.some.inj h
      exact smaller_of_le (Nat.zero_le _) (Nat.zero_le _) Nat.zero_lt_one
    · obtain rfl := Option.some.inj h
      have hpending : stack.any Frame.changed = true →
          (f.changed || stack.any Frame.changed) = true := by
        simp only [Bool.or_eq_true]
        exact .inr
      refine smaller_of_le le_rfl (toNat_le_of_imp hpending) ?_
      simp only [Control.work, Frame.work, Frame.workAll]
      omega
  · cases h

/-- **No run of the machine goes on for ever**, from any state. -/
theorem terminates_moves (config : Config) (rules : RuleSet) (s : State) :
    Terminates (Moves config rules) s :=
  .of_decreasing (P := fun _ => True) (State.measure config)
    (fun _ _ _ h => ⟨trivial, smaller_of_moves h⟩) trivial

end TreeRewriting.Machine
