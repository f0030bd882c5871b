/-
TreeRewriting/Session.lean

Sessions: passes over a tree until nothing is left to do.

Design.  A session makes one pass after another with what remains of the budget.
It stops when a pass rewrites nothing, when the strategy asks for a single
pass, when the budget is exhausted, or at a fault.  What it leaves behind is
the tree and its history, the rewrites of each pass in their order; counts,
statistics, events and journals are all read off the history.
-/
import TreeRewriting.Node.Cost
import TreeRewriting.Session.Sweep

namespace TreeRewriting

/-- How a session is run: the number of rewrites it may make, and the strategy. -/
structure Config where
  limit : Nat := 10000
  strategy : Strategy := .fixpoint
  deriving DecidableEq, Inhabited

/-- Why a session stopped by itself. -/
inductive StopReason where
  /-- a pass found nothing to rewrite -/
  | saturated
  /-- the single pass asked for rewrote something -/
  | singlePass
  /-- a rule still applied when the budget was used up -/
  | iterationLimit
  deriving DecidableEq, Inhabited

/-- How a session ended. -/
inductive Ending where
  | stopped (reason : StopReason)
  | faulted (attempt : Firing) (fault : Fault)

/-- A session that has ended: the tree it started from, the tree it left, the rewrites of
each pass, and how it ended. -/
structure Session where
  before : Node
  after : Node
  passes : List (List Firing)
  ending : Ending

namespace Session

/-- A session whose only pass is the given one. -/
def last {budget : Nat} (n : Node) (s : Sweep Node budget) (e : Ending) : Session :=
  ⟨n, s.result, [s.firings], e⟩

/-- A pass, and the session that follows it. -/
def cons {budget : Nat} (n : Node) (s : Sweep Node budget) (rest : Session) : Session :=
  ⟨n, rest.after, s.firings :: rest.passes, rest.ending⟩

/-- Makes passes over a tree with the given budget. -/
def passesFrom (strategy : Strategy) (rules : RuleSet) (budget : Nat) (n : Node) : Session :=
  let s := sweep strategy rules budget [] n
  match s.halt with
  | some (.faulted attempt e) => last n s (.faulted attempt e)
  | some .exhausted => last n s (.stopped .iterationLimit)
  | none =>
    if s.left < budget then
      match strategy with
      | .singlePass => last n s (.stopped .singlePass)
      | .fixpoint => cons n s (passesFrom .fixpoint rules s.left s.result)
    else last n s (.stopped .saturated)
termination_by budget

/-- Runs a session on a tree. -/
def run (config : Config) (rules : RuleSet) (n : Node) : Session :=
  passesFrom config.strategy rules config.limit n

/-! ### The ways a session goes -/

section

variable {strategy : Strategy} {rules : RuleSet} {budget : Nat} {n : Node} {s : Sweep Node budget}

theorem passesFrom_of_fault (hs : sweep strategy rules budget [] n = s) {attempt : Firing}
    {e : Fault} (hhalt : s.halt = some (.faulted attempt e)) :
    passesFrom strategy rules budget n = last n s (.faulted attempt e) := by
  subst hs
  rw [passesFrom.eq_def]
  simp only [hhalt]

theorem passesFrom_of_exhausted (hs : sweep strategy rules budget [] n = s)
    (hhalt : s.halt = some .exhausted) :
    passesFrom strategy rules budget n = last n s (.stopped .iterationLimit) := by
  subst hs
  rw [passesFrom.eq_def]
  simp only [hhalt]

/-- A pass that rewrites nothing is the last one. -/
theorem passesFrom_of_unchanged (hs : sweep strategy rules budget [] n = s)
    (hhalt : s.halt = none) (hleft : ¬ s.left < budget) :
    passesFrom strategy rules budget n = last n s (.stopped .saturated) := by
  subst hs
  rw [passesFrom.eq_def]
  simp only [hhalt, if_neg hleft]

theorem passesFrom_singlePass_of_changed (hs : sweep .singlePass rules budget [] n = s)
    (hhalt : s.halt = none) (hleft : s.left < budget) :
    passesFrom .singlePass rules budget n = last n s (.stopped .singlePass) := by
  subst hs
  rw [passesFrom]
  simp only [hhalt, if_pos hleft]

/-- Under the fixpoint strategy a pass that rewrites something is followed by another. -/
theorem passesFrom_fixpoint_of_changed (hs : sweep .fixpoint rules budget [] n = s)
    (hhalt : s.halt = none) (hleft : s.left < budget) :
    passesFrom .fixpoint rules budget n
      = cons n s (passesFrom .fixpoint rules s.left s.result) := by
  subst hs
  rw [passesFrom]
  simp only [hhalt, if_pos hleft]

end

/-! ### What the history says -/

/-- All rewrites, in their order. -/
def firings (s : Session) : List Firing := s.passes.flatten

@[simp] theorem firings_last {budget : Nat} (n : Node) (s : Sweep Node budget) (e : Ending) :
    (last n s e).firings = s.firings := by
  simp [last, firings]

@[simp] theorem firings_cons {budget : Nat} (n : Node) (s : Sweep Node budget) (rest : Session) :
    (cons n s rest).firings = s.firings ++ rest.firings := rfl

/-- The number of rewrites. -/
def rewrites (s : Session) : Nat := s.firings.length

/-- How often the rules of a name fired. -/
def fired (s : Session) (name : String) : Nat := s.firings.countP (·.rule == name)

/-- The names of the rules that fired, in the order in which they first did. -/
def firedNames (s : Session) : List String := (s.firings.map (·.rule)).eraseDups

/-- The fault that ended the session. -/
def fault? (s : Session) : Option Fault :=
  match s.ending with
  | .faulted _ e => some e
  | .stopped _ => none

/-- Why the session stopped by itself. -/
def stopReason? (s : Session) : Option StopReason :=
  match s.ending with
  | .stopped r => some r
  | .faulted _ _ => none

/-- The attempts to rewrite, the one that ended in a fault included. -/
def attempts (s : Session) : List Firing :=
  s.firings ++
    match s.ending with
    | .faulted attempt _ => [attempt]
    | .stopped _ => []

/-- The answers that all actions wrote down. -/
def journal (s : Session) : List (Except Fault Reply) := s.attempts.flatMap (·.journal)

/-- The size of the tree at the start. -/
def sizeBefore (s : Session) : Nat := s.before.cost Node.unitWeight

/-- The size of the tree at the end. -/
def sizeAfter (s : Session) : Nat := s.after.cost Node.unitWeight

/-- Whether the session stopped because nothing was left to rewrite. -/
def converged (s : Session) : Bool := s.stopReason? == some .saturated

/-! ### Events -/

/-- What a session reports while it runs. -/
inductive Event where
  /-- a rule is about to rewrite a node -/
  | rewriting (attempt : Firing)
  /-- a pass has ended without a fault, with so many rewrites in the session so far -/
  | passComplete (number rewrites : Nat) (changed : Bool)
  /-- the session has stopped by itself -/
  | finished (reason : StopReason) (rewrites passes : Nat)

/-- The events of passes of which the first has the given number and follows so many
rewrites. -/
def eventsFrom (number rewrites : Nat) (ending : Ending) : List (List Firing) → List Event
  | [] =>
    match ending with
    | .stopped reason => [.finished reason rewrites (number - 1)]
    | .faulted _ _ => []
  | pass :: rest =>
    let total := rewrites + pass.length
    let complete :=
      match rest, ending with
      | [], .faulted attempt _ => .rewriting attempt
      | _, _ => .passComplete number total !pass.isEmpty
    pass.map .rewriting ++ complete :: eventsFrom (number + 1) total ending rest

/-- The events of a session, in their order. -/
def events (s : Session) : List Event := eventsFrom 1 0 s.ending s.passes

end Session

end TreeRewriting
