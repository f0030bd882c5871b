/-
TreeRewriting/Script/Step.lean

Actions as data.

Design.  A script is a list of steps.  A step makes one call of the scope; what
a copy or a take answers is kept in a register, and a replacement is a tree in
which registers stand for what they hold.  The answer of every step is written
down.  A step that faults ends the script with its fault, unless the step was
only an attempt.
-/
import TreeRewriting.Rule.Call

namespace TreeRewriting

/-! ### Templates -/

/-- Named places for trees. -/
abbrev Registers := List (String × Node)

/-- A tree in which registers may stand for subtrees. -/
inductive Template where
  | register (name : String)
  | leaf (l : Leaf)
  | unary (op : UnaryOp) (x : Template)
  | binary (op : BinaryOp) (a b : Template)
  | nary (op : NaryOp) (xs : List Template)

namespace Template

mutual

/-- The tree of a template; a register that holds nothing stands for a true constant. -/
def fill (registers : Registers) : Template → Node
  | .register name => (registers.lookup name).getD (.bool true)
  | .leaf l => .leaf l
  | .unary op x => .unary op (fill registers x)
  | .binary op a b => .binary op (fill registers a) (fill registers b)
  | .nary op xs => .nary op (fillList registers xs)

/-- The trees of templates, in order. -/
def fillList (registers : Registers) : List Template → List Node
  | [] => []
  | x :: xs => fill registers x :: fillList registers xs

end

end Template

/-! ### Steps -/

/-- A step of a script. -/
inductive Step where
  /-- makes a call -/
  | call (c : Call)
  /-- makes a call and keeps the tree it answers -/
  | keep (c : Call) (register : String)
  /-- puts the tree of a template at a position -/
  | replace (label : String) (t : Template)
  /-- gives up -/
  | fail (reason : String)
  /-- takes a step and goes on if it faults -/
  | attempt (s : Step)

namespace Step

/-- What a step answers, and the registers and the scope after it. -/
def perform (registers : Registers) (s : Scope) : Step → Except Fault Reply × Registers × Scope
  | .call c =>
    let (reply, s') := s.answer c
    (reply, registers, s')
  | .keep c register =>
    match s.answer c with
    | (.ok (.node n), s') => (.ok (.node n), (register, n) :: registers, s')
    | (reply, s') => (reply, registers, s')
  | .replace l t =>
    let (reply, s') := s.answer (.replace l (t.fill registers))
    (reply, registers, s')
  | .fail reason => (.error (s.fault (.failed reason)), registers, s)
  | .attempt step => perform registers s step

/-- Whether a script goes on after a fault of this step. -/
def isAttempt : Step → Bool
  | .attempt _ => true
  | _ => false

/-- The action that takes the steps in order and writes their answers down. -/
def play (registers : Registers) : List Step → Action
  | [] => pure ()
  | step :: steps => fun s =>
    let (reply, registers', s') := step.perform registers s
    let s'' : Scope := { s' with journal := s'.journal ++ [reply] }
    match reply with
    | .ok _ => play registers' steps s''
    | .error e => if step.isAttempt then play registers' steps s'' else (.error e, s'')

end Step

/-- The action of a script; every register holds nothing at its start. -/
def Action.ofSteps (steps : List Step) : Action := Step.play [] steps

end TreeRewriting
