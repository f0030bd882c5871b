/-
TreeRewriting/Rule/Call.lean

The calls of a scope as data.

Everything an action can do to its scope is one of these calls.  Each answers
or faults, and a call that faults leaves the scope as it was.
-/
import TreeRewriting.Rule.Scope

namespace TreeRewriting

/-- A call of an action. -/
inductive Call where
  | rule
  | node (label : String)
  | number (label : String)
  | bool (label : String)
  | constant (label : String)
  | var (label : String)
  | literal (label : String)
  | childIndex (label : String)
  | copyOf (label : String)
  | take (label : String)
  | replace (label : String) (n : Node)

namespace Scope

/-- What a call answers, and the scope after it. -/
def answer (s : Scope) : Call → Except Fault Reply × Scope
  | .rule => (.ok (.rule s.rule), s)
  | .node l => ((s.node l).map .node, s)
  | .number l => ((s.number l).map .number, s)
  | .bool l => ((s.bool l).map .bool, s)
  | .constant l => ((s.constant l).map (Sum.elim .number .bool), s)
  | .var l => ((s.var l).map .index, s)
  | .literal l => ((s.literal l).map .literal, s)
  | .childIndex l => ((s.childIndex l).map .index, s)
  | .copyOf l => ((s.node l).map .node, s)
  | .take l =>
    match s.take l with
    | .ok (n, s') => (.ok (.node n), s')
    | .error e => (.error e, s)
  | .replace l n =>
    match s.replace l n with
    | .ok s' => (.ok .replaced, s')
    | .error e => (.error e, s)

/-- The scope after a sequence of calls, whether they fault or not. -/
def after (s : Scope) (calls : List Call) : Scope := calls.foldl (fun s c => (s.answer c).2) s

end Scope

end TreeRewriting
