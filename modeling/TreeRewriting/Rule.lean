/-
TreeRewriting/Rule.lean

Rules.

Design.  A rule is a pattern with an expectation for every position, an
optional guard, and an action, under a name and a set of tags.  Looking for a
match and changing the tree are separate: `find?` picks the first binding that
the expectations and the guard accept and changes nothing, and `rewrite` runs
the action for such a binding.  A guard is any test of a match and an action
any computation in a scope, so that statements about sessions hold for every
rule that can be written.
-/
import TreeRewriting.Rule.Match
import TreeRewriting.Rule.Scope
import TreeRewriting.Rule.Tag

namespace TreeRewriting

/-- A rewrite rule. -/
structure Rule where
  name : String
  tags : TagSet
  pattern : Pattern
  expects : List Expect
  guard : Option (Match → Bool)
  action : Action

/-- What an action leaves behind: the tree, the answers it wrote down, and the fault that
stopped it, if any. -/
structure Outcome where
  tree : Node
  journal : List (Except Fault Reply)
  fault : Option Fault

namespace Rule

/-! ### Building -/

/-- Builds a rule from its parts.  The pattern is looked at first, then the number of
expectations, then whether there is an action. -/
def build (name : String) (tags : TagSet) (pattern : Option String) (expects : List Expect)
    (guard : Option (Match → Bool)) (action : Option Action) : Except Defect Rule :=
  match pattern.map Pattern.parse with
  | none => .error ⟨name, .noPattern⟩
  | some (.error e) => .error ⟨name, .pattern e⟩
  | some (.ok p) =>
    if p.size = expects.length then
      match action with
      | some act => .ok ⟨name, tags, p, expects, guard, act⟩
      | none => .error ⟨name, .noAction⟩
    else .error ⟨name, .expectCount p.size expects.length⟩

/-! ### Matching -/

/-- Whether the nodes at a binding are as expected and the guard lets them pass. -/
def accepts (r : Rule) (n : Node) (b : Binding) : Bool :=
  ((r.expects.zip b).all fun e => (n.at? e.2).any e.1.accepts) &&
    match r.guard with
    | some guard => guard ⟨n, r.pattern, b⟩
    | none => true

/-- The first binding at a node that the rule accepts. -/
def find? (r : Rule) (n : Node) : Option Binding := r.pattern.findBinding n (r.accepts n)

/-- Whether the rule applies at a node. -/
def applies (r : Rule) (n : Node) : Bool := (r.find? n).isSome

/-! ### Rewriting -/

/-- Runs the action for a binding, and checks in the end that nothing is left vacated. -/
def rewrite (r : Rule) (n : Node) (b : Binding) : Outcome :=
  let (answer, s) := r.action (Scope.enter r.name r.pattern b n)
  let fault : Option Fault :=
    match answer with
    | .error e => some e
    | .ok () =>
      match s.finish with
      | .error e => some e
      | .ok () => none
  ⟨s.tree, s.journal, fault⟩

/-- An action that runs to its end and leaves nothing vacated ends without a fault. -/
theorem rewrite_of_ok {r : Rule} {n : Node} {b : Binding} {s : Scope}
    (h : r.action (Scope.enter r.name r.pattern b n) = (.ok (), s)) (hs : s.finish = .ok ()) :
    r.rewrite n b = ⟨s.tree, s.journal, none⟩ := by
  simp only [rewrite, h, hs]

/-- An action that fails ends in that fault. -/
theorem rewrite_of_error {r : Rule} {n : Node} {b : Binding} {s : Scope} {e : Fault}
    (h : r.action (Scope.enter r.name r.pattern b n) = (.error e, s)) :
    r.rewrite n b = ⟨s.tree, s.journal, some e⟩ := by
  simp only [rewrite, h]

/-- Matches the rule at a node and runs its action; nothing happens where it does not
match. -/
def outcome? (r : Rule) (n : Node) : Option Outcome := (r.find? n).map (r.rewrite n)

/-! ### Text -/

/-- The text of a rule: everything but what its guard and its action do. -/
def text (r : Rule) : String :=
  "Rule \x7b name: " ++ Quoted.string r.name ++ ", tags: " ++ r.tags.text ++ ", pattern: " ++
    Quoted.string r.pattern.text ++ ", expects: [" ++
    ", ".intercalate (r.expects.map Expect.text) ++ "], guarded: " ++
    (if r.guard.isSome then "true" else "false") ++ ", .. \x7d"

end Rule

end TreeRewriting
