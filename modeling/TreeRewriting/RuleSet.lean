/-
TreeRewriting/RuleSet.lean

Ordered sets of rules.

Earlier rules are tried first.  Names may repeat; a look-up by name finds the
first rule of that name, and removal by name removes all of them.
-/
import TreeRewriting.Rule

namespace TreeRewriting

/-- An ordered set of rules. -/
structure RuleSet where
  rules : List Rule

namespace RuleSet

/-- The set of the listed rules. -/
def ofList (rs : List Rule) : RuleSet := ⟨rs⟩

/-- The number of rules. -/
def size (s : RuleSet) : Nat := s.rules.length

/-- The names of the rules, in order. -/
def names (s : RuleSet) : List String := s.rules.map (·.name)

/-- The first rule of a name. -/
def get? (s : RuleSet) (name : String) : Option Rule := s.rules.find? (·.name == name)

/-- The rules that a test keeps, in order. -/
def filter (s : RuleSet) (keep : Rule → Bool) : RuleSet := ⟨s.rules.filter keep⟩

/-- The rules that carry a tag. -/
def withTag (s : RuleSet) (t : Tag) : RuleSet := s.filter (·.tags.contains t)

/-- The rules that carry all tags of a set. -/
def withAllTags (s : RuleSet) (ts : TagSet) : RuleSet := s.filter (·.tags.containsAll ts)

/-- The rules of other names. -/
def without (s : RuleSet) (name : String) : RuleSet := s.filter (·.name != name)

/-- The rules whose names are listed. -/
def only (s : RuleSet) (names : List String) : RuleSet := s.filter (names.contains ·.name)

/-- The set with further rules behind its own. -/
def append (s : RuleSet) (rs : List Rule) : RuleSet := ⟨s.rules ++ rs⟩

/-- The rules that match at a node, in order. -/
def matching (s : RuleSet) (n : Node) : RuleSet := s.filter (·.applies n)

/-- The first rule that matches at a node, with the binding it is found at. -/
def firstMatch? (s : RuleSet) (n : Node) : Option (Rule × Binding) :=
  s.rules.findSome? fun r => (r.find? n).map fun b => (r, b)

end RuleSet

end TreeRewriting
