/-
TreeRewriting/Rule/Tag.lean

Tags, by which rules are selected.
-/
namespace TreeRewriting

/-- What is claimed of a rule, and which field it belongs to. -/
inductive Tag where
  /-- may be applied whenever it matches: nothing is lost and the tree does not grow
  without bound -/
  | safe
  /-- yields a logically valid consequence -/
  | deductive
  /-- yields a plausible consequence -/
  | inductiveGuess
  /-- simplifies algebra -/
  | algebraic
  /-- belongs to logic -/
  | logic
  /-- carries out derivatives -/
  | differentiation
  /-- infers by resolution -/
  | resolution
  deriving DecidableEq, Inhabited

/-- All tags, in the order in which sets of tags list them. -/
def Tag.all : List Tag :=
  [.safe, .deductive, .inductiveGuess, .algebraic, .logic, .differentiation, .resolution]

/-- The name of a tag. -/
def Tag.name : Tag → String
  | .safe => "Safe"
  | .deductive => "Deductive"
  | .inductiveGuess => "Inductive"
  | .algebraic => "Algebraic"
  | .logic => "Logic"
  | .differentiation => "Differentiation"
  | .resolution => "Resolution"

theorem Tag.mem_all (t : Tag) : t ∈ Tag.all := by
  cases t <;> simp [Tag.all]

/-- A set of tags. -/
structure TagSet where
  contains : Tag → Bool

namespace TagSet

/-- The set of the listed tags. -/
def ofList (ts : List Tag) : TagSet := ⟨fun t => ts.contains t⟩

/-- The tags of a set, in their order. -/
def toList (s : TagSet) : List Tag := Tag.all.filter s.contains

/-- Whether every tag of the second set is in the first. -/
def containsAll (s t : TagSet) : Bool := t.toList.all s.contains

/-- Whether a set has no tag. -/
def isEmpty (s : TagSet) : Bool := s.toList.isEmpty

instance : BEq TagSet := ⟨fun s t => s.toList == t.toList⟩

/-- The text of a set: the names of its tags between braces. -/
def text (s : TagSet) : String :=
  "\x7b" ++ ", ".intercalate (s.toList.map Tag.name) ++ "\x7d"

@[simp] theorem mem_toList {s : TagSet} {t : Tag} : t ∈ s.toList ↔ s.contains t = true := by
  simp [toList, Tag.mem_all]

end TagSet

end TreeRewriting
