/-
TreeRewriting/Pattern/Parser.lean

Reading patterns.

Design.  The reader takes one token at a time and never looks ahead.  What has
been read is kept as the groups that are still open, innermost first, each with
its label and the shapes it lists so far, and as what may come next: a
position, or something behind a label, or something behind a finished shape.
An empty group and a repeated label are reported as soon as they are read; any
other token that cannot come next is unexpected, and so is the end of the text
while a group is open or a position is wanted.
-/
import TreeRewriting.Pattern.Token
import TreeRewriting.Text.Quoted

namespace TreeRewriting

namespace Pattern

/-- Why a text is not a pattern. -/
inductive Error where
  /-- there is nothing but blanks -/
  | empty
  /-- this character, or the end of the text, cannot come at this offset -/
  | unexpected (found : Option Char) (offset : Nat)
  /-- the group behind this label lists no position -/
  | emptyGroup (label : String)
  /-- two positions have this label -/
  | duplicateLabel (label : String)
  deriving DecidableEq

/-- The wording of an error. -/
def Error.message : Error → String
  | .empty => "empty pattern"
  | .unexpected found offset =>
    "unexpected " ++ Quoted.char? found ++ " at offset " ++ toString offset
  | .emptyGroup l => "position " ++ Quoted.string l ++ " declares an empty child list"
  | .duplicateLabel l => "duplicate label " ++ Quoted.string l

/-! ### Reading token by token -/

/-- A group that has not been closed: its label, and the shapes it lists so far, last one
first. -/
structure OpenGroup where
  label : String
  order : Order
  read : List Shape

/-- The shape of a group that ends with the given shape. -/
def OpenGroup.close (g : OpenGroup) (last : Shape) : Shape :=
  match g.read.reverse with
  | [] => .group g.label g.order last []
  | first :: rest => .group g.label g.order first (rest ++ [last])

/-- What may come next. -/
inductive Expecting where
  /-- a position -/
  | position
  /-- a group behind this label, or what may come behind a shape -/
  | afterLabel (label : String)
  /-- a comma or the end of the innermost group -/
  | afterShape (s : Shape)

/-- What has been read: the labels, the open groups and what may come next. -/
structure Reader where
  labels : List String
  groups : List OpenGroup
  expecting : Expecting

/-- Nothing has been read. -/
def Reader.start : Reader := ⟨[], [], .position⟩

/-- What a token does behind a finished shape. -/
def Reader.afterShape (r : Reader) (s : Shape) (t : Lexeme) : Except Error Reader :=
  match r.groups, t.token with
  | g :: gs, .comma => .ok { r with groups := { g with read := s :: g.read } :: gs, expecting := .position }
  | g :: gs, .closing o =>
    if o = g.order then .ok { r with groups := gs, expecting := .afterShape (g.close s) }
    else .error (.unexpected t.token.head t.offset)
  | _, t' => .error (.unexpected t'.head t.offset)

/-- What a token does. -/
def Reader.step (r : Reader) (t : Lexeme) : Except Error Reader :=
  match r.expecting, t.token with
  | .position, .label c cs =>
    let l := String.ofList (c :: cs)
    if l ∈ r.labels then .error (.duplicateLabel l)
    else .ok { r with labels := l :: r.labels, expecting := .afterLabel l }
  | .position, .closing o =>
    match r.groups with
    | g :: _ =>
      if g.read.isEmpty && o == g.order then .error (.emptyGroup g.label)
      else .error (.unexpected o.closing t.offset)
    | [] => .error (.unexpected o.closing t.offset)
  | .position, t' => .error (.unexpected t'.head t.offset)
  | .afterLabel l, .opening o =>
    .ok { r with groups := ⟨l, o, []⟩ :: r.groups, expecting := .position }
  | .afterLabel l, _ => r.afterShape (.leaf l) t
  | .afterShape s, _ => r.afterShape s t

/-- What the end of the text, at the given offset, means. -/
def Reader.finish (r : Reader) (offset : Nat) : Except Error Shape :=
  match r.groups, r.expecting with
  | [], .afterLabel l => .ok (.leaf l)
  | [], .afterShape s => .ok s
  | _, _ => .error (.unexpected none offset)

/-- Reads tokens up to the end of the text. -/
def Reader.readAll (r : Reader) (length : Nat) : List Lexeme → Except Error Shape
  | [] => r.finish length
  | t :: ts =>
    match r.step t with
    | .ok r' => r'.readAll length ts
    | .error e => .error e

end Pattern

/-- Reads a shape. -/
def Shape.parse (cs : List Char) : Except Pattern.Error Shape :=
  match Pattern.lexemes 0 cs with
  | [] => .error .empty
  | ts => Pattern.Reader.start.readAll (Pattern.byteLength cs) ts

/-- A pattern: its text, the shape the text stands for, and the shape's positions. -/
structure Pattern where
  text : String
  shape : Shape
  positions : List Position := shape.positions
  positions_eq : positions = shape.positions := by rfl

namespace Pattern

/-- Reads a pattern.  Blanks around it are not part of its text. -/
def parse (s : String) : Except Error Pattern :=
  (Shape.parse s.toList).map fun shape =>
    { text := String.ofList (trimBlanks s.toList), shape }

/-- The pattern of a shape, with the shape's own text. -/
def ofShape (shape : Shape) : Pattern := { text := shape.text, shape }

/-- The number of positions. -/
def size (p : Pattern) : Nat := p.positions.length

/-- The place of a label among the positions. -/
def indexOf? (p : Pattern) (label : String) : Option Nat :=
  p.positions.findIdx? (·.label == label)

end Pattern

end TreeRewriting
