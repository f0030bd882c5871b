/-
TreeRewriting/Pattern/Binding.lean

The bindings of a pattern at a node.

Design.  A binding gives every position of a pattern a location below the node:
the root position the node itself, every other position a child of the location
of its parent.  In a fixed group the child is given, in a free group it is any
child that no earlier position of the group has.  A position that lists
children asks its node to have at least as many.

Positions are bound one after the other in the order of declaration, and each
tries its children from left to right.  `bindings` lists all results of that
search; `visitBindings` hands them to a visitor one by one and leaves the
search when the visitor asks for it.
-/
import TreeRewriting.Node.Location
import TreeRewriting.Pattern.Parser

namespace TreeRewriting

/-- A location for every position of a pattern, in the order of declaration. -/
abbrev Binding := List Location

namespace Pattern

/-! ### The choices of one position -/

/-- The children of one location that earlier positions have. -/
def taken (earlier : List Position) (bound : Binding) (parent : Nat) : List Nat :=
  (earlier.zip bound).filterMap fun e => if e.1.parent = some parent then e.2.getLast? else none

/-- The child indices that a slot allows below a node with so many children. -/
def indices (slot : Slot) (arity : Nat) (taken : List Nat) : List Nat :=
  match slot with
  | .root => []
  | .fixed i => if i < arity then [i] else []
  | .free => (List.range arity).filter fun i => !taken.contains i

/-- The locations a position may be given, in the order in which they are tried, when the
earlier positions are bound. -/
def choices (n : Node) (earlier : List Position) (bound : Binding) (q : Position) :
    List Location :=
  let candidates : List Location :=
    match q.parent with
    | none => [[]]
    | some j =>
      match bound[j]? with
      | none => []
      | some here =>
        match n.at? here with
        | none => []
        | some parent =>
          (indices q.slot parent.arity (taken earlier bound j)).map here.child
  candidates.filter fun p =>
    match n.at? p with
    | some c => q.minChildren ≤ c.arity
    | none => false

/-! ### All bindings, and a visitor -/

/-- The ways to bind the remaining positions when the earlier ones are bound. -/
def extensions (n : Node) (earlier : List Position) (bound : Binding) :
    List Position → List Binding
  | [] => [bound]
  | q :: rest =>
    (choices n earlier bound q).flatMap fun p => extensions n (earlier ++ [q]) (bound ++ [p]) rest

/-- All bindings of a pattern at a node, in the order in which they are found. -/
def bindings (p : Pattern) (n : Node) : List Binding := extensions n [] [] p.positions

/-- Folds over a list until the function asks to stop; the answer says whether it did. -/
def foldUntil {σ α : Type} (f : σ → α → σ × Bool) : σ → List α → σ × Bool
  | s, [] => (s, false)
  | s, a :: as =>
    match f s a with
    | (s', true) => (s', true)
    | (s', false) => foldUntil f s' as

/-- Hands the ways to bind the remaining positions to a visitor until it asks to stop. -/
def visitExtensions {σ : Type} (n : Node) (visit : σ → Binding → σ × Bool)
    (earlier : List Position) (bound : Binding) : List Position → σ → σ × Bool
  | [], s => visit s bound
  | q :: rest, s =>
    foldUntil (fun s p => visitExtensions n visit (earlier ++ [q]) (bound ++ [p]) rest s) s
      (choices n earlier bound q)

/-- Hands the bindings of a pattern at a node to a visitor until it asks to stop.  The
answer is the visitor's last state and whether it stopped the search. -/
def visitBindings {σ : Type} (p : Pattern) (n : Node) (visit : σ → Binding → σ × Bool) (s : σ) :
    σ × Bool :=
  visitExtensions n visit [] [] p.positions s

/-- The first binding that a test accepts. -/
def findBinding (p : Pattern) (n : Node) (accept : Binding → Bool) : Option Binding :=
  (p.visitBindings n (fun s b => if accept b then (some b, true) else (s, false)) none).1

/-- The first bindings, at most so many; at least one is taken if there is any.  The flag
says whether the number was reached. -/
def firstBindings (p : Pattern) (n : Node) (limit : Nat) : List Binding × Bool :=
  let (found, stopped) :=
    p.visitBindings n (fun s b => (b :: s, decide (limit ≤ s.length + 1))) []
  (found.reverse, stopped)

end Pattern

end TreeRewriting
