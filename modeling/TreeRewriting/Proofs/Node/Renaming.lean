/-
TreeRewriting/Proofs/Node/Renaming.lean

Renaming the variables of a tree.

Design.  One map renames the variables of expressions and those of terms alike.
As with terms, a tree consists of its skeleton and of the list of its variables
in their order, so it can be told from the two whether a tree is another one
renamed (`Node.rename_eq_iff`).
-/
import Mathlib.Data.List.Forall2
import TreeRewriting.Node.Size
import TreeRewriting.Proofs.Term.Renaming

namespace TreeRewriting

/-! ### Literals and payloads -/

namespace Literal

/-- The variables of a literal, one entry per occurrence, left to right. -/
def vars (l : Literal) : List Nat := Term.varsList l.args

/-- The literal with its variables renamed. -/
def rename (f : Nat → Nat) (l : Literal) : Literal := { l with args := l.args.map (Term.rename f) }

/-- The literal with all variables made the same. -/
def skeleton (l : Literal) : Literal := l.rename fun _ => 0

theorem vars_rename (f : Nat → Nat) (l : Literal) : (l.rename f).vars = l.vars.map f := by
  simp [vars, rename, Term.varsList_eq_flatMap, List.flatMap_map, List.map_flatMap,
    Term.vars_rename]

theorem rename_rename (f g : Nat → Nat) (l : Literal) :
    (l.rename f).rename g = l.rename fun v => g (f v) := by
  simp [rename, Function.comp_def, Term.rename_rename]

theorem eq_of_skeleton_eq {l m : Literal} (h : l.skeleton = m.skeleton) (hvars : l.vars = m.vars) :
    l = m := by
  obtain ⟨name, ss, negated⟩ := l
  obtain ⟨name', ts, negated'⟩ := m
  obtain ⟨rfl, hargs, rfl⟩ :
      name = name' ∧ ss.map Term.skeleton = ts.map Term.skeleton ∧ negated = negated' :=
    Literal.mk.inj h
  rw [vars, vars, Term.varsList_eq_flatMap, Term.varsList_eq_flatMap] at hvars
  rw [eq_of_map_eq_of_flatMap_eq (fun _ _ => Term.length_vars_eq)
    (fun _ _ _ => Term.eq_of_skeleton_eq) hargs hvars]

end Literal

namespace Leaf

/-- The variables of a payload, one entry per occurrence, left to right. -/
def vars : Leaf → List Nat
  | .var v => [v]
  | .predicate l => l.vars
  | .number _ | .bool _ => []

/-- The payload with its variables renamed. -/
def rename (f : Nat → Nat) : Leaf → Leaf
  | .var v => .var (f v)
  | .predicate l => .predicate (l.rename f)
  | .number x => .number x
  | .bool b => .bool b

/-- The payload with all variables made the same. -/
def skeleton (l : Leaf) : Leaf := l.rename fun _ => 0

theorem vars_rename (f : Nat → Nat) : (l : Leaf) → (l.rename f).vars = l.vars.map f
  | .var _ | .number _ | .bool _ => rfl
  | .predicate l => l.vars_rename f

theorem rename_rename (f g : Nat → Nat) :
    (l : Leaf) → (l.rename f).rename g = l.rename fun v => g (f v)
  | .var _ | .number _ | .bool _ => rfl
  | .predicate l => congrArg predicate (l.rename_rename f g)

theorem eq_of_skeleton_eq {l m : Leaf} (h : l.skeleton = m.skeleton) (hvars : l.vars = m.vars) :
    l = m := by
  cases l with
  | var v =>
    cases m with
    | var w => simpa [vars] using hvars
    | _ => cases h
  | predicate l =>
    cases m with
    | predicate m => rw [Literal.eq_of_skeleton_eq (predicate.inj h) hvars]
    | _ => cases h
  | number x =>
    cases m with
    | number y => exact h
    | _ => cases h
  | bool a =>
    cases m with
    | bool b => exact h
    | _ => cases h

end Leaf

/-! ### Trees -/

namespace Node

mutual

/-- The variables of a tree, those of its literals among them, one entry per occurrence, left
to right. -/
def vars : Node → List Nat
  | .leaf l => l.vars
  | .unary _ x => vars x
  | .binary _ a b => vars a ++ vars b
  | .nary _ xs => varsList xs

/-- The variables of a list of trees, one entry per occurrence, left to right. -/
def varsList : List Node → List Nat
  | [] => []
  | x :: xs => vars x ++ varsList xs

end

mutual

/-- The tree with its variables renamed, those of its literals among them. -/
def rename (f : Nat → Nat) : Node → Node
  | .leaf l => .leaf (l.rename f)
  | .unary op x => .unary op (rename f x)
  | .binary op a b => .binary op (rename f a) (rename f b)
  | .nary op xs => .nary op (renameList f xs)

/-- The trees of a list with their variables renamed. -/
def renameList (f : Nat → Nat) : List Node → List Node
  | [] => []
  | x :: xs => rename f x :: renameList f xs

end

/-- The tree with all variables made the same. -/
def skeleton (n : Node) : Node := n.rename fun _ => 0

theorem varsList_eq_flatMap (xs : List Node) : varsList xs = xs.flatMap vars := by
  induction xs with
  | nil => rfl
  | cons x xs ih => rw [varsList, ih, List.flatMap_cons]

theorem renameList_eq_map (f : Nat → Nat) (xs : List Node) :
    renameList f xs = xs.map (rename f) := by
  induction xs with
  | nil => rfl
  | cons x xs ih => rw [renameList, ih, List.map_cons]

@[simp] theorem skeleton_leaf (l : Leaf) : (leaf l).skeleton = .leaf l.skeleton := rfl

@[simp] theorem skeleton_unary (op : UnaryOp) (x : Node) :
    (unary op x).skeleton = .unary op x.skeleton := rfl

@[simp] theorem skeleton_binary (op : BinaryOp) (a b : Node) :
    (binary op a b).skeleton = .binary op a.skeleton b.skeleton := rfl

@[simp] theorem skeleton_nary (op : NaryOp) (xs : List Node) :
    (nary op xs).skeleton = .nary op (xs.map skeleton) :=
  congrArg (nary op) (renameList_eq_map _ xs)

mutual

theorem vars_rename (f : Nat → Nat) : (n : Node) → (n.rename f).vars = n.vars.map f
  | .leaf l => l.vars_rename f
  | .unary _ x => vars_rename f x
  | .binary _ a b => by simp [rename, vars, vars_rename f a, vars_rename f b]
  | .nary _ xs => varsList_rename f xs

theorem varsList_rename (f : Nat → Nat) :
    (xs : List Node) → varsList (renameList f xs) = (varsList xs).map f
  | [] => rfl
  | x :: xs => by simp [renameList, varsList, vars_rename f x, varsList_rename f xs]

end

mutual

theorem rename_rename (f g : Nat → Nat) :
    (n : Node) → (n.rename f).rename g = n.rename fun v => g (f v)
  | .leaf l => congrArg leaf (l.rename_rename f g)
  | .unary op x => congrArg (unary op) (rename_rename f g x)
  | .binary op a b => congrArg₂ (binary op) (rename_rename f g a) (rename_rename f g b)
  | .nary op xs => congrArg (nary op) (renameList_rename f g xs)

theorem renameList_rename (f g : Nat → Nat) :
    (xs : List Node) → renameList g (renameList f xs) = renameList (fun v => g (f v)) xs
  | [] => rfl
  | x :: xs => congrArg₂ List.cons (rename_rename f g x) (renameList_rename f g xs)

end

variable {a b : Node} {xs ys : List Node}

/-- Trees of one skeleton have as many variables. -/
theorem length_vars_eq (h : a.skeleton = b.skeleton) : a.vars.length = b.vars.length := by
  have hvars := congrArg (·.vars.length) h
  simpa [skeleton, vars_rename] using hvars

/-- A tree is its skeleton and its variables. -/
theorem eq_of_skeleton_eq (h : a.skeleton = b.skeleton) (hvars : a.vars = b.vars) : a = b := by
  induction a using induct generalizing b with
  | node a ih =>
    cases a with
    | leaf l =>
      cases b with
      | leaf m => rw [Leaf.eq_of_skeleton_eq (leaf.inj h) hvars]
      | _ => simp at h
    | unary op x =>
      cases b with
      | unary op' y =>
        obtain ⟨rfl, hx⟩ := unary.inj h
        rw [ih x (by simp [children]) hx hvars]
      | _ => simp at h
    | binary op x y =>
      cases b with
      | binary op' x' y' =>
        obtain ⟨rfl, hx, hy⟩ := binary.inj h
        obtain ⟨hxvars, hyvars⟩ := List.append_inj hvars (length_vars_eq hx)
        rw [ih x (by simp [children]) hx hxvars, ih y (by simp [children]) hy hyvars]
      | _ => simp at h
    | nary op xs =>
      cases b with
      | nary op' ys =>
        obtain ⟨rfl, hxs⟩ : op = op' ∧ xs.map skeleton = ys.map skeleton := by simpa using h
        rw [vars, vars, varsList_eq_flatMap, varsList_eq_flatMap] at hvars
        have hlists : xs = ys :=
          eq_of_map_eq_of_flatMap_eq (fun _ _ => length_vars_eq) (fun x hx _ => ih x hx) hxs hvars
        rw [hlists]
      | _ => simp at h

/-- A tree is another one renamed when they have the same skeleton and the variables of the
other, each where it stands, are renamed to those of the one. -/
theorem rename_eq_iff {f : Nat → Nat} :
    a.rename f = b ↔ a.skeleton = b.skeleton ∧ ∀ p ∈ a.vars.zip b.vars, f p.1 = p.2 := by
  have hskeleton : (a.rename f).skeleton = a.skeleton := rename_rename f _ a
  have hvars : List.Forall₂ (fun v w => f v = w) a.vars b.vars ↔ (a.rename f).vars = b.vars := by
    rw [vars_rename, ← List.forall₂_eq_eq_eq, List.forall₂_map_left_iff]
  rw [List.forall₂_iff_zip] at hvars
  constructor
  · rintro rfl
    exact ⟨hskeleton.symm, fun _ => (hvars.mpr rfl).2⟩
  · rintro ⟨h, hpairs⟩
    exact eq_of_skeleton_eq (hskeleton.trans h) (hvars.mp ⟨length_vars_eq h, hpairs _⟩)

theorem rename_id (n : Node) : n.rename id = n := by
  refine eq_of_skeleton_eq (rename_rename id _ n) ?_
  rw [vars_rename, List.map_id]

end Node

end TreeRewriting
