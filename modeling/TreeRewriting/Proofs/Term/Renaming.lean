/-
TreeRewriting/Proofs/Term/Renaming.lean

Renaming the variables of a term.

Design.  To rename is to put variables for variables (`rename`).  A term
consists of its skeleton, in which all variables are the same one, and of the
list of its variables in their order: terms that agree in both are equal
(`eq_of_skeleton_eq`).  Renaming keeps the skeleton and maps the list, so
whether a term is a renaming of another is a question about two lists.
-/
import Mathlib.Data.List.Basic
import TreeRewriting.Proofs.Term.InfiniteTree

namespace TreeRewriting

/-- Lists are equal whose members have the same images in turn and the same parts in a row,
if the image of a member tells how many parts it has and both together tell which it is. -/
theorem eq_of_map_eq_of_flatMap_eq {α β γ : Type} {f : α → β} {parts : α → List γ}
    {as bs : List α} (hlength : ∀ a b, f a = f b → (parts a).length = (parts b).length)
    (heq : ∀ a ∈ as, ∀ b, f a = f b → parts a = parts b → a = b)
    (hmap : as.map f = bs.map f) (hparts : as.flatMap parts = bs.flatMap parts) : as = bs := by
  induction as generalizing bs with
  | nil => simpa using hmap.symm
  | cons a as ih =>
    cases bs with
    | nil => simp at hmap
    | cons b bs =>
      obtain ⟨hhead, htail⟩ := List.cons.inj hmap
      rw [List.flatMap_cons, List.flatMap_cons] at hparts
      obtain ⟨hparts, hrest⟩ := List.append_inj hparts (hlength a b hhead)
      rw [heq a List.mem_cons_self b hhead hparts,
        ih (fun a ha => heq a (List.mem_cons_of_mem _ ha)) htail hrest]

namespace Term

/-! ### Putting terms for variables -/

theorem varsList_eq_flatMap (ts : List Term) : varsList ts = ts.flatMap vars := by
  induction ts with
  | nil => rfl
  | cons t ts ih => rw [varsList, ih, List.flatMap_cons]

theorem vars_subst (θ : Nat → Term) (t : Term) :
    (t.subst θ).vars = t.vars.flatMap fun v => (θ v).vars := by
  induction t with
  | var v => simp [subst, vars]
  | app f ts ih =>
    simp only [subst_app, vars, varsList_eq_flatMap, List.flatMap_map, List.flatMap_assoc]
    exact List.flatMap_congr ih

theorem subst_subst (θ η : Nat → Term) (t : Term) :
    (t.subst θ).subst η = t.subst fun v => (θ v).subst η := by
  induction t with
  | var v => rfl
  | app f ts ih =>
    simp only [subst_app, List.map_map, app.injEq, true_and]
    exact List.map_congr_left ih

/-! ### Renaming -/

/-- The term with its variables renamed. -/
def rename (f : Nat → Nat) (t : Term) : Term := t.subst fun v => .var (f v)

@[simp] theorem rename_var (f : Nat → Nat) (v : Nat) : (var v).rename f = .var (f v) := rfl

@[simp] theorem rename_app (f : Nat → Nat) (g : String) (ts : List Term) :
    (app g ts).rename f = .app g (ts.map (rename f)) := subst_app _ g ts

theorem vars_rename (f : Nat → Nat) (t : Term) : (t.rename f).vars = t.vars.map f := by
  rw [rename, vars_subst, List.map_eq_flatMap]
  rfl

theorem rename_rename (f g : Nat → Nat) (t : Term) :
    (t.rename f).rename g = t.rename fun v => g (f v) := subst_subst _ _ t

/-! ### Skeletons -/

/-- The term with all variables made the same. -/
def skeleton (t : Term) : Term := t.rename fun _ => 0

@[simp] theorem skeleton_var (v : Nat) : (var v).skeleton = .var 0 := rfl

@[simp] theorem skeleton_app (f : String) (ts : List Term) :
    (app f ts).skeleton = .app f (ts.map skeleton) := rename_app _ f ts

variable {s t : Term}

/-- Terms of one skeleton have as many variables. -/
theorem length_vars_eq (h : s.skeleton = t.skeleton) : s.vars.length = t.vars.length := by
  have hvars := congrArg (·.vars.length) h
  simpa [skeleton, vars_rename] using hvars

/-- A term is its skeleton and its variables. -/
theorem eq_of_skeleton_eq (h : s.skeleton = t.skeleton) (hvars : s.vars = t.vars) : s = t := by
  induction s generalizing t with
  | var v =>
    cases t with
    | var w => simpa [vars] using hvars
    | app g ts => simp at h
  | app f ss ih =>
    cases t with
    | var w => simp at h
    | app g ts =>
      obtain ⟨rfl, hargs⟩ : f = g ∧ ss.map skeleton = ts.map skeleton := by
        simpa using h
      rw [vars, vars, varsList_eq_flatMap, varsList_eq_flatMap] at hvars
      rw [eq_of_map_eq_of_flatMap_eq (fun _ _ => length_vars_eq) (fun s hs _ => ih s hs) hargs
        hvars]

end Term

end TreeRewriting
