/-
TreeRewriting/Proofs/Pattern/Lexing.lean

Cutting the text of a pattern into tokens.

Design.  A text consists of words with blanks around them (`Spaced`).  Every
text is so made of the words of its tokens (`spaced_tokens`).  The other way
round the tokens are those of the words, whatever the blanks, as long as each
word is a label or a mark and behind a label there is a mark
(`tokens_of_spaced`): two labels without a blank between them would be one.

What a token is does not depend on its offset, so tokens are looked at without
it, and blanks at the two ends of a text can go (`tokens_trimBlanks`).
-/
import Mathlib.Data.List.Chain
import Mathlib.Data.List.DropRight
import TreeRewriting.Proofs.Text.Separation

namespace TreeRewriting.Pattern

/-! ### Words and blanks -/

/-- A text of blanks. -/
def Blanks (cs : List Char) : Prop := ∀ c ∈ cs, isBlank c = true

/-- A text that consists of these words, in order, with blanks before and after them. -/
inductive Spaced : List (List Char) → List Char → Prop where
  | blanks {bs : List Char} (hbs : Blanks bs) : Spaced [] bs
  | word {bs cs w : List Char} {ws : List (List Char)} (hbs : Blanks bs) (hcs : Spaced ws cs) :
      Spaced (w :: ws) (bs ++ (w ++ cs))

/-- A word that starts as a label does and goes on as one. -/
def IsLabel (w : List Char) : Prop :=
  ∃ c cs, w = c :: cs ∧ startsLabel c = true ∧ ∀ d ∈ cs, continuesLabel d = true

/-- A word that is a mark. -/
def IsMark (w : List Char) : Prop := ∃ c ∈ marks, w = [c]

theorem Blanks.nil : Blanks [] := fun _ h => absurd h List.not_mem_nil

theorem Blanks.cons {c : Char} {bs : List Char} (hc : isBlank c = true) (hbs : Blanks bs) :
    Blanks (c :: bs) := List.forall_mem_cons.mpr ⟨hc, hbs⟩

theorem Blanks.takeWhile_continuesLabel {bs : List Char} (h : Blanks bs) :
    bs.takeWhile continuesLabel = [] := by
  cases bs with
  | nil => rfl
  | cons b bs => simp [continuesLabel_of_isBlank (h b List.mem_cons_self)]

/-- A blank in front of a spaced text leaves it spaced. -/
theorem Spaced.blank {c : Char} {cs : List Char} {ws : List (List Char)} (hc : isBlank c = true)
    (h : Spaced ws cs) : Spaced ws (c :: cs) := by
  cases h with
  | blanks hbs => exact .blanks (hbs.cons hc)
  | word hbs hcs => exact .word (hbs.cons hc) hcs

/-- Behind a label there is either nothing, or a blank, or a mark: it ends there. -/
theorem Spaced.takeWhile_continuesLabel {cs : List Char} {ws : List (List Char)}
    (h : Spaced ws cs) (hmark : ∀ w ∈ ws.head?, IsMark w) : cs.takeWhile continuesLabel = [] := by
  cases h with
  | blanks hbs => exact hbs.takeWhile_continuesLabel
  | @word bs cs w ws hbs hcs =>
    cases bs with
    | nil =>
      obtain ⟨c, hc, rfl⟩ := hmark w rfl
      simp [(separate_of_mem_marks c hc).2.2]
    | cons b bs => simp [continuesLabel_of_isBlank (hbs b List.mem_cons_self)]

/-! ### Tokens -/

/-- The characters of a token. -/
def Token.word : Token → List Char
  | .label c cs => c :: cs
  | t => [t.head]

/-- The token of a word. -/
def Token.ofWord : List Char → Token
  | [] => .stray ' '
  | c :: cs => if startsLabel c then .label c cs else .ofChar c

@[simp] theorem Token.word_ofChar (c : Char) : (Token.ofChar c).word = [c] := by
  rw [Token.ofChar]
  split_ifs <;> simp_all [Token.word, Token.head]

/-- The tokens of a text, without their offsets. -/
def tokens (cs : List Char) : List Token := (lexemes 0 cs).map Lexeme.token

theorem map_token_lexemes (offset offset' : Nat) (cs : List Char) :
    (lexemes offset cs).map Lexeme.token = (lexemes offset' cs).map Lexeme.token := by
  fun_induction lexemes offset cs generalizing offset' with
  | case1 => simp [lexemes]
  | case2 offset c cs hc ih =>
    rw [lexemes, if_pos hc]
    exact ih _
  | case3 offset c cs hc hs rest ih =>
    rw [lexemes, if_neg hc, if_pos hs]
    exact congrArg (Token.label c rest :: ·) (ih _)
  | case4 offset c cs hc hs ih =>
    rw [lexemes, if_neg hc, if_neg hs]
    exact congrArg (Token.ofChar c :: ·) (ih _)

@[simp] theorem tokens_nil : tokens [] = [] := by simp [tokens, lexemes]

theorem tokens_blank {c : Char} (hc : isBlank c = true) (cs : List Char) :
    tokens (c :: cs) = tokens cs := by
  rw [tokens, lexemes, if_pos hc]
  exact map_token_lexemes _ _ cs

theorem tokens_label {c : Char} (hc : startsLabel c = true) (cs : List Char) :
    tokens (c :: cs) =
      .label c (cs.takeWhile continuesLabel) :: tokens (cs.dropWhile continuesLabel) := by
  rw [tokens, lexemes, isBlank_of_startsLabel hc, if_neg Bool.false_ne_true, if_pos hc]
  exact congrArg (_ :: ·) (map_token_lexemes _ _ _)

theorem tokens_other {c : Char} (hb : isBlank c = false) (hs : startsLabel c = false)
    (cs : List Char) : tokens (c :: cs) = .ofChar c :: tokens cs := by
  rw [tokens, lexemes, hb, hs, if_neg Bool.false_ne_true, if_neg Bool.false_ne_true]
  exact congrArg (_ :: ·) (map_token_lexemes _ _ cs)

/-- Induction along the tokens of a text. -/
theorem tokens_induct {motive : List Char → Prop} (nil : motive [])
    (blank : ∀ c cs, isBlank c = true → motive cs → motive (c :: cs))
    (label : ∀ c cs, startsLabel c = true → motive (cs.dropWhile continuesLabel) →
      motive (c :: cs))
    (other : ∀ c cs, isBlank c = false → startsLabel c = false → motive cs → motive (c :: cs))
    (cs : List Char) : motive cs := by
  induction 0, cs using lexemes.induct with
  | case1 => exact nil
  | case2 _ c cs hc ih => exact blank c cs hc ih
  | case3 _ c cs _ hs _ ih => exact label c cs hs ih
  | case4 _ c cs hb hs ih => exact other c cs (by simpa using hb) (by simpa using hs) ih

theorem tokens_blanks_append {bs : List Char} (h : Blanks bs) (cs : List Char) :
    tokens (bs ++ cs) = tokens cs := by
  induction bs with
  | nil => rfl
  | cons b bs ih =>
    obtain ⟨hb, hbs⟩ := List.forall_mem_cons.mp h
    rw [List.cons_append, tokens_blank hb, ih hbs]

theorem tokens_blanks {bs : List Char} (h : Blanks bs) : tokens bs = [] := by
  simpa using tokens_blanks_append h []

/-- Where no label goes on there is nothing to leave out. -/
theorem dropWhile_eq_self {cs : List Char} (h : cs.takeWhile continuesLabel = []) :
    cs.dropWhile continuesLabel = cs := by
  have := List.takeWhile_append_dropWhile (p := continuesLabel) (l := cs)
  rwa [h, List.nil_append] at this

/-- A label ends where no label goes on. -/
theorem tokens_label_append {c : Char} {w cs : List Char} (hc : startsLabel c = true)
    (hw : ∀ d ∈ w, continuesLabel d = true) (h : cs.takeWhile continuesLabel = []) :
    tokens (c :: (w ++ cs)) = .label c w :: tokens cs := by
  rw [tokens_label hc, List.takeWhile_append_of_pos hw, List.dropWhile_append_of_pos hw, h,
    List.append_nil, dropWhile_eq_self h]

/-- A text is cut in two without a change to its tokens where no label goes on. -/
theorem tokens_append (cs : List Char) {ds : List Char} (h : ds.takeWhile continuesLabel = []) :
    tokens (cs ++ ds) = tokens cs ++ tokens ds := by
  induction cs using tokens_induct with
  | nil => rw [tokens_nil, List.nil_append, List.nil_append]
  | blank c cs hc ih => rw [List.cons_append, tokens_blank hc, tokens_blank hc, ih]
  | other c cs hb hs ih =>
    rw [List.cons_append, tokens_other hb hs, tokens_other hb hs, ih, List.cons_append]
  | label c cs hc ih =>
    -- a label at the end of the first part stops there
    have htake : (cs ++ ds).takeWhile continuesLabel = cs.takeWhile continuesLabel := by
      rw [List.takeWhile_append, h, List.append_nil]
      split_ifs with hlength
      · exact ((List.takeWhile_prefix _).eq_of_length hlength).symm
      · rfl
    have hdrop : (cs ++ ds).dropWhile continuesLabel = cs.dropWhile continuesLabel ++ ds := by
      rw [List.dropWhile_append]
      split_ifs with hempty
      · rw [List.isEmpty_iff.mp hempty, dropWhile_eq_self h, List.nil_append]
      · rfl
    rw [List.cons_append, tokens_label hc, tokens_label hc, htake, hdrop, ih, List.cons_append]

theorem tokens_append_blanks (cs : List Char) {bs : List Char} (h : Blanks bs) :
    tokens (cs ++ bs) = tokens cs := by
  rw [tokens_append cs h.takeWhile_continuesLabel, tokens_blanks h, List.append_nil]

/-! ### Texts made of the words of their tokens -/

theorem spaced_tokens (cs : List Char) : Spaced ((tokens cs).map Token.word) cs := by
  induction cs using tokens_induct with
  | nil => simpa using Spaced.blanks .nil
  | blank c cs hc ih =>
    rw [tokens_blank hc]
    exact ih.blank hc
  | label c cs hc ih =>
    have h : Spaced ((c :: cs.takeWhile continuesLabel) :: _)
        ([] ++ (c :: cs.takeWhile continuesLabel ++ cs.dropWhile continuesLabel)) := .word .nil ih
    rw [List.nil_append, List.cons_append, List.takeWhile_append_dropWhile] at h
    rwa [tokens_label hc]
  | other c cs hb hs ih =>
    have h : Spaced ([c] :: _) ([] ++ ([c] ++ cs)) := .word .nil ih
    rwa [tokens_other hb hs, List.map_cons, Token.word_ofChar]

/-- The labels among the tokens are labels. -/
theorem isLabel_of_mem_tokens {c : Char} {w cs : List Char} (h : .label c w ∈ tokens cs) :
    IsLabel (c :: w) := by
  have hmark : ∀ d, Token.ofChar d ≠ .label c w := by
    intro d
    rw [Token.ofChar]
    split_ifs <;> simp
  induction cs using tokens_induct with
  | nil => simp at h
  | blank d cs hd ih => exact ih (tokens_blank hd cs ▸ h)
  | label d cs hd ih =>
    rw [tokens_label hd] at h
    rcases List.mem_cons.mp h with heq | h
    · obtain ⟨rfl, rfl⟩ := Token.label.inj heq
      exact ⟨c, _, rfl, hd, fun e he => List.mem_takeWhile_imp he⟩
    · exact ih h
  | other d cs hb hs ih =>
    rw [tokens_other hb hs] at h
    rcases List.mem_cons.mp h with heq | h
    · exact absurd heq.symm (hmark d)
    · exact ih h

/-! ### Tokens of spaced words -/

/-- The tokens of labels and marks are theirs, however many blanks are around them, if there
is a mark behind every label. -/
theorem tokens_of_spaced {ws : List (List Char)} {cs : List Char} (h : Spaced ws cs)
    (hws : ∀ w ∈ ws, IsLabel w ∨ IsMark w)
    (hmarks : ws.IsChain fun w w' => IsLabel w → IsMark w') : tokens cs = ws.map Token.ofWord := by
  induction h with
  | blanks hbs => exact tokens_blanks hbs
  | @word bs cs w ws hbs hcs ih =>
    have ih := ih (fun w hw => hws w (List.mem_cons_of_mem _ hw)) hmarks.tail
    rw [tokens_blanks_append hbs, List.map_cons]
    rcases hws w List.mem_cons_self with hw | hw
    · -- a label ends before what comes next
      have hend : cs.takeWhile continuesLabel = [] := by
        refine hcs.takeWhile_continuesLabel fun w' hw' => ?_
        obtain ⟨ws', rfl⟩ := List.head?_eq_some_iff.mp hw'
        exact List.rel_of_isChain_cons_cons hmarks hw
      obtain ⟨c, ds, rfl, hc, hds⟩ := hw
      rw [List.cons_append, tokens_label_append hc hds hend, ih, Token.ofWord, if_pos hc]
    · obtain ⟨c, hc, rfl⟩ := hw
      obtain ⟨hb, hs, -⟩ := separate_of_mem_marks c hc
      rw [List.singleton_append, tokens_other hb hs, ih, Token.ofWord, hs,
        if_neg Bool.false_ne_true]

/-! ### Blanks at the two ends -/

theorem trimBlanks_eq (cs : List Char) :
    trimBlanks cs = (cs.dropWhile isBlank).rdropWhile isBlank := rfl

theorem tokens_trimBlanks (cs : List Char) : tokens (trimBlanks cs) = tokens cs := by
  have hfront : tokens (cs.dropWhile isBlank) = tokens cs := by
    have hbs : Blanks (cs.takeWhile isBlank) := fun c hc => List.mem_takeWhile_imp hc
    rw [← tokens_blanks_append hbs, List.takeWhile_append_dropWhile]
  have hback : ∀ ds, tokens (ds.rdropWhile isBlank) = tokens ds := by
    intro ds
    have hbs : Blanks (ds.rtakeWhile isBlank) := fun c hc => List.mem_rtakeWhile_imp hc
    rw [← tokens_append_blanks _ hbs, List.rdropWhile_append_rtakeWhile]
  rw [trimBlanks_eq, hback, hfront]

theorem trimBlanks_trimBlanks (cs : List Char) : trimBlanks (trimBlanks cs) = trimBlanks cs := by
  have hfront : (trimBlanks cs).dropWhile isBlank = trimBlanks cs := by
    -- the text starts as the one before its end was cut, and so with no blank
    obtain ⟨rest, hrest⟩ := List.rdropWhile_prefix isBlank (cs.dropWhile isBlank)
    rw [← trimBlanks_eq] at hrest
    rcases htrim : trimBlanks cs with - | ⟨c, ds⟩
    · rfl
    · rw [htrim, List.cons_append] at hrest
      have hc : ¬ isBlank c = true := by
        have := List.dropWhile_get_zero_not isBlank cs (by simp [← hrest])
        simpa [← hrest] using this
      rw [List.dropWhile_cons, if_neg hc]
  rw [trimBlanks_eq (trimBlanks cs), hfront, trimBlanks_eq, List.rdropWhile_idempotent]

end TreeRewriting.Pattern
