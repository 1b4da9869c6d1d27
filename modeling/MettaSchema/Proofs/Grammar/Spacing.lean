import MettaSchema.Proofs.Grammar.Local

/-!
# Spacing

What may stand between two tokens.

* `Scan.Spacing`, `Scan.Gap` — a blank character or a complete comment, and non-empty
  sequences of these.
* `Scan.blanks_gap` — such a sequence is skipped up to the next token, and no further.
-/

namespace MettaSchema

namespace Scan

/-- A blank character or a complete comment. -/
inductive Spacing : List Char → Prop
  /-- A blank character. -/
  | blank {c : Char} (hc : isBlank c = true) : Spacing [c]
  /-- A comment between `/*` and the first `*/` behind it. -/
  | block {body : List Char} (hb : ¬ ['*', '/'] <:+: body) :
      Spacing ('/' :: '*' :: (body ++ ['*', '/']))
  /-- A comment from `//` to the end of the line. -/
  | line {body : List Char} {c : Char} (hb : ∀ d ∈ body, isLineEnd d = false)
      (hc : isLineEnd c = true) : Spacing ('/' :: '/' :: (body ++ [c]))

/-- One or more blank characters and complete comments. -/
inductive Gap : List Char → Prop
  /-- One of them. -/
  | one {p : List Char} (hp : Spacing p) : Gap p
  /-- One of them and more. -/
  | more {p g : List Char} (hp : Spacing p) (hg : Gap g) : Gap (p ++ g)

theorem Spacing.ne_nil {p : List Char} (h : Spacing p) : p ≠ [] := by
  cases h <;> simp

theorem Gap.ne_nil {g : List Char} (h : Gap g) : g ≠ [] := by
  cases h with
  | one hp => exact hp.ne_nil
  | more hp _ => simp [hp.ne_nil]

/-- The characters with which blanks and comments begin. -/
def beginsBlank (c : Char) : Bool := isBlank c || c == '/'

/-! ## Skipping -/

theorem blanksFrom_inside (t s : List Char) :
    blanksFrom t.length (t ++ s) = (t ++ (blanks s).1, (blanks s).2) := by
  induction t with
  | nil => rfl
  | cons c t ih => simp [blanksFrom, ih, push]

theorem comment_eq_none {c : Char} (hc : c ≠ '/') (s : List Char) : comment (c :: s) = none := by
  cases s <;> simp [comment, hc]

/-- No blanks are skipped in front of a character that begins none. -/
theorem blanks_of_head {s : List Char} (h : startsWith beginsBlank s = false) :
    blanks s = ([], s) := by
  cases s with
  | nil => rfl
  | cons c s =>
    simp only [startsWith, beginsBlank, Bool.or_eq_false_iff, beq_eq_false_iff_ne] at h
    simp [blanks, blanksFrom, h.1, comment_eq_none h.2]

/-- If blanks are skipped, the text begins like blanks. -/
theorem head_of_blanks {s : List Char} (h : (blanks s).1 ≠ []) :
    startsWith beginsBlank s = true := by
  cases hs : startsWith beginsBlank s with
  | true => rfl
  | false => exact absurd (by rw [blanks_of_head hs]) h

theorem blockEnd_append {body : List Char} (hb : ¬ ['*', '/'] <:+: body) (s : List Char) :
    blockEnd (body ++ '*' :: '/' :: s) = some (body ++ ['*', '/'], s) := by
  induction body with
  | nil => simp [blockEnd]
  | cons c body ih =>
    have htail := ih fun h => hb (h.trans (List.suffix_cons c body).isInfix)
    cases body with
    | nil => simp [blockEnd, push]
    | cons d body =>
      have hne : ¬ (c = '*' ∧ d = '/') := by
        rintro ⟨rfl, rfl⟩
        exact hb ⟨[], body, by simp⟩
      simp only [List.cons_append] at htail
      simp [blockEnd, hne, htail, push]

/-- A comment that is recognised is skipped as a whole. -/
theorem blanks_comment {c : Char} {t s r : List Char} (hc : isBlank c = false)
    (h : comment (c :: (t ++ s)) = some (c :: t, r)) :
    blanks (c :: (t ++ s)) = (c :: (t ++ (blanks s).1), (blanks s).2) := by
  simp only [blanks, blanksFrom, hc, h, List.length_cons, Nat.add_sub_cancel, Bool.false_eq_true,
    if_false]
  rw [blanksFrom_inside]
  rfl

theorem blanks_spacing {p : List Char} (hp : Spacing p) (s : List Char) :
    blanks (p ++ s) = (p ++ (blanks s).1, (blanks s).2) := by
  have hslash : isBlank '/' = false := by decide
  cases hp with
  | blank hc => simp [blanks, blanksFrom, hc, push]
  | @block body hb =>
    have h : comment ('/' :: ('*' :: (body ++ ['*', '/']) ++ s))
        = some ('/' :: '*' :: (body ++ ['*', '/']), s) := by
      simp [comment, blockEnd_append hb s, push]
    exact blanks_comment hslash h
  | @line body c hb hc =>
    have hall : ∀ d ∈ body, (!isLineEnd d) = true := by simpa using hb
    have h : comment ('/' :: ('/' :: body ++ c :: s)) = some ('/' :: '/' :: body, c :: s) := by
      simp [comment, List.takeWhile_append_of_pos hall, List.dropWhile_append_of_pos hall, hc]
    have hblank : isBlank c = true := by
      simp only [isLineEnd, Bool.or_eq_true, beq_iff_eq] at hc
      rcases hc with rfl | rfl <;> decide
    have hline := blanks_comment hslash h
    have hend : blanks (c :: s) = (c :: (blanks s).1, (blanks s).2) := by
      simp [blanks, blanksFrom, hblank, push]
    rw [hend] at hline
    simpa using hline

/-- A gap is skipped together with the blanks behind it. -/
theorem blanks_gap_append {g : List Char} (hg : Gap g) (s : List Char) :
    blanks (g ++ s) = (g ++ (blanks s).1, (blanks s).2) := by
  induction hg with
  | one hp => exact blanks_spacing hp s
  | more hp _ ih => rw [List.append_assoc, blanks_spacing hp, ih, List.append_assoc]

/-- A gap is skipped up to a text that does not begin like blanks. -/
theorem blanks_gap {g s : List Char} (hg : Gap g) (hs : startsWith beginsBlank s = false) :
    blanks (g ++ s) = (g, s) := by
  rw [blanks_gap_append hg, blanks_of_head hs, List.append_nil]

/-- So is nothing at all. -/
theorem blanks_gap_or_nil {g s : List Char} (hg : g = [] ∨ Gap g)
    (hs : startsWith beginsBlank s = false) : blanks (g ++ s) = (g, s) := by
  rcases hg with rfl | hg
  · exact blanks_of_head hs
  · exact blanks_gap hg hs

/-- Blank characters are a gap. -/
theorem gap_of_isBlank {g : List Char} (hg : ∀ c ∈ g, isBlank c = true) (hne : g ≠ []) : Gap g := by
  induction g with
  | nil => exact absurd rfl hne
  | cons c g ih =>
    have hc : Spacing [c] := .blank (hg c (by simp))
    cases g with
    | nil => exact .one hc
    | cons d g => exact .more hc (ih (fun e he => hg e (by simp [he])) (by simp))

end Scan

end MettaSchema
