import MettaSchema.Proofs.Grammar.Scanning

/-!
# String literals and values in braces

Where a string literal or a value in braces ends is a matter of its own characters:
nothing behind it can change that.

* `Scan.Quoted`, `Scan.Literal` — complete string literals, said without a scanner.
* `Scan.strLit_eq_some_iff` — `Scan.strLit` takes exactly the complete literals.
* `Scan.BraceContent`, `Scan.Braced` — values built from nested groups, complete string
  literals and characters other than braces and quotes.
* `Scan.aggregate_append` — `Scan.aggregate` takes such a value up to its last brace.
-/

namespace MettaSchema

namespace Scan

/-! ## String literals -/

/-- What follows the opening quote of a complete string literal: escapes, characters other
than the quote, a backslash and the ends of a line, and the closing quote. -/
inductive Quoted (quote : Char) : List Char → Prop
  /-- The closing quote. -/
  | close : Quoted quote [quote]
  /-- A backslash and the character that it escapes. -/
  | escape (d : Char) {s : List Char} (h : Quoted quote s) : Quoted quote ('\\' :: d :: s)
  /-- A character that stands for itself. -/
  | char {c : Char} {s : List Char} (hb : c ≠ '\\') (hq : c ≠ quote) (hl : isLineEnd c = false)
      (h : Quoted quote s) : Quoted quote (c :: s)

/-- A complete string literal in quotes of either kind. -/
def Literal (t : List Char) : Prop :=
  ∃ quote s, (quote = doubleQuote ∨ quote = singleQuote) ∧ t = quote :: s ∧ Quoted quote s

theorem Quoted.ne_nil {quote : Char} {s : List Char} (h : Quoted quote s) : s ≠ [] := by
  cases h <;> simp

theorem quoted_of_quotedTail {quote : Char} {s t r : List Char}
    (h : quotedTail quote s = some (t, r)) : Quoted quote t := by
  fun_induction quotedTail quote s generalizing t r with
  | case1 => cases h
  | case2 => cases h; exact .close
  | case3 => cases h
  | case4 d s ih =>
    simp only [Option.map_eq_some_iff, push, Prod.mk.injEq] at h
    obtain ⟨⟨u, v⟩, hu, rfl, rfl⟩ := h
    exact .escape d (ih hu)
  | case5 => cases h; exact .close
  | case6 => cases h
  | case7 c d s hb hq hl ih =>
    obtain ⟨u, hu, rfl⟩ := map_push_eq_some.1 h
    exact .char hb hq (by simpa using hl) (ih hu)

theorem quotedTail_of_quoted {quote : Char} (hquote : quote ≠ '\\') {t : List Char}
    (h : Quoted quote t) (r : List Char) : quotedTail quote (t ++ r) = some (t, r) := by
  induction h with
  | close => cases r <;> simp [quotedTail, hquote]
  | escape d h ih => simp [quotedTail, ih, push]
  | @char c s hb hq hl h ih =>
    obtain ⟨d, s', rfl⟩ := List.exists_cons_of_ne_nil h.ne_nil
    simp only [List.cons_append] at ih
    simp [quotedTail, hb, hq, hl, ih, push]

/-- A string literal is read exactly if a complete one is there. -/
theorem strLit_eq_some_iff {s t r : List Char} :
    strLit s = some (t, r) ↔ Literal t ∧ t ++ r = s := by
  constructor
  · intro h
    refine ⟨?_, (eats_strLit h).1⟩
    cases s with
    | nil => cases h
    | cons c s =>
      simp only [strLit] at h
      split at h
      · rename_i hc
        obtain ⟨u, hu, rfl⟩ := map_push_eq_some.1 h
        exact ⟨c, u, hc, rfl, quoted_of_quotedTail hu⟩
      · cases h
  · rintro ⟨⟨quote, u, hquote, rfl, hu⟩, rfl⟩
    have hne : quote ≠ '\\' := by rcases hquote with rfl | rfl <;> decide
    simp only [List.cons_append, strLit, if_pos hquote, quotedTail_of_quoted hne hu]
    rfl

theorem strLit_append {t : List Char} (h : Literal t) (r : List Char) :
    strLit (t ++ r) = some (t, r) :=
  strLit_eq_some_iff.2 ⟨h, rfl⟩

theorem strLit_cons_of_ne {c : Char} (hd : c ≠ doubleQuote) (hs : c ≠ singleQuote)
    (s : List Char) : strLit (c :: s) = none := by
  simp [strLit, hd, hs]

/-! ## Values in braces -/

/-- What can stand between braces that match. -/
inductive BraceContent : List Char → Prop
  /-- Nothing. -/
  | nil : BraceContent []
  /-- A character other than a brace or a quote. -/
  | char {c : Char} {s : List Char} (hc : c ∉ [openBrace, closeBrace, doubleQuote, singleQuote])
      (h : BraceContent s) : BraceContent (c :: s)
  /-- A complete string literal, which may hold braces. -/
  | literal {t s : List Char} (ht : Literal t) (h : BraceContent s) : BraceContent (t ++ s)
  /-- A group in braces of its own. -/
  | group {g s : List Char} (hg : BraceContent g) (h : BraceContent s) :
      BraceContent (openBrace :: (g ++ closeBrace :: s))

/-- A value in braces. -/
def Braced (t : List Char) : Prop :=
  ∃ g, BraceContent g ∧ t = openBrace :: (g ++ [closeBrace])

/-- Puts a text in front of what was taken. -/
def prepend (t : List Char) (taken : List Char × List Char) : List Char × List Char :=
  (t ++ taken.1, taken.2)

/-- The characters of a literal that has been recognised are taken as they are. -/
theorem braceTail_inside (depth : Nat) (t s : List Char) :
    braceTail depth t.length (t ++ s) = (braceTail depth 0 s).map (prepend t) := by
  induction t with
  | nil => cases h : braceTail depth 0 s <;> simp [h, prepend]
  | cons c t ih =>
    simp only [List.length_cons, List.cons_append, braceTail, ih]
    cases braceTail depth 0 s <;> rfl

theorem braceTail_append {g : List Char} (hg : BraceContent g) (depth : Nat) (s : List Char) :
    braceTail depth 0 (g ++ s) = (braceTail depth 0 s).map (prepend g) := by
  induction hg generalizing depth s with
  | nil => cases h : braceTail depth 0 s <;> simp [h, prepend]
  | @char c g hc _ ih =>
    simp only [List.mem_cons, List.not_mem_nil, or_false, not_or] at hc
    obtain ⟨hopen, hclose, hdouble, hsingle⟩ := hc
    simp only [List.cons_append, braceTail, if_neg hclose, if_neg hopen,
      strLit_cons_of_ne hdouble hsingle, ih]
    cases braceTail depth 0 s <;> rfl
  | @literal t g ht _ ih =>
    obtain ⟨quote, u, hquote, rfl, hu⟩ := ht
    have hlit : Literal (quote :: u) := ⟨quote, u, hquote, rfl, hu⟩
    have hclose : quote ≠ closeBrace := by rcases hquote with rfl | rfl <;> decide
    have hopen : quote ≠ openBrace := by rcases hquote with rfl | rfl <;> decide
    have hstr := strLit_append hlit (g ++ s)
    simp only [List.cons_append] at hstr
    simp only [List.append_assoc, List.cons_append, braceTail, if_neg hclose, if_neg hopen, hstr,
      List.length_cons, Nat.add_sub_cancel, braceTail_inside, ih]
    cases braceTail depth 0 s <;> simp [prepend, push]
  | @group g h _ _ ihg ih =>
    have hne : openBrace ≠ closeBrace := by decide
    simp only [List.cons_append, List.append_assoc, braceTail, if_neg hne, if_true, ihg, ih]
    cases braceTail depth 0 s <;> simp [prepend, push]

/-- A value in braces ends at its matching brace, whatever follows. -/
theorem aggregate_append {t : List Char} (h : Braced t) (r : List Char) :
    aggregate (t ++ r) = some (t, r) := by
  obtain ⟨g, hg, rfl⟩ := h
  simp only [List.cons_append, List.append_assoc, aggregate, if_true, braceTail_append hg,
    List.nil_append, braceTail]
  rfl

end Scan

end MettaSchema
