import MettaSchema.Proofs.Grammar.Spacing
import MettaSchema.Proofs.Grammar.Values

/-!
# Texts that differ behind a delimiter

Two texts that begin alike up to a semicolon or a brace.  Up to there every scanner takes the same
from both of them.  There is one way to look further: in a value in braces, a quote begins a string
literal only if the literal ends, and its end can be far behind the value.

* `Scan.Calm` — no quote in front of the second text begins a literal that is none in front of the
  first one; or there are no such quotes to be looked at.
* `Scan.Forks`, `Scan.Strays` — two texts that differ behind a delimiter at most.
* `Scanner.Agrees` — names, numbers and keywords are the same in both.
* `Scan.aggregate_calm` — and so are values in braces.
* `Scan.gap_of_blanks`, `Scan.Strays.blanks_append` — so are the blanks in front of a token.
-/

namespace MettaSchema

namespace Scan

/-! ## Quotes -/

theorem quotedTail_escape (quote d : Char) (s : List Char) :
    quotedTail quote ('\\' :: d :: s)
      = (quotedTail quote s).map fun taken => push '\\' (push d taken) := by
  simp [quotedTail]

theorem quotedTail_cons {c : Char} (hc : c ≠ '\\') (quote : Char) (s : List Char) :
    quotedTail quote (c :: s) =
      if c = quote then some ([c], s)
      else if isLineEnd c then none else (quotedTail quote s).map (push c) := by
  cases s with
  | nil => simp [quotedTail]
  | cons d s => rw [quotedTail, if_neg hc]

theorem quotedTail_cons_eq_none {quote c : Char} (hc : c ≠ '\\') {s s' : List Char}
    (hs : quotedTail quote s = none → quotedTail quote s' = none) :
    quotedTail quote (c :: s) = none → quotedTail quote (c :: s') = none := by
  rw [quotedTail_cons hc, quotedTail_cons hc]
  split
  · nofun
  · split
    · exact id
    · simpa using hs

/-- Whether a literal ends behind a text that ends in no backslash depends on that text and on
whether one ends in what follows. -/
theorem quotedTail_append_eq_none {quote c : Char} (hc : c ≠ '\\') {b b' : List Char}
    (hb : quotedTail quote b = none → quotedTail quote b' = none) (x : List Char) :
    quotedTail quote (x ++ c :: b) = none → quotedTail quote (x ++ c :: b') = none := by
  match x with
  | [] => exact quotedTail_cons_eq_none hc hb
  | [a] =>
    by_cases ha : a = '\\'
    · subst ha
      simpa [quotedTail_escape] using hb
    · exact quotedTail_cons_eq_none ha (quotedTail_append_eq_none hc hb [])
  | a :: d :: x =>
    by_cases ha : a = '\\'
    · subst ha
      simpa [quotedTail_escape] using quotedTail_append_eq_none hc hb x
    · exact quotedTail_cons_eq_none ha (quotedTail_append_eq_none hc hb (d :: x))

/-- No quote in front of the second text begins a string literal that is none in front of the
first one.  This need not hold where all values are `tame`, so that their own characters say which
quotes begin literals. -/
def Calm (tame : Prop) (s s' : List Char) : Prop :=
  tame ∨ ∀ quote, quote = doubleQuote ∨ quote = singleQuote →
    quotedTail quote s = none → quotedTail quote s' = none

namespace Calm

variable {tame : Prop} {s s' : List Char}

theorem refl (s : List Char) : Calm tame s s := .inr fun _ _ => id

theorem append {c : Char} (h : Calm tame s s') (hc : c ≠ '\\') (x : List Char) :
    Calm tame (x ++ c :: s) (x ++ c :: s') :=
  h.imp id fun h quote hquote => quotedTail_append_eq_none hc (h quote hquote) x

/-- No literal goes on behind the end of a line. -/
theorem of_lineEnd (h : startsWith isLineEnd s' = true) (s : List Char) : Calm tame s s' := by
  refine .inr fun quote hquote _ => ?_
  cases s' with
  | nil => cases h
  | cons c s' =>
    have hc : isLineEnd c = true := h
    have hne : c ≠ '\\' ∧ c ≠ doubleQuote ∧ c ≠ singleQuote := by
      refine ⟨?_, ?_, ?_⟩ <;> (rintro rfl; revert hc; decide)
    have hquote' : c ≠ quote := by
      rcases hquote with rfl | rfl
      · exact hne.2.1
      · exact hne.2.2
    rw [quotedTail_cons hne.1, if_neg hquote', if_pos hc]

/-- A text without quotes and backslashes makes no difference. -/
theorem skip (h : Calm tame s s') {x : List Char}
    (hx : ∀ c ∈ x, c ∉ ['\\', doubleQuote, singleQuote]) : Calm tame s (x ++ s') := by
  refine h.imp id fun h quote hquote hs => ?_
  induction x with
  | nil => exact h quote hquote hs
  | cons c x ih =>
    have hc : c ≠ '\\' ∧ c ≠ doubleQuote ∧ c ≠ singleQuote := by simpa using hx c (by simp)
    have hquote' : c ≠ quote := by
      rcases hquote with rfl | rfl
      · exact hc.2.1
      · exact hc.2.2
    rw [List.cons_append, quotedTail_cons hc.1, if_neg hquote',
      ih fun d hd => hx d (by simp [hd])]
    simp

theorem not_quote_of_isBlank {c : Char} (hc : isBlank c = true) :
    c ∉ ['\\', doubleQuote, singleQuote] := by
  intro h
  simp only [List.mem_cons, List.not_mem_nil, or_false] at h
  rcases h with rfl | rfl | rfl <;> exact absurd hc (by decide)

/-- Blank characters with the end of a line among them, and no literal goes on behind them. -/
theorem of_blanks {g : List Char} (hg : ∀ c ∈ g, isBlank c = true)
    (hend : ∃ c ∈ g, isLineEnd c = true) (s r : List Char) : Calm tame s (g ++ r) := by
  obtain ⟨c, hc, hline⟩ := hend
  obtain ⟨x, y, rfl⟩ := List.append_of_mem hc
  rw [List.append_assoc]
  have hends : startsWith isLineEnd (c :: y ++ r) = true := hline
  have hcalm : Calm tame s (c :: y ++ r) := of_lineEnd hends s
  exact hcalm.skip fun d hd => not_quote_of_isBlank (hg d (by simp [hd]))

end Calm

/-! ## Texts that begin alike -/

/-- Characters that end statements and open bodies. -/
def isDelimiter (c : Char) : Bool :=
  c == ';' || c == openBrace || c == closeBrace

theorem ne_of_isDelimiter {c d : Char} (hc : isDelimiter c = true) (hd : isDelimiter d = false) :
    c ≠ d := by
  rintro rfl
  rw [hc] at hd
  cases hd

theorem isInner_of_isDelimiter {c : Char} (hc : isDelimiter c = true) : isInner c = false := by
  simp only [isDelimiter, Bool.or_eq_true, beq_iff_eq] at hc
  rcases hc with (rfl | rfl) | rfl <;> decide

/-- Two texts that begin alike up to a delimiter. -/
def Forks (tame : Prop) (s s' : List Char) : Prop :=
  ∃ x c b b', isDelimiter c = true ∧ s = x ++ c :: b ∧ s' = x ++ c :: b' ∧ Calm tame b b'

/-- Two texts that are the same or begin alike up to a delimiter. -/
def Strays (tame : Prop) (s s' : List Char) : Prop := s' = s ∨ Forks tame s s'

variable {tame : Prop} {s s' : List Char}

theorem Forks.calm (h : Forks tame s s') : Calm tame s s' := by
  obtain ⟨x, c, b, b', hc, rfl, rfl, hcalm⟩ := h
  exact hcalm.append (ne_of_isDelimiter hc (by decide)) x

theorem Strays.calm (h : Strays tame s s') : Calm tame s s' := by
  rcases h with rfl | h
  · exact .refl _
  · exact h.calm

theorem Forks.append (h : Forks tame s s') (y : List Char) : Forks tame (y ++ s) (y ++ s') := by
  obtain ⟨x, c, b, b', hc, rfl, rfl, hcalm⟩ := h
  exact ⟨y ++ x, c, b, b', hc, by simp, by simp, hcalm⟩

theorem Strays.append (h : Strays tame s s') (y : List Char) :
    Strays tame (y ++ s) (y ++ s') := by
  rcases h with rfl | h
  · exact .inl rfl
  · exact .inr (h.append y)

/-- Behind a delimiter the texts may differ. -/
theorem Forks.of_calm (h : Calm tame s s') {c : Char} (hc : isDelimiter c = true)
    (x : List Char) : Forks tame (x ++ c :: s) (x ++ c :: s') :=
  ⟨x, c, s, s', hc, rfl, rfl, h⟩

/-- The text begins with a character of the class, which begins no blanks; or it is at its end. -/
def Opens (k : Char → Bool) : List Char → Prop
  | [] => True
  | c :: _ => k c = true ∧ beginsBlank c = false

namespace Opens

variable {k l : Char → Bool}

theorem mono (h : Opens k s) (hkl : ∀ c, k c = true → l c = true) : Opens l s := by
  cases s with
  | nil => trivial
  | cons c s => exact h.imp_left (hkl c)

theorem blanks_eq (h : Opens k s) : blanks s = ([], s) := by
  cases s with
  | nil => rfl
  | cons c s => exact blanks_of_head h.2

end Opens

theorem Strays.ne_nil (h : Strays tame s s') (hs : s' ≠ []) : s ≠ [] := by
  rcases h with rfl | ⟨x, c, b, b', -, rfl, -⟩
  · exact hs
  · simp

theorem Strays.opens {k : Char → Bool} (h : Strays tame s s') (hs : Opens k s) : Opens k s' := by
  rcases h with rfl | ⟨x, c, b, b', -, rfl, rfl, -⟩
  · exact hs
  · cases x <;> exact hs

theorem Strays.startsWith_eq (h : Strays tame s s') (p : Char → Bool) :
    startsWith p s' = startsWith p s := by
  rcases h with rfl | ⟨x, c, b, b', -, rfl, rfl, -⟩
  · rfl
  · cases x <;> rfl

end Scan

/-! ## Scanners -/

open Scan

/-- The scanner takes the same from two texts that begin alike up to a delimiter. -/
def Scanner.Agrees (tame : Prop) (scan : Scanner) : Prop :=
  ∀ ⦃s s' : List Char⦄, Forks tame s s' → (scan s = none ∧ scan s' = none)
    ∨ ∃ t r r', scan s = some (t, r) ∧ scan s' = some (t, r') ∧ Forks tame r r'

namespace Scan

variable {tame : Prop} {s s' : List Char}

/-- A scanner that looks no further than a delimiter takes the same. -/
theorem agrees_of_local {scan : Scanner} (hl : scan.LocalTo isInner) : scan.Agrees tame := by
  rintro s s' ⟨x, c, b, b', hc, rfl, rfl, hcalm⟩
  have hhalts : ∀ r, Halts isInner (c :: r) := fun _ => isInner_of_isDelimiter hc
  rw [hl x (hhalts b), hl x (hhalts b')]
  cases scan x with
  | none => exact .inl ⟨rfl, rfl⟩
  | some taken =>
    obtain ⟨t, r⟩ := taken
    exact .inr ⟨t, _, _, rfl, rfl, r, c, b, b', hc, rfl, rfl, hcalm⟩

/-- So does one that looks at the next character behind what it takes. -/
theorem agrees_before {scan : Scanner} (hs : scan.Agrees tame) (p : Char → Bool) :
    (before scan (startsWith p)).Agrees tame := by
  intro s s' h
  rcases hs h with ⟨hn, hn'⟩ | ⟨t, r, r', ht, ht', hr⟩
  · simp [before, hn, hn']
  · have hstarts : startsWith p r' = startsWith p r := Strays.startsWith_eq (.inr hr) p
    cases hp : startsWith p r with
    | false => simp [before, ht, ht', hp, hstarts]
    | true => exact .inr ⟨t, r, r', by simp [before, ht, hp], by simp [before, ht', hp, hstarts], hr⟩

theorem Strays.scan_none {scan : Scanner} (hscan : scan.Agrees tame) (h : Strays tame s s')
    (hs : scan s = none) : scan s' = none := by
  rcases h with rfl | h
  · exact hs
  · rcases hscan h with ⟨-, hs'⟩ | ⟨_, _, _, hs₁, -⟩
    · exact hs'
    · rw [hs] at hs₁
      cases hs₁

/-- What such a scanner took it takes from both texts. -/
theorem Strays.scan_append {scan : Scanner} (hscan : scan.Agrees tame) (hs : scan.Splits)
    {t r r' : List Char} (h : Strays tame r r') (ht : scan (t ++ r) = some (t, r)) :
    scan (t ++ r') = some (t, r') := by
  rcases h with rfl | h
  · exact ht
  · rcases hscan (h.append t) with ⟨hnone, -⟩ | ⟨t₁, r₁, r₁', hsome, hsome', -⟩
    · rw [ht] at hnone
      cases hnone
    · rw [ht] at hsome
      cases hsome
      rw [hsome']
      have happ := hs hsome'
      rw [List.append_cancel_left_eq] at happ
      rw [happ]

/-! ## Values in braces -/

/-- A value that is read up to its end is longer than the literal that it is in. -/
theorem lt_length_of_braceTail {depth inside : Nat} {s t r : List Char}
    (h : braceTail depth inside s = some (t, r)) : inside < t.length := by
  fun_induction braceTail depth inside s generalizing t r with
  | case1 => cases h
  | case3 =>
    cases h
    exact Nat.zero_lt_one
  | case2 _ _ _ _ ih =>
    obtain ⟨u, hu, rfl⟩ := map_push_eq_some.1 h
    rw [List.length_cons]
    exact Nat.succ_lt_succ (ih hu)
  | case4 | case5 | case6 | case7 =>
    obtain ⟨u, hu, rfl⟩ := map_push_eq_some.1 h
    exact Nat.succ_pos _

/-- The last character of a value is its closing brace. -/
theorem exists_of_braceTail {depth inside : Nat} {s t r : List Char}
    (h : braceTail depth inside s = some (t, r)) : ∃ x, t = x ++ [closeBrace] := by
  fun_induction braceTail depth inside s generalizing t r with
  | case1 => cases h
  | case3 =>
    cases h
    exact ⟨[], rfl⟩
  | case2 _ _ _ _ ih | case4 _ _ ih | case5 _ _ _ ih | case6 _ _ _ _ _ _ _ _ ih
  | case7 _ _ _ _ _ _ ih =>
    obtain ⟨u, hu, rfl⟩ := map_push_eq_some.1 h
    obtain ⟨x, rfl⟩ := ih hu
    exact ⟨_ :: x, rfl⟩

/-- Inside a value, the same quotes begin literals whichever text follows. -/
theorem strLit_inside {c : Char} {t r r' : List Char}
    (hcalm : ∀ quote, quote = doubleQuote ∨ quote = singleQuote →
      quotedTail quote r = none → quotedTail quote r' = none)
    (hlast : ∃ x, t = x ++ [closeBrace]) (h : strLit (c :: (t ++ r)) = none) :
    strLit (c :: (t ++ r')) = none := by
  simp only [strLit] at h ⊢
  split at h
  · rename_i hc
    obtain ⟨x, rfl⟩ := hlast
    have hne : closeBrace ≠ '\\' := by decide
    rw [if_pos hc]
    rw [Option.map_eq_none_iff, List.append_assoc] at h ⊢
    exact quotedTail_append_eq_none hne (hcalm c hc) x h
  · rename_i hc
    rw [if_neg hc]

theorem braceTail_calm {r r' : List Char}
    (hcalm : ∀ quote, quote = doubleQuote ∨ quote = singleQuote →
      quotedTail quote r = none → quotedTail quote r' = none) (t : List Char) :
    ∀ {depth inside : Nat}, braceTail depth inside (t ++ r) = some (t, r) →
      braceTail depth inside (t ++ r') = some (t, r') := by
  induction t with
  | nil =>
    intro depth inside h
    exact absurd (lt_length_of_braceTail h) (Nat.not_lt_zero _)
  | cons c t ih =>
    intro depth inside h
    have hstep : ∀ {depth inside}, (braceTail depth inside (t ++ r)).map (push c) = some (c :: t, r)
        → (braceTail depth inside (t ++ r')).map (push c) = some (c :: t, r') := by
      intro depth inside h
      obtain ⟨u, hu, heq⟩ := map_push_eq_some.1 h
      obtain ⟨-, rfl⟩ := List.cons.inj heq
      rw [ih hu]
      rfl
    cases inside with
    | succ k =>
      simp only [List.cons_append, braceTail] at h ⊢
      exact hstep h
    | zero =>
      simp only [List.cons_append, braceTail] at h ⊢
      by_cases hclose : c = closeBrace
      · rw [if_pos hclose] at h ⊢
        cases depth with
        | zero =>
          obtain ⟨heq, -⟩ := Prod.mk.inj (Option.some.inj h)
          obtain ⟨-, rfl⟩ := List.cons.inj heq
          rfl
        | succ depth => exact hstep h
      · rw [if_neg hclose] at h ⊢
        by_cases hopen : c = openBrace
        · rw [if_pos hopen] at h ⊢
          exact hstep h
        · rw [if_neg hopen] at h ⊢
          cases hlit : strLit (c :: (t ++ r)) with
          | some taken =>
            obtain ⟨text, rest⟩ := taken
            rw [hlit] at h
            obtain ⟨u, hu, heq⟩ := map_push_eq_some.1 h
            obtain ⟨-, rfl⟩ := List.cons.inj heq
            -- the literal ends inside the value, so it is there whatever follows
            have hlt := lt_length_of_braceTail hu
            obtain ⟨hliteral, happ⟩ := strLit_eq_some_iff.1 hlit
            obtain ⟨more, hmore⟩ : ∃ more, text ++ more = c :: t :=
              List.prefix_of_prefix_length_le ⟨rest, happ⟩ (List.prefix_append (c :: t) r)
                (by rw [List.length_cons]; omega)
            have hlit' : strLit (c :: (t ++ r')) = some (text, more ++ r') := by
              rw [← List.cons_append, ← hmore, List.append_assoc]
              exact strLit_append hliteral _
            rw [hlit']
            exact hstep h
          | none =>
            rw [hlit] at h
            obtain ⟨u, hu, heq⟩ := map_push_eq_some.1 h
            obtain ⟨-, rfl⟩ := List.cons.inj heq
            rw [strLit_inside hcalm (exists_of_braceTail hu) hlit]
            exact hstep h

/-- A value in braces is the same in front of both texts. -/
theorem aggregate_calm {t r r' : List Char} (h : aggregate (t ++ r) = some (t, r))
    (hcalm : Calm tame r r') (ht : tame → Braced t) : aggregate (t ++ r') = some (t, r') := by
  rcases hcalm with htame | hcalm
  · exact aggregate_append (ht htame) r'
  · cases t with
    | nil => exact absurd rfl (eats_aggregate h).2
    | cons c t =>
      simp only [List.cons_append, aggregate] at h ⊢
      split at h
      · rename_i hc
        obtain ⟨u, hu, heq⟩ := map_push_eq_some.1 h
        obtain ⟨-, rfl⟩ := List.cons.inj heq
        rw [if_pos hc, braceTail_calm hcalm _ hu]
        rfl
      · cases h

theorem exists_of_aggregate {s t r : List Char} (h : aggregate s = some (t, r)) :
    ∃ x, t = openBrace :: (x ++ [closeBrace]) := by
  cases s with
  | nil => cases h
  | cons c s =>
    simp only [aggregate] at h
    split at h
    · rename_i hc
      obtain ⟨u, hu, rfl⟩ := map_push_eq_some.1 h
      obtain ⟨x, rfl⟩ := exists_of_braceTail hu
      exact ⟨x, by rw [hc]⟩
    · cases h

/-- A value in braces that is read, in front of another text. -/
theorem aggregate_predicts {s t r r' : List Char} (h : aggregate s = some (t, r))
    (hcalm : Calm tame r r') (ht : tame → Braced t) :
    aggregate (t ++ r') = some (t, r') ∧ (∃ x, s = openBrace :: x) ∧ Strays tame s (t ++ r') := by
  obtain ⟨rfl, -⟩ := eats_aggregate h
  obtain ⟨x, rfl⟩ := exists_of_aggregate h
  have hforks : Forks tame (openBrace :: x ++ closeBrace :: r) (openBrace :: x ++ closeBrace :: r') :=
    .of_calm hcalm rfl _
  refine ⟨aggregate_calm h hcalm ht, ⟨x ++ closeBrace :: r, by simp⟩, ?_⟩
  have hstrays : Strays tame _ _ := .inr hforks
  simpa using hstrays

/-! ## Blanks -/

/-- A block comment ends at its first end mark. -/
theorem exists_of_blockEnd {s t r : List Char} (h : blockEnd s = some (t, r)) :
    t ++ r = s ∧ ∃ body, t = body ++ ['*', '/'] ∧ ¬ ['*', '/'] <:+: body := by
  fun_induction blockEnd s generalizing t r with
  | case1 | case2 => cases h
  | case3 c d s hend =>
    cases h
    obtain ⟨rfl, rfl⟩ := hend
    exact ⟨rfl, [], rfl, by simp⟩
  | case4 c d s hend ih =>
    obtain ⟨u, hu, rfl⟩ := map_push_eq_some.1 h
    obtain ⟨happ, body, rfl, hbody⟩ := ih hu
    refine ⟨by rw [List.cons_append, happ], c :: body, rfl, ?_⟩
    rw [List.infix_cons_iff, not_or]
    refine ⟨?_, hbody⟩
    rintro ⟨more, hmore⟩
    obtain ⟨rfl, htail⟩ := List.cons.inj hmore
    rw [← htail] at happ
    obtain ⟨rfl, -⟩ := List.cons.inj happ
    exact hend ⟨rfl, rfl⟩

/-- A comment is one in a block, or it goes on to the end of its line. -/
theorem exists_of_comment {s t r : List Char} (h : comment s = some (t, r)) :
    t ++ r = s ∧ (Spacing t ∨ ∃ body, t = '/' :: '/' :: body ∧ (∀ e ∈ body, isLineEnd e = false)
      ∧ ∀ c x, r = c :: x → isLineEnd c = true) := by
  unfold comment at h
  split at h
  · split at h
    · rename_i c d s hslash
      obtain ⟨rfl, rfl⟩ := hslash
      cases h
      refine ⟨by simp, .inr ⟨_, rfl, fun e he => ?_, fun c x hcx => ?_⟩⟩
      · simpa using List.all_eq_true.1 List.all_takeWhile e he
      · have hhead := List.head?_dropWhile_not (!isLineEnd ·) s
        rw [hcx] at hhead
        simpa using hhead
    · split at h
      · rename_i hstar
        obtain ⟨rfl, rfl⟩ := hstar
        simp only [Option.map_eq_some_iff, push, Prod.mk.injEq] at h
        obtain ⟨⟨u, v⟩, hu, rfl, rfl⟩ := h
        obtain ⟨happ, body, rfl, hbody⟩ := exists_of_blockEnd hu
        exact ⟨by simp [← happ], .inl (.block hbody)⟩
      · cases h
  · cases h

theorem isBlank_of_isLineEnd {c : Char} (h : isLineEnd c = true) : isBlank c = true := by
  simp only [isLineEnd, Bool.or_eq_true, beq_iff_eq] at h
  rcases h with rfl | rfl <;> decide

theorem blanks_tail {d : Char} {g s : List Char} (hd : isBlank d = true)
    (h : blanks (d :: (g ++ s)) = (d :: g, s)) : blanks (g ++ s) = (g, s) := by
  have hcons : blanks (d :: (g ++ s)) = push d (blanks (g ++ s)) := by
    simp [blanks, blanksFrom, hd]
  rw [hcons] at h
  obtain ⟨h₁, h₂⟩ := Prod.mk.inj h
  exact Prod.ext (List.cons.inj h₁).2 h₂

/-- Blanks in front of a token begin with a blank character or a complete comment. -/
theorem exists_spacing {c d : Char} {g s : List Char} (hc : beginsBlank c = false)
    (h : blanks (d :: (g ++ c :: s)) = (d :: g, c :: s)) :
    ∃ p g', d :: g = p ++ g' ∧ Spacing p ∧ blanks (g' ++ c :: s) = (g', c :: s) := by
  by_cases hd : isBlank d = true
  · exact ⟨[d], g, rfl, .blank hd, blanks_tail hd h⟩
  · cases hcomment : comment (d :: (g ++ c :: s)) with
    | none => simp [blanks, blanksFrom, hd, hcomment] at h
    | some taken =>
      obtain ⟨t, r⟩ := taken
      obtain ⟨happ, hkind⟩ := exists_of_comment hcomment
      have hne : t ≠ [] := by
        rcases hkind with hp | ⟨body, rfl, -⟩
        · exact hp.ne_nil
        · exact List.cons_ne_nil _ _
      obtain ⟨e, u, rfl⟩ := List.exists_cons_of_ne_nil hne
      obtain ⟨rfl, hu⟩ := List.cons.inj happ
      change u ++ r = g ++ c :: s at hu
      rw [← hu] at h hcomment
      rw [blanks_comment (Bool.eq_false_iff.2 hd) hcomment] at h
      obtain ⟨h₁, hs₂⟩ := Prod.mk.inj h
      have hg : u ++ (blanks r).1 = g := (List.cons.inj h₁).2
      have hrest : blanks ((blanks r).1 ++ c :: s) = ((blanks r).1, c :: s) := by
        rw [← hs₂, blanks_append]
      rcases hkind with hp | ⟨body, heq, hbody, hend⟩
      · exact ⟨e :: u, (blanks r).1, by rw [List.cons_append, hg], hp, hrest⟩
      · -- the end of the line is among the blanks, as no token begins with it
        have hr : r = (blanks r).1 ++ c :: s := by rw [← hs₂, blanks_append]
        cases hblanks : (blanks r).1 with
        | nil =>
          rw [hblanks] at hr
          have hlast := isBlank_of_isLineEnd (hend c s hr)
          simp [beginsBlank, hlast] at hc
        | cons f more =>
          rw [hblanks] at hr hrest hg
          have hf := hend _ _ hr
          have hmore := blanks_tail (isBlank_of_isLineEnd hf) hrest
          refine ⟨e :: u ++ [f], more, by simp [← hg], ?_, hmore⟩
          rw [heq]
          exact .line hbody hf

/-- Blanks in front of a token are blank characters and complete comments. -/
theorem gap_of_blanks {c : Char} {s : List Char} (hc : beginsBlank c = false) (g : List Char)
    (h : blanks (g ++ c :: s) = (g, c :: s)) : g = [] ∨ Gap g := by
  match g with
  | [] => exact .inl rfl
  | d :: g =>
    obtain ⟨p, g', heq, hp, hrest⟩ := exists_spacing hc h
    have hshorter : g'.length < (d :: g).length := by
      have hpos := List.length_pos_iff.2 hp.ne_nil
      rw [heq, List.length_append]
      omega
    rw [heq]
    rcases gap_of_blanks hc g' hrest with rfl | hgap
    · rw [List.append_nil]
      exact .inr (.one hp)
    · exact .inr (.more hp hgap)
termination_by g.length
decreasing_by exact hshorter

/-- Blanks in front of a token are the same in front of another text that begins like it. -/
theorem Strays.blanks_append {k : Char → Bool} (h : Strays tame s s') (hs : Opens k s)
    {g : List Char} (hg : blanks (g ++ s) = (g, s)) : blanks (g ++ s') = (g, s') := by
  have hs' := h.opens hs
  cases s' with
  | nil =>
    cases s with
    | nil => exact hg
    | cons c s => exact absurd h (by rintro (heq | ⟨x, _, _, _, -, -, heq, -⟩) <;> simp at heq)
  | cons c' s' =>
    obtain ⟨c, s, rfl⟩ := List.exists_cons_of_ne_nil (h.ne_nil (List.cons_ne_nil c' s'))
    rcases gap_of_blanks hs.2 g hg with rfl | hgap
    · exact hs'.blanks_eq
    · exact blanks_gap hgap hs'.2

end Scan

end MettaSchema
