import Mathlib.Data.List.Forall2
import Mathlib.Data.List.TakeWhile
import Mathlib.Data.Nat.Digits.Defs
import MettaSchema.Declaration
import MettaSchema.Proofs.Grammar.Reading
import MettaSchema.Proofs.Grammar.Spelling
import MettaSchema.Proofs.Success

/-!
# What integer literals stand for

An integer literal is written in decimal, behind a zero in octal and behind `0x` in hexadecimal,
with a minus sign in front if it is negative.  What it stands for is said here by the positions of
its digits, without the functions that read it.

* `Literal.HasValue` — the value of a digit, `Literal.Numeral` — the number that digits stand for.
* `Literal.StandsFor` — the integer that a literal stands for.
* `Scan.intLit_eq_some_iff` — the texts that are integer literals are those that stand for some
  integer.
* `Literal.accepted_in_range` — a literal is accepted exactly if that integer is in the range of its
  place, and no other integer is stored.
-/

namespace MettaSchema

namespace Literal

/-! ## Positional notation -/

/-- The digit has the value: it is in this place among the sixteen digits, whose letters may be
written in either case. -/
def HasValue (c : Char) (d : Nat) : Prop :=
  "0123456789abcdef".toList[d]? = some c ∨ "0123456789ABCDEF".toList[d]? = some c

/-- The digits stand for the number in positional notation to the base. -/
def Numeral (base : Nat) (s : List Char) (n : Nat) : Prop :=
  ∃ ds, List.Forall₂ HasValue s ds ∧ (∀ d ∈ ds, d < base) ∧ n = Nat.ofDigits base ds.reverse

/-- The absolute value of an integer as it is written. -/
inductive Magnitude : List Char → Nat → Prop
  /-- In decimal, which does not begin with a zero. -/
  | decimal {c : Char} {s : List Char} {n : Nat} (hc : c ≠ '0') (h : Numeral 10 (c :: s) n) :
      Magnitude (c :: s) n
  /-- In octal, which begins with a zero. -/
  | octal {s : List Char} {n : Nat} (h : Numeral 8 ('0' :: s) n) : Magnitude ('0' :: s) n
  /-- In hexadecimal, behind a zero and the letter, with at least one digit. -/
  | hexadecimal {x : Char} {s : List Char} {n : Nat} (hx : x = 'x' ∨ x = 'X') (hne : s ≠ [])
      (h : Numeral 16 s n) : Magnitude ('0' :: x :: s) n

/-- The integer that a literal stands for. -/
inductive StandsFor : List Char → Int → Prop
  /-- Without a sign. -/
  | plain {s : List Char} {n : Nat} (h : Magnitude s n) : StandsFor s n
  /-- Behind a minus sign. -/
  | negative {s : List Char} {n : Nat} (h : Magnitude s n) : StandsFor ('-' :: s) (-n)

/-! ## Digits -/

theorem HasValue.lt {c : Char} {d : Nat} (h : HasValue c d) : d < 16 := by
  rcases h with h | h <;> exact (List.getElem?_eq_some_iff.1 h).1

/-- The digits of a base up to sixteen are recognised. -/
theorem HasValue.recognised {c : Char} {d : Nat} (h : HasValue c d) :
    digitValue? c = some d ∧ Scan.isHexDigit c = true ∧ (c.isDigit = true ↔ d < 10)
      ∧ (Scan.isOctDigit c = true ↔ d < 8) := by
  have hlt := h.lt
  have hall : ∀ d < 16, ∀ digits ∈ ["0123456789abcdef", "0123456789ABCDEF"],
      digits.toList[d]?.all (fun a => decide (digitValue? a = some d ∧ Scan.isHexDigit a = true
        ∧ (a.isDigit = true ↔ d < 10) ∧ (Scan.isOctDigit a = true ↔ d < 8))) = true := by
    decide
  rcases h with h | h
  · have hdigit := hall d hlt _ (.head _)
    rw [h] at hdigit
    exact of_decide_eq_true hdigit
  · have hdigit := hall d hlt _ (.tail _ (.head _))
    rw [h] at hdigit
    exact of_decide_eq_true hdigit

instance (c : Char) (d : Nat) : Decidable (HasValue c d) :=
  inferInstanceAs (Decidable (_ ∨ _))

/-- What is recognised as a digit has a value. -/
theorem exists_hasValue {c : Char} (h : Scan.isHexDigit c = true) : ∃ d, HasValue c d := by
  have hall : ∀ n < 103, Scan.isHexDigit (Char.ofNat n) = true →
      ∃ d < 16, HasValue (Char.ofNat n) d := by
    decide
  have hlast : ∀ b : Char, c ≤ b → b.toNat < 103 → c.toNat < 103 := by
    intro b hb hlt
    exact Nat.lt_of_le_of_lt hb hlt
  have hc : c.toNat < 103 := by
    simp only [Scan.isHexDigit, Char.isDigit, Bool.or_eq_true, Bool.and_eq_true,
      decide_eq_true_eq] at h
    rcases h with (h | h) | h
    · exact hlast '9' h.2 (by decide)
    · exact hlast 'f' h.2 (by decide)
    · exact hlast 'F' h.2 (by decide)
  rw [← Char.ofNat_toNat c] at h ⊢
  obtain ⟨d, -, hd⟩ := hall c.toNat hc h
  exact ⟨d, hd⟩

/-- A digit is read as its value, and nothing else is read as a digit. -/
theorem digitValue?_eq_some_iff {c : Char} {d : Nat} : digitValue? c = some d ↔ HasValue c d := by
  constructor
  · intro h
    have hhex : Scan.isHexDigit c = true := by
      by_contra hother
      simp only [Scan.isHexDigit, Bool.or_eq_true, Bool.and_eq_true, decide_eq_true_eq, not_or]
        at hother
      rw [digitValue?, if_neg hother.1.1, if_neg hother.1.2, if_neg hother.2] at h
      cases h
    obtain ⟨d', hd'⟩ := exists_hasValue hhex
    rw [hd'.recognised.1] at h
    cases h
    exact hd'
  · exact fun h => h.recognised.1

/-! ## Reading digits -/

theorem addDigit?_eq_some_iff {base n m : Nat} {c : Char} :
    addDigit? base n c = some m ↔ ∃ d < base, HasValue c d ∧ m = base * n + d := by
  simp only [← digitValue?_eq_some_iff, addDigit?]
  cases digitValue? c with
  | none => simp
  | some d =>
    by_cases hd : d < base <;> simp [hd, eq_comm]

/-- Digits are added one by one. -/
theorem foldlM_addDigit?_eq_some_iff {base : Nat} (s : List Char) : ∀ {n m : Nat},
    s.foldlM (addDigit? base) n = some m ↔ ∃ ds, List.Forall₂ HasValue s ds ∧ (∀ d ∈ ds, d < base)
      ∧ m = ds.foldl (fun n d => base * n + d) n := by
  induction s with
  | nil => simp [eq_comm]
  | cons c s ih =>
    intro n m
    rw [List.foldlM_cons, Option.bind_eq_bind, Option.bind_eq_some_iff]
    constructor
    · rintro ⟨n', hc, hs⟩
      obtain ⟨d, hlt, hd, rfl⟩ := addDigit?_eq_some_iff.1 hc
      obtain ⟨ds, hds, hall, rfl⟩ := ih.1 hs
      exact ⟨d :: ds, .cons hd hds, List.forall_mem_cons.2 ⟨hlt, hall⟩, rfl⟩
    · rintro ⟨_, _ | ⟨hd, hds⟩, hall, rfl⟩
      obtain ⟨hlt, hall⟩ := List.forall_mem_cons.1 hall
      exact ⟨_, addDigit?_eq_some_iff.2 ⟨_, hlt, hd, rfl⟩, ih.2 ⟨_, hds, hall, rfl⟩⟩

/-- Adding digits one by one gives the number that they stand for. -/
theorem foldlM_eq_some_iff_numeral {base n : Nat} {s : List Char} :
    s.foldlM (addDigit? base) 0 = some n ↔ Numeral base s n := by
  have hnumber : ∀ ds : List Nat,
      ds.foldl (fun n d => base * n + d) 0 = Nat.ofDigits base ds.reverse := by
    intro ds
    rw [Nat.ofDigits_eq_foldr, List.foldr_reverse]
    simp [Nat.add_comm]
  simp only [foldlM_addDigit?_eq_some_iff, hnumber, Numeral]

/-- Digits are read as the number that they stand for, and only digits are read. -/
theorem ofDigits?_eq_some_iff {base n : Nat} {s : List Char} :
    ofDigits? base s = some n ↔ s ≠ [] ∧ Numeral base s n := by
  by_cases hs : s = []
  · simp [ofDigits?, hs]
  · simp [ofDigits?, hs, foldlM_eq_some_iff_numeral]

namespace Numeral

variable {base n : Nat} {s : List Char}

/-- Each digit has a value below the base. -/
theorem exists_value (h : Numeral base s n) : ∀ c ∈ s, ∃ d < base, HasValue c d := by
  obtain ⟨ds, hds, hlt, -⟩ := h
  induction hds with
  | nil => nofun
  | @cons c d s ds hd _ ih =>
    intro a ha
    rcases List.mem_cons.1 ha with rfl | ha
    · exact ⟨d, hlt d (by simp), hd⟩
    · exact ih (fun e he => hlt e (by simp [he])) a ha

/-- Digits below the base stand for a number. -/
theorem exists_of_forall (h : ∀ c ∈ s, ∃ d < base, HasValue c d) : ∃ n, Numeral base s n := by
  have hvalues : ∃ ds, List.Forall₂ HasValue s ds ∧ ∀ d ∈ ds, d < base := by
    induction s with
    | nil => exact ⟨[], .nil, nofun⟩
    | cons c s ih =>
      obtain ⟨⟨d, hlt, hd⟩, hs⟩ := List.forall_mem_cons.1 h
      obtain ⟨ds, hds, hall⟩ := ih hs
      exact ⟨d :: ds, .cons hd hds, List.forall_mem_cons.2 ⟨hlt, hall⟩⟩
  obtain ⟨ds, hds, hall⟩ := hvalues
  exact ⟨_, ds, hds, hall, rfl⟩

theorem exists_octal (h : ∀ c ∈ s, Scan.isOctDigit c = true) : ∃ n, Numeral 8 s n := by
  refine exists_of_forall fun c hc => ?_
  have hoct := h c hc
  have hhex : Scan.isHexDigit c = true := by
    have hrange := hoct
    simp only [Scan.isOctDigit, Bool.and_eq_true, decide_eq_true_eq] at hrange
    have hnine : c ≤ '9' := Char.le_trans hrange.2 (by decide)
    simp [Scan.isHexDigit, Char.isDigit]
    exact .inl (.inl ⟨hrange.1, hnine⟩)
  obtain ⟨d, hd⟩ := exists_hasValue hhex
  exact ⟨d, hd.recognised.2.2.2.1 hoct, hd⟩

theorem exists_decimal (h : ∀ c ∈ s, c.isDigit = true) : ∃ n, Numeral 10 s n := by
  refine exists_of_forall fun c hc => ?_
  obtain ⟨d, hd⟩ := exists_hasValue (c := c) (by simp [Scan.isHexDigit, h c hc])
  exact ⟨d, hd.recognised.2.2.1.1 (h c hc), hd⟩

theorem exists_hexadecimal (h : ∀ c ∈ s, Scan.isHexDigit c = true) : ∃ n, Numeral 16 s n := by
  refine exists_of_forall fun c hc => ?_
  obtain ⟨d, hd⟩ := exists_hasValue (h c hc)
  exact ⟨d, hd.lt, hd⟩

/-- Digits stand for one number only. -/
theorem unique {m : Nat} (h : Numeral base s n) (h' : Numeral base s m) : m = n := by
  rw [← foldlM_eq_some_iff_numeral] at h h'
  exact Option.some_inj.1 (h'.symm.trans h)

/-- A zero in front adds nothing. -/
theorem behind_zero (h : Numeral 8 ('0' :: s) n) : Numeral 8 s n := by
  rw [← foldlM_eq_some_iff_numeral] at h ⊢
  exact h

/-- The number is read off its digits, if it fits. -/
theorem ofRadix?_eq (h : Numeral base s n) (hs : s ≠ []) :
    ofRadix? base s = if (n : Int) ≤ maxInteger then some (n : Int) else none :=
  ofRadix?_of_digits (ofDigits?_eq_some_iff.2 ⟨hs, h⟩)

end Numeral

/-- Digits of a base do not include the letter of hexadecimal or the sign. -/
theorem Numeral.ne {base n : Nat} {c : Char} {s : List Char} (h : Numeral base s n) (hc : c ∈ s) :
    c ≠ 'x' ∧ c ≠ 'X' ∧ c ≠ '-' := by
  obtain ⟨d, -, hd⟩ := h.exists_value c hc
  have hhex := hd.recognised.2.1
  refine ⟨?_, ?_, ?_⟩ <;> (rintro rfl; revert hhex; decide)

/-! ## Literals -/

/-- The absolute value is read off its digits, if it fits. -/
theorem Magnitude.magnitude?_eq {s : List Char} {n : Nat} (h : Magnitude s n) :
    magnitude? s = if (n : Int) ≤ maxInteger then some (n : Int) else none := by
  cases h with
  | @decimal c s n hc h =>
    cases s with
    | nil => exact h.ofRadix?_eq (List.cons_ne_nil c _)
    | cons d s => rw [magnitude?, if_neg hc, h.ofRadix?_eq (List.cons_ne_nil c _)]
  | @octal s n h =>
    cases s with
    | nil =>
      -- a lone zero is read in decimal
      obtain ⟨_, _ | ⟨hd, _ | _⟩, -, rfl⟩ := h
      have hzero := hd.recognised.1
      cases hzero
      rfl
    | cons d s =>
      obtain ⟨hsmall, hlarge, -⟩ := h.ne (c := d) (by simp)
      have hd : ¬ (d = 'x' ∨ d = 'X') := not_or.2 ⟨hsmall, hlarge⟩
      rw [magnitude?, if_pos rfl, if_neg hd, h.behind_zero.ofRadix?_eq (List.cons_ne_nil d s)]
  | @hexadecimal x s n hx hne h =>
    rw [magnitude?, if_pos rfl, if_pos hx, h.ofRadix?_eq hne]

theorem Magnitude.head_ne {s : List Char} {n : Nat} (h : Magnitude s n) :
    ∃ c t, s = c :: t ∧ c ≠ '-' := by
  cases h with
  | decimal _ h => exact ⟨_, _, rfl, (h.ne (.head _)).2.2⟩
  | octal | hexadecimal => exact ⟨_, _, rfl, by decide⟩

/-- What is written has one absolute value only. -/
theorem Magnitude.unique {s : List Char} {n m : Nat} (h : Magnitude s n) (h' : Magnitude s m) :
    m = n := by
  cases h with
  | decimal hc h =>
    cases h' with
    | decimal _ h' => exact h.unique h'
    | octal | hexadecimal => exact absurd rfl hc
  | octal h =>
    cases h' with
    | decimal hc => exact absurd rfl hc
    | octal h' => exact h.unique h'
    | @hexadecimal x s m hx =>
      obtain ⟨hsmall, hlarge, -⟩ := h.ne (c := x) (by simp)
      exact absurd hx (not_or.2 ⟨hsmall, hlarge⟩)
  | @hexadecimal x s n hx _ h =>
    cases h' with
    | decimal hc => exact absurd rfl hc
    | octal h' =>
      obtain ⟨hsmall, hlarge, -⟩ := h'.ne (c := x) (by simp)
      exact absurd hx (not_or.2 ⟨hsmall, hlarge⟩)
    | hexadecimal _ _ h' => exact h.unique h'

/-- A literal stands for one integer only. -/
theorem StandsFor.unique {s : List Char} {v w : Int} (h : StandsFor s v) (h' : StandsFor s w) :
    w = v := by
  cases h with
  | plain h =>
    cases h' with
    | plain h' => rw [h.unique h']
    | negative =>
      obtain ⟨c, t, hct, hc⟩ := h.head_ne
      exact absurd (List.cons.inj hct).1.symm hc
  | negative h =>
    cases h' with
    | plain h' =>
      obtain ⟨c, t, hct, hc⟩ := h'.head_ne
      exact absurd (List.cons.inj hct).1.symm hc
    | negative h' => rw [h.unique h']

/-- The integer is read off the literal, if it fits. -/
theorem StandsFor.value?_eq {s : List Char} {v : Int} (h : StandsFor s v) :
    value? s = if (v.natAbs : Int) ≤ maxInteger then some v else none := by
  cases h with
  | plain h =>
    obtain ⟨c, t, rfl, hc⟩ := h.head_ne
    rw [value?_of_ne hc, h.magnitude?_eq]
    rfl
  | @negative s n h =>
    rw [value?, h.magnitude?_eq, Int.natAbs_neg, Int.natAbs_natCast]
    split <;> rfl

end Literal

namespace Scan

open Literal (Magnitude StandsFor Numeral)

/-- Behind a zero and the letter, hexadecimal digits are taken. -/
theorem magnitude_hexadecimal {x h : Char} (hx : x = 'x' ∨ x = 'X') (hh : isHexDigit h = true)
    (r : List Char) : magnitude ('0' :: x :: h :: r)
      = some ('0' :: x :: h :: r.takeWhile isHexDigit, r.dropWhile isHexDigit) := by
  have hletter : (x == 'x' || x == 'X') = true := by simpa using hx
  rw [magnitude, if_pos rfl]
  simp [hletter, hh]

/-- Behind any other zero, octal digits are taken. -/
theorem magnitude_octal {s : List Char}
    (hs : ∀ x h r, s = x :: h :: r → (x = 'x' ∨ x = 'X') → isHexDigit h = false) :
    magnitude ('0' :: s) = some ('0' :: s.takeWhile isOctDigit, s.dropWhile isOctDigit) := by
  simp only [magnitude, if_true]
  split
  · rename_i x h r
    have hdigit : ((x == 'x' || x == 'X') && isHexDigit h) = false := by
      rw [Bool.and_eq_false_imp]
      intro hx
      exact hs x h r rfl (by simpa using hx)
    rw [if_neg (Bool.eq_false_iff.1 hdigit)]
  · rfl

/-- Any other digit begins decimal digits. -/
theorem magnitude_decimal {c : Char} (hc : c ≠ '0') (s : List Char) : magnitude (c :: s)
    = if c.isDigit then some (c :: s.takeWhile Char.isDigit, s.dropWhile Char.isDigit) else none := by
  simp only [magnitude, if_neg hc]

theorem taken_eq_iff (front : List Char) {s : List Char} {p : Char → Bool} :
    some (front ++ s.takeWhile p, s.dropWhile p) = some (front ++ s, ([] : List Char))
      ↔ ∀ c ∈ s, p c = true := by
  rw [Option.some_inj, Prod.mk.injEq, List.append_cancel_left_eq, List.dropWhile_eq_nil_iff,
    and_iff_right_iff_imp]
  exact fun h => (takeWhile_eq_self h).1

/-- The digits that are taken in full are those that stand for a number. -/
theorem magnitude_eq_some_iff {s : List Char} :
    magnitude s = some (s, []) ↔ ∃ n, Magnitude s n := by
  constructor
  · intro h
    cases s with
    | nil => cases h
    | cons c s =>
      by_cases hc : c = '0'
      · subst hc
        by_cases hhex : ∃ x d r, s = x :: d :: r ∧ (x = 'x' ∨ x = 'X') ∧ isHexDigit d = true
        · obtain ⟨x, d, r, rfl, hx, hd⟩ := hhex
          rw [magnitude_hexadecimal hx hd] at h
          have hr := (taken_eq_iff ['0', x, d]).1 h
          obtain ⟨n, hn⟩ := Numeral.exists_hexadecimal (List.forall_mem_cons.2 ⟨hd, hr⟩)
          exact ⟨n, .hexadecimal hx (List.cons_ne_nil d r) hn⟩
        · have hs : ∀ x d r, s = x :: d :: r → (x = 'x' ∨ x = 'X') → isHexDigit d = false :=
            fun x d r hs hx => Bool.eq_false_iff.2 fun hd => hhex ⟨x, d, r, hs, hx, hd⟩
          rw [magnitude_octal hs] at h
          have hr := (taken_eq_iff ['0']).1 h
          obtain ⟨n, hn⟩ := Numeral.exists_octal (s := '0' :: s) (List.forall_mem_cons.2 ⟨rfl, hr⟩)
          exact ⟨n, .octal hn⟩
      · rw [magnitude_decimal hc] at h
        split at h
        · rename_i hdigit
          have hr := (taken_eq_iff [c]).1 h
          obtain ⟨n, hn⟩ := Numeral.exists_decimal (List.forall_mem_cons.2 ⟨hdigit, hr⟩)
          exact ⟨n, .decimal hc hn⟩
        · cases h
  · rintro ⟨n, h⟩
    cases h with
    | @decimal c s n hc h =>
      have hdigits : ∀ d ∈ c :: s, d.isDigit = true := by
        intro d hd
        obtain ⟨v, hlt, hv⟩ := h.exists_value d hd
        exact hv.recognised.2.2.1.2 hlt
      obtain ⟨hdigit, hs⟩ := List.forall_mem_cons.1 hdigits
      rw [magnitude_decimal hc, if_pos hdigit]
      exact (taken_eq_iff [c]).2 hs
    | @octal s n h =>
      have hdigits : ∀ d ∈ s, isOctDigit d = true := by
        intro d hd
        obtain ⟨v, hlt, hv⟩ := h.exists_value d (by simp [hd])
        exact hv.recognised.2.2.2.2 hlt
      rw [magnitude_octal]
      · exact (taken_eq_iff ['0']).2 hdigits
      · rintro x d r rfl hx
        have hoct := hdigits x (by simp)
        rcases hx with rfl | rfl <;> exact absurd hoct (by decide)
    | @hexadecimal x s n hx hne h =>
      have hdigits : ∀ d ∈ s, isHexDigit d = true := by
        intro d hd
        obtain ⟨v, -, hv⟩ := h.exists_value d hd
        exact hv.recognised.2.1
      obtain ⟨d, r, rfl⟩ := List.exists_cons_of_ne_nil hne
      obtain ⟨hd, hr⟩ := List.forall_mem_cons.1 hdigits
      rw [magnitude_hexadecimal hx hd]
      exact (taken_eq_iff ['0', x, d]).2 hr

/-- The texts that are taken in full are those that stand for an integer. -/
theorem intLit_eq_some_iff {s : List Char} :
    intLit s = some (s, []) ↔ ∃ v, StandsFor s v := by
  have hend : intLit s = some (s, []) ↔ signed ['-'] magnitude s = some (s, []) := by
    rw [intLit, before_eq_some]
    exact and_iff_left rfl
  rw [hend]
  constructor
  · intro h
    cases s with
    | nil => cases h
    | cons c s =>
      simp only [signed] at h
      split at h
      · rename_i hc
        obtain rfl : c = '-' := by simpa using hc
        obtain ⟨u, hu, heq⟩ := map_push_eq_some.1 h
        obtain ⟨-, rfl⟩ := List.cons.inj heq
        obtain ⟨n, hn⟩ := magnitude_eq_some_iff.1 hu
        exact ⟨_, .negative hn⟩
      · obtain ⟨n, hn⟩ := magnitude_eq_some_iff.1 h
        exact ⟨_, .plain hn⟩
  · rintro ⟨v, h⟩
    cases h with
    | @plain s n h =>
      obtain ⟨c, t, rfl, hc⟩ := h.head_ne
      have hsign : ¬ ['-'].contains c = true := by simpa using hc
      rw [signed, if_neg hsign]
      exact magnitude_eq_some_iff.2 ⟨n, h⟩
    | @negative s n h => simp [signed, magnitude_eq_some_iff.2 ⟨n, h⟩, push]

end Scan

namespace Statement

/-! ## Numbered statements -/

/-- The number of a field, as it is written. -/
def literal? : Statement → Option String
  | field _ _ _ literal | map _ _ _ literal | group _ _ literal _ => some literal
  | _ => none

/-- The statements inside a field, which a group has. -/
def inner : Statement → List Statement
  | group _ _ _ body => body
  | _ => []

variable {s : Statement} {literal : String}

/-- The field of a statement has the number that is written. -/
theorem number_declare (h : s.literal? = some literal) {n : Nat}
    (hn : Literal.fieldNumber literal = .ok n) {body : Body} (hbody : s.declare = .ok body) :
    ∃ f, body.fields = [f] ∧ f.number = n := by
  cases s with
  | field | map =>
    cases h
    simp only [declare, hn] at hbody
    cases hbody
    exact ⟨_, rfl, rfl⟩
  | group =>
    cases h
    rw [declare] at hbody
    obtain ⟨m, hm, hbody⟩ := bind_eq_ok.1 hbody
    obtain ⟨_, -, hbody⟩ := bind_eq_ok.1 hbody
    cases hn.symm.trans hm
    cases hbody
    exact ⟨_, rfl, rfl⟩
  | _ => cases h

/-- A statement with a number is accepted if the statements inside it are. -/
theorem exists_declare (h : s.literal? = some literal) {n : Nat}
    (hn : Literal.fieldNumber literal = .ok n) {inside : Body}
    (hinside : declareAll s.inner = .ok inside) : ∃ body, s.declare = .ok body := by
  cases s with
  | field | map =>
    cases h
    simp only [declare, hn]
    exact ⟨_, rfl⟩
  | group =>
    cases h
    rw [inner] at hinside
    simp only [declare, hn, hinside]
    exact ⟨_, rfl⟩
  | _ => cases h

/-- A statement is refused with its number. -/
theorem declare_eq_error (h : s.literal? = some literal) {e : SchemaError}
    (he : Literal.fieldNumber literal = .error e) : s.declare = .error e := by
  cases s with
  | field | map | group =>
    cases h
    simp only [declare, he]
    rfl
  | _ => cases h

end Statement

namespace Literal

/-! ## Ranges -/

variable {literal : String} {v : Int}

theorem StandsFor.integer_eq (h : StandsFor literal.toList v) : integer literal
    = if v.natAbs ≤ 2 ^ 63 - 1 then .ok v else .error (.invalidNumber literal) := by
  have hmax : maxInteger = 9223372036854775807 := rfl
  rw [integer, h.value?_eq, hmax]
  by_cases hv : v.natAbs ≤ 2 ^ 63 - 1
  · rw [if_pos (by omega), if_pos hv]
  · rw [if_neg (by omega), if_neg hv]

/-- A narrower range is decided by itself: the number is in range of the integers if it is in that
range. -/
theorem StandsFor.fieldNumber_eq (h : StandsFor literal.toList v) : fieldNumber literal
    = if 1 ≤ v ∧ v ≤ 536870911 then .ok v.toNat else .error (.invalidNumber literal) := by
  rw [fieldNumber, h.integer_eq]
  by_cases hv : v.natAbs ≤ 2 ^ 63 - 1
  · rw [if_pos hv]
    rfl
  · have hrange : ¬ (1 ≤ v ∧ v ≤ 536870911) := by omega
    rw [if_neg hv, if_neg hrange]

theorem StandsFor.enumNumber_eq (h : StandsFor literal.toList v) : enumNumber literal
    = if -2 ^ 31 ≤ v ∧ v ≤ 2 ^ 31 - 1 then .ok v else .error (.invalidNumber literal) := by
  rw [enumNumber, h.integer_eq]
  by_cases hv : v.natAbs ≤ 2 ^ 63 - 1
  · rw [if_pos hv]
    rfl
  · have hrange : ¬ (-2 ^ 31 ≤ v ∧ v ≤ 2 ^ 31 - 1) := by omega
    rw [if_neg hv, if_neg hrange]

/-- The texts that are read in full as integer literals are those that stand for an integer, which
is only one.  A literal is accepted where an integer, the number of a field or the number of a value
of an enum is expected exactly if that integer is in range, and it is the number that is stored;
the only other outcome is an error with the literal as it is written. -/
theorem accepted_in_range (literal : String) :
    (Proto.read (Proto.phrase .intLit) literal.toList = some ([.token .intLit literal.toList], [])
      ↔ ∃! v, StandsFor literal.toList v)
    ∧ ∀ v, StandsFor literal.toList v →
      integer literal
          = (if v.natAbs ≤ 2 ^ 63 - 1 then .ok v else .error (.invalidNumber literal))
      ∧ fieldNumber literal
          = (if 1 ≤ v ∧ v ≤ 536870911 then .ok v.toNat else .error (.invalidNumber literal))
      ∧ enumNumber literal
          = (if -2 ^ 31 ≤ v ∧ v ≤ 2 ^ 31 - 1 then .ok v else .error (.invalidNumber literal))
      ∧ (∀ s : Statement, s.literal? = some literal →
          if 1 ≤ v ∧ v ≤ 536870911 then
            (∀ inside, Statement.declareAll s.inner = .ok inside → ∃ body, s.declare = .ok body)
            ∧ ∀ body, s.declare = .ok body → ∃ f, body.fields = [f] ∧ (f.number : Int) = v
          else s.declare = .error (.invalidNumber literal))
      ∧ ∀ name values, EnumDecl.values? ((name, literal) :: values)
          = if -2 ^ 31 ≤ v ∧ v ≤ 2 ^ 31 - 1 then (EnumDecl.values? values).map ((name, v) :: ·)
            else .error (.invalidNumber literal) := by
  refine ⟨?_, fun v h => ⟨h.integer_eq, h.fieldNumber_eq, h.enumNumber_eq, ?_, ?_⟩⟩
  · have htaken : Proto.read (Proto.phrase .intLit) literal.toList
          = some ([.token .intLit literal.toList], [])
        ↔ Scan.intLit literal.toList = some (literal.toList, []) := by
      simp [Proto.phrase, Proto.intLit, Proto.read_token]
    rw [htaken, Scan.intLit_eq_some_iff]
    constructor
    · rintro ⟨v, h⟩
      exact ⟨v, h, fun w hw => h.unique hw⟩
    · rintro ⟨v, h, -⟩
      exact ⟨v, h⟩
  · intro s hs
    have hnumber := h.fieldNumber_eq
    split
    · rename_i hv
      rw [if_pos hv] at hnumber
      refine ⟨fun inside hinside => Statement.exists_declare hs hnumber hinside, ?_⟩
      intro body hbody
      obtain ⟨f, hf, hnum⟩ := Statement.number_declare hs hnumber hbody
      exact ⟨f, hf, by omega⟩
    · rename_i hv
      rw [if_neg hv] at hnumber
      exact Statement.declare_eq_error hs hnumber
  · intro name values
    rw [EnumDecl.values?, h.enumNumber_eq]
    split
    · cases EnumDecl.values? values <;> rfl
    · rfl

/-- The least integer in hexadecimal is no number of an enum, the largest number of a field is one,
and an octal literal is one too large. -/
theorem accepted_in_range_at_bounds :
    (StandsFor "-0X7fffFFFFffffFFFF".toList (-9223372036854775807)
      ∧ integer "-0X7fffFFFFffffFFFF" = .ok (-9223372036854775807)
      ∧ enumNumber "-0X7fffFFFFffffFFFF" = .error (.invalidNumber "-0X7fffFFFFffffFFFF"))
    ∧ (StandsFor "0x1fffffff".toList 536870911
      ∧ fieldNumber "0x1fffffff" = .ok 536870911)
    ∧ StandsFor "01000000000000000000000".toList 9223372036854775808
      ∧ integer "01000000000000000000000" = .error (.invalidNumber "01000000000000000000000") := by
  have hleast : StandsFor "-0X7fffFFFFffffFFFF".toList (-9223372036854775807) :=
    .negative (.hexadecimal (.inr rfl) (by decide) (foldlM_eq_some_iff_numeral.1 (by decide)))
  have hfield : StandsFor "0x1fffffff".toList 536870911 :=
    .plain (.hexadecimal (.inl rfl) (by decide) (foldlM_eq_some_iff_numeral.1 (by decide)))
  have hlarge : StandsFor "01000000000000000000000".toList 9223372036854775808 :=
    .plain (.octal (foldlM_eq_some_iff_numeral.1 (by decide)))
  obtain ⟨hinteger, -, henum, -⟩ := (accepted_in_range "-0X7fffFFFFffffFFFF").2 _ hleast
  obtain ⟨-, hnumber, -⟩ := (accepted_in_range "0x1fffffff").2 _ hfield
  obtain ⟨hrefused, -⟩ := (accepted_in_range "01000000000000000000000").2 _ hlarge
  exact ⟨⟨hleast, hinteger, henum⟩, ⟨hfield, hnumber⟩, hlarge, hrefused⟩

end Literal

end MettaSchema
