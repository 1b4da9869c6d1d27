import MettaSchema.Literal
import MettaSchema.Proofs.Grammar.Local
import MettaSchema.Proofs.Grammar.Values

/-!
# How names, numbers and strings are spelt

Texts that a scanner takes as a whole, and the numbers and strings for which they stand.

* `Scan.isName`, `Scan.Dotted` — names, and names joined by dots.
* `Scan.dotted_eq_some_iff` — the scanner of dotted names takes exactly these as a whole.
* `Scan.word_of_name` — a name is no keyword unless it is that keyword.
* `Scan.intLit_repr`, `Literal.integer_repr` — numbers in decimal.
* `Literal.enclose`, `Literal.unquote_enclose` — string literals with backslashes in front of the
  characters that need one; `Literal.quote` — those in double quotes.
-/

namespace MettaSchema

namespace Scan

/-! ## Names -/

/-- Whether a text is a name: a letter or an underscore, then letters, digits and underscores. -/
def isName : List Char → Bool
  | [] => false
  | c :: s => isNameStart c && s.all isNameChar

theorem isNameChar_of_isNameStart {c : Char} (h : isNameStart c = true) : isNameChar c = true := by
  simp only [isNameStart, isNameChar, Char.isAlphanum, Bool.or_eq_true] at h ⊢
  rcases h with h | h
  · exact .inl (.inl h)
  · exact .inr h

theorem isNameChar_of_isName {w : List Char} (h : isName w = true) :
    ∀ c ∈ w, isNameChar c = true := by
  cases w with
  | nil => nofun
  | cons c s =>
    rw [isName, Bool.and_eq_true, List.all_eq_true] at h
    rintro d (_ | ⟨_, hd⟩)
    · exact isNameChar_of_isNameStart h.1
    · exact h.2 d hd

theorem dot_not_mem_of_isName {w : List Char} (h : isName w = true) : '.' ∉ w := by
  intro hdot
  have hc := isNameChar_of_isName h '.' hdot
  revert hc
  decide

theorem startsWith_of_isName {w : List Char} (h : isName w = true) :
    startsWith isNameStart w = true := by
  cases w with
  | nil => cases h
  | cons c s =>
    rw [isName, Bool.and_eq_true] at h
    exact h.1

theorem takeWhile_eq_self {p : Char → Bool} {s : List Char} (h : ∀ c ∈ s, p c = true) :
    s.takeWhile p = s ∧ s.dropWhile p = [] := by
  induction s with
  | nil => exact ⟨rfl, rfl⟩
  | cons c s ih =>
    have hs := ih fun d hd => h d (by simp [hd])
    simp [h c (by simp), hs]

theorem ident_of_name {w : List Char} (h : isName w = true) : ident w = some (w, []) := by
  cases w with
  | nil => cases h
  | cons c s =>
    rw [isName, Bool.and_eq_true, List.all_eq_true] at h
    obtain ⟨htake, hdrop⟩ := takeWhile_eq_self h.2
    rw [ident, if_pos h.1, htake, hdrop]

/-- A name is not taken for a keyword, even if it begins like one. -/
theorem word_of_name {text : String} {w : List Char} (h : isName w = true)
    (hne : w ≠ text.toList) : word text w = none := by
  cases hw : word text w with
  | none => rfl
  | some taken =>
    obtain ⟨t, r⟩ := taken
    obtain ⟨hexact, hstop⟩ := before_eq_some.1 hw
    unfold exactly at hexact
    split at hexact
    · rename_i hpre
      obtain ⟨u, rfl⟩ := List.isPrefixOf_iff_prefix.1 hpre
      simp only [List.drop_left, Option.some.injEq, Prod.mk.injEq] at hexact
      obtain ⟨-, rfl⟩ := hexact
      cases u with
      | nil => exact absurd (List.append_nil _) hne
      | cons c u =>
        have hc := isNameChar_of_isName h c (by simp)
        simp [startsWith, hc] at hstop
    · cases hexact

/-! ## Dotted names -/

/-- Names joined by dots. -/
inductive Dotted : List Char → Prop
  /-- A name. -/
  | name {w : List Char} (h : isName w = true) : Dotted w
  /-- A dotted name and a name behind it. -/
  | dot {u w : List Char} (hu : Dotted u) (h : isName w = true) : Dotted (u ++ '.' :: w)

theorem dottedTail_of_nameChars {w : List Char} (h : ∀ c ∈ w, isNameChar c = true) :
    dottedTail w = (w, []) := by
  induction w with
  | nil => rfl
  | cons c w ih =>
    rw [dottedTail, h c (by simp), ih fun d hd => h d (by simp [hd])]
    rfl

theorem dottedTail_cons {c : Char} {s : List Char} (h : dottedTail (c :: s) = (c :: s, [])) :
    (isNameChar c = true ∨ c = '.' ∧ startsWith isNameStart s = true) ∧ dottedTail s = (s, []) := by
  simp only [dottedTail] at h
  split at h
  · rename_i hc
    simp only [push, Prod.mk.injEq, List.cons.injEq, true_and] at h
    exact ⟨by simpa using hc, Prod.ext h.1 h.2⟩
  · cases h

/-- What is taken as a whole is taken in front of more text. -/
theorem dottedTail_append_of_eq {u : List Char} (h : dottedTail u = (u, [])) (v : List Char) :
    dottedTail (u ++ v) = (u ++ (dottedTail v).1, (dottedTail v).2) := by
  induction u with
  | nil => rfl
  | cons c u ih =>
    obtain ⟨hc, htail⟩ := dottedTail_cons h
    have hc' : (isNameChar c || (c == '.' && startsWith isNameStart (u ++ v))) = true := by
      rcases hc with hc | ⟨rfl, hstart⟩
      · simp [hc]
      · cases u with
        | nil => cases hstart
        | cons d u => simpa using .inr hstart
    rw [List.cons_append, dottedTail, if_pos hc', ih htail]
    rfl

theorem Dotted.tail {w : List Char} (h : Dotted w) : dottedTail w = (w, []) := by
  induction h with
  | name h => exact dottedTail_of_nameChars (isNameChar_of_isName h)
  | @dot u w _ h ih =>
    have hw := dottedTail_of_nameChars (isNameChar_of_isName h)
    have hstart := startsWith_of_isName h
    have hdot : dottedTail ('.' :: w) = ('.' :: w, []) := by
      simp [dottedTail, hstart, hw, push]
    rw [dottedTail_append_of_eq ih, hdot]

theorem Dotted.starts {w : List Char} (h : Dotted w) : startsWith isNameStart w = true := by
  induction h with
  | name h => exact startsWith_of_isName h
  | @dot u w _ _ ih =>
    cases u with
    | nil => cases ih
    | cons c u => exact ih

theorem Dotted.ne_nil {w : List Char} (h : Dotted w) : w ≠ [] := by
  rintro rfl
  cases h.starts

theorem dotted_of_dotted {w : List Char} (h : Dotted w) : dotted w = some (w, []) := by
  have hstart := h.starts
  have htail := h.tail
  cases w with
  | nil => cases hstart
  | cons c w =>
    have hc : isNameStart c = true := hstart
    rw [dottedTail, isNameChar_of_isNameStart hc] at htail
    rw [dotted, if_pos hc]
    exact congrArg some htail

theorem Dotted.append_char {u : List Char} {c : Char} (h : Dotted u) (hc : isNameChar c = true) :
    Dotted (u ++ [c]) := by
  have hname {w : List Char} (hw : isName w = true) : isName (w ++ [c]) = true := by
    cases w with
    | nil => cases hw
    | cons d w =>
      rw [isName, Bool.and_eq_true] at hw
      simp [isName, hw, hc]
  cases h with
  | name hw => exact .name (hname hw)
  | dot hu hw =>
    rw [List.append_assoc, List.cons_append]
    exact .dot hu (hname hw)

/-- What can continue a dotted name continues it, directly or behind a dot. -/
theorem Dotted.append_tail {w : List Char} (h : dottedTail w = (w, [])) {u : List Char}
    (hu : Dotted u) :
    Dotted (u ++ w) ∧ (startsWith isNameStart w = true → Dotted (u ++ '.' :: w)) := by
  induction w generalizing u with
  | nil => exact ⟨by rwa [List.append_nil], nofun⟩
  | cons c w ih =>
    obtain ⟨hc, htail⟩ := dottedTail_cons h
    constructor
    · rcases hc with hc | ⟨rfl, hstart⟩
      · have hw := (ih htail (hu.append_char hc)).1
        rwa [List.append_assoc] at hw
      · exact (ih htail hu).2 hstart
    · intro hstart
      have hname : isName [c] = true := by
        simpa [isName, startsWith] using hstart
      have hw := (ih htail (.dot hu hname)).1
      rwa [List.append_assoc] at hw

/-- The dotted names are what the scanner takes as a whole. -/
theorem dotted_eq_some_iff {w : List Char} : dotted w = some (w, []) ↔ Dotted w := by
  constructor
  · intro h
    cases w with
    | nil => cases h
    | cons c w =>
      simp only [dotted] at h
      split at h
      · rename_i hc
        simp only [push, Option.some.injEq, Prod.mk.injEq, List.cons.injEq, true_and] at h
        have hname : isName [c] = true := by simpa [isName] using hc
        exact (Dotted.append_tail (Prod.ext h.1 h.2) (.name hname)).1
      · cases h
  · exact dotted_of_dotted

instance (w : List Char) : Decidable (Dotted w) :=
  decidable_of_iff _ dotted_eq_some_iff

/-- A dotted name is taken with the dot in front of it. -/
theorem typeName_of_dotted {w : List Char} (h : Dotted w) :
    typeName ('.' :: w) = some ('.' :: w, []) := by
  rw [typeName, if_pos rfl, dotted_of_dotted h]
  rfl

/-! ## Numbers -/

/-- The decimal digits of a positive number do not begin with a zero. -/
theorem toDigits_eq_cons {n : Nat} (h : 0 < n) :
    ∃ c s, Nat.toDigits 10 n = c :: s ∧ c ≠ '0' := by
  induction n using Nat.strongRecOn with
  | _ n ih =>
    rcases Nat.lt_or_ge n 10 with hlt | hge
    · refine ⟨n.digitChar, [], Nat.toDigits_of_lt_base hlt, fun hc => ?_⟩
      have hval := Nat.toNat_digitChar_of_lt_ten hlt
      rw [hc] at hval
      have hzero : '0'.toNat = 48 := rfl
      omega
    · obtain ⟨c, s, hs, hc⟩ := ih (n / 10) (by omega) (by omega)
      exact ⟨c, s ++ [(n % 10).digitChar],
        by rw [Nat.toDigits_of_base_le (by decide) hge, hs, List.cons_append], hc⟩

theorem magnitude_toDigits (n : Nat) :
    magnitude (Nat.toDigits 10 n) = some (Nat.toDigits 10 n, []) := by
  rcases Nat.eq_zero_or_pos n with rfl | hpos
  · rfl
  · obtain ⟨c, s, hs, hc⟩ := toDigits_eq_cons hpos
    have hdigits : ∀ d ∈ c :: s, d.isDigit = true := fun d hd =>
      Nat.isDigit_of_mem_toDigits (by decide) (by decide) (hs ▸ hd)
    obtain ⟨htake, hdrop⟩ := takeWhile_eq_self fun d hd => hdigits d (List.mem_cons_of_mem c hd)
    rw [hs]
    unfold magnitude
    simp [hc, hdigits c (by simp), htake, hdrop]

/-- The decimal digits of a number do not begin with a dash. -/
theorem toDigits_eq_cons_ne_dash (n : Nat) : ∃ c s, Nat.toDigits 10 n = c :: s ∧ c ≠ '-' := by
  cases hd : Nat.toDigits 10 n with
  | nil => exact absurd hd Nat.toDigits_ne_nil
  | cons c s =>
    have hmem : c ∈ Nat.toDigits 10 n := by simp [hd]
    have hdigit := Nat.isDigit_of_mem_toDigits (by decide) (by decide) hmem
    refine ⟨c, s, rfl, ?_⟩
    rintro rfl
    revert hdigit
    decide

/-- The decimal digits of a number, behind a dash if it is negative. -/
theorem toList_repr (i : Int) :
    i.repr.toList = (if 0 ≤ i then [] else ['-']) ++ Nat.toDigits 10 i.natAbs := by
  rw [Int.repr_eq_if]
  split
  · rename_i h
    rw [Nat.toList_repr, List.nil_append]
    congr 1
    omega
  · rename_i h
    rw [String.toList_append, Nat.toList_repr]
    have hnat : (-i).toNat = i.natAbs := by omega
    rw [hnat]
    rfl

theorem intLit_repr (i : Int) : intLit i.repr.toList = some (i.repr.toList, []) := by
  have hmagnitude := magnitude_toDigits i.natAbs
  have hsigned : signed ['-'] magnitude i.repr.toList = some (i.repr.toList, []) := by
    rw [toList_repr]
    split
    · obtain ⟨c, s, hd, hc⟩ := toDigits_eq_cons_ne_dash i.natAbs
      rw [hd] at hmagnitude
      rw [List.nil_append, hd]
      simpa [signed, hc] using hmagnitude
    · simp [signed, hmagnitude, push]
  rw [intLit, before_eq_some]
  exact ⟨hsigned, rfl⟩

end Scan

namespace Literal

theorem digitValue?_digitChar {n : Nat} (h : n < 10) : digitValue? n.digitChar = some n := by
  have hdigit : n.digitChar.isDigit = true := by simpa using h
  rw [digitValue?, if_pos hdigit, Nat.toNat_digitChar_sub_48_of_lt_ten h]

/-- Decimal digits stand for the number that they are the digits of. -/
theorem ofDigits?_toDigits (n : Nat) : ofDigits? 10 (Nat.toDigits 10 n) = some n := by
  rw [ofDigits?, if_neg Nat.toDigits_ne_nil]
  induction n using Nat.strongRecOn with
  | _ n ih =>
    rcases Nat.lt_or_ge n 10 with hlt | hge
    · simp [Nat.toDigits_of_lt_base hlt, addDigit?, digitValue?_digitChar hlt, hlt]
    · have hlast : n % 10 < 10 := Nat.mod_lt n (by decide)
      rw [Nat.toDigits_of_base_le (by decide) hge, List.foldlM_append, ih (n / 10) (by omega)]
      simp [addDigit?, digitValue?_digitChar hlast, hlast]
      omega

/-- Digits do not begin with a sign, so the text stands for their number, if that fits. -/
theorem ofRadix?_of_digits {base n : Nat} {s : List Char} (h : ofDigits? base s = some n) :
    ofRadix? base s = if (n : Int) ≤ maxInteger then some (n : Int) else none := by
  have hmin : minInteger ≤ (n : Int) := by
    have hneg : minInteger ≤ 0 := by decide
    omega
  unfold ofRadix?
  split
  · cases h
  · cases h
  · simp only [h, Option.map_some, Option.filter_some, Int.ofNat_eq_natCast, hmin, true_and,
      decide_eq_true_eq]

theorem magnitude?_toDigits {n : Nat} (h : (n : Int) ≤ maxInteger) :
    magnitude? (Nat.toDigits 10 n) = some (n : Int) := by
  have hvalue := ofRadix?_of_digits (ofDigits?_toDigits n)
  rw [if_pos h] at hvalue
  rcases Nat.eq_zero_or_pos n with rfl | hpos
  · rfl
  · obtain ⟨c, s, hs, hc⟩ := Scan.toDigits_eq_cons hpos
    rw [hs] at hvalue ⊢
    cases s with
    | nil => exact hvalue
    | cons d s => rw [magnitude?, if_neg hc, hvalue]

/-- Without a minus sign, a literal stands for the integer that its digits stand for. -/
theorem value?_of_ne {c : Char} (hc : c ≠ '-') (s : List Char) :
    value? (c :: s) = magnitude? (c :: s) := by
  unfold value?
  split
  · rename_i heq
    exact absurd (List.cons.inj heq).1 hc
  · rfl

/-- A number in decimal stands for itself, if it fits. -/
theorem integer_repr {i : Int} (h : (i.natAbs : Int) ≤ maxInteger) : integer i.repr = .ok i := by
  have hmagnitude := magnitude?_toDigits h
  have hvalue : value? i.repr.toList = some i := by
    rw [Scan.toList_repr]
    split
    · obtain ⟨c, s, hd, hc⟩ := Scan.toDigits_eq_cons_ne_dash i.natAbs
      rw [List.nil_append, hd, value?_of_ne hc, ← hd, hmagnitude]
      congr
      omega
    · rw [List.singleton_append, value?, hmagnitude, Option.map_some]
      congr
      omega
  rw [integer, hvalue]

theorem fieldNumber_repr {n : Nat} (h : 1 ≤ n ∧ (n : Int) ≤ maxFieldNumber) :
    fieldNumber n.repr = .ok n := by
  have hmax : maxFieldNumber ≤ maxInteger := by decide
  have hinteger : integer n.repr = .ok (n : Int) :=
    integer_repr (i := (n : Int)) (by rw [Int.natAbs_natCast]; omega)
  simp only [fieldNumber, hinteger]
  rw [if_pos (by omega)]
  rfl

theorem enumNumber_repr {i : Int} (h : minEnumNumber ≤ i ∧ i ≤ maxEnumNumber) :
    enumNumber i.repr = .ok i := by
  have hmin : minEnumNumber = -2147483648 := rfl
  have hmax : maxEnumNumber = 2147483647 := rfl
  have hfits : maxInteger = 9223372036854775807 := rfl
  simp only [enumNumber, integer_repr (i := i) (by omega)]
  rw [if_pos h]

/-! ## Strings -/

/-- Whether a character needs a backslash in a string literal with the given quotes. -/
def needsBackslash (quote c : Char) : Bool :=
  c == quote || c == '\\' || Scan.isLineEnd c

/-- Puts a backslash in front of each character that needs one. -/
def escapeIn (quote : Char) : List Char → List Char
  | [] => []
  | c :: s => if needsBackslash quote c then '\\' :: c :: escapeIn quote s else c :: escapeIn quote s

/-- A string literal for a text, in the given quotes. -/
def enclose (quote : Char) (text : String) : String :=
  String.ofList (quote :: (escapeIn quote text.toList ++ [quote]))

theorem toList_enclose (quote : Char) (text : String) :
    (enclose quote text).toList = quote :: (escapeIn quote text.toList ++ [quote]) := by
  simp [enclose]

theorem quoted_escapeIn (quote : Char) (s : List Char) :
    Scan.Quoted quote (escapeIn quote s ++ [quote]) := by
  induction s with
  | nil => exact .close
  | cons c s ih =>
    rw [escapeIn]
    split
    · exact .escape c ih
    · rename_i hc
      simp only [needsBackslash, Bool.or_eq_true, beq_iff_eq, not_or, Bool.not_eq_true] at hc
      exact .char hc.1.2 hc.1.1 hc.2 ih

/-- A text in quotes is a string literal. -/
theorem literal_enclose {quote : Char}
    (hquote : quote = Scan.doubleQuote ∨ quote = Scan.singleQuote) (text : String) :
    Scan.Literal (enclose quote text).toList :=
  ⟨quote, _, hquote, toList_enclose quote text, quoted_escapeIn quote text.toList⟩

theorem unescape_cons {c : Char} (hc : c ≠ '\\') (s : List Char) :
    unescape (c :: s) = c :: unescape s := by
  cases s with
  | nil => simp [unescape, hc]
  | cons d s => rw [unescape, if_neg hc]

theorem unescape_escapeIn (quote : Char) (s : List Char) : unescape (escapeIn quote s) = s := by
  induction s with
  | nil => rfl
  | cons c s ih =>
    rw [escapeIn]
    split
    · rw [unescape, if_pos rfl, ih]
    · rename_i hc
      have hne : c ≠ '\\' := by
        rintro rfl
        simp [needsBackslash] at hc
      rw [unescape_cons hne, ih]

/-- A text in quotes stands for the text. -/
theorem unquote_enclose (quote : Char) (text : String) : unquote (enclose quote text) = text := by
  rw [unquote, toList_enclose, List.tail_cons, List.dropLast_concat, unescape_escapeIn,
    String.ofList_toList]

/-- A string literal for a text, in double quotes. -/
def quote (text : String) : String :=
  enclose Scan.doubleQuote text

theorem toList_quote (text : String) :
    (quote text).toList
      = Scan.doubleQuote :: (escapeIn Scan.doubleQuote text.toList ++ [Scan.doubleQuote]) :=
  toList_enclose Scan.doubleQuote text

/-- A quoted text is a string literal. -/
theorem literal_quote (text : String) : Scan.Literal (quote text).toList :=
  literal_enclose (.inl rfl) text

/-- A quoted text stands for the text. -/
theorem unquote_quote (text : String) : unquote (quote text) = text :=
  unquote_enclose Scan.doubleQuote text

end Literal

end MettaSchema
