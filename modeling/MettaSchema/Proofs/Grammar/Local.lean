import MettaSchema.Proofs.Grammar.Scanning

/-!
# Scanners that look no further than their word

A run of solid characters is a word: it holds no blank, slash, quote, opening brace or
equals sign.  Names, numbers, keywords and punctuation are read from the word at the
front of the input alone, and what stands behind the word makes no difference.  Names,
numbers and keywords are read even without the semicolon or the closing brace that can
end a word.

* `Scan.isSolid`, `Scan.isInner` — the characters of words, and those that end no statement.
* `Scan.Halts`, `Scan.Stops` — texts that end a run of a class, and those that end a word.
* `Scanner.LocalTo`, `Scanner.Local` — the scanner reads nothing but a run of a class, or a word.
* `Scan.local_ident`, `Scan.local_intLit`, … — the property, scanner by scanner.
* `Scanner.LocalTo.run` — what such a scanner takes is such a run.
-/

namespace MettaSchema

namespace Scan

/-- Characters of words: all but those that can begin a blank, a string literal, a value in
braces or an equals sign. -/
def isSolid (c : Char) : Bool :=
  !(isBlank c || c == '/' || c == doubleQuote || c == singleQuote || c == openBrace || c == '=')

/-- Characters of words other than those that end statements. -/
def isInner (c : Char) : Bool :=
  isSolid c && !(c == ';' || c == closeBrace)

/-- A text in front of which a run of the class ends. -/
def Halts (k : Char → Bool) (s : List Char) : Prop := startsWith k s = false

/-- A text in front of which a word ends. -/
abbrev Stops (s : List Char) : Prop := Halts isSolid s

/-- What was taken from a text, when more text follows. -/
def extend (w : List Char) (taken : List Char × List Char) : List Char × List Char :=
  (taken.1, taken.2 ++ w)

end Scan

/-- What the scanner takes does not change with the text behind a run of the class. -/
def Scanner.LocalTo (k : Char → Bool) (scan : Scanner) : Prop :=
  ∀ (u : List Char) ⦃w : List Char⦄, Scan.Halts k w → scan (u ++ w) = (scan u).map (Scan.extend w)

/-- What the scanner takes does not change with the text behind the word. -/
abbrev Scanner.Local (scan : Scanner) : Prop := scan.LocalTo Scan.isSolid

namespace Scan

/-! ## Classes of characters -/

/-- A class of characters that holds all of those that can stand inside a word. -/
class Covers (k : Char → Bool) : Prop where
  /-- It holds each of them. -/
  inner : ∀ c, isInner c = true → k c = true

instance : Covers isInner := ⟨fun _ hc => hc⟩

theorem isSolid_of_isInner {c : Char} (hc : isInner c = true) : isSolid c = true := by
  simp only [isInner, Bool.and_eq_true] at hc
  exact hc.1

instance : Covers isSolid := ⟨fun _ => isSolid_of_isInner⟩

/-- A class of characters that can only stand inside words. -/
def Inner (p : Char → Bool) : Prop := ∀ c, p c = true → isInner c = true

theorem inner_of {p : Char → Bool} (hblank : p ' ' = false ∧ p '\t' = false ∧ p '\r' = false
    ∧ p '\n' = false) (hother : p '/' = false ∧ p doubleQuote = false ∧ p singleQuote = false
    ∧ p openBrace = false ∧ p '=' = false ∧ p ';' = false ∧ p closeBrace = false) : Inner p := by
  intro c hc
  cases hs : isInner c with
  | true => rfl
  | false =>
    rw [isInner, Bool.and_eq_false_iff] at hs
    rcases hs with hs | hs
    · simp only [isSolid, isBlank, Bool.not_eq_false', Bool.or_eq_true, beq_iff_eq] at hs
      grind
    · simp only [Bool.not_eq_false', Bool.or_eq_true, beq_iff_eq] at hs
      grind

theorem inner_isNameChar : Inner isNameChar := inner_of (by decide) (by decide)

theorem inner_isNameStart : Inner isNameStart := inner_of (by decide) (by decide)

variable {k : Char → Bool}

/-! ## Building blocks -/

theorem isPrefixOf_append {text : List Char} (ht : ∀ c ∈ text, k c = true) (u : List Char)
    {w : List Char} (hw : Halts k w) : text.isPrefixOf (u ++ w) = text.isPrefixOf u := by
  induction text generalizing u with
  | nil => rfl
  | cons c text ih =>
    cases u with
    | cons d u =>
      simp only [List.cons_append, List.isPrefixOf]
      rw [ih fun x hx => ht x (by simp [hx])]
    | nil =>
      cases w with
      | nil => rfl
      | cons d w =>
        have hd : k d = false := hw
        have hne : c ≠ d := by
          rintro rfl
          rw [ht c (by simp)] at hd
          cases hd
        simp [List.isPrefixOf, hne]

theorem local_exactly {text : List Char} (ht : text.all k = true) :
    (exactly text).LocalTo k := by
  intro u w hw
  simp only [exactly, isPrefixOf_append (List.all_eq_true.1 ht) u hw]
  split
  · rename_i h
    have hle := (List.isPrefixOf_iff_prefix.1 h).length_le
    simp [extend, List.drop_append_of_le_length hle]
  · rfl

theorem local_before {scan : Scanner} {accept : List Char → Bool} (h : scan.LocalTo k)
    (ha : ∀ (r : List Char) ⦃w : List Char⦄, Halts k w → accept (r ++ w) = accept r) :
    (before scan accept).LocalTo k := by
  intro u w hw
  simp only [before, h u hw]
  cases scan u with
  | none => rfl
  | some taken =>
    simp only [Option.map_some, Option.filter_some, extend, ha taken.2 hw]
    split <;> rfl

/-! ## Classes that hold the characters inside words -/

section

variable [hk : Covers k]

/-- A text that ends a run does not begin with a character that can stand inside a word. -/
theorem Halts.eq_false {p : Char → Bool} {c : Char} {w : List Char} (hw : Halts k (c :: w))
    (hp : Inner p) : p c = false := by
  cases hc : p c with
  | false => rfl
  | true =>
    have hkc : k c = true := hk.inner c (hp c hc)
    exact absurd hkc (by simpa [Halts, startsWith] using hw)

theorem startsWith_append {p : Char → Bool} (hp : Inner p) (u : List Char) {w : List Char}
    (hw : Halts k w) : startsWith p (u ++ w) = startsWith p u := by
  cases u with
  | cons c u => rfl
  | nil =>
    cases w with
    | nil => rfl
    | cons c w => exact hw.eq_false hp

theorem takeWhile_append {p : Char → Bool} (hp : Inner p) (u : List Char) {w : List Char}
    (hw : Halts k w) :
    (u ++ w).takeWhile p = u.takeWhile p ∧ (u ++ w).dropWhile p = u.dropWhile p ++ w := by
  induction u with
  | nil =>
    cases w with
    | nil => simp
    | cons c w => simp [hw.eq_false hp]
  | cons c u ih =>
    by_cases hc : p c = true
    · simp [hc, ih]
    · simp [hc]

theorem local_signed {signs : List Char} {scan : Scanner} (h : scan.LocalTo k)
    (hs : signs.all isInner = true) : (signed signs scan).LocalTo k := by
  intro u w hw
  cases u with
  | cons c u =>
    simp only [List.cons_append, signed, h u hw]
    split
    · cases scan u <;> rfl
    · exact h (c :: u) hw
  | nil =>
    have hscan := h [] hw
    cases w with
    | nil => exact hscan
    | cons c w =>
      have hc : c ∉ signs := fun hc => by
        have hd : k c = false := hw
        rw [hk.inner c (List.all_eq_true.1 hs c hc)] at hd
        cases hd
      simpa [signed, hc] using hscan

/-! ## Words -/

theorem local_word {text : String} (ht : text.toList.all k = true) :
    (word text).LocalTo k :=
  local_before (local_exactly ht) fun r _ hw =>
    congrArg (!·) (startsWith_append inner_isNameChar r hw)

theorem local_oneOfWords {texts : List String}
    (ht : texts.all (·.toList.all k) = true) : (oneOfWords texts).LocalTo k := by
  intro u w hw
  rw [List.all_eq_true] at ht
  induction texts with
  | nil => rfl
  | cons text texts ih =>
    simp only [oneOfWords, List.findSome?_cons] at ih ⊢
    rw [local_word (ht text (by simp)) u hw]
    cases word text u with
    | some taken => rfl
    | none => exact ih fun text hmem => ht text (by simp [hmem])

/-! ## Names -/

theorem local_ident : ident.LocalTo k := by
  intro u w hw
  cases u with
  | cons c u =>
    obtain ⟨htake, hdrop⟩ := takeWhile_append inner_isNameChar u hw
    simp only [List.cons_append, ident, htake, hdrop]
    split <;> rfl
  | nil =>
    cases w with
    | nil => rfl
    | cons c w => simp [ident, hw.eq_false inner_isNameStart]

theorem dottedTail_local (u : List Char) {w : List Char} (hw : Halts k w) :
    dottedTail (u ++ w) = extend w (dottedTail u) := by
  induction u with
  | nil =>
    cases w with
    | nil => rfl
    | cons c w =>
      have hdot : Inner (· == '.') := inner_of (by decide) (by decide)
      have hc : (c == '.') = false := hw.eq_false hdot
      simp [dottedTail, extend, hw.eq_false inner_isNameChar, hc]
  | cons c u ih =>
    simp only [List.cons_append, dottedTail, startsWith_append inner_isNameStart u hw, ih]
    split <;> rfl

theorem local_dotted : dotted.LocalTo k := by
  intro u w hw
  cases u with
  | cons c u =>
    simp only [List.cons_append, dotted, dottedTail_local u hw]
    split <;> rfl
  | nil =>
    cases w with
    | nil => rfl
    | cons c w => simp [dotted, hw.eq_false inner_isNameStart]

theorem local_typeName : typeName.LocalTo k := by
  intro u w hw
  cases u with
  | cons c u =>
    have hcons := local_dotted (c :: u) hw
    simp only [List.cons_append] at hcons
    simp only [List.cons_append, typeName, local_dotted u hw, hcons]
    split
    · cases dotted u <;> rfl
    · rfl
  | nil =>
    have hscan := local_dotted [] hw
    cases w with
    | nil => rfl
    | cons c w =>
      have hdot : Inner (· == '.') := inner_of (by decide) (by decide)
      have hc : c ≠ '.' := by simpa using hw.eq_false hdot
      rw [List.nil_append, typeName, if_neg hc]
      exact hscan

theorem local_optionPart : optionPart.LocalTo k := by
  intro u w hw
  cases u with
  | cons c u =>
    have hcons := local_ident (c :: u) hw
    simp only [List.cons_append] at hcons
    simp only [List.cons_append, optionPart, local_typeName u hw, hcons]
    split
    · cases typeName u with
      | none => rfl
      | some taken =>
        obtain ⟨text, rest⟩ := taken
        cases rest with
        | cons d rest =>
          simp only [Option.map_some, extend, List.cons_append]
          split <;> rfl
        | nil =>
          cases w with
          | nil => rfl
          | cons d w =>
            have hclose : Inner (· == ')') := inner_of (by decide) (by decide)
            have hd : d ≠ ')' := by simpa using hw.eq_false hclose
            simp [extend, hd]
    · rfl
  | nil =>
    have hscan := local_ident [] hw
    cases w with
    | nil => rfl
    | cons c w =>
      have hopen : Inner (· == '(') := inner_of (by decide) (by decide)
      have hc : c ≠ '(' := by simpa using hw.eq_false hopen
      rw [List.nil_append, optionPart, if_neg hc]
      exact hscan

/-- The bound on the number of further parts is never reached. -/
theorem optionTail_local (bound bound' u : List Char) {w : List Char} (hw : Halts k w)
    (hb : u.length ≤ bound.length) (hb' : u.length ≤ bound'.length) :
    optionTail bound (u ++ w) = extend w (optionTail bound' u) := by
  induction bound generalizing bound' u with
  | nil =>
    obtain rfl : u = [] := List.length_eq_zero_iff.1 (by simpa using hb)
    cases bound' <;> cases w <;> rfl
  | cons b bound ih =>
    cases u with
    | nil =>
      have hdot : Inner (· == '.') := inner_of (by decide) (by decide)
      cases w with
      | nil => cases bound' <;> rfl
      | cons c w =>
        have hc : c ≠ '.' := by simpa using hw.eq_false hdot
        cases bound' <;> simp [optionTail, extend, hc]
    | cons c u =>
      cases bound' with
      | nil => simp at hb'
      | cons b' bound' =>
        simp only [List.length_cons] at hb hb'
        simp only [List.cons_append, optionTail, local_optionPart u hw]
        split
        · cases hpart : optionPart u with
          | none => rfl
          | some taken =>
            obtain ⟨text, rest⟩ := taken
            have hlen := congrArg List.length (eats_optionPart hpart).1
            rw [List.length_append] at hlen
            simp only [Option.map_some, extend]
            rw [ih bound' rest (by omega) (by omega)]
            rfl
        · rfl

theorem local_optionName : optionName.LocalTo k := by
  intro u w hw
  simp only [optionName, local_optionPart u hw]
  cases optionPart u with
  | none => rfl
  | some taken =>
    obtain ⟨text, rest⟩ := taken
    simp only [Option.map_some, extend]
    rw [optionTail_local (rest ++ w) rest rest hw (by simp) (Nat.le_refl _)]
    rfl

/-! ## Numbers -/

theorem inner_isOctDigit : Inner isOctDigit := inner_of (by decide) (by decide)

theorem inner_isHexDigit : Inner isHexDigit := inner_of (by decide) (by decide)

theorem inner_isDigit : Inner Char.isDigit := inner_of (by decide) (by decide)

theorem inner_numberChar : Inner fun c => isNameChar c || c == '.' :=
  inner_of (by decide) (by decide)

/-- Behind a leading zero a hexadecimal literal goes on in the word. -/
theorem local_magnitude : magnitude.LocalTo k := by
  intro u w hw
  cases u with
  | nil =>
    cases w with
    | nil => rfl
    | cons c w =>
      have hc := hw.eq_false inner_isDigit
      have hzero : c ≠ '0' := by rintro rfl; revert hc; decide
      simp [magnitude, hzero, hc]
  | cons c u =>
    obtain ⟨hoct, hoct'⟩ := takeWhile_append inner_isOctDigit u hw
    obtain ⟨hdec, hdec'⟩ := takeWhile_append inner_isDigit u hw
    by_cases hc : c = '0'
    · subst hc
      cases u with
      | nil =>
        match w, hw with
        | [], _ => rfl
        | [x], hw =>
          show some ('0' :: ([] ++ [x]).takeWhile isOctDigit, ([] ++ [x]).dropWhile isOctDigit) = _
          rw [hoct, hoct']
          rfl
        | x :: h :: w, hw =>
          have hmark : Inner fun c => c == 'x' || c == 'X' := inner_of (by decide) (by decide)
          have hx := hw.eq_false hmark
          simp only [List.nil_append] at hoct hoct'
          simp only [List.singleton_append, magnitude, hx, Bool.false_and, Bool.false_eq_true,
            if_false, if_true, hoct, hoct']
          rfl
      | cons x u =>
        cases u with
        | nil =>
          cases w with
          | nil => simp [magnitude, extend]
          | cons h w =>
            simpa [magnitude, extend, hw.eq_false inner_isHexDigit] using ⟨hoct, hoct'⟩
        | cons h u =>
          obtain ⟨hhex, hhex'⟩ := takeWhile_append inner_isHexDigit u hw
          simp only [List.cons_append] at hoct hoct'
          simp only [List.cons_append, magnitude, hhex, hhex', hoct, hoct']
          split
          · split <;> rfl
          · contradiction
    · simp only [List.cons_append, magnitude, if_neg hc, hdec, hdec']
      split <;> rfl

theorem local_intLit : intLit.LocalTo k :=
  local_before (local_signed local_magnitude (by decide)) fun r w hw => by
    rw [startsWith_append inner_numberChar r hw]

theorem numberTail_of_stops {w : List Char} (hw : Halts k w) : numberTail w = ([], w) := by
  match w, hw with
  | [], _ => rfl
  | [c], hw => simpa [numberTail] using hw.eq_false inner_numberChar
  | c :: d :: w, hw =>
    have hexp : Inner fun c => c == 'e' || c == 'E' := inner_of (by decide) (by decide)
    simp [numberTail, hw.eq_false hexp, hw.eq_false inner_numberChar]

/-- An exponent letter at the end of a word takes no sign with it, since signs are solid. -/
theorem numberTail_local (u : List Char) {w : List Char} (hw : Halts k w) :
    numberTail (u ++ w) = extend w (numberTail u) := by
  have hsign : Inner fun c => c == '-' || c == '+' := inner_of (by decide) (by decide)
  fun_induction numberTail u with
  | case1 => exact numberTail_of_stops hw
  | case2 c hc =>
    cases w with
    | nil => simp [numberTail, hc, extend]
    | cons d w =>
      simp only [List.cons_append, List.nil_append, numberTail, hw.eq_false hsign, Bool.and_false,
        Bool.false_eq_true, if_false, hc, if_true, numberTail_of_stops hw]
      rfl
  | case3 c hc =>
    cases w with
    | nil => simp [numberTail, hc, extend]
    | cons d w =>
      simp only [List.cons_append, List.nil_append, numberTail, hw.eq_false hsign, Bool.and_false,
        Bool.false_eq_true, if_false, hc]
      rfl
  | case4 c d u hc ih =>
    simp only [List.cons_append, numberTail, if_pos hc, ih]
    rfl
  | case5 c d u hc hd ih =>
    simp only [List.cons_append] at ih
    simp only [List.cons_append, numberTail, if_neg hc, if_pos hd, ih]
    rfl
  | case6 c d u hc hd =>
    simp only [List.cons_append, numberTail, if_neg hc, if_neg hd]
    rfl

theorem local_number : number.LocalTo k := by
  have hfirst : Inner fun c => c.isDigit || c == '.' := inner_of (by decide) (by decide)
  refine local_signed (fun u w hw => ?_) (by decide)
  cases u with
  | cons c u =>
    simp only [List.cons_append, numberTail_local u hw]
    split <;> rfl
  | nil =>
    cases w with
    | nil => rfl
    | cons c w => simp [hw.eq_false hfirst]

/-! ## Runs at the front of a text -/

theorem halts_dropWhile (k : Char → Bool) (s : List Char) : Halts k (s.dropWhile k) := by
  cases h : s.dropWhile k with
  | nil => rfl
  | cons c r =>
    have hc := List.head?_dropWhile_not k s
    simpa [h, Halts, startsWith] using hc

end

end Scan

/-- What a local scanner takes is a run. -/
theorem Scanner.LocalTo.run {k : Char → Bool} {scan : Scanner} (h : scan.LocalTo k)
    (hs : scan.Splits) {s t r : List Char} (hscan : scan s = some (t, r)) :
    ∀ c ∈ t, k c = true := by
  intro c hc
  rw [← List.takeWhile_append_dropWhile (p := k) (l := s), h _ (Scan.halts_dropWhile k s),
    Option.map_eq_some_iff] at hscan
  obtain ⟨⟨t', r'⟩, hword, heq⟩ := hscan
  simp only [Scan.extend, Prod.mk.injEq] at heq
  obtain ⟨rfl, -⟩ := heq
  have hmem : c ∈ s.takeWhile k := hs hword ▸ List.mem_append_left r' hc
  exact List.all_eq_true.1 List.all_takeWhile c hmem

end MettaSchema
