import MettaSchema.Grammar.Proto

/-!
# What scanners take

Every scanner of the schema grammar takes its text off the front of the input and
leaves the rest as it is; all but the one for the end of the input take something.

* `Scanner.Splits`, `Scanner.Eats` — the two properties.
* `Scan.eats_ident`, `Scan.eats_strLit`, … — the properties, scanner by scanner.
* `Scan.blanks_append`, `Scan.blanks_snd` — skipping blanks splits the input too, and
  behind the blanks there are no more of them.
-/

namespace MettaSchema

/-- The text taken and the rest together are the input. -/
def Scanner.Splits (scan : Scanner) : Prop :=
  ∀ ⦃s t r : List Char⦄, scan s = some (t, r) → t ++ r = s

/-- The scanner splits the input, and the text taken is never empty. -/
def Scanner.Eats (scan : Scanner) : Prop :=
  ∀ ⦃s t r : List Char⦄, scan s = some (t, r) → t ++ r = s ∧ t ≠ []

@[simp] theorem Scanner.Eats.splits {scan : Scanner} (h : scan.Eats) : scan.Splits :=
  fun _ _ _ hs => (h hs).1

namespace Scan

/-! ## Building blocks -/

@[simp] theorem push_fst (c : Char) (taken : List Char × List Char) :
    (push c taken).1 = c :: taken.1 := rfl

@[simp] theorem push_snd (c : Char) (taken : List Char × List Char) :
    (push c taken).2 = taken.2 := rfl

/-- What is taken together with a character in front of it. -/
theorem map_push_eq_some {o : Option (List Char × List Char)} {c : Char} {t r : List Char} :
    o.map (push c) = some (t, r) ↔ ∃ u, o = some (u, r) ∧ t = c :: u := by
  simp only [Option.map_eq_some_iff, push, Prod.mk.injEq, Prod.exists]
  constructor
  · rintro ⟨u, v, h, rfl, rfl⟩
    exact ⟨u, h, rfl⟩
  · rintro ⟨u, h, rfl⟩
    exact ⟨u, r, h, rfl, rfl⟩

/-- A scanner that takes a first character and goes on as another one eats. -/
theorem eats_map_push {scan : Scanner} {c : Char} {s t r : List Char} (hs : scan.Splits)
    (h : (scan s).map (push c) = some (t, r)) : t ++ r = c :: s ∧ t ≠ [] := by
  obtain ⟨u, hu, rfl⟩ := map_push_eq_some.1 h
  exact ⟨by rw [List.cons_append, hs hu], by simp⟩

@[simp] theorem eats_exactly {text : List Char} (hne : text ≠ []) : (exactly text).Eats := by
  intro s t r h
  unfold exactly at h
  split at h
  · rename_i hp
    obtain ⟨u, rfl⟩ := List.isPrefixOf_iff_prefix.1 hp
    simp at h
    obtain ⟨rfl, rfl⟩ := h
    exact ⟨rfl, hne⟩
  · cases h

theorem before_eq_some {scan : Scanner} {accept : List Char → Bool} {s t r : List Char} :
    before scan accept s = some (t, r) ↔ scan s = some (t, r) ∧ accept r = true := by
  simp [before, Option.filter_eq_some_iff]

theorem eats_before {scan : Scanner} (accept : List Char → Bool) (h : scan.Eats) :
    (before scan accept).Eats :=
  fun _ _ _ hs => h (before_eq_some.1 hs).1

theorem eats_signed {scan : Scanner} (signs : List Char) (h : scan.Eats) :
    (signed signs scan).Eats := by
  intro s t r hs
  cases s with
  | nil => exact h hs
  | cons c s =>
    simp only [signed] at hs
    split at hs
    · exact eats_map_push h.splits hs
    · exact h hs

/-! ## Words -/

@[simp] theorem eats_word {text : String} (hne : text ≠ "") : (word text).Eats :=
  eats_before _ (eats_exactly (by simpa using hne))

@[simp] theorem eats_oneOfWords {texts : List String} (hne : ∀ text ∈ texts, text ≠ "") :
    (oneOfWords texts).Eats := by
  intro s t r h
  obtain ⟨text, hmem, ht⟩ := List.exists_of_findSome?_eq_some h
  exact eats_word (hne text hmem) ht

@[simp] theorem eats_stream : stream.Eats :=
  eats_before _ (eats_exactly (by decide))

/-! ## Names -/

@[simp] theorem eats_ident : ident.Eats := by
  intro s t r h
  cases s with
  | nil => cases h
  | cons c s =>
    simp only [ident] at h
    split at h
    · simp only [Option.some.injEq, Prod.mk.injEq] at h
      rw [← h.1, ← h.2]
      simp
    · cases h

theorem dottedTail_append (s : List Char) : (dottedTail s).1 ++ (dottedTail s).2 = s := by
  induction s with
  | nil => rfl
  | cons c s ih =>
    simp only [dottedTail]
    split
    · simp [ih]
    · rfl

@[simp] theorem eats_dotted : dotted.Eats := by
  intro s t r h
  cases s with
  | nil => cases h
  | cons c s =>
    simp only [dotted] at h
    split at h
    · simp only [push, Option.some.injEq, Prod.mk.injEq] at h
      rw [← h.1, ← h.2, List.cons_append, dottedTail_append]
      simp
    · cases h

@[simp] theorem eats_typeName : typeName.Eats := by
  intro s t r h
  cases s with
  | nil => cases h
  | cons c s =>
    simp only [typeName] at h
    split at h
    · exact eats_map_push eats_dotted.splits h
    · exact eats_dotted h

theorem eats_optionPart : optionPart.Eats := by
  intro s t r h
  cases s with
  | nil => cases h
  | cons c s =>
    simp only [optionPart] at h
    split at h
    · split at h
      · rename_i text d rest hs
        split at h
        · simp only [Option.some.injEq, Prod.mk.injEq] at h
          rw [← h.1, ← h.2, ← (eats_typeName hs).1]
          simp
        · cases h
      · cases h
    · exact eats_ident h

theorem optionTail_append (bound s : List Char) :
    (optionTail bound s).1 ++ (optionTail bound s).2 = s := by
  induction bound generalizing s with
  | nil => cases s <;> rfl
  | cons b bound ih =>
    cases s with
    | nil => rfl
    | cons c s =>
      simp only [optionTail]
      split
      · split
        · rename_i text rest hs
          simp only [List.cons_append, List.append_assoc]
          rw [ih rest, (eats_optionPart hs).1]
        · rfl
      · rfl

@[simp] theorem eats_optionName : optionName.Eats := by
  intro s t r h
  simp only [optionName, Option.map_eq_some_iff, Prod.mk.injEq] at h
  obtain ⟨⟨text, rest⟩, hs, rfl, rfl⟩ := h
  obtain ⟨happ, hne⟩ := eats_optionPart hs
  exact ⟨by rw [List.append_assoc, optionTail_append, happ], by simp [hne]⟩

/-! ## Values -/

theorem eats_magnitude : magnitude.Eats := by
  intro s t r h
  unfold magnitude at h
  grind [List.takeWhile_append_dropWhile]

@[simp] theorem eats_intLit : intLit.Eats :=
  eats_before _ (eats_signed _ eats_magnitude)

theorem numberTail_append (s : List Char) : (numberTail s).1 ++ (numberTail s).2 = s := by
  fun_induction numberTail s with
  | case1 => rfl
  | case2 => rfl
  | case3 => rfl
  | case4 c d s _ ih => simp [ih]
  | case5 c d s _ _ ih => simp [ih]
  | case6 => rfl

@[simp] theorem eats_number : number.Eats := by
  refine eats_signed _ ?_
  intro s t r h
  cases s with
  | nil => cases h
  | cons c s =>
    simp only at h
    split at h
    · simp only [push, Option.some.injEq, Prod.mk.injEq] at h
      rw [← h.1, ← h.2, List.cons_append, numberTail_append]
      simp
    · cases h

theorem splits_quotedTail (quote : Char) : Scanner.Splits (quotedTail quote) := by
  intro s t r h
  fun_induction quotedTail quote s generalizing t r with
  | case1 => cases h
  | case2 => cases h; rfl
  | case3 => cases h
  | case4 d s ih =>
    simp only [Option.map_eq_some_iff, push, Prod.mk.injEq] at h
    obtain ⟨⟨u, v⟩, hu, rfl, rfl⟩ := h
    simp [ih hu]
  | case5 => cases h; rfl
  | case6 => cases h
  | case7 c d s _ _ _ ih =>
    obtain ⟨u, hu, rfl⟩ := map_push_eq_some.1 h
    rw [List.cons_append, ih hu]

@[simp] theorem eats_strLit : strLit.Eats := by
  intro s t r h
  cases s with
  | nil => cases h
  | cons c s =>
    simp only [strLit] at h
    split at h
    · exact eats_map_push (splits_quotedTail c) h
    · cases h

theorem splits_braceTail (depth inside : Nat) : (braceTail depth inside).Splits := by
  intro s t r h
  fun_induction braceTail depth inside s generalizing t r with
  | case1 => cases h
  | case3 => cases h; rfl
  | case2 _ _ _ _ ih | case4 _ _ ih | case5 _ _ _ ih | case6 _ _ _ _ _ _ _ _ ih
  | case7 _ _ _ _ _ _ ih =>
    obtain ⟨u, hu, rfl⟩ := map_push_eq_some.1 h
    rw [List.cons_append, ih hu]

@[simp] theorem eats_aggregate : aggregate.Eats := by
  intro s t r h
  cases s with
  | nil => cases h
  | cons c s =>
    simp only [aggregate] at h
    split at h
    · exact eats_map_push (splits_braceTail 0 0) h
    · cases h

@[simp] theorem splits_endOfInput : endOfInput.Splits := by
  intro s t r h
  cases s with
  | nil => cases h; rfl
  | cons c s => cases h

/-! ## Blanks -/

theorem blanksFrom_append (inside : Nat) (s : List Char) :
    (blanksFrom inside s).1 ++ (blanksFrom inside s).2 = s := by
  fun_induction blanksFrom inside s with
  | case1 => rfl
  | case2 c s k ih => simp [ih]
  | case3 c s _ ih => simp [ih]
  | case4 c s _ text _ _ ih => simp [ih]
  | case5 => rfl

/-- Skipping blanks splits the input. -/
theorem blanks_append (s : List Char) : (blanks s).1 ++ (blanks s).2 = s :=
  blanksFrom_append 0 s

theorem blanksFrom_snd (inside : Nat) (s : List Char) :
    blanks (blanksFrom inside s).2 = ([], (blanksFrom inside s).2) := by
  fun_induction blanksFrom inside s with
  | case1 => rfl
  | case2 c s k ih => exact ih
  | case3 c s _ ih => exact ih
  | case4 c s _ text _ _ ih => exact ih
  | case5 c s hb hc => simp [blanks, blanksFrom, hb, hc]

/-- Behind the longest run of blanks there are no blanks. -/
theorem blanks_snd (s : List Char) : blanks (blanks s).2 = ([], (blanks s).2) :=
  blanksFrom_snd 0 s

end Scan

end MettaSchema
