import MettaSchema.Proofs.Grammar.Values
import MettaSchema.Proofs.Grammar.Spacing

/-!
# Texts that differ in their blanks

Two texts are aligned if they hold the same words, literals, values and braces and have
blanks at the same places.  Every scanner of the grammar takes the same token from both of
them and leaves aligned texts.

* `Scan.Aligned` — the relation.
* `Scan.Aligned.skip` — it is kept when blanks are skipped.
* `Scanner.Steady` — a scanner takes the same token from two aligned texts.
* `Scanner.Builds` — texts are aligned if one token and what follows it are.
-/

namespace MettaSchema

namespace Scan

/-- Two texts that differ in their blanks at most.  With `valued` set they stand behind an
equals sign, where an opening brace begins a value; elsewhere it stands for itself. -/
inductive Aligned : (valued : Bool) → List Char → List Char → Prop
  /-- The end of both texts. -/
  | nil {valued : Bool} : Aligned valued [] []
  /-- A character of a word. -/
  | solid {valued : Bool} {c : Char} {s s' : List Char} (hc : isSolid c = true)
      (h : Aligned false s s') : Aligned valued (c :: s) (c :: s')
  /-- An equals sign. -/
  | equals {valued : Bool} {s s' : List Char} (h : Aligned true s s') :
      Aligned valued ('=' :: s) ('=' :: s')
  /-- A brace that opens a body. -/
  | brace {s s' : List Char} (h : Aligned false s s') :
      Aligned false (openBrace :: s) (openBrace :: s')
  /-- A string literal. -/
  | literal {valued : Bool} {q : Char} {u s s' : List Char}
      (hq : q = doubleQuote ∨ q = singleQuote) (hu : Quoted q u) (h : Aligned false s s') :
      Aligned valued (q :: (u ++ s)) (q :: (u ++ s'))
  /-- A value in braces. -/
  | value {g s s' : List Char} (hg : BraceContent g) (h : Aligned false s s') :
      Aligned true (openBrace :: (g ++ closeBrace :: s)) (openBrace :: (g ++ closeBrace :: s'))
  /-- Blanks in both texts. -/
  | gap {valued : Bool} {c d : Char} {g g' s s' : List Char}
      (hs : blanks (c :: (g ++ s)) = (c :: g, s)) (hs' : blanks (d :: (g' ++ s')) = (d :: g', s'))
      (h : Aligned valued s s') : Aligned valued (c :: (g ++ s)) (d :: (g' ++ s'))

/-! ## Blanks -/

theorem beginsBlank_of_blanks {c : Char} {g s t : List Char}
    (h : blanks (c :: t) = (c :: g, s)) : beginsBlank c = true :=
  head_of_blanks (s := c :: t) (by rw [h]; simp)

theorem beginsBlank_of_solid {c : Char} (h : isSolid c = true) : beginsBlank c = false := by
  simp only [isSolid, Bool.not_eq_true', Bool.or_eq_false_iff] at h
  simp [beginsBlank, h]

theorem not_solid_of_beginsBlank {c : Char} (h : beginsBlank c = true) : isSolid c = false := by
  cases hc : isSolid c with
  | false => rfl
  | true => rw [beginsBlank_of_solid hc] at h; cases h

theorem beginsBlank_of_quote {q : Char} (h : q = doubleQuote ∨ q = singleQuote) :
    beginsBlank q = false := by
  rcases h with rfl | rfl <;> decide

/-- Either both texts begin like blanks or none of them does. -/
theorem Aligned.begins {valued : Bool} {s s' : List Char} (h : Aligned valued s s') :
    startsWith beginsBlank s = startsWith beginsBlank s' := by
  cases h with
  | gap hs hs' => simp [startsWith, beginsBlank_of_blanks hs, beginsBlank_of_blanks hs']
  | _ => rfl

/-- Texts stay aligned when blanks are skipped. -/
theorem Aligned.skip {valued : Bool} {s s' : List Char} (h : Aligned valued s s') :
    Aligned valued (blanks s).2 (blanks s').2 := by
  by_cases hb : startsWith beginsBlank s = true
  · cases h with
    | gap hs hs' h => simpa [hs, hs'] using h
    | nil => exact .nil
    | solid hc => simp [startsWith, beginsBlank_of_solid hc] at hb
    | equals | brace | value => exact absurd hb Bool.false_ne_true
    | literal hq => simp [startsWith, beginsBlank_of_quote hq] at hb
  · have hs : startsWith beginsBlank s = false := by simpa using hb
    rw [blanks_of_head hs, blanks_of_head (h.begins ▸ hs)]
    exact h

/-- Behind blanks, no aligned text begins like blanks. -/
theorem Aligned.not_begins {valued : Bool} {s s' : List Char} (h : Aligned valued s s')
    (hs : blanks s = ([], s)) : startsWith beginsBlank s' = false := by
  cases h with
  | gap hs₁ =>
    rw [hs₁] at hs
    cases hs
  | nil => rfl
  | solid hc => exact beginsBlank_of_solid hc
  | equals | brace | value => rfl
  | literal hq => exact beginsBlank_of_quote hq

/-- Texts are aligned if they are behind their blanks, where the second has a gap exactly
if the first has blanks. -/
theorem Aligned.of_gap {valued : Bool} {s s' g' : List Char}
    (h : Aligned valued (blanks s).2 s')
    (hg : ((blanks s).1 = [] ∧ g' = []) ∨ ((blanks s).1 ≠ [] ∧ Gap g')) :
    Aligned valued s (g' ++ s') := by
  have happ := blanks_append s
  rcases hg with ⟨hnil, rfl⟩ | ⟨hne, hgap⟩
  · rw [hnil, List.nil_append] at happ
    rwa [happ] at h
  · have hs' := blanks_gap hgap (h.not_begins (blanks_snd s))
    obtain ⟨c, g, hcg⟩ := List.exists_cons_of_ne_nil hne
    obtain ⟨d, g', rfl⟩ := List.exists_cons_of_ne_nil hgap.ne_nil
    rw [hcg, List.cons_append] at happ
    rw [← happ]
    refine .gap ?_ hs' h
    rw [happ, ← hcg]

/-! ## Words -/

/-- Aligned texts begin with the same word. -/
theorem Aligned.word {valued : Bool} {s s' : List Char} (h : Aligned valued s s') :
    ∃ u w w', s = u ++ w ∧ s' = u ++ w' ∧ Stops w ∧ Stops w' := by
  induction h with
  | nil => exact ⟨[], [], [], rfl, rfl, rfl, rfl⟩
  | @solid _ c _ _ _ _ ih =>
    obtain ⟨u, w, w', rfl, rfl, hw, hw'⟩ := ih
    exact ⟨c :: u, w, w', rfl, rfl, hw, hw'⟩
  | equals | brace | value => exact ⟨[], _, _, rfl, rfl, rfl, rfl⟩
  | literal hq =>
    refine ⟨[], _, _, rfl, rfl, ?_, ?_⟩ <;>
      rcases hq with rfl | rfl <;> rfl
  | gap hs hs' =>
    refine ⟨[], _, _, rfl, rfl, ?_, ?_⟩
    · exact not_solid_of_beginsBlank (beginsBlank_of_blanks hs)
    · exact not_solid_of_beginsBlank (beginsBlank_of_blanks hs')

/-- Behind a character of a word, texts stay aligned. -/
theorem Aligned.tail {valued : Bool} {c : Char} {s s' : List Char} (hc : isSolid c = true)
    (h : Aligned valued (c :: s) (c :: s')) : Aligned false s s' := by
  generalize hx : c :: s = x at h
  generalize hy : c :: s' = y at h
  cases h with
  | solid _ h =>
    cases hx
    cases hy
    exact h
  | gap hs =>
    cases hx
    rw [not_solid_of_beginsBlank (beginsBlank_of_blanks hs)] at hc
    cases hc
  | literal hq =>
    cases hx
    rcases hq with rfl | rfl <;> cases hc
  | nil => cases hx
  | equals | brace | value =>
    cases hx
    cases hc

/-- Behind characters of words, texts stay aligned. -/
theorem Aligned.drop {valued : Bool} {t s s' : List Char} (ht : ∀ c ∈ t, isSolid c = true)
    (hne : t ≠ []) (h : Aligned valued (t ++ s) (t ++ s')) : Aligned false s s' := by
  induction t generalizing valued with
  | nil => exact absurd rfl hne
  | cons c t ih =>
    have hc : isSolid c = true := ht c (by simp)
    have htail := h.tail hc
    by_cases htne : t = []
    · subst htne
      exact htail
    · exact ih (fun d hd => ht d (by simp [hd])) htne htail

/-- Texts are aligned if they are behind a word that both begin with. -/
theorem Aligned.of_word {valued : Bool} {t s s' : List Char} (ht : ∀ c ∈ t, isSolid c = true)
    (hne : t ≠ []) (h : Aligned false s s') : Aligned valued (t ++ s) (t ++ s') := by
  induction t generalizing valued with
  | nil => exact absurd rfl hne
  | cons c t ih =>
    refine .solid (ht c (by simp)) ?_
    by_cases htne : t = []
    · subst htne
      exact h
    · exact ih (fun d hd => ht d (by simp [hd])) htne

end Scan

/-! ## Scanners -/

open Scan

/-- Either the scanner fails on both of two aligned texts, or it takes the same token from
both and leaves aligned texts. -/
def Scanner.Steady (valued : Bool) (scan : Scanner) (after : Bool → Prop) : Prop :=
  ∀ ⦃s s' : List Char⦄, Aligned valued s s' → (scan s = none ∧ scan s' = none) ∨
    ∃ t r r' w, scan s = some (t, r) ∧ scan s' = some (t, r') ∧ after w ∧ Aligned w r r'

/-- Texts are aligned if the scanner takes a token from the first, the second begins with that
token, and what follows the tokens is aligned. -/
def Scanner.Builds (valued : Bool) (scan : Scanner) (after : Bool → Prop) : Prop :=
  ∀ ⦃s t r : List Char⦄, scan s = some (t, r) → ∀ r', (∀ w, after w → Aligned w r r') →
    Aligned valued s (t ++ r')

namespace Scan

variable {after : Bool → Prop}

theorem steady_of_local {scan : Scanner} (hl : scan.Local) (he : scan.Eats) (valued : Bool)
    (hf : after false) : scan.Steady valued after := by
  intro s s' h
  obtain ⟨u, w, w', rfl, rfl, hw, hw'⟩ := h.word
  rw [hl u hw, hl u hw']
  cases hu : scan u with
  | none => exact .inl ⟨rfl, rfl⟩
  | some taken =>
    obtain ⟨t, r⟩ := taken
    obtain ⟨rfl, hne⟩ := he hu
    refine .inr ⟨t, r ++ w, r ++ w', false, rfl, rfl, hf, ?_⟩
    simp only [List.append_assoc] at h
    exact h.drop (hl.run he.splits hu) hne

theorem builds_of_local {scan : Scanner} (hl : scan.Local) (he : scan.Eats) (valued : Bool)
    (hf : after false) : scan.Builds valued after := by
  intro s t r hs r' h
  obtain ⟨rfl, hne⟩ := he hs
  exact .of_word (hl.run he.splits hs) hne (h false hf)

theorem steady_strLit (valued : Bool) (hf : after false) : Scanner.Steady valued strLit after := by
  intro s s' h
  cases h with
  | @literal _ q u r r' hq hu h =>
    have hlit : Literal (q :: u) := ⟨q, u, hq, rfl, hu⟩
    exact .inr ⟨q :: u, r, r', false, strLit_append hlit r, strLit_append hlit r', hf, h⟩
  | nil => exact .inl ⟨rfl, rfl⟩
  | solid hc =>
    simp only [isSolid, Bool.not_eq_true', Bool.or_eq_false_iff, beq_eq_false_iff_ne] at hc
    exact .inl ⟨strLit_cons_of_ne hc.1.1.1.2 hc.1.1.2 _, strLit_cons_of_ne hc.1.1.1.2 hc.1.1.2 _⟩
  | equals | brace | value => exact .inl ⟨rfl, rfl⟩
  | gap hs hs' =>
    have hne {c : Char} (hc : beginsBlank c = true) : c ≠ doubleQuote ∧ c ≠ singleQuote := by
      constructor <;> rintro rfl <;> revert hc <;> decide
    obtain ⟨hd, hs₁⟩ := hne (beginsBlank_of_blanks hs)
    obtain ⟨hd', hs₁'⟩ := hne (beginsBlank_of_blanks hs')
    exact .inl ⟨strLit_cons_of_ne hd hs₁ _, strLit_cons_of_ne hd' hs₁' _⟩

theorem builds_strLit (valued : Bool) (hf : after false) : Scanner.Builds valued strLit after := by
  intro s t r hs r' h
  obtain ⟨⟨q, u, hq, rfl, hu⟩, rfl⟩ := strLit_eq_some_iff.1 hs
  exact .literal hq hu (h false hf)

/-! ## Punctuation -/

theorem exactly_eq_none {c d : Char} (h : c ≠ d) (s : List Char) : exactly [d] (c :: s) = none := by
  simp [exactly, List.isPrefixOf, Ne.symm h]

theorem exactly_text {text s t r : List Char} (h : exactly text s = some (t, r)) : t = text := by
  unfold exactly at h
  split at h <;> cases h
  rfl

theorem ne_of_solid {c d : Char} (hc : isSolid c = true) (hd : isSolid d = false) : c ≠ d := by
  rintro rfl
  rw [hc] at hd
  cases hd

theorem ne_of_beginsBlank {c d : Char} (hc : beginsBlank c = true) (hd : beginsBlank d = false) :
    c ≠ d := by
  rintro rfl
  rw [hc] at hd
  cases hd

theorem ne_of_quote {c d : Char} (hc : c = doubleQuote ∨ c = singleQuote)
    (hd : d ≠ doubleQuote ∧ d ≠ singleQuote) : c ≠ d := by
  rintro rfl
  exact hc.elim hd.1 hd.2

theorem steady_equals (valued : Bool) (ht : after true) :
    Scanner.Steady valued (exactly ['=']) after := by
  intro s s' h
  cases h with
  | @equals _ r r' h => exact .inr ⟨['='], r, r', true, rfl, rfl, ht, h⟩
  | nil | brace | value => exact .inl ⟨rfl, rfl⟩
  | solid hc =>
    have hne := ne_of_solid hc (d := '=') rfl
    exact .inl ⟨exactly_eq_none hne _, exactly_eq_none hne _⟩
  | literal hq =>
    have hne := ne_of_quote hq (d := '=') (by decide)
    exact .inl ⟨exactly_eq_none hne _, exactly_eq_none hne _⟩
  | gap hs hs' =>
    exact .inl ⟨exactly_eq_none (ne_of_beginsBlank (beginsBlank_of_blanks hs) rfl) _,
      exactly_eq_none (ne_of_beginsBlank (beginsBlank_of_blanks hs') rfl) _⟩

theorem builds_equals (valued : Bool) (ht : after true) :
    Scanner.Builds valued (exactly ['=']) after := by
  intro s t r hs r' h
  have htext : t = ['='] := exactly_text hs
  obtain ⟨rfl, -⟩ := eats_exactly (by simp) hs
  subst htext
  exact .equals (h true ht)

/-- An opening brace that begins no value stands for itself. -/
theorem steady_openBrace (hf : after false) :
    Scanner.Steady false (exactly [openBrace]) after := by
  intro s s' h
  cases h with
  | @brace r r' h => exact .inr ⟨[openBrace], r, r', false, rfl, rfl, hf, h⟩
  | nil | equals => exact .inl ⟨rfl, rfl⟩
  | solid hc =>
    have hne := ne_of_solid hc (d := openBrace) rfl
    exact .inl ⟨exactly_eq_none hne _, exactly_eq_none hne _⟩
  | literal hq =>
    have hne := ne_of_quote hq (d := openBrace) (by decide)
    exact .inl ⟨exactly_eq_none hne _, exactly_eq_none hne _⟩
  | gap hs hs' =>
    exact .inl ⟨exactly_eq_none (ne_of_beginsBlank (beginsBlank_of_blanks hs) rfl) _,
      exactly_eq_none (ne_of_beginsBlank (beginsBlank_of_blanks hs') rfl) _⟩

theorem builds_openBrace (hf : after false) : Scanner.Builds false (exactly [openBrace]) after := by
  intro s t r hs r' h
  have htext : t = [openBrace] := exactly_text hs
  obtain ⟨rfl, -⟩ := eats_exactly (by simp) hs
  subst htext
  exact .brace (h false hf)

/-! ## Values in braces -/

theorem aggregate_eq_none {c : Char} (h : c ≠ openBrace) (s : List Char) :
    aggregate (c :: s) = none := by
  simp [aggregate, h]

/-- An opening brace behind an equals sign begins a value. -/
theorem steady_aggregate (hf : after false) : Scanner.Steady true aggregate after := by
  intro s s' h
  cases h with
  | @value g r r' hg h =>
    have hbraced : Braced (openBrace :: (g ++ [closeBrace])) := ⟨g, hg, rfl⟩
    have hr := aggregate_append hbraced r
    have hr' := aggregate_append hbraced r'
    simp only [List.cons_append, List.append_assoc, List.nil_append] at hr hr'
    exact .inr ⟨_, r, r', false, hr, hr', hf, h⟩
  | nil | equals => exact .inl ⟨rfl, rfl⟩
  | solid hc =>
    have hne := ne_of_solid hc (d := openBrace) rfl
    exact .inl ⟨aggregate_eq_none hne _, aggregate_eq_none hne _⟩
  | literal hq =>
    have hne := ne_of_quote hq (d := openBrace) (by decide)
    exact .inl ⟨aggregate_eq_none hne _, aggregate_eq_none hne _⟩
  | gap hs hs' =>
    exact .inl ⟨aggregate_eq_none (ne_of_beginsBlank (beginsBlank_of_blanks hs) rfl) _,
      aggregate_eq_none (ne_of_beginsBlank (beginsBlank_of_blanks hs') rfl) _⟩

theorem Aligned.of_braced {t s s' : List Char} (ht : Braced t) (h : Aligned false s s') :
    Aligned true (t ++ s) (t ++ s') := by
  obtain ⟨g, hg, rfl⟩ := ht
  simpa using Aligned.value hg h

/-! ## Words that a blank follows, and the end -/

theorem steady_before {scan : Scanner} {valued : Bool} (h : scan.Steady valued after)
    {accept : List Char → Bool} (ha : ∀ ⦃w r r'⦄, Aligned w r r' → accept r = accept r') :
    (before scan accept).Steady valued after := by
  intro s s' hal
  rcases h hal with ⟨hs, hs'⟩ | ⟨t, r, r', w, hs, hs', hw, hr⟩
  · exact .inl ⟨by rw [before, hs]; rfl, by rw [before, hs']; rfl⟩
  · cases hb : accept r with
    | true => exact .inr ⟨t, r, r', w, before_eq_some.2 ⟨hs, hb⟩,
        before_eq_some.2 ⟨hs', ha hr ▸ hb⟩, hw, hr⟩
    | false =>
      have hb' : accept r' = false := ha hr ▸ hb
      exact .inl ⟨by rw [before, hs]; simp [hb], by rw [before, hs']; simp [hb']⟩

/-- What may follow the word `stream` is seen from the first character alone. -/
theorem steady_stream (valued : Bool) (hf : after false) :
    Scanner.Steady valued stream after :=
  steady_before (steady_of_local (local_exactly (by decide))
    (eats_exactly (by decide)) valued hf) fun _ _ _ hr => hr.begins

theorem builds_stream (valued : Bool) (hf : after false) :
    Scanner.Builds valued stream after := fun _ _ _ hs =>
  builds_of_local (local_exactly (by decide))
    (eats_exactly (by decide)) valued hf (before_eq_some.1 hs).1

theorem steady_endOfInput (valued : Bool) (hf : after false) :
    Scanner.Steady valued endOfInput after := by
  intro s s' h
  cases h with
  | nil => exact .inr ⟨[], [], [], false, rfl, rfl, hf, .nil⟩
  | _ => exact .inl ⟨rfl, rfl⟩

theorem builds_endOfInput (valued : Bool) (hf : after false) :
    Scanner.Builds valued endOfInput after := by
  intro s t r hs r' h
  cases s with
  | nil =>
    cases hs
    cases h false hf
    exact .nil
  | cons c s => cases hs

end Scan

end MettaSchema
