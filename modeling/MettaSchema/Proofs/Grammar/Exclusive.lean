import MettaSchema.Proofs.Grammar.Predictive
import MettaSchema.Proofs.Grammar.Spelling

/-!
# Which statement begins here

A statement begins with a keyword of its own, or with a name that may be a keyword as well: a field
may have a type called `message`.  Yet no text is two statements at once, with one exception:
`option x = 1;` can be an option and a field.

* `Scan.word_exclusive` — a text begins with one keyword only.
* `Phrase.Needs`, `Phrase.Excludes` — a phrase needs a keyword; where one phrase is read another one
  cannot be.
* `Proto.field_excludes`, `Proto.groupField_excludes`, `Proto.enumValue_excludes` — fields and enum
  values are no other statements.
* `Proto.option_yields` — a field that is no option does not become one.
-/

namespace MettaSchema

open Scan

namespace Scan

/-! ## Keywords -/

theorem word_eq_some {text : String} {s t r : List Char} :
    word text s = some (t, r)
      ↔ t = text.toList ∧ s = text.toList ++ r ∧ startsWith isNameChar r = false := by
  rw [word, before_eq_some]
  constructor
  · rintro ⟨hscan, hr⟩
    obtain rfl := exactly_text hscan
    refine ⟨rfl, ?_, by simpa using hr⟩
    unfold exactly at hscan
    split at hscan
    · rename_i hpre
      obtain ⟨u, rfl⟩ := List.isPrefixOf_iff_prefix.1 hpre
      simp only [List.drop_left, Option.some.injEq, Prod.mk.injEq, true_and] at hscan
      rw [hscan]
    · cases hscan
  · rintro ⟨rfl, rfl, hr⟩
    have hpre : text.toList.isPrefixOf (text.toList ++ r) = true :=
      List.isPrefixOf_iff_prefix.2 (List.prefix_append _ r)
    exact ⟨by simp [exactly, hpre], by simp [hr]⟩

/-- A text begins with one keyword only. -/
theorem word_exclusive {a b : String} (ha : a.toList.all isNameChar = true)
    (hb : b.toList.all isNameChar = true) (hne : a ≠ b) {s : List Char}
    {taken : List Char × List Char} (h : word a s = some taken) : word b s = none := by
  cases hw : word b s with
  | none => rfl
  | some taken' =>
    obtain ⟨-, rfl, hr⟩ := word_eq_some.1 h
    obtain ⟨-, heq, hr'⟩ := word_eq_some.1 hw
    have hshort : ∀ {x y : String} {m r r' : List Char}, x.toList.all isNameChar = true → x ≠ y →
        x.toList = y.toList ++ m → r' = m ++ r → startsWith isNameChar r' = true := by
      rintro x y m r r' hx hxy hm rfl
      cases m with
      | nil => exact absurd (String.toList_injective (by simpa using hm)) hxy
      | cons c m => exact List.all_eq_true.1 hx c (by rw [hm]; simp)
    rcases List.append_eq_append_iff.1 heq with ⟨m, hm, hm'⟩ | ⟨m, hm, hm'⟩
    · rw [hshort hb hne.symm hm hm'] at hr
      cases hr
    · rw [hshort ha hne hm hm'] at hr'
      cases hr'

theorem oneOfWords_exclusive {texts : List String} {b : String}
    (htexts : ∀ a ∈ texts, a.toList.all isNameChar = true) (hb : b.toList.all isNameChar = true)
    (hmem : b ∉ texts) {s : List Char} {taken : List Char × List Char}
    (h : oneOfWords texts s = some taken) : word b s = none := by
  obtain ⟨a, ha, hword⟩ := List.exists_of_findSome?_eq_some h
  exact word_exclusive (htexts a ha) hb (by rintro rfl; exact hmem ha) hword

/-! ## Names -/

theorem takeWhile_run {p : Char → Bool} {w r : List Char} (hw : ∀ c ∈ w, p c = true)
    (hr : startsWith p r = false) : (w ++ r).takeWhile p = w ∧ (w ++ r).dropWhile p = r := by
  rw [List.takeWhile_append_of_pos hw, List.dropWhile_append_of_pos hw]
  cases r with
  | nil => simp
  | cons c r =>
    have hc : p c = false := hr
    simp [hc]

/-- A keyword is a name. -/
theorem ident_of_word {b : String} (hb : isName b.toList = true) {s t r : List Char}
    (h : word b s = some (t, r)) : ident s = some (t, r) := by
  obtain ⟨rfl, rfl, hr⟩ := word_eq_some.1 h
  cases hbt : b.toList with
  | nil =>
    rw [hbt] at hb
    cases hb
  | cons c w =>
    rw [hbt, isName, Bool.and_eq_true, List.all_eq_true] at hb
    obtain ⟨htake, hdrop⟩ := takeWhile_run hb.2 hr
    rw [List.cons_append, ident, if_pos hb.1, htake, hdrop]

/-- Behind a name, a dotted name goes on at a dot and a further name only. -/
theorem dottedTail_of_stop {r : List Char} (hr : startsWith isNameChar r = false) :
    dottedTail r = ([], r) ∨ ∃ x u r', r = '.' :: x ∧ dotted x = some (u, r')
      ∧ dottedTail r = ('.' :: u, r') := by
  cases r with
  | nil => exact .inl rfl
  | cons c x =>
    have hc : isNameChar c = false := hr
    by_cases hdot : (c == '.' && startsWith isNameStart x) = true
    · rw [Bool.and_eq_true, beq_iff_eq] at hdot
      obtain ⟨rfl, hx⟩ := hdot
      cases x with
      | nil => cases hx
      | cons d x =>
        have hd : isNameStart d = true := hx
        refine .inr ⟨d :: x, d :: (dottedTail x).1, (dottedTail x).2, rfl, ?_, ?_⟩
        · rw [dotted, if_pos hd]
          rfl
        · rw [dottedTail, startsWith, hd, dottedTail, isNameChar_of_isNameStart hd]
          rfl
    · rw [dottedTail, hc, Bool.false_or, if_neg hdot]
      exact .inl rfl

/-- A type name that begins with a keyword is the keyword, or it goes on behind a dot. -/
theorem typeName_of_word {b : String} (hb : isName b.toList = true) {s t r : List Char}
    (h : word b s = some (t, r)) : typeName s = some (t, r)
      ∨ ∃ x u r', r = '.' :: x ∧ typeName r = some (u, r') ∧ typeName s = some (t ++ u, r') := by
  obtain ⟨rfl, rfl, hr⟩ := word_eq_some.1 h
  cases hbt : b.toList with
  | nil =>
    rw [hbt] at hb
    cases hb
  | cons c w =>
    have hc := hb
    rw [hbt, isName, Bool.and_eq_true, List.all_eq_true] at hc
    have hdot : c ≠ '.' := by
      rintro rfl
      exact absurd hc.1 (by decide)
    have htype : typeName (c :: w ++ r) = some (c :: (w ++ (dottedTail r).1), (dottedTail r).2) := by
      rw [List.cons_append, typeName, if_neg hdot, dotted, if_pos hc.1, 
        dottedTail_append_of_eq (dottedTail_of_nameChars hc.2)]
      rfl
    rw [htype]
    rcases dottedTail_of_stop hr with heq | ⟨x, u, r', rfl, hx, heq⟩
    · rw [heq, List.append_nil]
      exact .inl rfl
    · refine .inr ⟨x, '.' :: u, r', rfl, ?_, by rw [heq]; rfl⟩
      rw [typeName, if_pos rfl, hx]
      rfl

/-- A name is taken up to a character that cannot stand in a name. -/
theorem ident_eq_some {s t r : List Char} (h : ident s = some (t, r)) :
    isName t = true ∧ s = t ++ r ∧ startsWith isNameChar r = false := by
  cases s with
  | nil => cases h
  | cons c s =>
    simp only [ident] at h
    split at h
    · rename_i hc
      cases h
      refine ⟨?_, by simp, ?_⟩
      · rw [isName, hc, Bool.true_and]
        exact List.all_takeWhile
      · have hhead := List.head?_dropWhile_not isNameChar s
        cases hd : s.dropWhile isNameChar with
        | nil => rfl
        | cons d r => simpa [hd, startsWith] using hhead
    · cases h

/-- A name is the whole type name if no dot follows it. -/
theorem typeName_of_ident {s t r : List Char} (h : ident s = some (t, r))
    (hr : startsWith (· == '.') r = false) : typeName s = some (t, r) := by
  obtain ⟨hname, rfl, hstop⟩ := ident_eq_some h
  have hword : word (String.ofList t) (t ++ r) = some (t, r) :=
    word_eq_some.2 ⟨by simp, by simp, hstop⟩
  rcases typeName_of_word (by simpa using hname) hword with htype | ⟨x, _, _, rfl, -⟩
  · exact htype
  · cases hr

/-- A name is the whole name of an option if no dot follows it. -/
theorem optionName_of_ident {s t r : List Char} (h : ident s = some (t, r))
    (hr : startsWith (· == '.') r = false) : optionName s = some (t, r) := by
  have hpart : optionPart s = some (t, r) := by
    cases s with
    | nil => cases h
    | cons c s =>
      have hc : c ≠ '(' := by
        rintro rfl
        cases h
      rw [optionPart, if_neg hc, h]
  have htail : optionTail r r = ([], r) := by
    cases r with
    | nil => rfl
    | cons c r =>
      have hc : c ≠ '.' := by simpa [startsWith] using hr
      rw [optionTail, if_neg hc]
  simp [optionName, hpart, htail]

/-- In front of an equals sign there is no dot. -/
theorem no_dot_of_equals {r x : List Char} (h : (blanks r).2 = '=' :: x) :
    startsWith (· == '.') r = false := by
  cases r with
  | nil => rfl
  | cons c r =>
    by_cases hc : c = '.'
    · subst hc
      rw [blanks_of_head rfl] at h
      cases h
    · simpa [startsWith] using hc

end Scan

namespace Phrase

open Proto

/-! ## Phrases that need a keyword -/

/-- Without the keyword the phrase cannot be read. -/
def Needs (text : String) (p : Phrase) : Prop :=
  ∀ ⦃s : List Char⦄, word text s = none → Reads false p s none

theorem needs_keyword {rule : Rule} {text : String} {p : Phrase} :
    (seq (keyword rule text) p).Needs text :=
  fun _ hs => .seq_first (.token_none hs)

theorem Needs.node {rule : Rule} {text : String} {p : Phrase} (h : p.Needs text) :
    (Phrase.node rule p).Needs text :=
  fun _ hs => .node_none (h hs)

variable {p q p' q' : Phrase} {a b : String}

/-- Phrases that need different keywords are not both there. -/
theorem Needs.excludes (hq : q.Needs a) (hp : p.Needs b) (ha : a.toList.all isNameChar = true)
    (hb : b.toList.all isNameChar = true) (hne : a ≠ b) : q.Excludes p := by
  intro s taken _ hreads
  cases hword : word a s with
  | none => cases (hq hword).unique hreads
  | some taken => exact hp (word_exclusive ha hb hne hword)

/-- Of phrases with keywords of their own, at most one is there. -/
theorem pairwise_excludes {ps : List (Phrase × String)}
    (h : ∀ x ∈ ps, x.1.Needs x.2 ∧ x.2.toList.all isNameChar = true)
    (hnodup : (ps.map (·.2)).Nodup) : (ps.map (·.1)).Pairwise fun p q => q.Excludes p := by
  rw [List.pairwise_map]
  rw [List.Nodup, List.pairwise_map] at hnodup
  refine hnodup.imp_of_mem fun {x y} hx hy hne => ?_
  exact (h y hy).1.excludes (h x hx).1 (h y hy).2 (h x hx).2 hne.symm

/-! ## Phrases that exclude others -/

theorem Excludes.node_left {rule : Rule} (h : q.Excludes p) : (Phrase.node rule q).Excludes p := by
  intro s taken hs hreads
  cases hreads with | node_some hreads =>
  exact h hs hreads

theorem Excludes.node {rule rule' : Rule} (h : q.Excludes p) :
    (Phrase.node rule q).Excludes (.node rule' p) := by
  refine Excludes.node_left fun s taken hs hreads => ?_
  exact .node_none (h hs hreads)

/-- A phrase that excludes another one excludes it as well if more stands behind it. -/
theorem Excludes.seq_left (h : q.Excludes p) : (Phrase.seq q q').Excludes p := by
  intro s taken hs hreads
  cases hreads with | seq_both hreads =>
  exact h hs hreads

/-- Behind the same phrase two phrases exclude each other as they do on their own. -/
theorem Excludes.seq_right (h : q.Excludes p) : (Phrase.seq q' q).Excludes (.seq q' p) := by
  intro s taken hs hreads
  cases hreads with | @seq_both _ _ _ s₁ _ _ _ h₁ h₂ =>
  exact .seq_second h₁ (h (blanks_snd s₁) h₂)

/-- Punctuation excludes what is blocked by it. -/
theorem mark_excludes {c : Char} (h : ∀ x, p.blocked (c :: x) = true) :
    (mark (exactly [c])).Excludes p := by
  intro s taken hs hreads
  cases hreads with | mark_some hscan =>
  obtain ⟨-, rfl⟩ := exactly_eq_some hscan
  exact reads_none_of_blocked hs (h _)

/-- A name excludes what is blocked by the first character of a name. -/
theorem ident_excludes (h : ∀ ⦃c⦄, isNameStart c = true → ∀ x, p.blocked (c :: x) = true) :
    Proto.ident.Excludes p := by
  intro s taken hs hreads
  cases hreads with | @token_some _ _ _ t r hscan =>
  cases s with
  | nil => cases hscan
  | cons c x =>
    obtain ⟨hname, heq, -⟩ := ident_eq_some hscan
    cases t with
    | nil => cases hname
    | cons d t =>
      obtain ⟨rfl, -⟩ := List.cons.inj heq
      rw [isName, Bool.and_eq_true] at hname
      exact reads_none_of_blocked hs (h hname.1 x)

/-- A name and what follows it are not a keyword if what follows that is not there. -/
theorem ident_excludes_keyword {rule : Rule} (hb : isName b.toList = true) (h : q.Excludes p) :
    (Phrase.seq Proto.ident q).Excludes (.seq (keyword rule b) p) := by
  intro s taken hs hreads
  cases hreads with | @seq_both _ _ _ s₁ _ _ _ h₁ h₂ =>
  cases hword : word b s with
  | none => exact .seq_first (.token_none hword)
  | some taken =>
    obtain ⟨t, r⟩ := taken
    cases h₁ with | token_some hscan =>
    rw [ident_of_word hb hword] at hscan
    cases hscan
    exact .seq_second (.token_some hword) (h (blanks_snd s₁) h₂)

/-- A type name and what follows it are not a keyword if what follows that is not there, neither
behind the type name nor at a dot. -/
theorem typeName_excludes_keyword {rule : Rule} (hb : isName b.toList = true) (h : q.Excludes p)
    (hdot : ∀ ⦃x u r taken⦄, typeName ('.' :: x) = some (u, r) →
      Reads false q (blanks r).2 (some taken) → Reads false p ('.' :: x) none) :
    (Phrase.seq Proto.typeName q).Excludes (.seq (keyword rule b) p) := by
  intro s taken hs hreads
  cases hreads with | @seq_both _ _ _ s₁ _ _ _ h₁ h₂ =>
  cases hword : word b s with
  | none => exact .seq_first (.token_none hword)
  | some taken =>
    obtain ⟨t, r⟩ := taken
    cases h₁ with | token_some hscan =>
    refine .seq_second (.token_some hword) ?_
    rcases typeName_of_word hb hword with htype | ⟨x, u, r', rfl, hx, htype⟩
    · rw [htype] at hscan
      cases hscan
      exact h (blanks_snd s₁) h₂
    · rw [htype] at hscan
      cases hscan
      rw [blanks_of_head rfl]
      exact hdot hx h₂

/-- A phrase behind a label excludes what needs a keyword that is no label. -/
theorem label_excludes (hb : b ∉ ["optional", "required", "repeated"])
    (hname : b.toList.all isNameChar = true) (hp : p.Needs b) (h : q.Excludes p) :
    (Phrase.seq (.opt label) q).Excludes p := by
  intro s taken hs hreads
  cases hreads with | seq_both h₁ h₂ =>
  cases h₁ with
  | opt_none =>
    rw [hs] at h₂
    exact h hs h₂
  | opt_some hlabel =>
    cases hlabel with | token_some hscan =>
    exact hp (oneOfWords_exclusive (by decide) hname hb hscan)

end Phrase

namespace Proto

open Phrase

/-! ## Fields -/

/-- What stands behind the type of a field. -/
def fieldTail : Phrase :=
  sequence [ident, punct "=", intLit, opt fieldOptions, punct ";"]

/-- Behind the type of a field stand a name, an equals sign, a number and options. -/
theorem fieldTail_inv {s r : List Char} {trees : List Tree}
    (h : Reads false fieldTail s (some (trees, r))) :
    ∃ name r₁ x number r₂ more, Scan.ident s = some (name, r₁) ∧ (blanks r₁).2 = '=' :: x
      ∧ Scan.intLit (blanks x).2 = some (number, r₂)
      ∧ Reads false (seq (opt fieldOptions) (punct ";")) (blanks r₂).2 (some (more, r))
      ∧ Tree.skeletonAll trees
        = .token .ident name :: .token .intLit number :: Tree.skeletonAll more := by
  cases h with | seq_both h₁ h₂ =>
  cases h₁ with | token_some hname =>
  cases h₂ with | seq_both h₂ h₃ =>
  cases h₂ with | mark_some hequals =>
  cases h₃ with | seq_both h₃ h₄ =>
  cases h₃ with | token_some hnumber =>
  refine ⟨_, _, _, _, _, _, hname, (exactly_eq_some hequals).2, hnumber, h₄, ?_⟩
  simp [Tree.skeletonAll, Tree.skeleton]

theorem fieldTail_excludes {p : Phrase}
    (h : ∀ ⦃c⦄, isNameStart c = true → ∀ x, p.blocked (c :: x) = true) : fieldTail.Excludes p :=
  (ident_excludes h).seq_left

/-- A field is no statement with a keyword, if what follows the type of the field does not follow
the keyword. -/
theorem field_excludes_keyword {rule rule' : Rule} {b : String} {p : Phrase}
    (hlabel : b ∉ ["optional", "required", "repeated"]) (hb : isName b.toList = true)
    (h : fieldTail.Excludes p)
    (hdot : ∀ ⦃x u r taken⦄, Scan.typeName ('.' :: x) = some (u, r) →
      Reads false fieldTail (blanks r).2 (some taken) → Reads false p ('.' :: x) none) :
    field.Excludes (node rule (seq (keyword rule' b) p)) := by
  have hchars : b.toList.all isNameChar = true := List.all_eq_true.2 (isNameChar_of_isName hb)
  exact (label_excludes hlabel hchars needs_keyword (typeName_excludes_keyword hb h hdot)).node

theorem reads_none_at_dot {p : Phrase} {x : List Char} (h : p.blocked ('.' :: x) = true) :
    Reads false p ('.' :: x) none :=
  reads_none_of_blocked (blanks_of_head rfl) h

theorem intLit_eq_none {c : Char} (hc : isNameStart c = true) (x : List Char) :
    Scan.intLit (c :: x) = none := by
  have hdash : c ≠ '-' := by rintro rfl; cases hc
  have hzero : c ≠ '0' := by rintro rfl; cases hc
  have hdigit : c.isDigit = false := by
    by_cases hline : c = '_'
    · subst hline
      decide
    · have halpha : c.isAlpha = true := by simpa [isNameStart, hline] using hc
      have hletter : c.isAlpha = (decide (65 ≤ c.val ∧ c.val ≤ 90)
          || (decide (97 ≤ c.val) && decide (c.val ≤ 122))) := rfl
      grind [Char.isDigit]
  simp [Scan.intLit, before, signed, magnitude, hdash, hzero, hdigit]

theorem strLit_eq_none {c : Char} (hc : isNameStart c = true) (x : List Char) :
    Scan.strLit (c :: x) = none :=
  strLit_cons_of_ne (by rintro rfl; cases hc) (by rintro rfl; cases hc) x

theorem exactly_none_of_nameStart {c d : Char} (hd : isNameStart d = false)
    (hc : isNameStart c = true) (x : List Char) : exactly [d] (c :: x) = none :=
  exactly_eq_none (by rintro rfl; rw [hc] at hd; cases hd) x

/-- Reserved names go on behind a comma only. -/
theorem field_excludes_reserved : field.Excludes reserved := by
  refine field_excludes_keyword (by decide) (by decide) ?_ fun x _ _ _ _ _ => ?_
  · intro s taken hs hreads
    obtain ⟨t, r, x, _, _, _, hident, hr, -⟩ := fieldTail_inv hreads
    have hranges : Reads false ranges s none :=
      ident_excludes (fun c hc x => by
        simp [blocked, ranges, separated, range, intLit, intLit_eq_none hc]) hs (.token_some hident)
    have hname : Reads false ident s _ := .token_some hident
    have hquoted : Reads false strLit s none :=
      ident_excludes (fun c hc x => by
        simp [blocked, strLit, strLit_eq_none hc]) hs hname
    have hequals : blanks ('=' :: x) = ([], '=' :: x) := blanks_of_head rfl
    have hmore : Reads false (star (seq (punct ",") (choice [strLit, ident]))) ('=' :: x)
        (some ([], '=' :: x)) := .star_none (.seq_first (.mark_none rfl))
    have hnames : Reads false reservedNames s _ :=
      .node_some (.seq_both (.alt_second hquoted (.token_some hident)) (by rw [hr]; exact hmore))
    refine .seq_second (.alt_second hranges hnames) ?_
    rw [hequals]
    exact .mark_none rfl
  · exact reads_none_at_dot rfl

theorem field_excludes_extensions : field.Excludes extensions := by
  refine field_excludes_keyword (by decide) (by decide) ?_ fun x _ _ _ _ _ => ?_
  · exact fieldTail_excludes fun c hc x => by
      simp [blocked, Phrase.sequence, ranges, separated, range, intLit, intLit_eq_none hc]
  · exact reads_none_at_dot rfl

/-- What stands in braces behind a name stands there without an equals sign. -/
theorem field_excludes_named {rule rule' : Rule} {b : String} {p : Phrase}
    (hlabel : b ∉ ["optional", "required", "repeated"]) (hb : isName b.toList = true)
    (h : ∀ x, p.blocked ('=' :: x) = true) :
    field.Excludes (node rule (seq (keyword rule' b) (seq ident p))) :=
  field_excludes_keyword hlabel hb (Excludes.seq_left (mark_excludes h)).seq_right
    fun _ _ _ _ _ _ => reads_none_at_dot rfl

theorem field_excludes_messageDef : field.Excludes messageDef :=
  field_excludes_named (by decide) (by decide) fun _ => rfl

theorem field_excludes_enumDef : field.Excludes enumDef :=
  field_excludes_named (by decide) (by decide) fun _ => rfl

theorem field_excludes_oneofDef : field.Excludes oneofDef :=
  field_excludes_named (by decide) (by decide) fun _ => rfl

/-- The extended type ends where the name of a field does. -/
theorem field_excludes_extendDef : field.Excludes extendDef := by
  refine field_excludes_keyword (by decide) (by decide) ?_ fun x u r taken hx hreads => ?_
  · intro s taken hs hreads
    obtain ⟨t, r, x, _, _, _, hident, hr, -⟩ := fieldTail_inv hreads
    have htype := typeName_of_ident hident (no_dot_of_equals hr)
    refine .seq_second (.token_some htype) (.seq_first ?_)
    rw [hr]
    exact .mark_none rfl
  · refine .seq_second (.token_some hx) (fieldTail_excludes (fun c hc y => ?_) (blanks_snd r) hreads)
    have hbrace : exactly [Scan.openBrace] (c :: y) = none := exactly_none_of_nameStart rfl hc y
    simp [blocked, Phrase.sequence, openBrace, hbrace]

theorem field_excludes_mapField : field.Excludes mapField := by
  refine field_excludes_keyword (by decide) (by decide) ?_ fun x _ _ _ _ _ => ?_
  · refine fieldTail_excludes fun c hc x => ?_
    have hangle : exactly ['<'] (c :: x) = none := exactly_none_of_nameStart rfl hc x
    simp [blocked, Phrase.sequence, punct, hangle]
  · exact reads_none_at_dot rfl

/-- A field ends in a semicolon, and a group in a body. -/
theorem field_excludes_groupField : field.Excludes groupField := by
  have htail : fieldTail.Excludes (sequence [ident, punct "=", intLit, opt fieldOptions, body]) :=
    Excludes.seq_right (Excludes.seq_right (Excludes.seq_right (Excludes.seq_right (mark_excludes fun x => rfl))))
  have hkind : (Phrase.seq Proto.typeName fieldTail).Excludes (.seq (keyword .kwGroup "group") _) :=
    typeName_excludes_keyword (by decide) htail fun x _ _ _ _ _ => reads_none_at_dot rfl
  exact hkind.seq_right.node

/-! ## Groups, enum values and empty statements -/

/-- The keyword of a group, or the label in front of it, is no other keyword. -/
theorem groupField_excludes {p : Phrase} {b : String}
    (hb : b ∉ ["group", "optional", "required", "repeated"])
    (hname : b.toList.all isNameChar = true) (hp : p.Needs b) : groupField.Excludes p := by
  have hlabel : b ∉ ["optional", "required", "repeated"] := fun h => hb (.tail _ h)
  have hgroup : "group" ≠ b := by
    rintro rfl
    exact hb (.head _)
  have hkind : ∀ q, (seq (keyword .kwGroup "group") q).Excludes p := fun q =>
    needs_keyword.excludes hp (by decide) hname hgroup
  exact (label_excludes hlabel hname hp (hkind _)).node_left

/-- Behind the name of an enum value stands an equals sign. -/
theorem enumValue_excludes {rule rule' : Rule} {b : String} {p : Phrase}
    (hb : isName b.toList = true) (h : ∀ x, p.blocked ('=' :: x) = true) :
    enumValue.Excludes (node rule (seq (keyword rule' b) p)) :=
  (ident_excludes_keyword hb (Excludes.seq_left (mark_excludes h))).node

/-! ## Options and fields -/

theorem dottedTail_stop (s : List Char) : startsWith isNameChar (dottedTail s).2 = false := by
  induction s with
  | nil => rfl
  | cons c s ih =>
    rw [dottedTail]
    split
    · exact ih
    · rename_i hc
      rw [Bool.or_eq_true, not_or, Bool.not_eq_true] at hc
      exact hc.1

theorem dotted_stop {s t r : List Char} (h : dotted s = some (t, r)) :
    startsWith isNameChar r = false := by
  cases s with
  | nil => cases h
  | cons c s =>
    simp only [dotted] at h
    split at h
    · obtain ⟨-, rfl⟩ := Prod.mk.inj (Option.some.inj h)
      exact dottedTail_stop s
    · cases h

theorem typeName_stop {s t r : List Char} (h : Scan.typeName s = some (t, r)) :
    startsWith isNameChar r = false := by
  cases s with
  | nil => cases h
  | cons c s =>
    simp only [Scan.typeName] at h
    split at h
    · obtain ⟨u, hu, -⟩ := map_push_eq_some.1 h
      exact dotted_stop hu
    · exact dotted_stop h

/-- An integer is no other constant. -/
theorem constant_of_intLit {s t r : List Char} (h : Scan.intLit s = some (t, r)) :
    Reads false constant s (some ([.node .constant [.token .intLit t]], r)) := by
  have hother : Scan.aggregate s = none ∧ Scan.strLit s = none := by
    cases s with
    | nil => exact ⟨rfl, rfl⟩
    | cons c x =>
      have hbrace : c ≠ Scan.openBrace := by rintro rfl; cases h
      have hdouble : c ≠ doubleQuote := by rintro rfl; cases h
      have hsingle : c ≠ singleQuote := by rintro rfl; cases h
      exact ⟨aggregate_eq_none hbrace x, strLit_cons_of_ne hdouble hsingle x⟩
  exact .node_some (.alt_second (.token_none hother.1)
    (.alt_second (.seq_first (.token_none hother.2)) (.alt_first (.token_some h))))

/-- A field has no options exactly if the semicolon comes at once. -/
theorem optionsTail_inv {s r : List Char} {trees : List Tree} (hs : blanks s = ([], s))
    (h : Reads false (seq (opt fieldOptions) (punct ";")) s (some (trees, r))) :
    Tree.skeletonAll trees = [] ↔ ∃ x, s = ';' :: x := by
  cases h with | seq_both h₁ h₂ =>
  cases h₁ with
  | opt_none hnone =>
    rw [hs] at h₂
    cases h₂ with | mark_some hmark =>
    exact iff_of_true (by simp [Tree.skeletonAll, Tree.skeleton])
      ⟨_, (exactly_eq_some (c := ';') hmark).2⟩
  | opt_some hsome =>
    constructor
    · intro hskeleton
      cases hsome with | node_some =>
      simp [Tree.skeletonAll, Tree.skeleton] at hskeleton
    · rintro ⟨x, rfl⟩
      have hnone : Reads false fieldOptions (';' :: x) none := reads_none_of_blocked hs rfl
      cases hnone.unique hsome

/-- A field of the type `option` with neither a label nor options is an option as well. -/
theorem option_of_bareField {s r name number : List Char} {trees : List Tree}
    (hs : blanks s = ([], s)) (h : Reads false field s (some (trees, r)))
    (hbare : Tree.skeletonAll trees = bareField name number) :
    ∃ taken, Reads false optionStatement s (some taken) := by
  cases h with | node_some h =>
  cases h with | seq_both h₁ h₂ =>
  cases h₁ with
  | opt_some h =>
    cases h with | token_some h =>
    simp [bareField, Tree.skeletonAll, Tree.skeleton] at hbare
  | opt_none =>
    rw [hs] at h₂
    cases h₂ with | @seq_both _ _ _ r₀ _ _ _ h₂ h₃ =>
    cases h₂ with | @token_some _ _ _ t _ htype =>
    obtain ⟨u, r₁, x, n, r₂, more, hname, hequals, hnumber, hend, hskeleton⟩ := fieldTail_inv h₃
    simp only [bareField, Tree.skeletonAll, Tree.skeleton, Tree.skeletonAll_append,
      Tree.skeletonAll_ofBlanks, hskeleton, hs, List.append_nil, List.nil_append, List.cons_append,
      List.cons.injEq, Tree.node.injEq, Tree.token.injEq, true_and, and_true] at hbare
    obtain ⟨rfl, -, -, hmore⟩ := hbare
    obtain ⟨y, hsemicolon⟩ := (optionsTail_inv (blanks_snd r₂) hend).1 hmore
    have hword : word "option" s = some ("option".toList, r₀) :=
      word_eq_some.2 ⟨rfl, (eats_typeName htype).1.symm, typeName_stop htype⟩
    have hoptionName := optionName_of_ident hname (no_dot_of_equals hequals)
    have hlast : Reads false (punct ";") (blanks r₂).2 (some ([.mark [';']], y)) := by
      rw [hsemicolon]
      exact .mark_some rfl
    have hmark : Reads false (punct "=") (blanks r₁).2 (some ([.mark ['=']], x)) := by
      rw [hequals]
      exact .mark_some rfl
    exact ⟨_, .node_some (.seq_both (.token_some hword) (.seq_both (.token_some hoptionName)
      (.seq_both hmark (.seq_both (constant_of_intLit hnumber) hlast))))⟩

/-- A field that is an option as well has the type `option`, no label and no options. -/
theorem bareField_of_option {s r : List Char} {trees : List Tree} {taken : List Tree × List Char}
    (hs : blanks s = ([], s)) (h : Reads false field s (some (trees, r)))
    (hoption : Reads false optionStatement s (some taken)) :
    ∃ name number, Tree.skeletonAll trees = bareField name number := by
  cases hoption with | node_some hoption =>
  cases hoption with | seq_both ho₁ ho₂ =>
  cases ho₁ with | token_some hword =>
  cases ho₂ with | seq_both ho₂ ho₃ =>
  cases ho₂ with | @token_some _ _ _ name _ hoptionName =>
  cases ho₃ with | seq_both ho₃ ho₄ =>
  cases ho₃ with | mark_some hmark =>
  cases ho₄ with | seq_both ho₄ ho₅ =>
  cases ho₅ with | mark_some hsemicolon =>
  have hequals' := (exactly_eq_some (c := '=') hmark).2
  have hsemicolon' := (exactly_eq_some (c := ';') hsemicolon).2
  cases h with | node_some h =>
  cases h with | seq_both h₁ h₂ =>
  cases h₁ with
  | opt_some h =>
    cases h with | token_some hlabel =>
    have hnone : word "option" s = none :=
      oneOfWords_exclusive (by decide) (by decide) (by decide) hlabel
    rw [hnone] at hword
    cases hword
  | opt_none =>
    rw [hs] at h₂
    cases h₂ with | seq_both h₂ h₃ =>
    cases h₂ with | token_some htype =>
    obtain ⟨u, r₁, x, n, r₂, more, hname, hequals, hnumber, hend, hskeleton⟩ := fieldTail_inv h₃
    rcases typeName_of_word (by decide) hword with htype' | ⟨y, _, _, rfl, -, -⟩
    · rw [htype'] at htype
      cases htype
      rw [optionName_of_ident hname (no_dot_of_equals hequals)] at hoptionName
      cases hoptionName
      rw [hequals] at hequals'
      cases hequals'
      cases ho₄.unique (constant_of_intLit hnumber)
      have hmore := (optionsTail_inv (blanks_snd _) hend).2 ⟨_, hsemicolon'⟩
      refine ⟨name, n, ?_⟩
      simp only [Tree.skeletonAll, Tree.skeleton, Tree.skeletonAll_append,
        Tree.skeletonAll_ofBlanks, hskeleton, hmore, bareField, (word_eq_some.1 hword).1,
        List.append_nil, List.nil_append, List.cons_append]
    · rw [blanks_of_head rfl] at hoptionName
      cases hoptionName

/-- No tree that is read is a field. -/
def NoField (q : Phrase) : Prop :=
  ∀ ⦃s r : List Char⦄ ⦃trees : List Tree⦄, Reads false q s (some (trees, r)) →
    ∀ parts, Tree.skeletonAll trees ≠ [.node .field parts]

theorem noField_node {rule : Rule} {p : Phrase} (hrule : rule ≠ .field) : NoField (node rule p) := by
  intro s r trees h parts heq
  cases h with | node_some h =>
  simp only [Tree.skeletonAll, Tree.skeleton, List.append_nil, List.cons.injEq, Tree.node.injEq] at heq
  exact hrule heq.1.1

theorem noField_mark {scan : Scanner} : NoField (mark scan) := by
  intro s r trees h parts heq
  cases h with | mark_some h =>
  cases heq

/-- A field that is no option does not become one. -/
theorem option_yields {tame : Prop} {k : Char → Bool} {ps : List Phrase}
    (h : ∀ q ∈ ps, q = field ∨ q.Excludes optionStatement ∧ NoField q) :
    optionStatement.Yields tame k (choice ps) := by
  intro s s' trees trees' r r' hnone hreads hreads' _ hs hs' hskeleton
  have houtcome := read_reads (sound_messageElement.1.1 : optionStatement.Sound) s'
  cases hread : read optionStatement s' with
  | none => exact hread ▸ houtcome
  | some taken =>
    rw [hread] at houtcome
    exfalso
    obtain ⟨q', hq', hreads'⟩ := choice_reads hreads'
    rcases h q' hq' with rfl | ⟨hexcludes, -⟩
    · obtain ⟨name, number, hbare⟩ := bareField_of_option hs'.blanks_eq hreads' houtcome
      have hbare' := hskeleton name number hbare
      obtain ⟨q, hq, hreads⟩ := choice_reads hreads
      rcases h q hq with rfl | ⟨-, hfield⟩
      · obtain ⟨_, hoption⟩ := option_of_bareField hs.blanks_eq hreads hbare'
        cases hnone.unique hoption
      · exact hfield hreads _ hbare'
    · cases (hexcludes hs'.blanks_eq hreads').unique houtcome

end Proto

end MettaSchema
