import MettaSchema.Proofs.Grammar.Aligned
import MettaSchema.Proofs.Grammar.Tails
import MettaSchema.Proofs.Grammar.Words

/-!
# Phrases that can be told from their first characters

What a character of the next token says about a phrase: whether it is there, and which of its
branches is.  Together with where a statement ends this fixes how a text is read, whatever stands
further on.

* `Follow` — what may stand behind a phrase.
* `Scanner.Predicts`, `Phrase.Predicts` — the next character says how to go on with the phrase, and
  whether to go on.
* `Phrase.FailsAt`, `Phrase.Declines`, `Phrase.Yields` — the branches that are not taken are not
  taken in front of another text that begins alike either.
-/

namespace MettaSchema

open Scan

/-! ## What stands behind a phrase -/

/-- What may stand behind a phrase. -/
inductive Follow where
  /-- Anything. -/
  | any
  /-- Behind blanks, a character of a class. -/
  | opens (k : Char → Bool)

namespace Follow

/-- The text may stand behind the phrase. -/
def Holds : Follow → List Char → Prop
  | any, _ => True
  | opens k, s => Opens k (blanks s).2

/-- The second text can take the place of the first one behind the phrase. -/
def Keeps (tame : Prop) : Follow → List Char → List Char → Prop
  | any, s, s' => Calm tame s s'
  | opens _, s, s' => Strays tame s s'

variable {tame : Prop} {w : Follow} {s s' : List Char}

theorem Keeps.refl (w : Follow) (s : List Char) : w.Keeps tame s s := by
  cases w with
  | any => exact Calm.refl s
  | opens k => exact .inl rfl

theorem Keeps.calm (h : w.Keeps tame s s') : Calm tame s s' := by
  cases w with
  | any => exact h
  | opens k => exact Strays.calm h

end Follow

/-! ## Phrases -/

/-- The skeleton of a field that could be an option: it has the type `option`, no label and no
options of its own. -/
def Proto.bareField (name number : List Char) : List Tree :=
  [.node .field [.token .typeName "option".toList, .token .ident name, .token .intLit number]]

/-- What the scanner takes begins with a character of the class, and the scanner takes it from
every text with a rest that can take the place of the rest here. -/
def Scanner.Predicts (tame : Prop) (scan : Scanner) (k : Char → Bool) (w : Follow) : Prop :=
  ∀ ⦃s t r r' : List Char⦄, scan s = some (t, r) → w.Keeps tame r r' →
    scan (t ++ r') = some (t, r') ∧ Opens k s ∧ Strays tame s (t ++ r')

namespace Phrase

/-- In front of a character of the class the phrase cannot be read. -/
def FailsAt (k : Char → Bool) (p : Phrase) : Prop :=
  ∀ ⦃s : List Char⦄, Opens k s → Proto.Reads false p s none

/-- Where the phrase cannot be read in front of a character of the class, it cannot be read in front
of the same text with another rest. -/
def Declines (tame : Prop) (k : Char → Bool) (p : Phrase) : Prop :=
  ∀ ⦃s s' : List Char⦄, Proto.Reads false p s none → Strays tame s s' → Opens k s → Opens k s' →
    Proto.Reads false p s' none

/-- Where the first phrase cannot be read and the second one can, the first one cannot be read
after an edit either.  A field that could be an option after the edit could be one before. -/
def Yields (tame : Prop) (k : Char → Bool) (p q : Phrase) : Prop :=
  ∀ ⦃s s' : List Char⦄ ⦃trees trees' : List Tree⦄ ⦃r r' : List Char⦄, Proto.Reads false p s none →
    Proto.Reads false q s (some (trees, r)) → Proto.Reads false q s' (some (trees', r')) →
    Strays tame s s' → Opens k s → Opens k s' →
    (∀ name number, Tree.skeletonAll trees' = Proto.bareField name number →
      Tree.skeletonAll trees = Proto.bareField name number) →
    Proto.Reads false p s' none

/-- The next character says how to go on with the phrase, and whether to go on.  What is read as the
phrase begins with a character of the class, and what stands behind it is as asked. -/
inductive Predicts (tame : Prop) : Phrase → (Char → Bool) → Follow → Prop
  /-- A mark. -/
  | mark {scan : Scanner} {k : Char → Bool} {w : Follow} (h : scan.Predicts tame k w) :
      Predicts tame (.mark scan) k w
  /-- A token. -/
  | token {rule : Rule} {scan : Scanner} {k : Char → Bool} {w : Follow}
      (h : scan.Predicts tame k w) : Predicts tame (.token rule scan) k w
  /-- A value in braces. -/
  | value {k : Char → Bool} {w : Follow} (hk : k openBrace = true) :
      Predicts tame (.token .aggregate aggregate) k w
  /-- A composite rule of the grammar. -/
  | node {rule : Rule} {p : Phrase} {k : Char → Bool} {w : Follow}
      (hrule : Proto.phrase rule = .node rule p) (h : Predicts tame p k w) :
      Predicts tame (.node rule p) k w
  /-- One phrase behind another. -/
  | seq {p q : Phrase} {k l m : Char → Bool} {w : Follow} (hp : Predicts tame p k (.opens l))
      (hl : ∀ c, m c = true → l c = true) (hq : Predicts tame q m w) : Predicts tame (.seq p q) k w
  /-- One of two phrases. -/
  | alt {p q : Phrase} {k l m : Char → Bool} {w : Follow} (hp : Predicts tame p l w)
      (hl : ∀ c, l c = true → k c = true) (hq : Predicts tame q m w)
      (hm : ∀ c, m c = true → k c = true) (hyields : p.Yields tame m q) :
      Predicts tame (.alt p q) k w
  /-- A phrase or nothing. -/
  | opt {p : Phrase} {k l m : Char → Bool} (hp : Predicts tame p l (.opens m))
      (hl : ∀ c, l c = true → k c = true) (hm : ∀ c, m c = true → k c = true)
      (hdeclines : p.Declines tame m) : Predicts tame (.opt p) k (.opens m)
  /-- A phrase any number of times. -/
  | star {p : Phrase} {k l m n : Char → Bool} {w : Follow} (hp : Predicts tame p l w)
      (hw : w = .any ∨ w = .opens n) (hl : ∀ c, l c = true → n c = true)
      (hm : ∀ c, m c = true → n c = true) (hn : ∀ c, n c = true → k c = true)
      (hfails : p.FailsAt m) : Predicts tame (.star p) k (.opens m)
  /-- The body of a message. -/
  | body {k : Char → Bool} {w : Follow} (hk : k openBrace = true) : Predicts tame .body k w

/-- The phrase itself, or what is left of a repetition of it. -/
def run (further : Bool) (p : Phrase) : Phrase :=
  if further then .star p else p

end Phrase

/-! ## Scanners -/

section

variable {tame : Prop} {k l : Char → Bool} {w : Follow} {scan : Scanner}

theorem Scanner.Predicts.mono (h : scan.Predicts tame k w) (hkl : ∀ c, k c = true → l c = true) :
    scan.Predicts tame l w := by
  intro s t r r' hs hkeeps
  obtain ⟨hscan, hopens, hstrays⟩ := h hs hkeeps
  exact ⟨hscan, hopens.mono hkl, hstrays⟩

/-- One of some characters. -/
def among (cs : List Char) (c : Char) : Bool := cs.contains c

/-- Any character. -/
def anyChar (_ : Char) : Bool := true

theorem among_anyChar (k : Char → Bool) (c : Char) (_ : k c = true) : anyChar c = true := rfl

namespace Scan

theorem predicts_of_agrees (ha : scan.Agrees tame) (he : scan.Eats)
    (hk : ∀ ⦃c x taken⦄, scan (c :: x) = some taken → k c = true ∧ beginsBlank c = false) :
    scan.Predicts tame k (.opens l) := by
  intro s t r r' hs hstrays
  obtain ⟨rfl, -⟩ := he hs
  refine ⟨Strays.scan_append ha he.splits hstrays hs, ?_, Strays.append hstrays t⟩
  cases hc : t ++ r with
  | nil => trivial
  | cons c x =>
    rw [hc] at hs
    exact hk hs

/-- A local scanner takes characters from inside of words. -/
theorem predicts_of_local (hl : scan.LocalTo isInner) (he : scan.Eats) :
    scan.Predicts tame isInner (.opens l) := by
  refine predicts_of_agrees (agrees_of_local hl) he fun c x taken hs => ?_
  obtain ⟨t, r⟩ := taken
  obtain ⟨happ, hne⟩ := he hs
  obtain ⟨d, t, rfl⟩ := List.exists_cons_of_ne_nil hne
  obtain ⟨rfl, -⟩ := List.cons.inj happ
  have hd := hl.run he.splits hs d (by simp)
  exact ⟨hd, beginsBlank_of_solid (isSolid_of_isInner hd)⟩

theorem exactly_eq_some {c : Char} {s t r : List Char} (h : exactly [c] s = some (t, r)) :
    t = [c] ∧ s = c :: r := by
  obtain rfl := exactly_text h
  exact ⟨rfl, ((eats_exactly (List.cons_ne_nil c [])) h).1.symm⟩

/-- A character is there whatever stands behind it. -/
theorem predicts_exactly {c : Char} (hc : beginsBlank c = false) :
    Scanner.Predicts tame (exactly [c]) (among [c]) (.opens l) := by
  intro s t r r' hs hstrays
  obtain ⟨rfl, rfl⟩ := exactly_eq_some hs
  exact ⟨by simp [exactly], ⟨by simp [among], hc⟩, Strays.append hstrays [c]⟩

/-- A delimiter is there, and what stands behind it does not matter. -/
theorem predicts_delimiter {c : Char} (hc : isDelimiter c = true) :
    Scanner.Predicts tame (exactly [c]) (among [c]) w := by
  intro s t r r' hs hkeeps
  obtain ⟨rfl, rfl⟩ := exactly_eq_some hs
  have hblank : beginsBlank c = false := by
    simp only [isDelimiter, Bool.or_eq_true, beq_iff_eq] at hc
    rcases hc with (rfl | rfl) | rfl <;> decide
  exact ⟨by simp [exactly], ⟨by simp [among], hblank⟩, .inr (.of_calm hkeeps.calm hc [])⟩

theorem predicts_strLit : Scanner.Predicts tame strLit anyChar (.opens l) := by
  intro s t r r' hs hstrays
  obtain ⟨hlit, rfl⟩ := strLit_eq_some_iff.1 hs
  refine ⟨strLit_append hlit r', ?_, Strays.append hstrays t⟩
  obtain ⟨quote, u, hquote, rfl, -⟩ := hlit
  exact ⟨rfl, beginsBlank_of_quote hquote⟩

theorem agrees_stream : stream.Agrees tame :=
  agrees_before (agrees_of_local (local_exactly (by decide))) _

theorem predicts_stream : Scanner.Predicts tame stream anyChar (.opens l) := by
  refine predicts_of_agrees agrees_stream eats_stream fun c x taken hs => ⟨rfl, ?_⟩
  have hs' := (Option.filter_eq_some_iff.1 hs).1
  by_cases hc : c = 's'
  · subst hc
    rfl
  · simp [exactly, List.isPrefixOf, Ne.symm hc] at hs'

/-- The end of the input is there if nothing stands behind it. -/
theorem predicts_endOfInput :
    Scanner.Predicts tame endOfInput (among []) (.opens (among [])) := by
  intro s t r r' hs hstrays
  cases s with
  | cons c s => cases hs
  | nil =>
    cases hs
    rcases hstrays with rfl | ⟨x, c, b, b', -, heq, -⟩
    · exact ⟨rfl, trivial, .inl rfl⟩
    · simp at heq

end Scan

end

/-! ## Building phrases -/

namespace Phrase

open Proto

variable {tame : Prop} {p q : Phrase} {k l m : Char → Bool} {w : Follow} {scan : Scanner}

theorem Predicts.mono (h : p.Predicts tame k w) (hkl : ∀ c, k c = true → l c = true) :
    p.Predicts tame l w := by
  induction h generalizing l with
  | mark h => exact .mark (h.mono hkl)
  | token h => exact .token (h.mono hkl)
  | value hk => exact .value (hkl _ hk)
  | node hrule _ ih => exact .node hrule (ih hkl)
  | seq _ hl hq ih _ => exact .seq (ih hkl) hl hq
  | alt hp hl hq hm hyields =>
    exact .alt hp (fun c hc => hkl c (hl c hc)) hq (fun c hc => hkl c (hm c hc)) hyields
  | opt hp hl hm hdeclines =>
    exact .opt hp (fun c hc => hkl c (hl c hc)) (fun c hc => hkl c (hm c hc)) hdeclines
  | star hp hw hl hm hn hfails => exact .star hp hw hl hm (fun c hc => hkl c (hn c hc)) hfails
  | body hk => exact .body (hkl _ hk)

/-- Where only the first character matters, what begins with any will do. -/
theorem Predicts.any (h : p.Predicts tame k w) : p.Predicts tame anyChar w :=
  h.mono (among_anyChar k)

/-- A phrase that can be followed by anything, and what follows it. -/
theorem Predicts.then (hp : ∀ l, p.Predicts tame k (.opens l)) (hq : q.Predicts tame m w) :
    (Phrase.seq p q).Predicts tame k w :=
  .seq (hp m) (fun _ => id) hq

theorem Predicts.opt_then (hp : p.Predicts tame l (.opens m)) (hd : p.Declines tame m)
    (hq : q.Predicts tame m w) (hl : ∀ c, l c = true → k c = true)
    (hm : ∀ c, m c = true → k c = true) : (Phrase.seq (.opt p) q).Predicts tame k w :=
  .seq (.opt hp hl hm hd) (fun _ => id) hq

theorem Predicts.star_then (hp : p.Predicts tame l .any) (hf : p.FailsAt m)
    (hq : q.Predicts tame m w) : (Phrase.seq (.star p) q).Predicts tame anyChar w :=
  .seq (.star hp (.inl rfl) (among_anyChar l) (among_anyChar m) (fun _ => id) hf) (fun _ => id) hq

/-- Further phrases behind separators, in front of a character that is no separator. -/
theorem Predicts.further {c : Char} (hp : ∀ l, p.Predicts tame (among [c]) (.opens l))
    (hq : q.Predicts tame k (.opens l)) (hc : l c = true) (hm : ∀ d, m d = true → l d = true)
    (hf : p.FailsAt m) : (Phrase.star (.seq p q)).Predicts tame l (.opens m) := by
  have hone : ∀ d, among [c] d = true → l d = true := by
    intro d hd
    obtain rfl : d = c := by simpa [among] using hd
    exact hc
  exact .star (.seq (hp k) (fun _ => id) hq) (.inr rfl) hone hm (fun _ => id)
    fun s hs => .seq_first (hf hs)

/-! ### Phrases that are not there -/

/-- A phrase that is blocked at the end and at some characters, whatever stands behind them. -/
theorem failsAt_of_blocked {cs : List Char} (hnil : p.blocked [] = true)
    (hcons : ∀ x, cs.all (fun c => p.blocked (c :: x)) = true) : p.FailsAt (among cs) := by
  intro s hs
  refine reads_none_of_blocked (hs.blanks_eq) ?_
  cases s with
  | nil => exact hnil
  | cons c x => exact List.all_eq_true.1 (hcons x) c (by simpa [among] using hs.1)

theorem FailsAt.declines (h : p.FailsAt k) : p.Declines tame k :=
  fun _ _ _ _ _ hs' => h hs'

theorem declines_of_agrees {rule : Rule} (h : scan.Agrees tame) :
    (token rule scan).Declines tame k := by
  intro s s' hnone hstrays _ _
  cases hnone with | token_none hs =>
  exact .token_none (hstrays.scan_none h hs)

theorem declines_mark (h : scan.Agrees tame) : (Phrase.mark scan).Declines tame k := by
  intro s s' hnone hstrays _ _
  cases hnone with | mark_none hs =>
  exact .mark_none (hstrays.scan_none h hs)

theorem Declines.alt (hp : p.Declines tame k) (hq : q.Declines tame k) :
    (Phrase.alt p q).Declines tame k := by
  intro s s' hnone hstrays hs hs'
  cases hnone with | alt_second hnone hnone' =>
  exact .alt_second (hp hnone hstrays hs hs') (hq hnone' hstrays hs hs')

theorem yields_of_agrees {rule : Rule} (h : scan.Agrees tame) :
    (token rule scan).Yields tame k q := by
  intro s s' _ _ _ _ hnone _ _ hstrays hs hs' _
  exact declines_of_agrees h hnone hstrays hs hs'

/-! ### Choices -/

/-- Where the phrase is read, the other one cannot be read. -/
def Excludes (q p : Phrase) : Prop :=
  ∀ ⦃s : List Char⦄ ⦃taken : List Tree × List Char⦄, blanks s = ([], s) →
    Reads false q s (some taken) → Reads false p s none

theorem Excludes.yields (h : q.Excludes p) : p.Yields tame k q := by
  intro s s' _ _ _ _ _ _ hreads _ _ hs' _
  exact h (hs'.blanks_eq) hreads

/-- What a choice reads one of its branches reads. -/
theorem choice_reads {ps : List Phrase} {s : List Char} {taken : List Tree × List Char}
    (h : Reads false (choice ps) s (some taken)) : ∃ p ∈ ps, Reads false p s (some taken) := by
  fun_induction choice ps with
  | case1 => cases h with | mark_some h => cases h
  | case2 p => exact ⟨p, by simp, h⟩
  | case3 p q ps ih =>
    cases h with
    | alt_first h => exact ⟨p, by simp, h⟩
    | alt_second _ h =>
      obtain ⟨x, hx, h⟩ := ih h
      exact ⟨x, by simp [hx], h⟩

theorem excludes_choice {ps : List Phrase} (h : ∀ q ∈ ps, q.Excludes p) :
    (choice ps).Excludes p := by
  intro s taken hs hreads
  obtain ⟨q, hq, hreads⟩ := choice_reads hreads
  exact h q hq hs hreads

theorem Excludes.alt {p' : Phrase} (h : q.Excludes p) (h' : q.Excludes p') :
    q.Excludes (.alt p p') :=
  fun _ _ hs hreads => .alt_second (h hs hreads) (h' hs hreads)

/-- A phrase is blocked by some characters, and another one cannot be read without them. -/
theorem excludes_of_chars (cs : List Char) (hq : ∀ x, cs.all (fun c => q.blocked (c :: x)) = true)
    (hp : ∀ s, (∀ c ∈ cs, ∀ x, s ≠ c :: x) → Reads false p s none) : q.Excludes p := by
  intro s taken hs hreads
  refine hp s fun c hc x hx => ?_
  subst hx
  cases (reads_none_of_blocked hs (List.all_eq_true.1 (hq x) c hc)).unique hreads

/-- One of several phrases, each of which is not read where a later one is. -/
theorem Predicts.choice {ps : List Phrase} (hne : ps ≠ []) (h : ∀ p ∈ ps, p.Predicts tame k w)
    (hexcludes : ps.Pairwise fun p q => q.Excludes p) : (Phrase.choice ps).Predicts tame k w := by
  fun_induction Phrase.choice ps with
  | case1 => exact absurd rfl hne
  | case2 p => exact h p (by simp)
  | case3 p q ps ih =>
    obtain ⟨hp, hrest⟩ := List.pairwise_cons.1 hexcludes
    refine .alt (h p (by simp)) (fun _ => id) (ih (by simp) (fun x hx => h x (by simp [hx])) hrest)
      (fun _ => id) (excludes_choice hp).yields

/-- A first phrase that yields to the others. -/
theorem Predicts.choice_cons {ps : List Phrase} (hne : ps ≠ []) (hp : p.Predicts tame k w)
    (hps : (Phrase.choice ps).Predicts tame k w) (hyields : p.Yields tame k (Phrase.choice ps)) :
    (Phrase.choice (p :: ps)).Predicts tame k w := by
  rw [Phrase.choice_cons p hne]
  exact .alt hp (fun _ => id) hps (fun _ => id) hyields

end Phrase

end MettaSchema
