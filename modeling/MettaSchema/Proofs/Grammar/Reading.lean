import MettaSchema.Proofs.Grammar.Scanning

/-!
# Reading without bounds

`Proto.read` bounds how deep message bodies nest and how often a part of a repetition
is read.  Here reading is a relation without such bounds, and the two agree.

* `Proto.Reads` — what reading a phrase off the front of a text gives.
* `Phrase.Sound` — the scanners of a phrase split the input and every part of a
  repetition takes something; so the bounds are never reached.
* `Proto.Reads.unique` — reading gives one outcome.
* `Proto.read_eq_iff` — `Proto.read` gives the outcome of the relation.
* `Proto.Reads.text` — what is read and what is left make up the input.
-/

namespace MettaSchema

namespace Proto

open Scan

/-- What reading a phrase off the front of a text gives: trees and the rest, or nothing.
With `further` set, the phrase is read as often as possible as a further part of a
repetition, each time behind blanks. -/
inductive Reads : (further : Bool) → Phrase → List Char → Option (List Tree × List Char) → Prop
  /-- Nothing takes nothing. -/
  | nothing (s : List Char) : Reads false .nothing s (some ([], s))
  /-- A mark that is there. -/
  | mark_some {scan : Scanner} {s t r : List Char} (h : scan s = some (t, r)) :
      Reads false (.mark scan) s (some ([.mark t], r))
  /-- A mark that is missing. -/
  | mark_none {scan : Scanner} {s : List Char} (h : scan s = none) :
      Reads false (.mark scan) s none
  /-- A token that is there. -/
  | token_some {rule : Rule} {scan : Scanner} {s t r : List Char} (h : scan s = some (t, r)) :
      Reads false (.token rule scan) s (some ([.token rule t], r))
  /-- A token that is missing. -/
  | token_none {rule : Rule} {scan : Scanner} {s : List Char} (h : scan s = none) :
      Reads false (.token rule scan) s none
  /-- A composite rule whose content can be read. -/
  | node_some {rule : Rule} {p : Phrase} {s r : List Char} {trees : List Tree}
      (h : Reads false p s (some (trees, r))) :
      Reads false (.node rule p) s (some ([.node rule trees], r))
  /-- A composite rule whose content cannot be read. -/
  | node_none {rule : Rule} {p : Phrase} {s : List Char} (h : Reads false p s none) :
      Reads false (.node rule p) s none
  /-- A sequence whose first member cannot be read. -/
  | seq_first {p q : Phrase} {s : List Char} (h : Reads false p s none) :
      Reads false (.seq p q) s none
  /-- A sequence whose second member cannot be read. -/
  | seq_second {p q : Phrase} {s s₁ : List Char} {trees : List Tree}
      (h₁ : Reads false p s (some (trees, s₁))) (h₂ : Reads false q (blanks s₁).2 none) :
      Reads false (.seq p q) s none
  /-- A sequence whose members can be read. -/
  | seq_both {p q : Phrase} {s s₁ r : List Char} {trees more : List Tree}
      (h₁ : Reads false p s (some (trees, s₁)))
      (h₂ : Reads false q (blanks s₁).2 (some (more, r))) :
      Reads false (.seq p q) s (some (trees ++ Tree.ofBlanks (blanks s₁).1 ++ more, r))
  /-- A choice whose first branch can be read. -/
  | alt_first {p q : Phrase} {s : List Char} {taken : List Tree × List Char}
      (h : Reads false p s (some taken)) : Reads false (.alt p q) s (some taken)
  /-- A choice whose first branch cannot be read. -/
  | alt_second {p q : Phrase} {s : List Char} {o : Option (List Tree × List Char)}
      (h₁ : Reads false p s none) (h₂ : Reads false q s o) : Reads false (.alt p q) s o
  /-- An optional phrase that is there. -/
  | opt_some {p : Phrase} {s : List Char} {taken : List Tree × List Char}
      (h : Reads false p s (some taken)) : Reads false (.opt p) s (some taken)
  /-- An optional phrase that is missing. -/
  | opt_none {p : Phrase} {s : List Char} (h : Reads false p s none) :
      Reads false (.opt p) s (some ([], s))
  /-- A repetition without parts. -/
  | star_none {p : Phrase} {s : List Char} (h : Reads false p s none) :
      Reads false (.star p) s (some ([], s))
  /-- A repetition with a first part. -/
  | star_some {p : Phrase} {s s₁ r : List Char} {trees more : List Tree}
      (h₁ : Reads false p s (some (trees, s₁))) (h₂ : Reads true p s₁ (some (more, r))) :
      Reads false (.star p) s (some (trees ++ more, r))
  /-- The body of a message. -/
  | body {s : List Char} {o : Option (List Tree × List Char)}
      (h : Reads false messageBody s o) : Reads false .body s o
  /-- A repetition without further parts. -/
  | more_none {p : Phrase} {s : List Char} (h : Reads false p (blanks s).2 none) :
      Reads true p s (some ([], s))
  /-- A repetition with a further part. -/
  | more_some {p : Phrase} {s s₁ r : List Char} {trees more : List Tree}
      (h₁ : Reads false p (blanks s).2 (some (trees, s₁)))
      (h₂ : Reads true p s₁ (some (more, r))) :
      Reads true p s (some (Tree.ofBlanks (blanks s).1 ++ trees ++ more, r))

/-- Reading gives one outcome. -/
theorem Reads.unique {further : Bool} {p : Phrase} {s : List Char}
    {o o' : Option (List Tree × List Char)} (h : Reads further p s o)
    (h' : Reads further p s o') : o = o' := by
  induction h generalizing o' with
  | nothing => cases h'; rfl
  | mark_some hs | mark_none hs | token_some hs | token_none hs => cases h' <;> simp_all
  | node_some _ ih =>
    cases h' with
    | node_some h => cases ih h; rfl
    | node_none h => cases ih h
  | node_none _ ih =>
    cases h' with
    | node_some h => cases ih h
    | node_none => rfl
  | seq_first _ ih =>
    cases h' with
    | seq_first => rfl
    | seq_second h₁ => cases ih h₁
    | seq_both h₁ => cases ih h₁
  | seq_second _ _ ih₁ ih₂ =>
    cases h' with
    | seq_first => rfl
    | seq_second => rfl
    | seq_both h₁ h₂ => cases ih₁ h₁; cases ih₂ h₂
  | seq_both _ _ ih₁ ih₂ =>
    cases h' with
    | seq_first h₁ => cases ih₁ h₁
    | seq_second h₁ h₂ => cases ih₁ h₁; cases ih₂ h₂
    | seq_both h₁ h₂ => cases ih₁ h₁; cases ih₂ h₂; rfl
  | alt_first _ ih =>
    cases h' with
    | alt_first h => exact ih h
    | alt_second h₁ => cases ih h₁
  | alt_second _ _ ih₁ ih₂ =>
    cases h' with
    | alt_first h => cases ih₁ h
    | alt_second _ h₂ => exact ih₂ h₂
  | opt_some _ ih =>
    cases h' with
    | opt_some h => exact ih h
    | opt_none h => cases ih h
  | opt_none _ ih =>
    cases h' with
    | opt_some h => cases ih h
    | opt_none => rfl
  | star_none _ ih =>
    cases h' with
    | star_none => rfl
    | star_some h₁ => cases ih h₁
  | star_some _ _ ih₁ ih₂ =>
    cases h' with
    | star_none h => cases ih₁ h
    | star_some h₁ h₂ => cases ih₁ h₁; cases ih₂ h₂; rfl
  | body _ ih => cases h' with | body h => exact ih h
  | more_none _ ih =>
    cases h' with
    | more_none => rfl
    | more_some h₁ => cases ih h₁
  | more_some _ _ ih₁ ih₂ =>
    cases h' with
    | more_none h => cases ih₁ h
    | more_some h₁ h₂ => cases ih₁ h₁; cases ih₂ h₂; rfl

end Proto

/-! ## Phrases that can be read without bounds -/

namespace Phrase

/-- Whether everything that is read as the phrase takes at least one character. -/
def Eats : Phrase → Prop
  | nothing => False
  | mark scan => scan.Eats
  | token _ scan => scan.Eats
  | node _ p => p.Eats
  | seq p q => p.Eats ∨ q.Eats
  | alt p q => p.Eats ∧ q.Eats
  | opt _ => False
  | star _ => False
  | body => True

/-- Whether all scanners of the phrase split the input and all parts of repetitions
take at least one character. -/
def Sound : Phrase → Prop
  | nothing => True
  | mark scan => scan.Splits
  | token _ scan => scan.Splits
  | node _ p => p.Sound
  | seq p q => p.Sound ∧ q.Sound
  | alt p q => p.Sound ∧ q.Sound
  | opt p => p.Sound
  | star p => p.Sound ∧ p.Eats
  | body => True

end Phrase

@[simp] theorem Tree.textAll_append (ts us : List Tree) :
    Tree.textAll (ts ++ us) = Tree.textAll ts ++ Tree.textAll us := by
  induction ts with
  | nil => rfl
  | cons t ts ih => simp [Tree.textAll, ih]

@[simp] theorem Tree.textAll_ofBlanks (s : List Char) : Tree.textAll (Tree.ofBlanks s) = s := by
  cases s <;> simp [Tree.ofBlanks, Tree.textAll, Tree.text]

namespace Proto

open Scan Phrase

/-! ## The grammar is sound -/

attribute [local simp] Phrase.Sound Phrase.Eats Phrase.sequence Phrase.choice Phrase.separated punct
  keyword ident fullIdent typeName intLit number strLit aggregate optionName openBrace closeBrace
  emptyStatement constant optionStatement fieldOption fieldOptions range ranges reservedNames
  reserved extensions enumValue enumDef label field mapField groupField oneofDef extendDef
  messageDef

theorem sound_messageElement : messageElement.Sound ∧ messageElement.Eats := by
  simp [messageElement]

theorem sound_messageBody : messageBody.Sound ∧ messageBody.Eats := by
  simp [messageBody, sound_messageElement]

theorem sound_serviceDef : serviceDef.Sound ∧ serviceDef.Eats := by
  simp [serviceDef, rpc, rpcInput, rpcOutput, rpcBody, stream]

theorem sound_topLevel : topLevel.Sound ∧ topLevel.Eats := by
  simp [topLevel, importLine, importModifier, packageLine, sound_serviceDef]

theorem sound_file : file.Sound := by
  simp [file, syntaxLine, editionLine, sound_topLevel]

/-! ## What is read and what is left -/

/-- What is read and what is left make up the input, and a phrase that eats takes
something. -/
theorem Reads.text {further : Bool} {p : Phrase} {s : List Char}
    {o : Option (List Tree × List Char)} (h : Reads further p s o) (hp : p.Sound) :
    ∀ trees r, o = some (trees, r) → Tree.textAll trees ++ r = s
      ∧ (further = false → p.Eats → Tree.textAll trees ≠ []) := by
  induction h with
  | nothing s =>
    rintro trees r ⟨⟩
    exact ⟨rfl, fun _ he => he.elim⟩
  | mark_some hs =>
    rintro trees r ⟨⟩
    exact ⟨by simpa [Tree.textAll, Tree.text] using hp hs,
      fun _ he => by simpa [Tree.textAll, Tree.text] using (he hs).2⟩
  | token_some hs =>
    rintro trees r ⟨⟩
    exact ⟨by simpa [Tree.textAll, Tree.text] using hp hs,
      fun _ he => by simpa [Tree.textAll, Tree.text] using (he hs).2⟩
  | node_some _ ih =>
    rintro trees r ⟨⟩
    simpa [Tree.textAll, Tree.text, Phrase.Eats] using ih hp _ _ rfl
  | seq_both _ _ ih₁ ih₂ =>
    rintro trees r ⟨⟩
    obtain ⟨htext₁, heats₁⟩ := ih₁ hp.1 _ _ rfl
    obtain ⟨htext₂, heats₂⟩ := ih₂ hp.2 _ _ rfl
    constructor
    · simp only [Tree.textAll_append, Tree.textAll_ofBlanks, List.append_assoc]
      rw [htext₂, blanks_append, htext₁]
    · rintro - (he | he)
      · simp [heats₁ rfl he]
      · simp [heats₂ rfl he]
  | alt_first _ ih =>
    rintro trees r ⟨⟩
    obtain ⟨htext, heats⟩ := ih hp.1 _ _ rfl
    exact ⟨htext, fun hf he => heats hf he.1⟩
  | alt_second _ _ _ ih =>
    rintro trees r rfl
    obtain ⟨htext, heats⟩ := ih hp.2 _ _ rfl
    exact ⟨htext, fun hf he => heats hf he.2⟩
  | opt_some _ ih =>
    rintro trees r ⟨⟩
    exact ⟨(ih hp _ _ rfl).1, fun _ he => he.elim⟩
  | opt_none =>
    rintro trees r ⟨⟩
    exact ⟨rfl, fun _ he => he.elim⟩
  | star_none =>
    rintro trees r ⟨⟩
    exact ⟨rfl, fun _ he => he.elim⟩
  | star_some _ _ ih₁ ih₂ =>
    rintro trees r ⟨⟩
    refine ⟨?_, fun _ he => he.elim⟩
    rw [Tree.textAll_append, List.append_assoc, (ih₂ hp.1 _ _ rfl).1, (ih₁ hp.1 _ _ rfl).1]
  | body _ ih =>
    intro trees r h
    obtain ⟨htext, heats⟩ := ih sound_messageBody.1 _ _ h
    exact ⟨htext, fun hf _ => heats hf sound_messageBody.2⟩
  | more_none =>
    rintro trees r ⟨⟩
    exact ⟨rfl, nofun⟩
  | more_some _ _ ih₁ ih₂ =>
    rintro trees r ⟨⟩
    refine ⟨?_, nofun⟩
    simp only [Tree.textAll_append, Tree.textAll_ofBlanks, List.append_assoc]
    rw [(ih₂ hp _ _ rfl).1, (ih₁ hp _ _ rfl).1, blanks_append]
  | _ => rintro trees r ⟨⟩

/-- What is left is never longer than the input. -/
theorem Reads.length_le {further : Bool} {p : Phrase} {s r : List Char} {trees : List Tree}
    (h : Reads further p s (some (trees, r))) (hp : p.Sound) : r.length ≤ s.length := by
  rw [← (h.text hp _ _ rfl).1, List.length_append]
  omega

/-- Behind a phrase that eats, less is left. -/
theorem Reads.length_lt {p : Phrase} {s r : List Char} {trees : List Tree}
    (h : Reads false p s (some (trees, r))) (hp : p.Sound) (he : p.Eats) :
    r.length < s.length := by
  obtain ⟨htext, heats⟩ := h.text hp _ _ rfl
  have hpos := List.length_pos_iff.2 (heats rfl he)
  rw [← htext, List.length_append]
  omega

theorem length_blanks_le (s : List Char) : (blanks s).2.length ≤ s.length := by
  have h := congrArg List.length (blanks_append s)
  rw [List.length_append] at h
  omega

/-! ## The bounds are never reached -/

theorem readMore_reads {p : Phrase} {one : Reader} {n : Nat} (hp : p.Sound) (he : p.Eats)
    (hone : ∀ s, s.length ≤ n → Reads false p s (one s)) (bound s : List Char)
    (hn : s.length ≤ n) (hb : s.length ≤ bound.length) :
    Reads true p s (some (readMore one bound s)) := by
  induction bound generalizing s with
  | nil =>
    obtain rfl : s = [] := List.length_eq_zero_iff.1 (by simpa using hb)
    have h := hone [] (by simp)
    cases ho : one [] with
    | none => exact .more_none (ho ▸ h)
    | some taken => exact absurd ((ho ▸ h).length_lt hp he) (by simp)
  | cons b bound ih =>
    have hs := length_blanks_le s
    have h := hone (blanks s).2 (by omega)
    simp only [readMore]
    cases ho : one (blanks s).2 with
    | none => exact .more_none (ho ▸ h)
    | some taken =>
      obtain ⟨trees, s₂⟩ := taken
      rw [ho] at h
      have hlt := h.length_lt hp he
      simp only [List.length_cons] at hb
      exact .more_some h (ih s₂ (by omega) (by omega))

theorem mark_reads (inner : Reader) (scan : Scanner) (s : List Char) :
    Reads false (.mark scan) s (readWith inner (.mark scan) s) := by
  simp only [readWith]
  cases hs : scan s with
  | none => exact .mark_none hs
  | some taken => exact .mark_some hs

theorem node_reads {inner : Reader} (rule : Rule) {p : Phrase} {s : List Char}
    (h : Reads false p s (readWith inner p s)) :
    Reads false (.node rule p) s (readWith inner (.node rule p) s) := by
  simp only [readWith]
  cases ho : readWith inner p s with
  | none => exact .node_none (ho ▸ h)
  | some taken => exact .node_some (ho ▸ h)

theorem seq_reads {inner : Reader} {p q : Phrase} {s : List Char}
    (h₁ : Reads false p s (readWith inner p s))
    (h₂ : ∀ trees s₁, Reads false p s (some (trees, s₁)) →
      Reads false q (blanks s₁).2 (readWith inner q (blanks s₁).2)) :
    Reads false (.seq p q) s (readWith inner (.seq p q) s) := by
  simp only [readWith]
  cases ho : readWith inner p s with
  | none => exact .seq_first (ho ▸ h₁)
  | some taken =>
    obtain ⟨trees, s₁⟩ := taken
    rw [ho] at h₁
    have h := h₂ trees s₁ h₁
    cases ho₂ : readWith inner q (blanks s₁).2 with
    | none => simpa [ho₂] using Reads.seq_second h₁ (ho₂ ▸ h)
    | some taken => simpa [ho₂] using Reads.seq_both h₁ (ho₂ ▸ h)

/-- Reading with a reader for message bodies gives the outcome of the relation if that
reader does, on all texts up to a length. -/
theorem readWith_reads {inner : Reader} {n : Nat}
    (hinner : ∀ s, s.length ≤ n → Reads false messageBody s (inner s)) (p : Phrase)
    (hp : p.Sound) (s : List Char) (hn : s.length ≤ n) : Reads false p s (readWith inner p s) := by
  induction p generalizing s with
  | nothing => exact .nothing s
  | mark scan => exact mark_reads inner scan s
  | token rule scan =>
    simp only [readWith]
    cases hs : scan s with
    | none => exact .token_none hs
    | some taken => exact .token_some hs
  | node rule p ih => exact node_reads rule (ih hp s hn)
  | seq p q ihp ihq =>
    refine seq_reads (ihp hp.1 s hn) fun trees s₁ h₁ => ihq hp.2 _ ?_
    have hle := h₁.length_le hp.1
    have hskip := length_blanks_le s₁
    omega
  | alt p q ihp ihq =>
    have h₁ := ihp hp.1 s hn
    simp only [readWith]
    cases ho : readWith inner p s with
    | none => exact .alt_second (ho ▸ h₁) (ihq hp.2 s hn)
    | some taken => exact .alt_first (ho ▸ h₁)
  | opt p ih =>
    have h := ih hp s hn
    simp only [readWith]
    cases ho : readWith inner p s with
    | none => exact .opt_none (ho ▸ h)
    | some taken => exact .opt_some (ho ▸ h)
  | star p ih =>
    have h := ih hp.1 s hn
    simp only [readWith, readMany]
    cases ho : readWith inner p s with
    | none => exact .star_none (ho ▸ h)
    | some taken =>
      obtain ⟨trees, s₁⟩ := taken
      rw [ho] at h
      have hle := h.length_le hp.1
      exact .star_some h (readMore_reads hp.1 hp.2 (ih hp.1) s s₁ (by omega) hle)
  | body => exact .body (hinner s hn)

/-- The reader for message bodies that nest at most `depth` deep. -/
def bodyReader : Nat → Reader
  | 0 => fun _ => none
  | depth + 1 => readAt messageBody depth messageBody

theorem readAt_eq_readWith (depth : Nat) (p : Phrase) :
    readAt messageBody depth p = readWith (bodyReader depth) p := by
  cases depth <;> rfl

/-- Bodies nest at most as deep as a text is long, since each takes a brace. -/
theorem bodyReader_reads (depth : Nat) (s : List Char) (hs : s.length ≤ depth) :
    Reads false messageBody s (bodyReader depth s) := by
  induction depth generalizing s with
  | zero =>
    obtain rfl : s = [] := List.length_eq_zero_iff.1 (by simpa using hs)
    exact .node_none (.seq_first (.mark_none rfl))
  | succ depth ih =>
    have hopen : openBrace.Eats := eats_exactly (by simp)
    rw [bodyReader, readAt_eq_readWith]
    refine node_reads _ (seq_reads (mark_reads _ _ s) fun trees s₁ h₁ => ?_)
    have hlt := h₁.length_lt hopen.splits hopen
    have hskip := length_blanks_le s₁
    exact readWith_reads ih _ sound_messageBody.1.2 _ (by omega)

/-- `Proto.read` gives the outcome of the relation. -/
theorem read_reads {p : Phrase} (hp : p.Sound) (s : List Char) : Reads false p s (read p s) := by
  rw [read, readAt_eq_readWith]
  exact readWith_reads (bodyReader_reads s.length) p hp s (Nat.le_refl _)

theorem read_eq_iff {p : Phrase} (hp : p.Sound) {s : List Char}
    {o : Option (List Tree × List Char)} : read p s = o ↔ Reads false p s o :=
  ⟨fun h => h ▸ read_reads hp s, (read_reads hp s).unique⟩

/-- A token is what its scanner takes. -/
theorem read_token (rule : Rule) (scan : Scanner) (s : List Char) : read (.token rule scan) s
    = (scan s).map fun (text, rest) => ([Tree.token rule text], rest) := by
  rw [read, readAt_eq_readWith, readWith]

end Proto

end MettaSchema
