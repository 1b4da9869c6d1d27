import MettaSchema.Proofs.Grammar.Slots

/-!
# Statements that declare nothing

Options, reserved and extension ranges, extensions of other messages and lone semicolons can stand
anywhere between the statements of the blocks that skip them.

* `Rule.skipped` — the phrases that a block skips.
* `Tree.Skipping` — a skipped statement on lines of its own.
* `Proto.insertable_of_skipping` — it can be put between two others.
-/

namespace MettaSchema

open Scan

/-- The phrases that declare nothing, of the statements of a block. -/
def Rule.skipped : Rule → List Phrase
  | proto => [Proto.optionStatement, Proto.extendDef, Proto.emptyStatement]
  | messageBody =>
    [Proto.optionStatement, Proto.reserved, Proto.extensions, Proto.extendDef,
      Proto.emptyStatement]
  | enumDef => [Proto.optionStatement, Proto.reserved, Proto.emptyStatement]
  | oneofDef => [Proto.optionStatement, Proto.emptyStatement]
  | serviceDef => [Proto.optionStatement, Proto.emptyStatement]
  | _ => []

theorem Rule.isBlock_of_skipped {rule : Rule} {p : Phrase} (h : p ∈ rule.skipped) :
    rule.isBlock = true := by
  cases rule <;> first | rfl | cases h

/-- Blank characters with the end of a line among them. -/
def Scan.LineBreak (g : List Char) : Prop :=
  (∀ c ∈ g, isBlank c = true) ∧ ∃ c ∈ g, isLineEnd c = true

theorem Scan.LineBreak.gap {g : List Char} (h : LineBreak g) : Gap g := by
  obtain ⟨hg, c, hc, -⟩ := h
  refine gap_of_isBlank hg ?_
  rintro rfl
  cases hc

/-- A statement on lines of its own, that the grammar reads in full as one of the phrases that the
block skips. -/
structure Tree.Skipping (rule : Rule) (g : List Char) (t : Tree) (g' : List Char) : Prop where
  /-- A line ends in front of the statement. -/
  before : LineBreak g
  /-- A line ends behind the statement. -/
  behind : LineBreak g'
  /-- The statement is read in full. -/
  reads : ∃ p ∈ rule.skipped, Proto.read p t.text = some ([t], [])

namespace Proto

open Phrase

/-- The statements with keywords of their own. -/
def keywordStatements : List (Phrase × String) := messageKeywords ++ fileKeywords

theorem needs_keywordStatements :
    ∀ x ∈ keywordStatements, x.1.Needs x.2 ∧ x.2.toList.all isNameChar = true := by
  intro x hx
  rcases List.mem_append.1 hx with hx | hx
  · exact needs_messageKeywords x hx
  · exact needs_fileKeywords x hx

/-- A choice reads a phrase that excludes the earlier ones. -/
theorem Reads.choice_of_excludes {front back : List Phrase} {p : Phrase}
    (h : ∀ q ∈ front, p.Excludes q) {s : List Char} {taken : List Tree × List Char}
    (hs : blanks s = ([], s)) (hreads : Reads false p s (some taken)) :
    Reads false (choice (front ++ p :: back)) s (some taken) := by
  induction front with
  | nil =>
    cases back with
    | nil => exact hreads
    | cons q back => exact .alt_first hreads
  | cons q front ih =>
    have hq : p.Excludes q := h q (by simp)
    have hrest := ih fun q hq => h q (by simp [hq])
    cases hfront : front ++ p :: back with
    | nil => simp at hfront
    | cons q' rest =>
      rw [hfront] at hrest
      rw [List.cons_append, hfront]
      exact .alt_second (hq hs hreads) hrest

/-- A choice reads a statement if its keyword is none of the earlier ones. -/
theorem Reads.choice_of_keyword (text : String) (keywords : List (Phrase × String))
    {back : List Phrase} {p : Phrase} (hp : (p, text) ∈ keywordStatements)
    (hkeywords : ∀ x ∈ keywords, x ∈ keywordStatements) (hne : ∀ x ∈ keywords, text ≠ x.2)
    {s : List Char} {taken : List Tree × List Char} (hs : blanks s = ([], s))
    (hreads : Reads false p s (some taken)) :
    Reads false (choice (keywords.map (·.1) ++ p :: back)) s (some taken) := by
  refine Reads.choice_of_excludes ?_ hs hreads
  rw [List.forall_mem_map]
  intro x hx
  obtain ⟨hneeds, htext⟩ := needs_keywordStatements _ hp
  obtain ⟨hneeds', htext'⟩ := needs_keywordStatements _ (hkeywords x hx)
  exact hneeds.excludes hneeds' htext htext' (hne x hx)

/-- A lone semicolon is read where nothing else can be. -/
theorem Reads.choice_of_semicolon (front : List Phrase)
    (h : ∀ x, front.all (·.blocked (';' :: x)) = true) {s : List Char}
    {taken : List Tree × List Char} (hs : blanks s = ([], s))
    (hreads : Reads false emptyStatement s (some taken)) :
    Reads false (choice (front ++ [emptyStatement])) s (some taken) :=
  Reads.choice_of_excludes (emptyStatement_excludes h) hs hreads

/-- What a block skips is one of its statements. -/
theorem Reads.element_of_skipped {rule : Rule} {p : Phrase} (hp : p ∈ rule.skipped) {s : List Char}
    {taken : List Tree × List Char} (hs : blanks s = ([], s))
    (hreads : Reads false p s (some taken)) : Reads false rule.element s (some taken) := by
  have hoption : (optionStatement, "option") ∈ keywordStatements := by
    simp [keywordStatements, fileKeywords]
  have hfile (n : Nat) : ∀ x ∈ fileKeywords.take n, x ∈ keywordStatements :=
    fun x hx => List.mem_append_right _ (List.mem_of_mem_take hx)
  have hmessage (n : Nat) : ∀ x ∈ (optionStatement, "option") :: messageKeywords.take n,
      x ∈ keywordStatements := by
    rintro x (_ | ⟨_, hx⟩)
    · exact hoption
    · exact List.mem_append_left _ (List.mem_of_mem_take hx)
  have hreserved : (reserved, "reserved") ∈ keywordStatements := by
    simp [keywordStatements, messageKeywords]
  cases rule with
  | proto =>
    simp only [Rule.skipped, List.mem_cons, List.not_mem_nil, or_false] at hp
    rcases hp with rfl | rfl | rfl
    · exact hreads.choice_of_keyword "option" (fileKeywords.take 2) hoption (hfile 2) (by decide) hs
    · exact hreads.choice_of_keyword "extend" (fileKeywords.take 6)
        (by simp [keywordStatements, fileKeywords]) (hfile 6) (by decide) hs
    · exact hreads.choice_of_semicolon (fileKeywords.map (·.1)) (fun _ => rfl) hs
  | messageBody =>
    simp only [Rule.skipped, List.mem_cons, List.not_mem_nil, or_false] at hp
    rcases hp with rfl | rfl | rfl | rfl | rfl
    · exact hreads.choice_of_keyword "option" [] hoption (by simp) (by simp) hs
    · exact hreads.choice_of_keyword "reserved"
        ((optionStatement, "option") :: messageKeywords.take 0) hreserved (hmessage 0) (by decide) hs
    · exact hreads.choice_of_keyword "extensions"
        ((optionStatement, "option") :: messageKeywords.take 1)
        (by simp [keywordStatements, messageKeywords]) (hmessage 1) (by decide) hs
    · exact hreads.choice_of_keyword "extend"
        ((optionStatement, "option") :: messageKeywords.take 4)
        (by simp [keywordStatements, messageKeywords]) (hmessage 4) (by decide) hs
    · exact hreads.choice_of_semicolon
        (optionStatement :: (messageKeywords.map (·.1) ++ [groupField, field])) (fun _ => rfl) hs
  | enumDef =>
    simp only [Rule.skipped, List.mem_cons, List.not_mem_nil, or_false] at hp
    rcases hp with rfl | rfl | rfl
    · exact hreads.choice_of_keyword "option" [] hoption (by simp) (by simp) hs
    · exact hreads.choice_of_keyword "reserved"
        ((optionStatement, "option") :: messageKeywords.take 0) hreserved (hmessage 0) (by decide) hs
    · exact hreads.choice_of_semicolon [optionStatement, reserved, enumValue] (fun _ => rfl) hs
  | oneofDef =>
    simp only [Rule.skipped, List.mem_cons, List.not_mem_nil, or_false] at hp
    rcases hp with rfl | rfl
    · exact hreads.choice_of_keyword "option" [] hoption (by simp) (by simp) hs
    · exact hreads.choice_of_semicolon [optionStatement, groupField, field] (fun _ => rfl) hs
  | serviceDef =>
    simp only [Rule.skipped, List.mem_cons, List.not_mem_nil, or_false] at hp
    rcases hp with rfl | rfl
    · exact hreads.choice_of_keyword "option" [] hoption (by simp) (by simp) hs
    · exact hreads.choice_of_semicolon [optionStatement, rpc] (fun _ => rfl) hs
  | _ => cases hp

/-- What some block skips a message body skips. -/
theorem skipped_messageBody {rule : Rule} {p : Phrase} (hp : p ∈ rule.skipped) :
    p ∈ Rule.skipped .messageBody := by
  cases rule with
  | proto | messageBody | enumDef | oneofDef | serviceDef =>
    revert p
    simp [Rule.skipped]
  | _ => cases hp

theorem sound_of_skipped {rule : Rule} {p : Phrase} (hp : p ∈ rule.skipped) : p.Sound := by
  obtain ⟨hoption, hreserved, hextensions, -, -, hextend, -, -, -, -, hempty⟩ :=
    sound_messageElement.1
  have hp' := skipped_messageBody hp
  simp only [Rule.skipped, List.mem_cons, List.not_mem_nil, or_false] at hp'
  rcases hp' with rfl | rfl | rfl | rfl | rfl <;> assumption

/-- What needs a keyword begins with a letter. -/
theorem head_of_keyword (text : String) {p : Phrase} (hp : (p, text) ∈ keywordStatements)
    {s : List Char} {taken : List Tree × List Char} (hreads : Reads false p s (some taken)) :
    ∃ c x, s = c :: x ∧ beginsBlank c = false := by
  have hne : ∀ x ∈ keywordStatements, x.2.toList ≠ [] := by decide
  obtain ⟨hneeds, hname⟩ := needs_keywordStatements _ hp
  obtain ⟨c, y, htext⟩ := List.exists_cons_of_ne_nil (hne _ hp)
  cases hword : word text s with
  | none => cases (hneeds hword).unique hreads
  | some taken =>
    obtain ⟨-, hs, -⟩ := word_eq_some.1 hword
    rw [htext] at hs hname
    have hc : isNameChar c = true := List.all_eq_true.1 hname c (by simp)
    exact ⟨c, y ++ _, hs, beginsBlank_of_solid (isSolid_of_isInner (inner_isNameChar c hc))⟩

/-- A skipped statement begins with no blanks. -/
theorem head_of_skipped {rule : Rule} {p : Phrase} (hp : p ∈ rule.skipped) {s : List Char}
    {taken : List Tree × List Char} (hreads : Reads false p s (some taken)) :
    ∃ c x, s = c :: x ∧ beginsBlank c = false := by
  have hp' := skipped_messageBody hp
  simp only [Rule.skipped, List.mem_cons, List.not_mem_nil, or_false] at hp'
  rcases hp' with rfl | rfl | rfl | rfl | rfl
  · exact head_of_keyword "option" (by simp [keywordStatements, fileKeywords]) hreads
  · exact head_of_keyword "reserved" (by simp [keywordStatements, messageKeywords]) hreads
  · exact head_of_keyword "extensions" (by simp [keywordStatements, messageKeywords])
      hreads
  · exact head_of_keyword "extend" (by simp [keywordStatements, messageKeywords]) hreads
  · cases hreads with | mark_some hscan =>
    obtain ⟨-, rfl⟩ := exactly_eq_some (c := ';') hscan
    exact ⟨';', _, rfl, rfl⟩

/-- A skipped statement on lines of its own can be put between two others. -/
theorem insertable_of_skipping {rule : Rule} {g g' : List Char} {t : Tree}
    (h : Tree.Skipping rule g t g') : Insertable False rule.element g t g' := by
  obtain ⟨hg, hg', p, hp, hread⟩ := h
  have he := element_of_isBlock (Rule.isBlock_of_skipped hp)
  have hreads := (read_eq_iff (sound_of_skipped hp)).1 hread
  have hhead := head_of_skipped hp hreads
  have hblanks : blanks t.text = ([], t.text) := by
    obtain ⟨c, x, hx, hc⟩ := hhead
    rw [hx]
    exact blanks_of_head hc
  have hcalm (s m : List Char) : Calm False s (g' ++ m) := .of_blanks hg'.1 hg'.2 s m
  refine ⟨.inr hg.gap, .inr hg'.gap, fun m => ?_, hhead, fun m => .of_blanks hg.1 hg.2 m _⟩
  obtain ⟨trees', hreads', hskeleton, -⟩ := (hreads.element_of_skipped hp hblanks).behind
    (he.predicts False .any) he.sound ⟨rule.site, he.fits⟩ hblanks False.elim trivial trivial
    (hcalm [] m)
  obtain ⟨t', rfl, -⟩ := he.single hreads'
  simp only [Tree.textAll, List.append_nil] at hreads'
  exact ⟨t', hreads', by simpa [Tree.skeletonAll] using hskeleton⟩

theorem edits_skipping : Edits False (Tree.Inserted Tree.Skipping) := by
  refine edits_inserted (fun h => ?_) insertable_of_skipping
  obtain ⟨_, hp, -⟩ := h.reads
  exact Rule.isBlock_of_skipped hp

end Proto

end MettaSchema
