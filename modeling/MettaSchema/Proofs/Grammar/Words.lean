import MettaSchema.Proofs.Grammar.Reading
import MettaSchema.Proofs.Grammar.Skeleton
import MettaSchema.Proofs.Grammar.Values

/-!
# Reading words

Texts in which every token is a word and one space stands between words, and what the phrases of
the grammar read of them.

* `Words.spaced` — words with one space between them.
* `Phrase.Takes`, `Phrase.Refuses` — what a phrase reads of some words, and that it does not read
  them.
* `Phrase.Takes.seq`, `Phrase.Takes.choice`, … — phrase by phrase.
* `Phrase.Spells`, `Phrase.Takes.star` — parts of a repetition, and all of them together.
* `Phrase.blocked`, `Phrase.refuses_of_blocked` — most phrases that do not fit fail at the first
  word already.
-/

namespace MettaSchema

open Scan Proto

namespace Words

/-! ## Texts -/

/-- Words behind another one: a space stands in front of each. -/
def trail : List String → List Char
  | [] => []
  | w :: ws => ' ' :: (w.toList ++ trail ws)

/-- Words with one space between them. -/
def spaced : List String → List Char
  | [] => []
  | w :: ws => w.toList ++ trail ws

/-- Whether what comes next does not look like blanks. -/
def Ready : List String → Prop
  | [] => True
  | w :: _ => w.toList ≠ [] ∧ startsWith beginsBlank w.toList = false

instance (ws : List String) : Decidable (Ready ws) :=
  match ws with
  | [] => .isTrue trivial
  | w :: _ => inferInstanceAs (Decidable (w.toList ≠ [] ∧ startsWith beginsBlank w.toList = false))

theorem Ready.not_begins {ws : List String} (h : Ready ws) :
    startsWith beginsBlank (spaced ws) = false := by
  cases ws with
  | nil => rfl
  | cons w ws =>
    obtain ⟨hne, hw⟩ := h
    obtain ⟨c, t, hct⟩ := List.exists_cons_of_ne_nil hne
    simp only [spaced, hct, List.cons_append] at hw ⊢
    exact hw

theorem Ready.blanks_spaced {ws : List String} (h : Ready ws) :
    blanks (spaced ws) = ([], spaced ws) :=
  blanks_of_head h.not_begins

/-- Behind a word the next word is reached by skipping one space. -/
theorem Ready.blanks_trail {ws : List String} (h : Ready ws) :
    (blanks (trail ws)).2 = spaced ws := by
  cases ws with
  | nil => rfl
  | cons w ws =>
    have hgap : Gap [' '] := .one (.blank rfl)
    have hskip := blanks_gap hgap h.not_begins
    exact congrArg Prod.snd hskip

theorem stops_trail (ws : List String) : Stops (trail ws) := by
  cases ws <;> rfl

end Words

open Words

namespace Phrase

/-! ## Reading words -/

/-- At some words the phrase reads trees with the given tokens, and the given words are left. -/
def Takes (p : Phrase) (ws : List String) (tokens : List Tree) (rest : List String) : Prop :=
  ∃ trees r, Reads false p (spaced ws) (some (trees, r)) ∧ (blanks r).2 = spaced rest
    ∧ Tree.skeletonAll trees = tokens

/-- At some words the phrase cannot be read. -/
def Refuses (p : Phrase) (ws : List String) : Prop := Reads false p (spaced ws) none

theorem Takes.nothing {ws : List String} (h : Ready ws) : Takes .nothing ws [] ws :=
  ⟨[], spaced ws, .nothing _, congrArg Prod.snd h.blanks_spaced, rfl⟩

/-- A scanner that takes the first word. -/
def Catches (scan : Scanner) (w : String) : Prop :=
  ∀ ws, scan (w.toList ++ trail ws) = some (w.toList, trail ws)

theorem catches_of_local {scan : Scanner} (hl : scan.Local) {w : String}
    (h : scan w.toList = some (w.toList, [])) : Catches scan w := by
  intro ws
  rw [hl _ (stops_trail ws), h]
  rfl

theorem Takes.mark {scan : Scanner} {w : String} {ws : List String} (h : Catches scan w)
    (hws : Ready ws) : Takes (.mark scan) (w :: ws) [] ws :=
  ⟨_, _, .mark_some (h ws), hws.blanks_trail, rfl⟩

theorem Takes.token {rule : Rule} {scan : Scanner} {w : String} {ws : List String}
    (h : Catches scan w) (hws : Ready ws) :
    Takes (.token rule scan) (w :: ws) [.token rule w.toList] ws :=
  ⟨_, _, .token_some (h ws), hws.blanks_trail, rfl⟩

theorem Takes.node {rule : Rule} {p : Phrase} {ws rest : List String} {tokens : List Tree}
    (h : Takes p ws tokens rest) : Takes (.node rule p) ws [.node rule tokens] rest := by
  obtain ⟨trees, r, hreads, hr, rfl⟩ := h
  exact ⟨_, r, .node_some hreads, hr, by simp [Tree.skeletonAll, Tree.skeleton]⟩

theorem Takes.seq {p q : Phrase} {ws ws₁ rest : List String} {tokens more : List Tree}
    (hp : Takes p ws tokens ws₁) (hq : Takes q ws₁ more rest) :
    Takes (.seq p q) ws (tokens ++ more) rest := by
  obtain ⟨trees, r, hreads, hr, rfl⟩ := hp
  obtain ⟨trees', r', hreads', hr', rfl⟩ := hq
  rw [← hr] at hreads'
  exact ⟨_, r', .seq_both hreads hreads', hr', by simp⟩

theorem Takes.alt_first {p q : Phrase} {ws rest : List String} {tokens : List Tree}
    (h : Takes p ws tokens rest) : Takes (.alt p q) ws tokens rest := by
  obtain ⟨trees, r, hreads, hr, htokens⟩ := h
  exact ⟨trees, r, .alt_first hreads, hr, htokens⟩

theorem Takes.alt_second {p q : Phrase} {ws rest : List String} {tokens : List Tree}
    (hp : Refuses p ws) (hq : Takes q ws tokens rest) : Takes (.alt p q) ws tokens rest := by
  obtain ⟨trees, r, hreads, hr, htokens⟩ := hq
  exact ⟨trees, r, .alt_second hp hreads, hr, htokens⟩

theorem Takes.opt_some {p : Phrase} {ws rest : List String} {tokens : List Tree}
    (h : Takes p ws tokens rest) : Takes (.opt p) ws tokens rest := by
  obtain ⟨trees, r, hreads, hr, htokens⟩ := h
  exact ⟨trees, r, .opt_some hreads, hr, htokens⟩

theorem Takes.opt_none {p : Phrase} {ws : List String} (h : Refuses p ws) (hws : Ready ws) :
    Takes (.opt p) ws [] ws :=
  ⟨[], spaced ws, .opt_none h, congrArg Prod.snd hws.blanks_spaced, rfl⟩

theorem Takes.body {ws rest : List String} {tokens : List Tree}
    (h : Takes messageBody ws tokens rest) : Takes .body ws tokens rest := by
  obtain ⟨trees, r, hreads, hr, htokens⟩ := h
  exact ⟨trees, r, .body hreads, hr, htokens⟩

theorem Refuses.token {rule : Rule} {scan : Scanner} {ws : List String}
    (h : scan (spaced ws) = none) : Refuses (.token rule scan) ws := Reads.token_none h

theorem Refuses.node {rule : Rule} {p : Phrase} {ws : List String} (h : Refuses p ws) :
    Refuses (.node rule p) ws := Reads.node_none h

theorem Refuses.seq_first {p q : Phrase} {ws : List String} (h : Refuses p ws) :
    Refuses (.seq p q) ws := Reads.seq_first h

theorem Refuses.seq_second {p q : Phrase} {ws rest : List String} {tokens : List Tree}
    (hp : Takes p ws tokens rest) (hq : Refuses q rest) : Refuses (.seq p q) ws := by
  obtain ⟨trees, r, hreads, hr, -⟩ := hp
  rw [Refuses, ← hr] at hq
  exact Reads.seq_second hreads hq

theorem Refuses.alt {p q : Phrase} {ws : List String} (hp : Refuses p ws) (hq : Refuses q ws) :
    Refuses (.alt p q) ws := Reads.alt_second hp hq

/-! ## Choices -/

theorem choice_cons (p : Phrase) {ps : List Phrase} (h : ps ≠ []) :
    choice (p :: ps) = alt p (choice ps) := by
  cases ps with
  | nil => exact absurd rfl h
  | cons q ps => rfl

theorem Takes.choice_first {p : Phrase} {ws rest : List String} {tokens : List Tree}
    (after : List Phrase) (hp : Takes p ws tokens rest) :
    Takes (Phrase.choice (p :: after)) ws tokens rest := by
  cases after with
  | nil => exact hp
  | cons q after => exact .alt_first hp

/-- A choice goes on to further branches if no branch before them can be read. -/
theorem Takes.choice {ws rest : List String} {tokens : List Tree} (before : List Phrase)
    {after : List Phrase} (hafter : after ≠ []) (hbefore : ∀ q ∈ before, Refuses q ws)
    (h : Takes (Phrase.choice after) ws tokens rest) :
    Takes (Phrase.choice (before ++ after)) ws tokens rest := by
  induction before with
  | nil => exact h
  | cons q before ih =>
    rw [List.cons_append, choice_cons q (by simp [hafter])]
    exact .alt_second (hbefore q (by simp)) (ih fun x hx => hbefore x (by simp [hx]))

/-! ## Repetitions -/

/-- Behind any blanks, the phrase reads further parts of a repetition from some words. -/
def TakesMore (p : Phrase) (ws : List String) (tokens : List Tree) (rest : List String) : Prop :=
  ∀ s, (blanks s).2 = spaced ws → ∃ trees r, Reads true p s (some (trees, r))
    ∧ (blanks r).2 = spaced rest ∧ Tree.skeletonAll trees = tokens

theorem TakesMore.nil {p : Phrase} {ws : List String} (h : Refuses p ws) :
    TakesMore p ws [] ws := by
  intro s hs
  rw [Refuses, ← hs] at h
  exact ⟨[], s, .more_none h, hs, rfl⟩

theorem TakesMore.cons {p : Phrase} {ws ws₁ rest : List String} {tokens more : List Tree}
    (h : Takes p ws tokens ws₁) (hmore : TakesMore p ws₁ more rest) :
    TakesMore p ws (tokens ++ more) rest := by
  intro s hs
  obtain ⟨trees, r, hreads, hr, rfl⟩ := h
  obtain ⟨trees', r', hreads', hr', rfl⟩ := hmore r hr
  rw [← hs] at hreads
  exact ⟨_, r', .more_some hreads hreads', hr', by simp⟩

/-- In front of any others the phrase reads exactly the given words, which do not look like
blanks. -/
def Spells (p : Phrase) (words : List String) (tokens : List Tree) : Prop :=
  ∀ ws, Ready ws → Ready (words ++ ws) ∧ Takes p (words ++ ws) tokens ws

theorem Spells.ready_flatMap {p : Phrase} {parts : List (List String × List Tree)}
    {rest : List String} (h : ∀ part ∈ parts, Spells p part.1 part.2) (hrest : Ready rest) :
    Ready (parts.flatMap (·.1) ++ rest) := by
  induction parts with
  | nil => exact hrest
  | cons part parts ih =>
    rw [List.flatMap_cons, List.append_assoc]
    exact (h part (by simp) _ (ih fun x hx => h x (by simp [hx]))).1

theorem TakesMore.all {p : Phrase} {parts : List (List String × List Tree)} {rest : List String}
    (h : ∀ part ∈ parts, Spells p part.1 part.2) (hrest : Ready rest) (hend : Refuses p rest) :
    TakesMore p (parts.flatMap (·.1) ++ rest) (parts.flatMap (·.2)) rest := by
  induction parts with
  | nil => exact .nil hend
  | cons part parts ih =>
    have h' : ∀ part ∈ parts, Spells p part.1 part.2 := fun x hx => h x (by simp [hx])
    rw [List.flatMap_cons, List.flatMap_cons, List.append_assoc]
    exact .cons (h part (by simp) _ (Spells.ready_flatMap h' hrest)).2 (ih h')

/-- A repetition reads all the parts that are there. -/
theorem Takes.star {p : Phrase} (parts : List (List String × List Tree)) {rest : List String}
    (h : ∀ part ∈ parts, Spells p part.1 part.2) (hrest : Ready rest) (hend : Refuses p rest) :
    Takes (.star p) (parts.flatMap (·.1) ++ rest) (parts.flatMap (·.2)) rest := by
  cases parts with
  | nil => exact ⟨[], _, .star_none hend, congrArg Prod.snd hrest.blanks_spaced, rfl⟩
  | cons part parts =>
    have h' : ∀ part ∈ parts, Spells p part.1 part.2 := fun x hx => h x (by simp [hx])
    obtain ⟨trees, r, hreads, hr, htokens⟩ :=
      (h part (by simp) _ (Spells.ready_flatMap h' hrest)).2
    obtain ⟨trees', r', hreads', hr', htokens'⟩ := TakesMore.all h' hrest hend r hr
    rw [List.flatMap_cons, List.flatMap_cons, List.append_assoc]
    exact ⟨_, r', .star_some hreads hreads', hr', by simp [htokens, htokens']⟩

/-! ## Phrases that fail at the first word -/

/-- Whether the phrase fails at a word whatever follows it, as far as that is seen from the
scanners that look at the word. -/
def blocked (w : List Char) : Phrase → Bool
  | nothing => false
  | mark scan => (scan w).isNone
  | token _ scan => (scan w).isNone
  | node _ p => blocked w p
  | seq (opt p) q => blocked w p && blocked w q
  | seq p _ => blocked w p
  | alt p q => blocked w p && blocked w q
  | opt _ => false
  | star _ => false
  | body => (exactly [Scan.openBrace] w).isNone

/-- A scanner that fails at a word fails whatever follows the word. -/
def Firm (scan : Scanner) : Prop :=
  ∀ (w : List Char) (ws : List String), scan w = none → scan (w ++ trail ws) = none

/-- The scanners that look at the first word of the phrase are firm. -/
def FirmFirst : Phrase → Prop
  | nothing => True
  | mark scan => Firm scan
  | token _ scan => Firm scan
  | node _ p => FirmFirst p
  | seq (opt p) q => FirmFirst p ∧ FirmFirst q
  | seq p _ => FirmFirst p
  | alt p q => FirmFirst p ∧ FirmFirst q
  | opt _ => True
  | star _ => True
  | body => True

theorem firm_of_local {scan : Scanner} (h : scan.Local) : Firm scan := by
  intro w ws hw
  have hstops := halts_dropWhile isSolid w
  rw [← List.takeWhile_append_dropWhile (p := isSolid) (l := w)] at hw ⊢
  rw [h _ hstops, Option.map_eq_none_iff] at hw
  have htail : Stops (w.dropWhile isSolid ++ trail ws) := by
    cases hd : w.dropWhile isSolid with
    | nil => exact stops_trail ws
    | cons c r => rwa [hd] at hstops
  rw [List.append_assoc, h _ htail, hw, Option.map_none]

theorem firm_punctuation {c : Char} (hc : c ≠ ' ') : Firm (exactly [c]) := by
  intro w ws hw
  cases w with
  | nil => cases ws <;> simp [trail, exactly, List.isPrefixOf, hc]
  | cons d w =>
    by_cases hd : c = d
    · simp [exactly, List.isPrefixOf, hd] at hw
    · simp [exactly, List.isPrefixOf, hd]

/-- A phrase that is blocked at a word is blocked whatever follows the word. -/
theorem blocked_append {w : List Char} {p : Phrase} (hf : p.FirmFirst) (hb : p.blocked w = true)
    (ws : List String) : p.blocked (w ++ trail ws) = true := by
  have hscan : ∀ {scan : Scanner}, Firm scan → (scan w).isNone = true →
      (scan (w ++ trail ws)).isNone = true := fun hfirm hw =>
    Option.isNone_iff_eq_none.2 (hfirm w ws (Option.isNone_iff_eq_none.1 hw))
  fun_induction blocked w p with
  | case1 | case8 | case9 => cases hb
  | case2 scan | case3 rule scan => exact hscan hf hb
  | case4 rule p ih => exact ih hf hb
  | case5 p q ihp ihq =>
    rw [Bool.and_eq_true] at hb
    rw [blocked, Bool.and_eq_true]
    exact ⟨ihp hf.1 hb.1, ihq hf.2 hb.2⟩
  | case6 p q hopt ih =>
    rw [FirmFirst] at hf
    · rw [blocked]
      · exact ih hf hb
      · exact hopt
    · exact hopt
  | case7 p q ihp ihq =>
    rw [Bool.and_eq_true] at hb
    rw [blocked, Bool.and_eq_true]
    exact ⟨ihp hf.1 hb.1, ihq hf.2 hb.2⟩
  | case10 => exact hscan (firm_punctuation (by decide)) hb

/-- A phrase that is blocked at a text cannot be read there. -/
theorem reads_none_of_blocked {s : List Char} (hs : blanks s = ([], s)) {p : Phrase}
    (hb : p.blocked s = true) : Reads false p s none := by
  fun_induction blocked s p with
  | case1 | case8 | case9 => cases hb
  | case2 scan => exact .mark_none (Option.isNone_iff_eq_none.1 hb)
  | case3 rule scan => exact .token_none (Option.isNone_iff_eq_none.1 hb)
  | case4 rule p ih => exact .node_none (ih hb)
  | case5 p q ihp ihq =>
    rw [Bool.and_eq_true] at hb
    refine .seq_second (.opt_none (ihp hb.1)) ?_
    rw [hs]
    exact ihq hb.2
  | case6 p q hopt ih => exact .seq_first (ih hb)
  | case7 p q ihp ihq =>
    rw [Bool.and_eq_true] at hb
    exact .alt_second (ihp hb.1) (ihq hb.2)
  | case10 => exact .body (.node_none (.seq_first (.mark_none (Option.isNone_iff_eq_none.1 hb))))

/-- A phrase that is blocked at the first word cannot be read. -/
theorem refuses_of_blocked {p : Phrase} (hf : p.FirmFirst) {w : String} {ws : List String}
    (hws : Ready (w :: ws)) (hb : p.blocked w.toList = true) : Refuses p (w :: ws) :=
  reads_none_of_blocked (blanks_of_head hws.not_begins) (blocked_append hf hb ws)

theorem firmFirst_of_choice {ps : List Phrase} (h : (choice ps).FirmFirst) :
    ∀ p ∈ ps, p.FirmFirst := by
  induction ps with
  | nil => nofun
  | cons p ps ih =>
    cases ps with
    | nil =>
      intro x hx
      rwa [List.mem_singleton.1 hx]
    | cons q ps =>
      rintro x (_ | ⟨_, hx⟩)
      · exact h.1
      · exact ih h.2 x hx

/-- Branches that are blocked at the first word cannot be read. -/
theorem refuses_of_all_blocked (before after : List Phrase)
    (hf : (choice (before ++ after)).FirmFirst) {w : String} {ws : List String}
    (hws : Ready (w :: ws)) (hb : before.all (·.blocked w.toList) = true) :
    ∀ q ∈ before, Refuses q (w :: ws) := by
  intro q hq
  have hfirm := firmFirst_of_choice hf q (List.mem_append_left _ hq)
  exact refuses_of_blocked hfirm hws (List.all_eq_true.1 hb q hq)

/-- A choice reads what a branch reads whose first word blocks all branches before it. -/
theorem Spells.choice {p : Phrase} {w : String} {words : List String} {tokens : List Tree}
    (before after : List Phrase) (hf : (Phrase.choice (before ++ p :: after)).FirmFirst)
    (hw : Ready [w]) (hb : before.all (·.blocked w.toList) = true)
    (hp : ∀ ws, Ready ws → Takes p (w :: words ++ ws) tokens ws) :
    Spells (Phrase.choice (before ++ p :: after)) (w :: words) tokens := by
  intro ws hws
  have hready : Ready (w :: (words ++ ws)) := hw
  exact ⟨hready, .choice before (by simp) (refuses_of_all_blocked before (p :: after) hf hready hb)
    (.choice_first after (hp ws hws))⟩

/-- A phrase that is blocked at no word at all cannot be read at the end. -/
theorem refuses_nil {p : Phrase} (hb : p.blocked [] = true) : Refuses p [] :=
  reads_none_of_blocked rfl hb

end Phrase

namespace Proto

/-! ## The first words of statements -/

open Phrase

theorem firm_word {text : String} (h : text.toList.all isSolid = true) : Firm (word text) :=
  firm_of_local (local_word h)

theorem firm_oneOfWords {texts : List String} (h : texts.all (·.toList.all isSolid) = true) :
    Firm (oneOfWords texts) :=
  firm_of_local (local_oneOfWords h)

attribute [local simp] FirmFirst Phrase.sequence Phrase.choice keyword openBrace closeBrace
  emptyStatement punct

attribute [local simp] firm_word firm_oneOfWords firm_punctuation

theorem firm_fieldOptions : fieldOptions.FirmFirst := by
  simp +decide [fieldOptions]

theorem firm_ident : Proto.ident.FirmFirst := firm_of_local local_ident

theorem firm_keyword {rule : Rule} {text : String} (h : text.toList.all isSolid = true) :
    (keyword rule text).FirmFirst := firm_word h

theorem firm_optionName : optionName.FirmFirst := firm_of_local local_optionName

theorem firm_ranges : ranges.FirmFirst := by
  simp [ranges, separated, range, Proto.intLit, firm_of_local local_intLit]

theorem firm_enumElement :
    (choice [optionStatement, reserved, enumValue, emptyStatement]).FirmFirst := by
  simp +decide [optionStatement, reserved, enumValue, Proto.ident, firm_of_local local_ident]

theorem firm_messageElement : messageElement.FirmFirst := by
  simp +decide [messageElement, optionStatement, reserved, extensions, messageDef, enumDef,
    extendDef, oneofDef, mapField, groupField, field, label, Proto.typeName,
    firm_of_local local_typeName]

theorem firm_serviceElement : (choice [optionStatement, rpc, emptyStatement]).FirmFirst := by
  simp +decide [optionStatement, rpc]

theorem firm_topLevel : topLevel.FirmFirst := by
  simp +decide [topLevel, importLine, packageLine, optionStatement, messageDef, enumDef, serviceDef,
    extendDef]

end Proto

end MettaSchema
