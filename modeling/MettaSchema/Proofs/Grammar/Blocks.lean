import MettaSchema.Proofs.Grammar.Edited

/-!
# Blocks of statements

Files, message bodies, enums, oneofs and services hold statements one after another.  Such a block
is what opens it, its statements, each behind blanks, and what closes it; and other statements can
take the place of these.

* `Proto.Series` — statements one after another.
* `Proto.Series.split` — a series can be cut behind each statement.
* `Proto.Series.behind` — a series is read in front of another text.
* `Proto.Frame`, `Proto.Reads.frame` — what opens a block and what closes it.
-/

namespace MettaSchema

open Scan

namespace Tree

/-- Whether the tree is blanks. -/
def isBlank : Tree → Bool
  | blank _ => true
  | _ => false

/-- Whether a block is opened by the tree: a brace, or the line that names the dialect. -/
def opensBlock : Tree → Bool
  | mark text => text == [Scan.openBrace]
  | node rule _ => rule ∈ [.syntaxLine, .editionLine]
  | _ => false

/-- The last of the trees is no blanks. -/
def EndsSolid (ts : List Tree) : Prop := ∀ t, ts.getLast? = some t → t.isBlank = false

theorem EndsSolid.of_append {ts us : List Tree} (h : EndsSolid (ts ++ us)) : EndsSolid us := by
  intro t ht
  exact h t (by rw [List.getLast?_append, ht]; rfl)

/-- Blanks do not begin with trees the last of which is no blanks. -/
theorem EndsSolid.eq_nil {ts : List Tree} (us : List Tree) (h : EndsSolid ts) {g : List Char}
    (hg : ofBlanks g = ts ++ us) : ts = [] := by
  cases ts with
  | nil => rfl
  | cons t ts =>
    cases g with
    | nil => cases hg
    | cons c g =>
      obtain ⟨rfl, hnil⟩ := List.cons.inj hg
      obtain ⟨rfl, -⟩ := List.append_eq_nil_iff.1 hnil.symm
      cases h _ rfl

end Tree

/-- The phrase of the statements of a block. -/
def Rule.element : Rule → Phrase
  | proto => Proto.topLevel
  | enumDef =>
    .choice [Proto.optionStatement, Proto.reserved, Proto.enumValue, Proto.emptyStatement]
  | oneofDef =>
    .choice [Proto.optionStatement, Proto.groupField, Proto.field, Proto.emptyStatement]
  | serviceDef => .choice [Proto.optionStatement, Proto.rpc, Proto.emptyStatement]
  | _ => Proto.messageElement

namespace Phrase

open Proto

/-- What is read as the phrase is one tree, and no blanks. -/
def Single (p : Phrase) : Prop :=
  ∀ ⦃s r : List Char⦄ ⦃ts : List Tree⦄, Reads false p s (some (ts, r)) →
    ∃ t, ts = [t] ∧ t.isBlank = false

theorem single_node {rule : Rule} {p : Phrase} : (node rule p).Single := by
  intro s r ts h
  cases h with | node_some =>
  exact ⟨_, rfl, rfl⟩

theorem single_mark {scan : Scanner} : (mark scan).Single := by
  intro s r ts h
  cases h with | mark_some =>
  exact ⟨_, rfl, rfl⟩

theorem single_choice {ps : List Phrase} (h : ∀ p ∈ ps, p.Single) : (choice ps).Single := by
  intro s r ts hreads
  obtain ⟨p, hp, hreads⟩ := choice_reads hreads
  exact h p hp hreads

/-- A phrase for the statements of a block. -/
structure Element (site : Site) (e : Phrase) : Prop where
  /-- A statement is one tree. -/
  single : e.Single
  /-- What is read and what is left make up the input. -/
  sound : e.Sound
  /-- A statement takes something. -/
  eats : e.Eats
  /-- The rules stand where they may. -/
  fits : e.Fits site
  /-- A statement ends where it ends. -/
  predicts (tame : Prop) (w : Follow) : e.Predicts tame anyChar w

end Phrase

namespace Proto

open Phrase

theorem sound_enumDef : enumDef.Sound := sound_messageElement.1.2.2.2.2.1

theorem sound_oneofDef : oneofDef.Sound := sound_messageElement.1.2.2.2.2.2.2.1

/-- What is repeated in a sound statement in braces takes something. -/
theorem sound_element {rule rule' rule'' : Rule} {text : String} {scan : Scanner} {e : Phrase}
    (h : (node rule (sequence [keyword rule' text, token rule'' scan, openBrace, star e,
      closeBrace])).Sound) : e.Sound ∧ e.Eats := h.2.2.2.1

theorem element_of_isBlock {rule : Rule} (h : rule.isBlock = true) :
    rule.element.Element rule.site := by
  cases rule with
  | proto =>
    refine ⟨single_choice ?_, sound_topLevel.1, sound_topLevel.2, by decide,
      fun _ _ => predicts_topLevel⟩
    simp only [List.forall_mem_cons]
    exact ⟨single_node, single_node, single_node, single_node, single_node, single_node,
      single_node, single_mark, by simp⟩
  | messageBody =>
    refine ⟨single_choice ?_, sound_messageElement.1, sound_messageElement.2, by decide,
      fun _ _ => predicts_messageElement⟩
    simp only [List.forall_mem_cons]
    exact ⟨single_node, single_node, single_node, single_node, single_node, single_node,
      single_node, single_node, single_node, single_node, single_mark, by simp⟩
  | enumDef =>
    refine ⟨single_choice ?_, (sound_element sound_enumDef).1, (sound_element sound_enumDef).2, by decide,
      fun _ _ => predicts_enumElement⟩
    simp only [List.forall_mem_cons]
    exact ⟨single_node, single_node, single_node, single_mark, by simp⟩
  | oneofDef =>
    refine ⟨single_choice ?_, (sound_element sound_oneofDef).1, (sound_element sound_oneofDef).2, by decide,
      fun _ _ => predicts_oneofElement⟩
    simp only [List.forall_mem_cons]
    exact ⟨single_node, single_node, single_node, single_mark, by simp⟩
  | serviceDef =>
    refine ⟨single_choice ?_, (sound_element sound_serviceDef.1).1,
      (sound_element sound_serviceDef.1).2, by decide, fun _ _ => predicts_serviceElement⟩
    simp only [List.forall_mem_cons]
    exact ⟨single_node, single_node, single_mark, by simp⟩
  | _ => cases h

/-- A statement begins with a character that begins no blanks. -/
theorem exists_head {site : Site} {e : Phrase} (he : e.Element site) {s r : List Char}
    {ts : List Tree} (hs : blanks s = ([], s)) (h : Reads false e s (some (ts, r))) :
    ∃ c x, s = c :: x ∧ beginsBlank c = false := by
  have hsurvives : Survives False false e anyChar s ts r :=
    h.behind (he.predicts False .any) he.sound ⟨site, he.fits⟩ hs False.elim trivial trivial (.refl .any r)
  obtain ⟨-, -, -, -, hopens, -⟩ := hsurvives
  rw [hs] at hopens
  cases s with
  | nil => exact absurd (h.length_lt he.sound he.eats) (Nat.not_lt_zero _)
  | cons c x => exact ⟨c, x, rfl, hopens.2⟩

/-! ## Series of statements -/

/-- Statements one after another, each behind blanks, and the text behind them. -/
inductive Series (e : Phrase) : List Char → List Tree → List Char → Prop
  /-- No statements. -/
  | nil (s : List Char) : Series e s [] s
  /-- A statement and further ones. -/
  | cons {s s₁ r : List Char} {t : Tree} {ts : List Tree} (ht : t.isBlank = false)
      (h : Reads false e (blanks s).2 (some ([t], s₁))) (hmore : Series e s₁ ts r) :
      Series e s (Tree.ofBlanks (blanks s).1 ++ t :: ts) r

namespace Series

variable {e q : Phrase} {s m r : List Char} {ts us : List Tree}

theorem append (h : Series e s ts m) (h' : Series e m us r) : Series e s (ts ++ us) r := by
  induction h with
  | nil => exact h'
  | cons ht hreads _ ih =>
    rw [List.append_assoc, List.cons_append]
    exact .cons ht hreads (ih h')

theorem text (h : Series e s ts r) (he : e.Sound) : Tree.textAll ts ++ r = s := by
  induction h with
  | nil => rfl
  | @cons s s₁ r t ts ht hreads hmore ih =>
    have htext := (hreads.text he _ _ rfl).1
    simp only [Tree.textAll, List.append_nil] at htext
    simp only [Tree.textAll_append, Tree.textAll_ofBlanks, Tree.textAll, List.append_assoc, ih, htext,
      blanks_append]

/-- The statements that a repetition reads behind blanks. -/
theorem of_more {further : Bool} {o : Option (List Tree × List Char)} (hsingle : e.Single)
    (h : Reads further e s o) : further = true → ∀ ts r, o = some (ts, r) →
      Series e s ts r ∧ Reads false e (blanks r).2 none := by
  induction h with
  | more_none h =>
    rintro - ts r ⟨⟩
    exact ⟨.nil _, h⟩
  | more_some h₁ _ _ ih =>
    rintro - ts r ⟨⟩
    obtain ⟨hmore, hend⟩ := ih hsingle rfl _ _ rfl
    obtain ⟨t, rfl, ht⟩ := hsingle h₁
    rw [List.append_assoc]
    exact ⟨.cons ht h₁ hmore, hend⟩
  | _ => nofun

theorem more (h : Series e s ts r) (hend : Reads false e (blanks r).2 none) :
    Reads true e s (some (ts, r)) := by
  induction h with
  | nil => exact .more_none hend
  | cons _ hreads _ ih =>
    have hmore := Reads.more_some hreads (ih hend)
    rwa [List.append_assoc] at hmore

/-- The statements of a repetition and what follows them. -/
theorem of_star (hsingle : e.Single) (h : Reads false (.seq (.star e) q) (blanks s).2 (some (us, r))) :
    ∃ ts r₁ vs, Series e s ts r₁ ∧ Reads false e (blanks r₁).2 none
      ∧ Reads false q (blanks r₁).2 (some (vs, r))
      ∧ Tree.ofBlanks (blanks s).1 ++ us = ts ++ (Tree.ofBlanks (blanks r₁).1 ++ vs) := by
  cases h with | @seq_both _ _ _ s₁ _ _ vs h₁ h₂ =>
  cases h₁ with
  | star_none hnone =>
    rw [blanks_snd] at h₂
    refine ⟨[], s, vs, .nil s, hnone, h₂, ?_⟩
    rw [blanks_snd]
    rfl
  | star_some hfirst hmore =>
    obtain ⟨hseries, hend⟩ := of_more hsingle hmore rfl _ _ rfl
    obtain ⟨t, rfl, ht⟩ := hsingle hfirst
    exact ⟨_, s₁, vs, .cons ht hfirst hseries, hend, h₂, by simp⟩

theorem star (h : Series e s ts m) (hend : Reads false e (blanks m).2 none)
    (hq : Reads false q (blanks m).2 (some (us, r))) :
    ∃ vs, Reads false (.seq (.star e) q) (blanks s).2 (some (vs, r))
      ∧ Tree.ofBlanks (blanks s).1 ++ vs = ts ++ (Tree.ofBlanks (blanks m).1 ++ us) := by
  cases h with
  | nil =>
    refine ⟨us, ?_, rfl⟩
    have hseq : Reads false (.seq (.star e) q) (blanks s).2
        (some ([] ++ Tree.ofBlanks (blanks (blanks s).2).1 ++ us, r)) := by
      refine .seq_both (.star_none hend) ?_
      rwa [blanks_snd]
    simpa [blanks_snd, Tree.ofBlanks] using hseq
  | cons ht hfirst hmore =>
    exact ⟨_, .seq_both (.star_some hfirst (hmore.more hend)) hq, by simp⟩

/-- A series can be cut behind each statement. -/
theorem split (h : Series e s (ts ++ us) r) (hts : Tree.EndsSolid ts) :
    ∃ m, Series e s ts m ∧ Series e m us r := by
  generalize hws : ts ++ us = ws at h
  induction h generalizing ts with
  | nil s =>
    obtain ⟨rfl, rfl⟩ := List.append_eq_nil_iff.1 hws
    exact ⟨s, .nil s, .nil s⟩
  | @cons s s₁ r t ws ht hreads hmore ih =>
    have hnil : ts = [] → ∃ m, Series e s ts m ∧ Series e m us r := by
      rintro rfl
      rw [List.nil_append] at hws
      exact ⟨s, .nil s, hws ▸ .cons ht hreads hmore⟩
    rcases List.append_eq_append_iff.1 hws with ⟨mid, hmid, rfl⟩ | ⟨mid, rfl, hmid⟩
    · exact hnil (hts.eq_nil _ hmid)
    · cases mid with
      | nil => exact hnil (hts.eq_nil [] (g := (blanks s).1) (by simp))
      | cons u mid =>
        obtain ⟨rfl, rfl⟩ := List.cons.inj hmid
        rw [← List.singleton_append, ← List.append_assoc] at hts
        obtain ⟨m, hfront, hback⟩ := ih hts.of_append rfl
        exact ⟨m, .cons ht hreads hfront, hback⟩

/-- Blanks, a statement that is read in front of another text, and a series behind it. -/
theorem cons_behind {tame : Prop} {site : Site} (he : e.Element site) {g s₂ s₁ s₁' : List Char}
    {t : Tree} (hg : g = [] ∨ Gap g) (hs : blanks s₂ = ([], s₂))
    (h : Reads false e s₂ (some ([t], s₁))) (hval : tame → ∀ v ∈ t.values, Braced v)
    (hcalm : Calm tame s₁ s₁') (hmore : Series e s₁' ts r) :
    ∃ t', Series e (g ++ (t.text ++ s₁')) (Tree.ofBlanks g ++ t' :: ts) r
      ∧ t'.skeleton = t.skeleton ∧ Strays tame s₂ (t.text ++ s₁') := by
  have hvalues : tame → ∀ v ∈ Tree.valuesAll [t], Braced v := by
    simpa [Tree.valuesAll] using hval
  obtain ⟨trees', hreads, hskeleton, hstrays, -, -⟩ :=
    h.behind (he.predicts tame .any) he.sound ⟨site, he.fits⟩ hs hvalues trivial trivial hcalm
  obtain ⟨t', rfl, ht'⟩ := he.single hreads
  simp only [Tree.textAll, List.append_nil] at hreads hstrays
  simp only [Tree.skeletonAll, List.append_nil] at hskeleton
  have hblanks : blanks (g ++ (t.text ++ s₁')) = (g, t.text ++ s₁') := by
    obtain ⟨c, x, rfl, hc⟩ := exists_head he hs h
    have hopens : Opens anyChar (t.text ++ s₁') := hstrays.opens ⟨rfl, hc⟩
    cases hrest : t.text ++ s₁' with
    | nil =>
      have hlt := hreads.length_lt he.sound he.eats
      rw [hrest] at hlt
      exact absurd hlt (Nat.not_lt_zero _)
    | cons d y =>
      rw [hrest] at hopens
      exact blanks_gap_or_nil hg hopens.2
  refine ⟨t', ?_, hskeleton, hstrays⟩
  have hcons : Series e (g ++ (t.text ++ s₁')) _ r := .cons ht' (by rw [hblanks]; exact hreads) hmore
  rwa [hblanks] at hcons

/-- A series of statements is read in front of another text. -/
theorem behind {tame : Prop} {site : Site} (he : e.Element site) (h : Series e s ts r)
    (hval : tame → ∀ v ∈ Tree.valuesAll ts, Braced v) {r' : List Char} (hcalm : Calm tame r r') :
    ∃ ts', Series e (Tree.textAll ts ++ r') ts' r'
      ∧ Tree.skeletonAll ts' = Tree.skeletonAll ts ∧ Calm tame s (Tree.textAll ts ++ r') := by
  induction h with
  | nil => exact ⟨[], .nil r', rfl, hcalm⟩
  | @cons s s₁ r t ts ht hreads hmore ih =>
    simp only [Tree.valuesAll_append, Tree.valuesAll, List.mem_append] at hval
    obtain ⟨ts', hseries, hskeleton, hcalm'⟩ := ih (fun ht v hv => hval ht v (by simp [hv])) hcalm
    obtain ⟨c, x, hx, hc⟩ := exists_head he (blanks_snd s) hreads
    have hgap : (blanks s).1 = [] ∨ Gap (blanks s).1 := by
      refine gap_of_blanks (s := x) hc _ ?_
      rw [← hx, blanks_append]
    obtain ⟨t', hcons, ht', hstrays⟩ := cons_behind he hgap (blanks_snd s) hreads
      (fun ht v hv => hval ht v (by simp [hv])) hcalm' hseries
    refine ⟨_, by simpa [Tree.textAll] using hcons, by simp [Tree.skeletonAll, hskeleton, ht'], ?_⟩
    have hfront := (hstrays.append (blanks s).1).calm
    rw [blanks_append] at hfront
    simpa [Tree.textAll] using hfront

end Series

/-! ## What opens a block and what closes it -/

/-- The statements of a block, what opens it and what closes it.  Other statements can take the
place of these. -/
structure Frame (tame : Prop) (rule : Rule) (p : Phrase) (s : List Char) (parts : List Tree)
    (r : List Char) (front : List Tree) (s₀ : List Char) (ts : List Tree) (r₁ : List Char)
    (last : Tree) : Prop where
  /-- What opens the block, its statements, and what closes it. -/
  parts_eq : parts = front ++ (ts ++ (Tree.ofBlanks (blanks r₁).1 ++ [last]))
  /-- The statements. -/
  series : Series rule.element s₀ ts r₁
  /-- The text behind what opens the block. -/
  text_eq : s = Tree.textAll front ++ s₀
  /-- The text of what closes the block. -/
  closes : (blanks r₁).2 = last.text ++ r
  /-- What opens the block can be told from its last part. -/
  opens : front = [] ∨ ∃ t, front.getLast? = some t ∧ t.opensBlock = true
  /-- Other statements. -/
  refill {s₀' : List Char} {ts' : List Tree} {r₁' : List Char}
    (h : Series rule.element s₀' ts' r₁') (hr : (blanks r₁').2 = (blanks r₁).2)
    (hcalm : Calm tame s₀ s₀') :
    ∃ parts', Reads false p (Tree.textAll front ++ s₀') (some (parts', r))
      ∧ Tree.skeletonAll parts'
        = Tree.skeletonAll front ++ (Tree.skeletonAll ts' ++ last.skeleton)
      ∧ (rule ≠ .proto → Strays tame s (Tree.textAll front ++ s₀'))

/-- Statements in braces. -/
theorem exists_of_braces {e : Phrase} (he : e.Single) {s r : List Char} {parts : List Tree}
    (h : Reads false (seq openBrace (seq (star e) closeBrace)) s (some (parts, r))) :
    ∃ s₀ ts r₁, s = Scan.openBrace :: s₀ ∧ Series e s₀ ts r₁
      ∧ (blanks r₁).2 = Scan.closeBrace :: r
      ∧ parts = .mark [Scan.openBrace] :: (ts ++ (Tree.ofBlanks (blanks r₁).1
        ++ [.mark [Scan.closeBrace]])) := by
  cases h with | seq_both h₁ h₂ =>
  cases h₁ with | mark_some hopen =>
  obtain ⟨rfl, rfl⟩ := exactly_eq_some hopen
  obtain ⟨ts, r₁, vs, hseries, -, hclose, heq⟩ := Series.of_star he h₂
  cases hclose with | mark_some hclose =>
  obtain ⟨rfl, hr⟩ := exactly_eq_some hclose
  exact ⟨_, ts, r₁, rfl, hseries, hr, by rw [List.append_assoc, heq]; rfl⟩

/-- Other statements in the braces. -/
theorem Series.braces {tame : Prop} {e : Phrase} (hend : e.FailsAt (among [Scan.closeBrace]))
    {s₀ s₀' r₁ r : List Char} {ts : List Tree} (h : Series e s₀' ts r₁)
    (hr : (blanks r₁).2 = Scan.closeBrace :: r) (hcalm : Calm tame s₀ s₀') :
    ∃ parts, Reads false (seq openBrace (seq (.star e) closeBrace)) (Scan.openBrace :: s₀')
        (some (parts, r))
      ∧ Tree.skeletonAll parts = Tree.skeletonAll ts
      ∧ Strays tame (Scan.openBrace :: s₀) (Scan.openBrace :: s₀') := by
  have hclosed : Opens (among [Scan.closeBrace]) (blanks r₁).2 := by
    rw [hr]
    exact ⟨rfl, rfl⟩
  have hclose : Reads false closeBrace (blanks r₁).2 (some ([.mark [Scan.closeBrace]], r)) := by
    rw [hr]
    exact .mark_some rfl
  obtain ⟨vs, hstar, hvs⟩ := h.star (hend hclosed) hclose
  have hopen : Reads false openBrace (Scan.openBrace :: s₀')
      (some ([.mark [Scan.openBrace]], s₀')) := .mark_some rfl
  refine ⟨_, .seq_both hopen hstar, ?_, .inr (.of_calm hcalm rfl [])⟩
  rw [List.append_assoc, hvs]
  simp [Tree.skeletonAll, Tree.skeleton]

/-- What is read from a text that strays from another one survives. -/
theorem Survives.of_reads {tame : Prop} {p : Phrase} {k : Char → Bool} {s s' r : List Char}
    {trees : List Tree} (h : Reads false p s' (some (trees, r))) (hp : p.Sound)
    (hstrays : Strays tame s s') (hs : Opens k s) : Survives tame false p k s trees r := by
  obtain rfl := (h.text hp _ _ rfl).1
  exact .of_opens h rfl hstrays hs

/-- What stands in front of a phrase is read as before if the phrase begins as it did. -/
theorem Survives.seq_behind {tame : Prop} {p q : Phrase} {k m : Char → Bool} {s s₁ r : List Char}
    {trees more : List Tree} (h : Reads false p s (some (trees, s₁)))
    (hp : p.Predicts tame k (.opens m)) (hsound : p.Sound) (hfits : ∃ site, p.Fits site)
    (hs : blanks s = ([], s)) (hval : tame → ∀ v ∈ Tree.valuesAll trees, Braced v)
    (hq : Survives tame false q m (blanks s₁).2 more r) :
    Survives tame false (.seq p q) k s (trees ++ (Tree.ofBlanks (blanks s₁).1 ++ more)) r := by
  obtain ⟨hblanks, hstrays, hopens, hopens'⟩ := hq.behind_blanks
  have hfollow : (Follow.opens m).Holds ((blanks s₁).1 ++ (Tree.textAll more ++ r)) := by
    rw [Follow.Holds, hblanks]
    exact hopens'
  exact hq.seq (h.behind hp hsound hfits hs hval hopens hfollow hstrays)

theorem frame_messageBody {tame : Prop} {s r : List Char} {parts : List Tree}
    (h : Reads false (seq openBrace (seq (star messageElement) closeBrace)) s (some (parts, r))) :
    ∃ front s₀ ts r₁ last, Frame tame .messageBody
      (seq openBrace (seq (star messageElement) closeBrace)) s parts r front s₀ ts r₁ last := by
  have he := element_of_isBlock (rfl : Rule.isBlock .messageBody = true)
  obtain ⟨s₀, ts, r₁, rfl, hseries, hr, rfl⟩ := exists_of_braces he.single h
  refine ⟨[.mark [Scan.openBrace]], s₀, ts, r₁, _, rfl, hseries, rfl, hr, .inr ⟨_, rfl, rfl⟩, ?_⟩
  intro s₀' ts' r₁' hseries' hr' hcalm
  obtain ⟨parts', hreads, hskeleton, hstrays⟩ := hseries'.braces (r := r)
    (failsAt_of_blocked rfl fun _ => rfl) (hr'.trans hr) hcalm
  exact ⟨parts', hreads, by simpa [Tree.skeletonAll, Tree.skeleton], fun _ => hstrays⟩

/-- A keyword, a name and statements in braces. -/
theorem frame_named {tame : Prop} {rule rule' : Rule} {text : String} {s r : List Char}
    {parts : List Tree} (hrule : rule.isBlock = true) (ht : text.toList.all isInner = true)
    (hne : text ≠ "") (hend : rule.element.FailsAt (among [Scan.closeBrace]))
    (hsound : (sequence [keyword rule' text, ident, openBrace, star rule.element,
      closeBrace]).Sound) (hval : tame → ∀ v ∈ Tree.valuesAll parts, Braced v)
    (h : Reads false (sequence [keyword rule' text, ident, openBrace, star rule.element,
      closeBrace]) s (some (parts, r))) :
    ∃ front s₀ ts r₁ last, Frame tame rule (sequence [keyword rule' text, ident, openBrace,
      star rule.element, closeBrace]) s parts r front s₀ ts r₁ last := by
  have he := element_of_isBlock hrule
  cases h with | @seq_both _ _ _ s₁ _ front₁ _ h₁ h =>
  cases h with | @seq_both _ _ _ s₂ _ front₂ _ h₂ h =>
  obtain ⟨s₀, ts, r₁, hs₀, hseries, hr, rfl⟩ := exists_of_braces he.single h
  have hs : blanks s = ([], s) := by
    cases h₁ with | token_some hword =>
    have hpredicts : (word text).Predicts tame isInner (.opens anyChar) :=
      predicts_of_local (local_word ht) (eats_word hne)
    exact (hpredicts hword (.refl (.opens anyChar) _)).2.1.blanks_eq
  refine ⟨front₁ ++ (Tree.ofBlanks (blanks s₁).1 ++ (front₂ ++ (Tree.ofBlanks (blanks s₂).1
    ++ [.mark [Scan.openBrace]]))), s₀, ts, r₁, .mark [Scan.closeBrace], by simp, hseries, ?_,
    hr, .inr ⟨.mark [Scan.openBrace], by simp, rfl⟩, ?_⟩
  · have hword : Tree.textAll front₁ ++ s₁ = s := (h₁.text hsound.1 _ _ rfl).1
    have hname : Tree.textAll front₂ ++ s₂ = (blanks s₁).2 := (h₂.text hsound.2.1 _ _ rfl).1
    have hbehind : (blanks s₂).1 ++ Scan.openBrace :: s₀ = s₂ := by rw [← hs₀, blanks_append]
    calc s = Tree.textAll front₁ ++ ((blanks s₁).1 ++ (Tree.textAll front₂ ++ s₂)) := by
          rw [hname, blanks_append, hword]
      _ = Tree.textAll front₁ ++ ((blanks s₁).1 ++ (Tree.textAll front₂
          ++ ((blanks s₂).1 ++ Scan.openBrace :: s₀))) := by rw [hbehind]
      _ = _ := by simp [Tree.textAll, Tree.text]
  · intro s₀' ts' r₁' hseries' hr' hcalm
    obtain ⟨parts', hreads, hskeleton, hstrays⟩ := hseries'.braces (r := r) hend (hr'.trans hr) hcalm
    have htext : Tree.textAll parts' ++ r = Scan.openBrace :: s₀' :=
      (hreads.text hsound.2.2 _ _ rfl).1
    rw [← hs₀] at hstrays
    have hbraces : Survives tame false _ (among [Scan.openBrace]) (blanks s₂).2 parts' r :=
      .of_reads hreads hsound.2.2 hstrays (by rw [hs₀]; exact ⟨rfl, rfl⟩)
    have hval₁ : tame → ∀ v ∈ Tree.valuesAll front₁, Braced v := by
      intro ht v hv
      exact hval ht v (by simp [hv])
    have hval₂ : tame → ∀ v ∈ Tree.valuesAll front₂, Braced v := by
      intro ht v hv
      exact hval ht v (by simp [hv])
    have hnamed := hbraces.seq_behind h₂ predicts_ident hsound.2.1 ⟨rule.site, trivial⟩
      (blanks_snd s₁) hval₂
    obtain ⟨parts'', hreads'', hskeleton'', hstrays'', -⟩ := hnamed.seq_behind h₁
      (predicts_keyword _ ht hne) hsound.1 ⟨rule.site, trivial⟩ hs hval₁
    have hall : Tree.textAll (front₁ ++ (Tree.ofBlanks (blanks s₁).1 ++ (front₂
        ++ (Tree.ofBlanks (blanks s₂).1 ++ parts')))) ++ r
        = Tree.textAll (front₁ ++ (Tree.ofBlanks (blanks s₁).1 ++ (front₂
          ++ (Tree.ofBlanks (blanks s₂).1 ++ [.mark [Scan.openBrace]])))) ++ s₀' := by
      simp [htext, Tree.textAll, Tree.text]
    rw [hall] at hreads'' hstrays''
    exact ⟨parts'', hreads'', by simpa [Tree.skeletonAll, Tree.skeleton, hskeleton] using hskeleton'',
      fun _ => hstrays''⟩

/-- The end of a file is where nothing is left. -/
theorem endOfInput_inv {s r : List Char} {trees : List Tree}
    (h : Reads false (token .endOfInput Scan.endOfInput) s (some (trees, r))) :
    s = [] ∧ r = [] ∧ trees = [.token .endOfInput []] := by
  cases h with | token_some hend =>
  cases s with
  | nil => cases hend; exact ⟨rfl, rfl, rfl⟩
  | cons => cases hend

theorem Series.fileTail {s r₁ : List Char} {ts : List Tree} (h : Series topLevel s ts r₁)
    (hr : (blanks r₁).2 = []) : ∃ vs, Reads false fileTail (blanks s).2 (some (vs, []))
      ∧ Tree.ofBlanks (blanks s).1 ++ vs
        = ts ++ (Tree.ofBlanks (blanks r₁).1 ++ [.token .endOfInput []]) := by
  refine h.star ?_ ?_
  · rw [hr]
    exact reads_none_of_blocked rfl rfl
  · rw [hr]
    exact .token_some rfl

/-- Where the statements of a file begin, no dialect is named. -/
theorem Reads.file_of_tail {s r : List Char} {vs : List Tree}
    (h : Reads false fileTail (blanks s).2 (some (vs, r))) :
    Reads false fileBody s (some (Tree.ofBlanks (blanks s).1 ++ vs, r)) := by
  have hnone : Reads false (opt dialectLine) (blanks s).2 (some ([], (blanks s).2)) :=
    .opt_none (fileTail_excludes_dialectLine (blanks_snd s) h)
  have hseq := hnone.seq_both (q := fileTail) (by rwa [blanks_snd])
  rw [blanks_snd] at hseq
  exact Reads.seq_both (.nothing s) hseq

/-- The line that names the dialect is read in front of other statements. -/
theorem Reads.file_of_dialect {tame : Prop} {s s₂ s₂' r : List Char} {d vs : List Tree}
    (h : Reads false dialectLine (blanks s).2 (some (d, s₂)))
    (hval : tame → ∀ v ∈ Tree.valuesAll d, Braced v) (hcalm : Calm tame s₂ s₂')
    (hvs : Reads false fileTail (blanks s₂').2 (some (vs, r))) :
    ∃ parts, Reads false fileBody ((blanks s).1 ++ (Tree.textAll d ++ s₂')) (some (parts, r))
      ∧ Tree.skeletonAll parts
        = Tree.skeletonAll d ++ Tree.skeletonAll (Tree.ofBlanks (blanks s₂').1 ++ vs) := by
  obtain ⟨d', hdialect, hskeleton, hstrays, hopens, -⟩ := h.behind
    (predicts_dialectLine (w := .any)) sound_file.2.1 ⟨.top, by decide⟩ (blanks_snd s) hval
    trivial trivial hcalm
  rw [blanks_snd] at hopens
  have hblanks := hstrays.blanks_append hopens (g := (blanks s).1) (by rw [blanks_append])
  have hseq := Reads.seq_both (.opt_some hdialect) hvs
  have hall : Reads false fileBody _ _ := Reads.seq_both (.nothing _) (by rw [hblanks]; exact hseq)
  rw [hblanks] at hall
  exact ⟨_, hall, by simp [hskeleton]⟩

theorem dialectLine_inv {s r : List Char} {trees : List Tree}
    (h : Reads false dialectLine s (some (trees, r))) :
    ∃ t, trees = [t] ∧ t.opensBlock = true := by
  obtain ⟨p, hp, hreads⟩ := choice_reads h
  simp only [List.mem_cons, List.not_mem_nil, or_false] at hp
  rcases hp with rfl | rfl <;> cases hreads <;> exact ⟨_, rfl, rfl⟩

/-- The line that names the dialect, if there is one, and the statements behind it. -/
theorem frame_file {tame : Prop} {s r : List Char} {parts : List Tree}
    (hval : tame → ∀ v ∈ Tree.valuesAll parts, Braced v)
    (h : Reads false fileBody s (some (parts, r))) :
    ∃ front s₀ ts r₁ last, Frame tame .proto fileBody s parts r front s₀ ts r₁ last := by
  have he := element_of_isBlock (rfl : Rule.isBlock .proto = true)
  cases h with | seq_both h₁ h =>
  cases h₁ with | nothing =>
  cases h with | @seq_both _ _ _ s₂ _ front _ h₁ h =>
  cases h₁ with
  | opt_none hnone =>
    rw [blanks_snd] at h ⊢
    obtain ⟨ts, r₁, vs, hseries, -, hend, heq⟩ := Series.of_star he.single h
    obtain ⟨hr₁, rfl, rfl⟩ := endOfInput_inv hend
    refine ⟨[], s, ts, r₁, .token .endOfInput [], by simpa [Tree.ofBlanks] using heq, hseries, rfl, hr₁,
      .inl rfl, ?_⟩
    intro s₀' ts' r₁' hseries' hr' _
    obtain ⟨vs, hreads, hvs⟩ := hseries'.fileTail (hr'.trans hr₁)
    refine ⟨_, .file_of_tail hreads, ?_, fun hne => absurd rfl hne⟩
    change Tree.skeletonAll (Tree.ofBlanks (blanks s₀').1 ++ vs) = _
    rw [hvs]
    simp [Tree.skeletonAll, Tree.skeleton]
  | opt_some hsome =>
    obtain ⟨ts, r₁, vs, hseries, -, hend, heq⟩ := Series.of_star he.single h
    obtain ⟨hr₁, rfl, rfl⟩ := endOfInput_inv hend
    obtain ⟨t, rfl, hopens⟩ := dialectLine_inv hsome
    have htext : Tree.textAll [t] ++ s₂ = (blanks s).2 :=
      (hsome.text sound_file.2.1 _ _ rfl).1
    refine ⟨Tree.ofBlanks (blanks s).1 ++ [t], s₂, ts, r₁, .token .endOfInput [],
      by simp [heq], hseries, ?_,
      hr₁, .inr ⟨t, by simp, hopens⟩, ?_⟩
    · rw [Tree.textAll_append, Tree.textAll_ofBlanks, List.append_assoc, htext, blanks_append]
    intro s₀' ts' r₁' hseries' hr' hcalm
    obtain ⟨vs, hreads, hvs⟩ := hseries'.fileTail (hr'.trans hr₁)
    have hval' : tame → ∀ v ∈ Tree.valuesAll [t], Braced v := by
      intro ht v hv
      refine hval ht v ?_
      simp only [Tree.valuesAll_append, List.mem_append]
      exact .inr (.inl (.inl hv))
    obtain ⟨parts', hall, hskeleton⟩ := hsome.file_of_dialect hval' hcalm hreads
    refine ⟨parts', by simpa using hall, ?_, fun hne => absurd rfl hne⟩
    rw [hskeleton, hvs]
    simp [Tree.skeletonAll, Tree.skeleton]

/-- What opens a block and what closes it. -/
theorem Reads.frame {tame : Prop} {rule : Rule} {p : Phrase} (hblock : rule.isBlock = true)
    (hrule : phrase rule = .node rule p) {s r : List Char} {parts : List Tree}
    (hval : tame → ∀ v ∈ Tree.valuesAll parts, Braced v)
    (h : Reads false p s (some (parts, r))) :
    ∃ front s₀ ts r₁ last, Frame tame rule p s parts r front s₀ ts r₁ last := by
  cases rule with
  | proto =>
    cases hrule
    exact frame_file hval h
  | messageBody =>
    cases hrule
    exact frame_messageBody h
  | enumDef =>
    cases hrule
    exact frame_named rfl rfl (by decide) (failsAt_of_blocked rfl fun _ => rfl) sound_enumDef hval h
  | oneofDef =>
    cases hrule
    exact frame_named rfl rfl (by decide) (failsAt_of_blocked rfl fun _ => rfl) sound_oneofDef hval h
  | serviceDef =>
    cases hrule
    exact frame_named rfl rfl (by decide) (failsAt_of_blocked rfl fun _ => rfl) sound_serviceDef.1 hval h
  | _ => cases hblock

end Proto

end MettaSchema
