import MettaSchema.Proofs.Grammar.Blocks

/-!
# Edited files

A file with edits inside is read again, and statements of a block can take the place of others.

* `Proto.parse_file_edited` — the grammar accepts a file after an edit.
* `Tree.Slot`, `Tree.Stretch` — a place between the statements of a block, and what stands between
  two such places.
* `Tree.Replaced`, `Proto.edits_replaced` — putting other statements there is an edit.
* `Tree.Inserted`, `Proto.edits_inserted` — so is putting a statement between two others.
-/

namespace MettaSchema

open Scan

namespace Proto

open Phrase

variable {tame : Prop} {R : Rule → List Tree → List Tree → Prop}

/-! ## Files -/

/-- In a line that names the dialect there are tokens only. -/
theorem not_within_line {rule : Rule} {text : String} {s r : List Char} {parts vs : List Tree}
    (h : Reads false (sequence [keyword rule text, punct "=", strLit, punct ";"]) s
      (some (parts, r))) : ¬ Tree.Within R parts vs := by
  cases h with | seq_both h₁ h =>
  cases h₁ with | token_some =>
  cases h with | seq_both h₂ h =>
  cases h₂ with | mark_some =>
  cases h with | seq_both h₃ h₄ =>
  cases h₃ with | token_some =>
  cases h₄ with | mark_some =>
  have hblanks {g : List Char} : ∀ t ∈ Tree.ofBlanks g, ∀ rule inner, t ≠ .node rule inner :=
    fun _ => Tree.ne_node_of_mem_ofBlanks
  refine Tree.Within.not_of_leaves ?_
  simp only [List.forall_mem_append, List.forall_mem_singleton]
  exact ⟨⟨nofun, hblanks⟩, ⟨nofun, hblanks⟩, ⟨nofun, hblanks⟩, nofun⟩

/-- The line that names the dialect is not edited. -/
theorem not_within_dialect (hR : Rereads tame R) {s r : List Char} {ts vs : List Tree}
    (h : Reads false dialectLine s (some (ts, r))) : ¬ Tree.Within R ts vs := by
  intro hedit
  obtain ⟨p, hp, hreads⟩ := choice_reads h
  simp only [List.mem_cons, List.not_mem_nil, or_false] at hp
  rcases hp with rfl | rfl
  all_goals
    cases hreads with | node_some hreads =>
    obtain ⟨_, -, hparts | hparts⟩ := hedit.node_inv
    · exact hR.rule_not_mem hparts (by simp)
    · exact not_within_line hreads hparts

/-- The parts of a file are read after an edit inside them. -/
theorem Reads.file_within (hR : Rereads tame R) {s : List Char} {parts parts' : List Tree}
    (h : Reads false fileBody s (some (parts, [])))
    (hfits : Tree.FitsAll .file parts) (hval : tame → ∀ v ∈ Tree.valuesAll parts, Braced v)
    (hedit : Tree.Within R parts parts') :
    ∃ parts'', Reads false fileBody
        (Tree.textAll parts') (some (parts'', []))
      ∧ Tree.skeletonAll parts'' = Tree.skeletonAll parts' := by
  cases h with | seq_both h₁ h =>
  cases h₁ with | nothing =>
  cases h with | @seq_both _ _ _ s₂ _ front more h₁ h₂ =>
  have hmore {more' : List Tree} (hedit : Tree.Within R more more') :
      Survives tame false fileTail anyChar (blanks s₂).2 more' [] := by
    have hfits' : Tree.FitsAll .file more := by
      simp only [Tree.fitsAll_append] at hfits
      exact hfits.2.2
    have hval' : tame → ∀ v ∈ Tree.valuesAll more, Braced v := by
      intro ht v hv
      exact hval ht v (by simp [hv])
    exact h₂.edited hR rfl predicts_fileTail sound_file.2.2 (fun _ => blanks_snd s₂)
      ⟨trivial, trivial, ⟨.file, hfits'⟩, hval', .inside hedit⟩
  cases h₁ with
  | opt_none hnone =>
    have hnil : Tree.ofBlanks [] = [] := rfl
    simp only [blanks_snd, List.nil_append, List.append_nil, hnil] at hedit hmore
    obtain ⟨more', hmore', rfl⟩ := Tree.Within.ofBlanks_append_inv hedit
    obtain ⟨hblanks, -⟩ := (hmore hmore').behind_blanks
    obtain ⟨more'', hreads, hskeleton, -⟩ := hmore hmore'
    have hall := Reads.file_of_tail (s := (blanks s).1 ++ (Tree.textAll more' ++ []))
      (by rw [hblanks]; exact hreads)
    exact ⟨_, by simpa using hall, by simp [hskeleton]⟩
  | opt_some hsome =>
    simp only [List.nil_append, List.append_assoc] at hedit
    obtain ⟨back, hback, rfl⟩ := Tree.Within.ofBlanks_append_inv hedit
    rcases hback.append_inv with ⟨_, hdialect, -⟩ | ⟨tail, htail, rfl⟩
    · exact absurd hdialect (not_within_dialect hR hsome)
    obtain ⟨more', hmore', rfl⟩ := Tree.Within.ofBlanks_append_inv htail
    have hsurvives := hmore hmore'
    obtain ⟨hblanks, hstrays, -⟩ := hsurvives.behind_blanks
    obtain ⟨more'', hreads, hskeleton, -⟩ := hsurvives
    have hval' : tame → ∀ v ∈ Tree.valuesAll front, Braced v := by
      intro ht v hv
      exact hval ht v (by simp [hv])
    obtain ⟨parts, hall, hparts⟩ := hsome.file_of_dialect hval' hstrays.calm
      (by rw [hblanks]; exact hreads)
    exact ⟨parts, by simpa using hall, by simp [hparts, hskeleton]⟩

/-- The grammar accepts a file after an edit. -/
theorem parse_file_edited (hR : Rereads tame R) {source : List Char} {trees trees' : List Tree}
    (h : parse file source = .ok trees) (hval : tame → ∀ v ∈ Tree.valuesAll trees, Braced v)
    (hedit : Tree.Within R trees trees') :
    ∃ trees'', parse file (Tree.textAll trees') = .ok trees''
      ∧ Tree.skeletonAll trees'' = Tree.skeletonAll trees' := by
  have hreads := reads_of_parse h
  have hfits := hreads.fits fits_file _ _ rfl
  cases hreads with | node_some hparts =>
  obtain ⟨parts', rfl, hparts'⟩ := hedit.node_inv
  simp only [Tree.valuesAll, Tree.values, List.append_nil] at hval
  have hnode : ∃ parts'', Reads false fileBody (Tree.textAll parts') (some (parts'', []))
      ∧ Tree.skeletonAll parts'' = Tree.skeletonAll parts' := by
    rcases hparts' with hR' | hedit
    · obtain ⟨parts'', hreads, hskeleton, -⟩ := hR.reads hR' phrase_proto hparts hval
      rw [List.append_nil] at hreads
      exact ⟨parts'', hreads, hskeleton⟩
    · exact hparts.file_within hR hfits.1.2 hval hedit
  obtain ⟨parts'', hreads, hskeleton⟩ := hnode
  refine ⟨[.node .proto parts''], ?_, by simp [Tree.skeletonAll, Tree.skeleton, hskeleton]⟩
  have hfile : Reads false file (Tree.textAll parts') _ := .node_some hreads
  simp only [Tree.textAll, Tree.text, List.append_nil]
  rw [parse, (read_eq_iff sound_file).2 hfile]

end Proto

/-! ## Places between statements -/

namespace Tree

/-- A place between the statements of a block: directly behind what opens the block, or directly
behind a statement. -/
structure Slot (front back : List Tree) : Prop where
  /-- No blanks are in front of the place. -/
  solid : EndsSolid front
  /-- The block is opened in front of the place. -/
  opened : ∀ t ∈ back, t.opensBlock = false
  /-- The block is closed behind the place. -/
  closed : back ≠ []

/-- Statements of a block that stand one after another, between two places. -/
structure Stretch (front old back : List Tree) : Prop where
  /-- The place in front of them. -/
  before : Slot front (old ++ back)
  /-- The place behind them. -/
  behind : Slot (front ++ old) back
  /-- There is no token among them. -/
  plain : ∀ rule text, token rule text ∉ old

/-- Other trees in place of some statements of a block.  The condition is on the rule of the block,
on the statements and on what takes their place. -/
def Replaced (C : Rule → List Tree → List Tree → Prop) (rule : Rule) (parts parts' : List Tree) :
    Prop :=
  ∃ front old new back, Stretch front old back ∧ C rule old new ∧ parts = front ++ (old ++ back)
    ∧ parts' = front ++ (new ++ back)

/-- A statement that is put between two others, with gaps around it.  The condition is on the rule
of the block, the gaps and the statement. -/
def Inserted (C : Rule → List Char → Tree → List Char → Prop) (rule : Rule)
    (parts parts' : List Tree) : Prop :=
  ∃ front back g t g', Slot front back ∧ C rule g t g' ∧ parts = front ++ back
    ∧ parts' = front ++ (ofBlanks g ++ t :: (ofBlanks g' ++ back))

end Tree

namespace Proto

open Phrase

/-- A tree that is read as a statement of a block somewhere, with values that are well-formed where
they are said to be tame. -/
structure Stands (tame : Prop) (e : Phrase) (t : Tree) : Prop where
  /-- The values are well-formed. -/
  tamed : tame → ∀ v ∈ t.values, Braced v
  /-- A text in front of which the statement is read. -/
  reads : ∃ s r, blanks s = ([], s) ∧ Reads false e s (some ([t], r))

/-- A statement that is read whatever stands behind it, provided that no literal goes on behind
it. -/
structure Loose (tame : Prop) (e : Phrase) (t : Tree) : Prop where
  /-- The statement begins with no blanks. -/
  head : ∃ c x, t.text = c :: x ∧ beginsBlank c = false
  /-- The statement is read. -/
  reads (m : List Char) (hm : Calm tame [] m) : ∃ t', Reads false e (t.text ++ m) (some ([t'], m))
    ∧ t'.skeleton = t.skeleton

/-- Trees that can take the place of some statements of a block: literals in front of them stay as
they are, and they are read with the statements behind them. -/
structure Replaceable (tame : Prop) (e : Phrase) (old new : List Tree) : Prop where
  /-- Literals in front of the trees stay as they are. -/
  calm (m : List Char) : Calm tame (Tree.textAll old ++ m) (Tree.textAll new ++ m)
  /-- The trees are read with the statements behind them. -/
  reads {m r : List Char} {ts : List Tree} (hold : ∀ t ∈ old, t.isBlank = false → Stands tame e t)
    (h : Series e m ts r) :
    ∃ ts' r', Series e (Tree.textAll new ++ m) ts' r'
      ∧ Tree.skeletonAll ts' = Tree.skeletonAll new ++ Tree.skeletonAll ts
      ∧ (blanks r').2 = (blanks r).2

/-- A statement with gaps around it, that can be put between two others: it is read whatever stands
behind it, and it leaves the literals in front of it as they are. -/
structure Insertable (tame : Prop) (e : Phrase) (g : List Char) (t : Tree) (g' : List Char) :
    Prop where
  /-- The blanks in front of the statement. -/
  before : g = [] ∨ Gap g
  /-- The blanks behind it. -/
  behind : g' = [] ∨ Gap g'
  /-- The statement is read. -/
  reads (m : List Char) : ∃ t', Reads false e (t.text ++ (g' ++ m)) (some ([t'], g' ++ m))
    ∧ t'.skeleton = t.skeleton
  /-- The statement begins with no blanks. -/
  head : ∃ c x, t.text = c :: x ∧ beginsBlank c = false
  /-- Literals in front of the statement stay as they are. -/
  calm (m : List Char) : Calm tame m (g ++ (t.text ++ (g' ++ m)))

namespace Series

variable {tame : Prop} {e : Phrase} {s r : List Char} {ts : List Tree}

/-- A series of statements is read behind a gap. -/
theorem behind_gap (h : Series e s ts r) {g : List Char} (hg : g = [] ∨ Gap g) :
    ∃ ts' r', Series e (g ++ s) ts' r' ∧ Tree.skeletonAll ts' = Tree.skeletonAll ts
      ∧ (blanks r').2 = (blanks r).2 := by
  have hblanks : blanks (g ++ s) = (g ++ (blanks s).1, (blanks s).2) := by
    rcases hg with rfl | hg
    · rfl
    · exact blanks_gap_append hg s
  cases h with
  | nil => exact ⟨[], g ++ s, .nil _, rfl, by rw [hblanks]⟩
  | cons ht hreads hmore =>
    have hcons := Series.cons (s := g ++ s) ht (by rw [hblanks]; exact hreads) hmore
    exact ⟨_, r, hcons, by simp [Tree.skeletonAll], rfl⟩

/-- A statement behind a gap is read with the statements behind it. -/
theorem cons_gap (he : e.Single) (h : Series e s ts r) {g : List Char} {t t' : Tree}
    (hg : g = [] ∨ Gap g) (hhead : ∃ c x, t.text = c :: x ∧ beginsBlank c = false)
    (hreads : Reads false e (t.text ++ s) (some ([t'], s))) :
    Series e (g ++ (t.text ++ s)) (Tree.ofBlanks g ++ t' :: ts) r := by
  have hblanks : blanks (g ++ (t.text ++ s)) = (g, t.text ++ s) := by
    obtain ⟨c, x, hx, hc⟩ := hhead
    rw [hx]
    exact blanks_gap_or_nil hg hc
  obtain ⟨_, heq, hblank⟩ := he hreads
  cases heq
  have hcons := Series.cons (s := g ++ (t.text ++ s)) hblank (by rw [hblanks]; exact hreads) h
  rwa [hblanks] at hcons

/-- What is no blanks in a series is a statement that is read there. -/
theorem stands (h : Series e s ts r) (hval : tame → ∀ v ∈ Tree.valuesAll ts, Braced v) :
    ∀ t ∈ ts, t.isBlank = false → Stands tame e t := by
  induction h with
  | nil => nofun
  | @cons s s₁ r t ts ht hreads _ ih =>
    simp only [Tree.valuesAll_append, Tree.valuesAll, List.mem_append] at hval
    intro u hu hblank
    rcases List.mem_append.1 hu with hu | hu
    · cases hgap : (blanks s).1 with
      | nil => simp [hgap, Tree.ofBlanks] at hu
      | cons c g =>
        rw [hgap] at hu
        obtain rfl := List.mem_singleton.1 hu
        cases hblank
    · rcases List.mem_cons.1 hu with rfl | hu
      · exact ⟨fun htame v hv => hval htame v (by simp [hv]), _, _, blanks_snd s, hreads⟩
      · exact ih (fun htame v hv => hval htame v (by simp [hv])) u hu hblank

end Series

/-- A block can be cut at each place between its statements. -/
theorem Frame.split {tame : Prop} {rule : Rule} {p : Phrase} {s r s₀ r₁ : List Char}
    {parts front ts front' back : List Tree} {last : Tree}
    (h : Frame tame rule p s parts r front s₀ ts r₁ last) (hslot : Tree.Slot front' back)
    (hparts : parts = front' ++ back) :
    ∃ ts₁ ts₂ m, front' = front ++ ts₁ ∧ ts = ts₁ ++ ts₂
      ∧ back = ts₂ ++ (Tree.ofBlanks (blanks r₁).1 ++ [last])
      ∧ Series rule.element s₀ ts₁ m ∧ Series rule.element m ts₂ r₁ := by
  obtain ⟨mid, rfl, hmid⟩ : ∃ mid, front' = front ++ mid
      ∧ mid ++ back = ts ++ (Tree.ofBlanks (blanks r₁).1 ++ [last]) := by
    rcases List.append_eq_append_iff.1 (h.parts_eq.symm.trans hparts) with
      ⟨mid, rfl, hmid⟩ | ⟨mid, hfront, rfl⟩
    · exact ⟨mid, rfl, hmid.symm⟩
    · -- the block is opened in front of the place
      have hnil : mid = [] := by
        rcases h.opens with hopens | ⟨t, ht, hopens⟩
        · rw [hfront] at hopens
          exact (List.append_eq_nil_iff.1 hopens).2
        · by_cases hne : mid = []
          · exact hne
          · rw [hfront, List.getLast?_append, List.getLast?_eq_some_getLast hne] at ht
            cases ht
            rw [hslot.opened _ (by simp)] at hopens
            cases hopens
      subst hnil
      exact ⟨[], by simpa using hfront.symm, rfl⟩
  have hsolid : Tree.EndsSolid mid := hslot.solid.of_append
  obtain ⟨ts₂, rfl, hback⟩ : ∃ ts₂, ts = mid ++ ts₂
      ∧ back = ts₂ ++ (Tree.ofBlanks (blanks r₁).1 ++ [last]) := by
    rcases List.append_eq_append_iff.1 hmid with ⟨ts₂, hts, hback⟩ | ⟨mid', rfl, hback⟩
    · exact ⟨ts₂, hts, hback⟩
    · -- neither the blanks at the end nor what closes the block are in front of the place
      have hnil : mid' = [] := by
        rcases List.append_eq_append_iff.1 hback with ⟨rest, rfl, hlast⟩ | ⟨rest, hrest, -⟩
        · cases rest with
          | nil =>
            rw [List.append_nil] at hsolid ⊢
            have hend : Tree.EndsSolid (Tree.ofBlanks (blanks r₁).1) := hsolid.of_append
            exact hend.eq_nil [] (by rw [List.append_nil])
          | cons t rest =>
            exact absurd (List.append_eq_nil_iff.1 (List.cons.inj hlast).2.symm).2 hslot.closed
        · exact hsolid.of_append.eq_nil _ hrest
      subst hnil
      exact ⟨[], by simp, by simpa using hback.symm⟩
  obtain ⟨m, hfront, hback'⟩ := h.series.split hsolid
  exact ⟨mid, ts₂, m, rfl, rfl, hback, hfront, hback'⟩

/-- A statement that is read somewhere is read whatever stands behind it, provided that no literal
goes on there. -/
theorem Stands.loose {tame : Prop} {site : Site} {e : Phrase} {t : Tree} (he : e.Element site)
    (h : Stands tame e t) : Loose tame e t := by
  obtain ⟨htamed, s, r, hs, hreads⟩ := h
  have hval : tame → ∀ v ∈ Tree.valuesAll [t], Braced v := by simpa [Tree.valuesAll] using htamed
  have htext : t.text ++ r = s := by
    simpa [Tree.textAll] using (hreads.text he.sound _ _ rfl).1
  refine ⟨?_, fun m hm => ?_⟩
  · obtain ⟨c, x, hx, hc⟩ := exists_head he hs hreads
    have hlt := hreads.length_lt he.sound he.eats
    cases ht : t.text with
    | nil => simp [← htext, ht] at hlt
    | cons d y =>
      rw [ht, hx] at htext
      obtain ⟨rfl, -⟩ := List.cons.inj htext
      exact ⟨d, y, rfl, hc⟩
  · have hcalm : Calm tame r m := hm.imp id fun h quote hquote _ => h quote hquote rfl
    obtain ⟨trees, hreads', hskeleton, -⟩ :=
      hreads.behind (he.predicts tame .any) he.sound ⟨site, he.fits⟩ hs hval trivial trivial hcalm
    obtain ⟨t', rfl, -⟩ := he.single hreads'
    exact ⟨t', by simpa [Tree.textAll] using hreads', by simpa [Tree.skeletonAll] using hskeleton⟩

/-- Other trees take the place of some statements of a block. -/
theorem Frame.replace {tame : Prop} {rule : Rule} {p : Phrase} {s r s₀ r₁ : List Char}
    {parts front ts front' old new back : List Tree} {last : Tree} (hrule : rule.isBlock = true)
    (h : Frame tame rule p s parts r front s₀ ts r₁ last) (hbefore : Tree.Slot front' (old ++ back))
    (hbehind : Tree.Slot (front' ++ old) back) (hparts : parts = front' ++ (old ++ back))
    (hnew : Replaceable tame rule.element old new)
    (hval : tame → ∀ v ∈ Tree.valuesAll parts, Braced v) :
    ∃ parts', Reads false p (Tree.textAll (front' ++ (new ++ back)) ++ r) (some (parts', r))
      ∧ Tree.skeletonAll parts' = Tree.skeletonAll (front' ++ (new ++ back))
      ∧ (rule ≠ .proto → Strays tame s (Tree.textAll (front' ++ (new ++ back)) ++ r)) := by
  have he := element_of_isBlock hrule
  obtain ⟨ts₁, _, _, rfl, -, -, -, -⟩ := h.split hbefore hparts
  obtain ⟨_, ts₂, m, hmid, -, hback, hfront, hrest⟩ :=
    h.split hbehind (hparts.trans (List.append_assoc _ _ _).symm)
  rw [List.append_assoc] at hmid
  obtain rfl := List.append_cancel_left hmid
  obtain ⟨m₀, hfirst, hold⟩ := hfront.split hbefore.solid.of_append
  have hval₁ : tame → ∀ v ∈ Tree.valuesAll ts₁, Braced v := by
    intro htame v hv
    exact hval htame v (by simp [hparts, hv])
  have hvalOld : tame → ∀ v ∈ Tree.valuesAll old, Braced v := by
    intro htame v hv
    exact hval htame v (by simp [hparts, hv])
  obtain ⟨new', r₁', hnew', hskeletonNew, hr₁'⟩ := hnew.reads (hold.stands hvalOld) hrest
  have hcalm := hnew.calm m
  rw [hold.text he.sound] at hcalm
  obtain ⟨ts₁', hfirst', hskeleton₁, hcalm₀⟩ := hfirst.behind he hval₁ hcalm
  obtain ⟨parts', hall, hskeleton, hstrays⟩ := h.refill (hfirst'.append hnew') hr₁' hcalm₀
  have hm : Tree.textAll back ++ r = m := by
    calc Tree.textAll back ++ r
        = Tree.textAll ts₂ ++ ((blanks r₁).1 ++ (last.text ++ r)) := by simp [hback, Tree.textAll]
      _ = Tree.textAll ts₂ ++ r₁ := by rw [← h.closes, blanks_append]
      _ = m := hrest.text he.sound
  have htext : Tree.textAll (front ++ ts₁ ++ (new ++ back)) ++ r
      = Tree.textAll front ++ (Tree.textAll ts₁ ++ (Tree.textAll new ++ m)) := by
    simp [← hm]
  rw [htext]
  refine ⟨parts', hall, ?_, hstrays⟩
  simp [hskeleton, hback, Tree.skeletonAll, hskeleton₁, hskeletonNew]

/-- Putting other trees in place of some statements is an edit. -/
theorem edits_replaced {tame : Prop} {C : Rule → List Tree → List Tree → Prop}
    (hrule : ∀ {rule old new}, C rule old new → rule.isBlock = true)
    (hC : ∀ {rule old new}, C rule old new → Replaceable tame rule.element old new) :
    Edits tame (Tree.Replaced C) where
  isBlock := by
    rintro rule parts parts' ⟨_, _, _, _, -, hcond, -⟩
    exact hrule hcond
  reads := by
    rintro rule p parts parts' s r ⟨front, old, new, back, hstretch, hcond, hparts, rfl⟩ hphrase
      hreads hval
    have hblock := hrule hcond
    obtain ⟨_, _, _, _, _, hframe⟩ := hreads.frame hblock hphrase hval
    exact hframe.replace hblock hstretch.before hstretch.behind hparts (hC hcond) hval

/-- A statement that can be put between two others can take the place of no statement. -/
theorem Insertable.replaceable {tame : Prop} {site : Site} {e : Phrase} {g g' : List Char}
    {t : Tree} (he : e.Element site) (h : Insertable tame e g t g') :
    Replaceable tame e [] (Tree.ofBlanks g ++ t :: Tree.ofBlanks g') := by
  have htext (m : List Char) : Tree.textAll (Tree.ofBlanks g ++ t :: Tree.ofBlanks g') ++ m
      = g ++ (t.text ++ (g' ++ m)) := by
    simp [Tree.textAll]
  refine ⟨fun m => ?_, fun {m} _ _ _ hseries => ?_⟩
  · rw [htext]
    exact h.calm m
  · obtain ⟨ts', r', hbehind, hskeleton, hr'⟩ := hseries.behind_gap h.behind
    obtain ⟨t', hreads, ht'⟩ := h.reads m
    rw [htext]
    refine ⟨_, r', hbehind.cons_gap he.single h.before h.head hreads, ?_, hr'⟩
    simp [Tree.skeletonAll, hskeleton, ht']

/-- Putting statements between others is an edit. -/
theorem edits_inserted {tame : Prop} {C : Rule → List Char → Tree → List Char → Prop}
    (hrule : ∀ {rule g t g'}, C rule g t g' → rule.isBlock = true)
    (hC : ∀ {rule g t g'}, C rule g t g' → Insertable tame rule.element g t g') :
    Edits tame (Tree.Inserted C) where
  isBlock := by
    rintro rule parts parts' ⟨_, _, _, _, _, -, hcond, -⟩
    exact hrule hcond
  reads := by
    rintro rule p parts parts' s r ⟨front, back, g, t, g', hslot, hcond, hparts, rfl⟩ hphrase
      hreads hval
    have hblock := hrule hcond
    obtain ⟨_, _, _, _, _, hframe⟩ := hreads.frame hblock hphrase hval
    have hnew := (hC hcond).replaceable (element_of_isBlock hblock)
    have hbefore : Tree.Slot front ([] ++ back) := hslot
    have hbehind : Tree.Slot (front ++ []) back := by simpa using hslot
    simpa using hframe.replace hblock hbefore hbehind hparts hnew hval

end Proto

end MettaSchema
