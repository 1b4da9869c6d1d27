import MettaSchema.Proofs.Grammar.Skipped

/-!
# Statements in another order

The statements of a file, and those of a message body, can stand in any order, and fields and groups
can be members of a choice or stand on their own.  All of this is read, provided that no quote in an
option value is left open, or that the statements stand on lines of their own: such a quote begins a
string literal as soon as another one follows it on its line.

* `Scan.Parts` — blanks that end what stands in front of them.
* `Tree.spread` — statements, each behind blanks.
* `Tree.Rearranged` — another order, a choice made of members, and members made of a choice.
* `Proto.reads_named` — a keyword, a name and what stands in braces.
* `Proto.loose_oneof` — a choice is read wherever its members are.
* `Proto.Stands.of_choice`, `Proto.Stands.choice` — what can be a member of a choice can be a
  statement of its own, and so can fields and groups the other way round.
* `Proto.edits_rearranged` — the grammar accepts a rearranged text.
-/

namespace MettaSchema

open Scan

/-- Blanks and comments in which a line ends in front of any quote and of any backslash. -/
structure Scan.EndsLine (g : List Char) : Prop where
  /-- They are complete. -/
  gap : Gap g
  /-- A line ends. -/
  ends : ∃ x c y, g = x ++ c :: y ∧ (∀ d ∈ x, d ∉ ['\\', doubleQuote, singleQuote])
    ∧ isLineEnd c = true

/-- Blanks that stand between two statements: a line ends in them, unless all option values are
tame. -/
def Scan.Parts (tame : Prop) (g : List Char) : Prop := EndsLine g ∨ tame ∧ (g = [] ∨ Gap g)

namespace Scan.Parts

variable {tame : Prop} {g : List Char}

theorem gap (h : Parts tame g) : g = [] ∨ Gap g :=
  h.elim (fun hends => .inr hends.gap) And.right

/-- No literal goes on behind such blanks. -/
theorem calm (h : Parts tame g) (s m : List Char) : Calm tame s (g ++ m) := by
  rcases h with ⟨-, x, c, y, rfl, hx, hc⟩ | ⟨htame, -⟩
  · have hends : startsWith isLineEnd (c :: y ++ m) = true := hc
    rw [List.append_assoc]
    exact (Calm.of_lineEnd hends s).skip hx
  · exact .inl htame

end Scan.Parts

namespace Tree

/-! ## Statements and their layout -/

/-- Whether the tree is a statement: a composite rule or a lone semicolon. -/
def isStatement : Tree → Bool
  | mark _ => true
  | node _ _ => true
  | _ => false

/-- The statements among the parts of a block. -/
def statements (ts : List Tree) : List Tree := ts.filter isStatement

/-- Statements, each behind blanks, and blanks behind the last. -/
def spread : List (List Char × Tree) → List Char → List Tree
  | [], g => ofBlanks g
  | (gap, t) :: rows, g => ofBlanks gap ++ t :: spread rows g

/-- The blanks between the statements are such that no literal goes on behind them. -/
structure Parted (tame : Prop) (rows : List (List Char × Tree)) (g : List Char) : Prop where
  /-- The blanks in front of the statements. -/
  before : ∀ row ∈ rows, Parts tame row.1
  /-- The blanks behind the last. -/
  behind : Parts tame g

theorem Parted.calm {tame : Prop} {rows : List (List Char × Tree)} {g : List Char}
    (h : Parted tame rows g) (s m : List Char) : Calm tame s (textAll (spread rows g) ++ m) := by
  cases rows with
  | nil => simpa [spread] using h.behind.calm s m
  | cons row rows => simpa [spread, textAll] using (h.before row (by simp)).calm s _

/-- A choice with the given name and members. -/
def choice (gap name gap' : List Char) (members : List Tree) : Tree :=
  node .oneofDef (token .kwOneof "oneof".toList :: (ofBlanks gap ++ token .ident name ::
    (ofBlanks gap' ++ mark [openBrace] :: (members ++ [mark [closeBrace]]))))

/-- Whether the tree is a plain field or a group. -/
def isMember : Tree → Bool
  | node rule _ => rule ∈ [.field, .groupField]
  | _ => false

/-- Statements of a block in another order, or in a choice, or out of one.  The relation is between
some statements that stand one after another and what takes their place. -/
inductive Rearranged (tame : Prop) : Rule → List Tree → List Tree → Prop
  /-- Statements of a file or of a message body in another order. -/
  | permuted {rule : Rule} {old : List Tree} {rows : List (List Char × Tree)} {g : List Char}
      (hrule : rule ∈ [.proto, .messageBody]) (hrows : (rows.map (·.2)).Perm (statements old))
      (hparted : Parted tame rows g) : Rearranged tame rule old (spread rows g)
  /-- Fields and groups that become the members of a choice. -/
  | wrapped {old : List Tree} {rows : List (List Char × Tree)}
      {before gap name gap' g behind : List Char}
      (hmembers : ∀ t ∈ statements old, t.isMember = true) (hrows : rows.map (·.2) = statements old)
      (hparted : Parted tame rows g) (hgap : Gap gap) (hname : isName name = true)
      (hgap' : gap' = [] ∨ Gap gap') (hbefore : Parts tame before) (hbehind : Parts tame behind) :
      Rearranged tame .messageBody old
        (spread [(before, choice gap name gap' (spread rows g))] behind)
  /-- A choice that is dissolved into its members. -/
  | dissolved {old members : List Tree} {rows : List (List Char × Tree)}
      {gap name gap' g : List Char}
      (hold : statements old = [choice gap name gap' members])
      (hrows : rows.map (·.2) = statements members) (hparted : Parted tame rows g) :
      Rearranged tame .messageBody old (spread rows g)

theorem isBlank_of_isStatement {t : Tree} (h : t.isStatement = true) : t.isBlank = false := by
  cases t <;> first | rfl | cases h

/-- What stands behind blanks and a tree that is no blanks, on both sides of an equation. -/
theorem ofBlanks_append_inj {g g' : List Char} {t t' : Tree} {ts ts' : List Tree}
    (ht : t.isBlank = false) (ht' : t'.isBlank = false)
    (h : ofBlanks g ++ t :: ts = ofBlanks g' ++ t' :: ts') : t = t' ∧ ts = ts' := by
  cases g with
  | nil =>
    cases g' with
    | nil => exact List.cons.inj h
    | cons c g' =>
      obtain ⟨rfl, -⟩ := List.cons.inj h
      cases ht
  | cons c g =>
    cases g' with
    | nil =>
      obtain ⟨rfl, -⟩ := List.cons.inj h
      cases ht'
    | cons c' g' => exact List.cons.inj (List.cons.inj h).2

end Tree

namespace Proto

open Phrase

variable {tame : Prop}

/-- Statements that are read wherever they stand are read one after another. -/
theorem Series.spread {e : Phrase} (he : e.Single) {rows : List (List Char × Tree)} {g : List Char}
    (hrows : ∀ row ∈ rows, Loose tame e row.2) (hparted : Tree.Parted tame rows g)
    {m r : List Char} {ts : List Tree} (h : Series e m ts r) :
    ∃ ts' r', Series e (Tree.textAll (Tree.spread rows g) ++ m) ts' r'
      ∧ Tree.skeletonAll ts' = Tree.skeletonAll (Tree.spread rows g) ++ Tree.skeletonAll ts
      ∧ (blanks r').2 = (blanks r).2 := by
  induction rows with
  | nil => simpa [Tree.spread] using h.behind_gap hparted.behind.gap
  | cons row rows ih =>
    obtain ⟨gap, t⟩ := row
    have hrest : Tree.Parted tame rows g :=
      ⟨fun row hrow => hparted.before row (by simp [hrow]), hparted.behind⟩
    obtain ⟨ts', r', hseries, hskeleton, hr'⟩ :=
      ih (fun row hrow => hrows row (by simp [hrow])) hrest
    have hloose : Loose tame e t := hrows (gap, t) (by simp)
    obtain ⟨t', hreads, ht'⟩ := hloose.reads _ (hrest.calm [] m)
    have hgap : gap = [] ∨ Gap gap := (hparted.before (gap, t) (by simp)).gap
    refine ⟨Tree.ofBlanks gap ++ t' :: ts', r', ?_, ?_, hr'⟩
    · simpa [Tree.spread, Tree.textAll] using hseries.cons_gap he hgap hloose.head hreads
    · simp [Tree.spread, Tree.skeletonAll, hskeleton, ht']

/-! ## Choices -/

/-- A word ends in front of a gap. -/
theorem startsWith_gap {p : Char → Bool} (hp : Inner p) {g : List Char} (hg : Gap g)
    (s : List Char) : startsWith p (g ++ s) = false := by
  have hhead : startsWith beginsBlank (g ++ s) = true := by
    refine head_of_blanks ?_
    rw [blanks_gap_append hg]
    simp [hg.ne_nil]
  cases hs : g ++ s with
  | nil => rfl
  | cons c x =>
    rw [hs, startsWith] at hhead
    cases hc : p c with
    | false => exact hc
    | true => rw [beginsBlank_of_solid (isSolid_of_isInner (hp c hc))] at hhead; cases hhead

/-- A name is read up to a character that ends a word. -/
theorem reads_ident {name m : List Char} (hname : isName name = true) (hm : Halts isInner m) :
    Reads false ident (name ++ m) (some ([.token .ident name], m)) := by
  refine .token_some ?_
  rw [local_ident _ hm, ident_of_name hname]
  rfl

/-- What a scanner of words takes does not begin like blanks. -/
theorem not_begins {scan : Scanner} (hlocal : scan.Local) (heats : scan.Eats) {w : List Char}
    (h : scan w = some (w, [])) (m : List Char) : startsWith beginsBlank (w ++ m) = false := by
  obtain ⟨c, w', rfl⟩ := List.exists_cons_of_ne_nil (heats h).2
  exact beginsBlank_of_solid (hlocal.run heats.splits h c (by simp))

theorem not_begins_name {name : List Char} (h : isName name = true) (m : List Char) :
    startsWith beginsBlank (name ++ m) = false :=
  not_begins local_ident eats_ident (ident_of_name h) m

/-- A word ends in front of blanks, or of no blanks, and of a character that is in no word. -/
theorem halts_gap_or_nil {g : List Char} (hg : g = [] ∨ Gap g) {c : Char} (hc : isInner c = false)
    (s : List Char) : Halts isInner (g ++ c :: s) := by
  rcases hg with rfl | hg
  · exact hc
  · exact startsWith_gap (fun _ => id) hg _

/-- Two phrases are read one after another, with the given blanks in between. -/
theorem Reads.seq_gap {p q : Phrase} {s g s' r : List Char} {trees more : List Tree}
    (h₁ : Reads false p s (some (trees, g ++ s'))) (hg : blanks (g ++ s') = (g, s'))
    (h₂ : Reads false q s' (some (more, r))) :
    Reads false (.seq p q) s (some (trees ++ Tree.ofBlanks g ++ more, r)) := by
  have hboth := h₁.seq_both (by rw [hg]; exact h₂)
  rwa [hg] at hboth

/-- A keyword, a name and what begins with a brace. -/
theorem reads_named {rule rule' : Rule} (text : String) {p : Phrase} {gap name gap' : List Char}
    (hgap : Gap gap) (hname : isName name = true) (hgap' : gap' = [] ∨ Gap gap') {s r : List Char}
    {parts : List Tree} (h : Reads false p (Scan.openBrace :: s) (some (parts, r))) :
    Reads false (node rule (seq (keyword rule' text) (seq ident p)))
      (text.toList ++ (gap ++ (name ++ (gap' ++ Scan.openBrace :: s))))
      (some ([.node rule (.token rule' text.toList :: (Tree.ofBlanks gap
        ++ .token .ident name :: (Tree.ofBlanks gap' ++ parts)))], r)) := by
  have hnamed := (reads_ident hname (halts_gap_or_nil hgap' rfl s)).seq_gap
    (blanks_gap_or_nil hgap' rfl) h
  have hword : Reads false (keyword rule' text)
      (text.toList ++ (gap ++ (name ++ (gap' ++ Scan.openBrace :: s))))
      (some ([.token rule' text.toList], _)) :=
    .token_some (word_eq_some.2 ⟨rfl, rfl, startsWith_gap inner_isNameChar hgap _⟩)
  exact .node_some (hword.seq_gap (blanks_gap hgap (not_begins_name hname _)) hnamed)

/-- The statements of a message body or of a choice, in braces. -/
theorem Series.braced {rule : Rule} (hrule : rule ∈ [.messageBody, .oneofDef]) {s r m : List Char}
    {ts : List Tree} (h : Series rule.element s ts r)
    (hr : (blanks r).2 = (blanks (Scan.closeBrace :: m)).2) :
    ∃ parts, Reads false (seq openBrace (seq (.star rule.element) closeBrace))
        (Scan.openBrace :: s) (some (parts, m))
      ∧ Tree.skeletonAll parts = Tree.skeletonAll ts := by
  have hend : rule.element.FailsAt (among [Scan.closeBrace]) := by
    simp only [List.mem_cons, List.not_mem_nil, or_false] at hrule
    rcases hrule with rfl | rfl <;> exact failsAt_of_blocked rfl fun _ => rfl
  have hclose : blanks (Scan.closeBrace :: m) = ([], Scan.closeBrace :: m) := blanks_of_head rfl
  obtain ⟨parts, hreads, hparts, -⟩ :=
    h.braces hend (hr.trans (by rw [hclose])) (.refl s : Calm False s s)
  exact ⟨parts, hreads, hparts⟩

/-- A choice of a message body is read as one of its statements. -/
theorem Reads.element_of_oneofDef {s : List Char} {taken : List Tree × List Char}
    (hs : blanks s = ([], s)) (h : Reads false oneofDef s (some taken)) :
    Reads false messageElement s (some taken) :=
  h.choice_of_keyword "oneof" ((optionStatement, "option") :: messageKeywords.take 5)
    (by simp [keywordStatements, messageKeywords])
    (by simp [keywordStatements, messageKeywords, fileKeywords]) (by decide) hs

/-- A choice is read whatever stands behind it if its members are. -/
theorem loose_oneof {rows : List (List Char × Tree)} {gap name gap' g : List Char}
    (hrows : ∀ row ∈ rows, Loose tame (Rule.element .oneofDef) row.2)
    (hparted : Tree.Parted tame rows g) (hgap : Gap gap) (hname : isName name = true)
    (hgap' : gap' = [] ∨ Gap gap') :
    Loose tame messageElement (Tree.choice gap name gap' (Tree.spread rows g)) := by
  have he := element_of_isBlock (rfl : Rule.isBlock .oneofDef = true)
  have htext (m : List Char) : (Tree.choice gap name gap' (Tree.spread rows g)).text ++ m
      = "oneof".toList ++ (gap ++ (name ++ (gap' ++ Scan.openBrace
        :: (Tree.textAll (Tree.spread rows g) ++ Scan.closeBrace :: m)))) := by
    simp [Tree.choice, Tree.text, Tree.textAll]
  refine ⟨⟨'o', _, (List.append_nil _).symm.trans (htext []), rfl⟩, fun m _ => ?_⟩
  obtain ⟨ts, r, hseries, hskeleton, hr⟩ := Series.spread he.single hrows hparted
    (Series.nil (Scan.closeBrace :: m))
  obtain ⟨parts, hbraces, hparts⟩ := hseries.braced (by decide) hr
  have hnode : Reads false oneofDef _ _ := reads_named "oneof" hgap hname hgap' hbraces
  rw [htext]
  refine ⟨_, hnode.element_of_oneofDef (blanks_of_head rfl), ?_⟩
  simp [Tree.choice, Tree.skeletonAll, Tree.skeleton, hparts, hskeleton]

/-! ## Members of choices -/

/-- The statements of a choice other than options. -/
def members : List Phrase := [groupField, field, emptyStatement]

/-- Fields, groups and lone semicolons are no statements with a keyword. -/
theorem members_excludes {front : List Phrase} {p : Phrase} {back : List Phrase}
    (h : members = front ++ p :: back) :
    ∀ q ∈ messageKeywords.map (·.1) ++ front, p.Excludes q := by
  have hpairwise := pairwise_messageElement
  rw [show [groupField, field, emptyStatement] = front ++ p :: back from h, ← List.append_assoc,
    List.pairwise_append] at hpairwise
  exact fun q hq => hpairwise.2.2 q hq p (by simp)

/-- A statement of a message body is read as one of its rules, and it is an option if it can be. -/
theorem messageElement_inv {s : List Char} {taken : List Tree × List Char}
    (h : Reads false messageElement s (some taken)) :
    Reads false optionStatement s (some taken) ∨ Reads false optionStatement s none
      ∧ ∃ p ∈ messageKeywords.map (·.1) ++ members, Reads false p s (some taken) := by
  cases h with
  | alt_first h => exact .inl h
  | alt_second hnone h => exact .inr ⟨hnone, choice_reads h⟩

/-- A statement of a choice is one of a message body, too. -/
theorem Stands.of_choice {t : Tree} (h : Stands tame (Rule.element .oneofDef) t) :
    Stands tame messageElement t := by
  obtain ⟨htamed, s, r, hs, hreads⟩ := h
  refine ⟨htamed, s, r, hs, ?_⟩
  cases hreads with
  | alt_first hoption => exact .alt_first hoption
  | alt_second hnone hmember =>
    obtain ⟨p, hp, hreads⟩ := choice_reads hmember
    obtain ⟨front, back, hsplit⟩ := List.append_of_mem hp
    have hrest : Reads false (choice (messageKeywords.map (·.1) ++ front ++ p :: back)) s
        (some ([t], r)) := hreads.choice_of_excludes (members_excludes hsplit) hs
    rw [List.append_assoc, ← hsplit] at hrest
    exact .alt_second hnone hrest

/-- What is read as a statement with a keyword or as a lone semicolon is no field and no group. -/
theorem isMember_eq_false {p : Phrase} (hp : p ∈ messageKeywords.map (·.1) ++ [emptyStatement])
    {s r : List Char} {t : Tree} (h : Reads false p s (some ([t], r))) : t.isMember = false := by
  simp only [messageKeywords, List.map_cons, List.map_nil, List.cons_append, List.nil_append,
    List.mem_cons, List.not_mem_nil, or_false] at hp
  rcases hp with rfl | rfl | rfl | rfl | rfl | rfl | rfl | rfl <;> cases h <;> rfl

/-- A field or a group of a message body is a statement of a choice, too. -/
theorem Stands.choice {t : Tree} (h : Stands tame messageElement t) (ht : t.isMember = true) :
    Stands tame (Rule.element .oneofDef) t := by
  obtain ⟨htamed, s, r, hs, hreads⟩ := h
  refine ⟨htamed, s, r, hs, ?_⟩
  rcases messageElement_inv hreads with hoption | ⟨hnone, p, hp, hreads⟩
  · cases hoption
    cases ht
  · have hother : p ∉ messageKeywords.map (·.1) ++ [emptyStatement] := by
      intro hp
      rw [isMember_eq_false hp hreads] at ht
      cases ht
    have hp' : p = groupField ∨ p = field := by
      simp only [members, List.mem_append, List.mem_cons, List.not_mem_nil, or_false] at hp hother
      rcases hp with hp | hp | hp | hp
      · exact absurd (.inl hp) hother
      · exact .inl hp
      · exact .inr hp
      · exact absurd (.inr hp) hother
    refine .alt_second hnone ?_
    rcases hp' with rfl | rfl
    · exact .alt_first hreads
    · exact .alt_second (field_excludes_groupField hs hreads) (.alt_first hreads)

/-- The parts of a choice are its keyword, its name and its members. -/
theorem oneofDef_inv {s r : List Char} {t : Tree} (h : Reads false oneofDef s (some ([t], r))) :
    ∃ gap name gap' s₀ ts r₁, Series (Rule.element .oneofDef) s₀ ts r₁
      ∧ t = Tree.choice gap name gap' (ts ++ Tree.ofBlanks (blanks r₁).1) := by
  cases h with | node_some h =>
  cases h with | @seq_both _ _ _ s₁ _ _ _ hword h =>
  cases h with | @seq_both _ _ _ s₂ _ _ _ hname h =>
  obtain ⟨s₀, ts, r₁, -, hseries, -, rfl⟩ :=
    exists_of_braces (element_of_isBlock (rfl : Rule.isBlock .oneofDef = true)).single h
  cases hword with | token_some hword =>
  cases hname with | token_some hname =>
  obtain ⟨rfl, -⟩ := word_eq_some.1 hword
  exact ⟨(blanks s₁).1, _, (blanks s₂).1, s₀, ts, r₁, hseries, by simp [Tree.choice]; rfl⟩

/-- The members of a choice are statements of it. -/
theorem Stands.members {gap name gap' : List Char} {members : List Tree}
    (h : Stands tame messageElement (Tree.choice gap name gap' members)) :
    ∀ t ∈ Tree.statements members, Stands tame (Rule.element .oneofDef) t := by
  obtain ⟨htamed, s, r, hs, hreads⟩ := h
  have hoption : Reads false oneofDef s (some ([Tree.choice gap name gap' members], r)) := by
    obtain ⟨p, hp, hreads⟩ := choice_reads hreads
    simp only [List.mem_cons, List.not_mem_nil, or_false] at hp
    rcases hp with rfl | rfl | rfl | rfl | rfl | rfl | rfl | rfl | rfl | rfl | rfl <;>
      first | exact hreads | cases hreads
  obtain ⟨g, name', g', s₀, ts, r₁, hseries, heq⟩ := oneofDef_inv hoption
  simp only [Tree.choice, Tree.node.injEq, List.cons.injEq, true_and] at heq
  obtain ⟨-, heq⟩ := Tree.ofBlanks_append_inj rfl rfl heq
  obtain ⟨-, heq⟩ := Tree.ofBlanks_append_inj rfl rfl heq
  obtain rfl := List.append_cancel_right heq
  intro t ht
  obtain ⟨ht, hstatement⟩ := List.mem_filter.1 ht
  have hblank := Tree.isBlank_of_isStatement hstatement
  have hmem : t ∈ ts := by
    rcases List.mem_append.1 ht with ht | ht
    · exact ht
    · cases hgap : (blanks r₁).1 with
      | nil => simp [hgap, Tree.ofBlanks] at ht
      | cons c g =>
        rw [hgap] at ht
        obtain rfl := List.mem_singleton.1 ht
        cases hblank
  refine hseries.stands (fun htame v hv => htamed htame v ?_) t hmem hblank
  simp [Tree.choice, Tree.values, Tree.valuesAll, hv]

/-! ## Rearranged statements -/

/-- Statements of a block are read one after another behind new blanks. -/
theorem replaceable_spread {site : Site} {e : Phrase} (he : e.Element site) {old : List Tree}
    {rows : List (List Char × Tree)} {g : List Char} (hparted : Tree.Parted tame rows g)
    (hrows : (∀ t ∈ Tree.statements old, Stands tame e t) → ∀ row ∈ rows, Loose tame e row.2) :
    Replaceable tame e old (Tree.spread rows g) where
  calm m := hparted.calm _ m
  reads hold h := by
    refine Series.spread he.single (hrows fun t ht => ?_) hparted h
    obtain ⟨ht, hstatement⟩ := List.mem_filter.1 ht
    exact hold t ht (Tree.isBlank_of_isStatement hstatement)

/-- Statements in a new order, in a choice or out of one take the place of the old ones. -/
theorem replaceable_rearranged {rule : Rule} {old new : List Tree}
    (h : Tree.Rearranged tame rule old new) : Replaceable tame rule.element old new := by
  have hbody := element_of_isBlock (rfl : Rule.isBlock .messageBody = true)
  have hchoice := element_of_isBlock (rfl : Rule.isBlock .oneofDef = true)
  cases h with
  | @permuted _ _ rows g hrule hrows hparted =>
    have he : rule.element.Element rule.site := by
      simp only [List.mem_cons, List.not_mem_nil, or_false] at hrule
      rcases hrule with rfl | rfl <;> exact element_of_isBlock rfl
    refine replaceable_spread he hparted fun hold row hrow => ?_
    exact (hold row.2 (hrows.subset (List.mem_map_of_mem hrow))).loose he
  | @wrapped _ rows before gap name gap' g behind hmembers hrows hparted hgap hname hgap' hbefore
      hbehind =>
    have hwhole : Tree.Parted tame [(before, Tree.choice gap name gap' (Tree.spread rows g))]
        behind := ⟨by simpa using hbefore, hbehind⟩
    refine replaceable_spread hbody hwhole fun hold row hrow => ?_
    obtain rfl := List.mem_singleton.1 hrow
    refine loose_oneof (fun row hrow => ?_) hparted hgap hname hgap'
    have ht : row.2 ∈ Tree.statements old := hrows ▸ List.mem_map_of_mem hrow
    exact ((hold _ ht).choice (hmembers _ ht)).loose hchoice
  | @dissolved _ members rows gap name gap' g hstatements hrows hparted =>
    refine replaceable_spread hbody hparted fun hold row hrow => ?_
    have hwhole := hold (Tree.choice gap name gap' members) (by simp [hstatements])
    have ht : row.2 ∈ Tree.statements members := hrows ▸ List.mem_map_of_mem hrow
    exact (hwhole.members _ ht).of_choice.loose hbody

/-- Bringing statements into another order, making them members of a choice and dissolving a choice
are edits. -/
theorem edits_rearranged : Edits tame (Tree.Replaced (Tree.Rearranged tame)) := by
  refine edits_replaced (fun h => ?_) replaceable_rearranged
  cases h with
  | permuted hrule =>
    simp only [List.mem_cons, List.not_mem_nil, or_false] at hrule
    rcases hrule with rfl | rfl <;> rfl
  | wrapped | dissolved => rfl

end Proto

end MettaSchema
