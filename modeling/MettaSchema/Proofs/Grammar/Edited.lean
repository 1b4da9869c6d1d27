import MettaSchema.Proofs.Grammar.Decided
import MettaSchema.Proofs.Grammar.Sites

/-!
# Reading after an edit

Where a statement ends can be told at its end: nothing behind it makes the grammar read it in
another way.  So when some part of a text is replaced, what stands before that part is read as
before, and so is what stands behind it.

* `Tree.Within` — an edit somewhere inside trees.
* `Rereads` — an edit of the parts of a rule that the grammar reads; `Edits` — one of a block.
* `Proto.Reads.edited` — a text is read after an edit inside it, and with another text behind it.
-/

namespace MettaSchema

open Scan

/-! ## Edits -/

namespace Tree

theorem ne_node_of_mem_ofBlanks {s : List Char} {t : Tree} (ht : t ∈ ofBlanks s) (rule : Rule)
    (parts : List Tree) : t ≠ node rule parts := by
  cases s with
  | nil => cases ht
  | cons c s =>
    rw [List.mem_singleton.1 ht]
    nofun

/-- An edit of the parts of one rule, somewhere inside trees. -/
inductive Within (R : Rule → List Tree → List Tree → Prop) : List Tree → List Tree → Prop
  /-- The rule is one of the trees. -/
  | here {rule : Rule} {parts parts' : List Tree} (front back : List Tree)
      (h : R rule parts parts') :
      Within R (front ++ node rule parts :: back) (front ++ node rule parts' :: back)
  /-- The rule is inside of one of them. -/
  | inside (rule : Rule) {parts parts' : List Tree} (front back : List Tree)
      (h : Within R parts parts') :
      Within R (front ++ node rule parts :: back) (front ++ node rule parts' :: back)

namespace Within

variable {R : Rule → List Tree → List Tree → Prop} {ts us vs : List Tree}

/-- The edited rule, and the trees before and behind it. -/
theorem exists_node (h : Within R ts vs) : ∃ front rule parts parts' back,
    ts = front ++ node rule parts :: back ∧ vs = front ++ node rule parts' :: back
      ∧ (R rule parts parts' ∨ Within R parts parts') := by
  cases h with
  | here front back h => exact ⟨front, _, _, _, back, rfl, rfl, .inl h⟩
  | inside rule front back h => exact ⟨front, rule, _, _, back, rfl, rfl, .inr h⟩

theorem of_node {rule : Rule} {parts parts' : List Tree} (front back : List Tree)
    (h : R rule parts parts' ∨ Within R parts parts') :
    Within R (front ++ node rule parts :: back) (front ++ node rule parts' :: back) :=
  h.elim (.here front back) (.inside rule front back)

theorem append_inv (h : Within R (ts ++ us) vs) :
    (∃ ts', Within R ts ts' ∧ vs = ts' ++ us) ∨ ∃ us', Within R us us' ∧ vs = ts ++ us' := by
  obtain ⟨front, rule, parts, parts', back, heq, rfl, hedit⟩ := h.exists_node
  rcases List.append_eq_append_iff.1 heq with ⟨mid, rfl, rfl⟩ | ⟨mid, rfl, hmid⟩
  · exact .inr ⟨_, of_node mid back hedit, by simp⟩
  · cases mid with
    | nil =>
      obtain rfl : us = node rule parts :: back := by simpa using hmid.symm
      exact .inr ⟨_, of_node [] back hedit, by simp⟩
    | cons t mid =>
      obtain ⟨rfl, rfl⟩ := List.cons.inj hmid
      exact .inl ⟨_, of_node front mid hedit, by simp⟩

theorem node_inv {rule : Rule} {parts : List Tree} (h : Within R [node rule parts] vs) :
    ∃ parts', vs = [node rule parts'] ∧ (R rule parts parts' ∨ Within R parts parts') := by
  obtain ⟨front, rule', parts₁, parts', back, heq, rfl, hedit⟩ := h.exists_node
  obtain ⟨rfl, heq⟩ | ⟨_, _, heq⟩ := List.cons_eq_append_iff.1 heq
  · obtain ⟨hnode, rfl⟩ := List.cons.inj heq
    cases hnode
    exact ⟨parts', rfl, hedit⟩
  · cases (List.append_eq_nil_iff.1 heq.symm).2

theorem not_of_leaves (hts : ∀ t ∈ ts, ∀ rule parts, t ≠ node rule parts) : ¬ Within R ts vs := by
  intro h
  obtain ⟨front, rule, parts, _, back, rfl, -⟩ := h.exists_node
  exact hts (node rule parts) (by simp) rule parts rfl

theorem not_ofBlanks (s : List Char) : ¬ Within R (ofBlanks s) vs :=
  not_of_leaves fun _ => ne_node_of_mem_ofBlanks

/-- An edit behind blanks. -/
theorem ofBlanks_append_inv {s : List Char} (h : Within R (ofBlanks s ++ us) vs) :
    ∃ us', Within R us us' ∧ vs = ofBlanks s ++ us' := by
  rcases h.append_inv with ⟨_, h, -⟩ | h
  · exact absurd h (not_ofBlanks s)
  · exact h

end Within

end Tree

/-- The rules whose parts are statements. -/
def Rule.isBlock (rule : Rule) : Bool :=
  rule ∈ [.proto, .messageBody, .enumDef, .oneofDef, .serviceDef]

/-- In a statement in which nothing is declared there are no blocks. -/
theorem Tree.Within.not_detail {R : Rule → List Tree → List Tree → Prop}
    (hR : ∀ {rule parts parts'}, R rule parts parts' → rule.isBlock = true) {ts vs : List Tree}
    (h : Within R ts vs) : ¬ FitsAll .detail ts := by
  have hdetail : ∀ rule, Site.detail.Allows rule → rule.isBlock = false ∧ rule.site = .detail := by
    intro rule
    cases rule <;> decide
  induction h with
  | @here rule parts _ front back h =>
    intro hfits
    obtain ⟨hallows, -⟩ := fitsAll_iff.1 hfits (node rule parts) (by simp)
    have hblock := hR h
    rw [(hdetail rule hallows).1] at hblock
    cases hblock
  | @inside rule parts _ front back _ ih =>
    intro hfits
    obtain ⟨hallows, hparts⟩ := fitsAll_iff.1 hfits (node rule parts) (by simp)
    rw [(hdetail rule hallows).2] at hparts
    exact ih hparts

/-- An edit that is not one of the parts of a field does not leave a field that could be an option:
in such a field there are tokens only. -/
theorem Tree.Within.ne_bareField {R : Rule → List Tree → List Tree → Prop}
    (hR : ∀ {parts parts'}, ¬ R .field parts parts') {ts vs : List Tree} (h : Within R ts vs)
    (name number : List Char) : skeletonAll vs ≠ Proto.bareField name number := by
  have hmem {ts vs : List Tree} (h : Within R ts vs) :
      ∃ rule inner inner', .node rule (skeletonAll inner') ∈ skeletonAll vs
        ∧ (R rule inner inner' ∨ Within R inner inner') := by
    obtain ⟨front, rule, inner, inner', back, rfl, rfl, hedit⟩ := h.exists_node
    exact ⟨rule, inner, inner', by simp [skeletonAll, skeleton], hedit⟩
  intro heq
  obtain ⟨rule, inner, inner', hnode, hedit⟩ := hmem h
  rw [heq, Proto.bareField, List.mem_singleton] at hnode
  obtain ⟨rfl, hinner⟩ := Tree.node.inj hnode
  rcases hedit with hedit | hedit
  · exact hR hedit
  · obtain ⟨rule, _, _, htoken, -⟩ := hmem hedit
    simp [hinner] at htoken

open MettaSchema.Tree in
/-- An edit of the parts of a rule that the grammar reads: afterwards it reads the new parts, and the
text begins as it did, if the rule is not the whole file. -/
structure Rereads (tame : Prop) (R : Rule → List Tree → List Tree → Prop) : Prop where
  /-- The rule is neither a field nor a line that names the dialect. -/
  rule_not_mem {rule : Rule} {parts parts' : List Tree} (h : R rule parts parts') :
    rule ∉ [.field, .syntaxLine, .editionLine]
  /-- The new parts are read. -/
  reads {rule : Rule} {p : Phrase} {parts parts' : List Tree} {s r : List Char}
    (h : R rule parts parts') (hrule : Proto.phrase rule = .node rule p)
    (hreads : Proto.Reads false p s (some (parts, r)))
    (hval : tame → ∀ v ∈ valuesAll parts, Braced v) :
    ∃ parts'', Proto.Reads false p (textAll parts' ++ r) (some (parts'', r))
      ∧ skeletonAll parts'' = skeletonAll parts'
      ∧ (rule ≠ .proto → Strays tame s (textAll parts' ++ r))

/-- No block is a field or names the dialect. -/
theorem Rule.not_mem_of_isBlock {rule : Rule} (h : rule.isBlock = true) :
    rule ∉ [.field, .syntaxLine, .editionLine] := by
  simp only [List.mem_cons, List.not_mem_nil, or_false]
  rintro (rfl | rfl | rfl) <;> cases h

/-- An edit of the parts of a block that the grammar reads. -/
structure Edits (tame : Prop) (R : Rule → List Tree → List Tree → Prop) : Prop
    extends Rereads tame R where
  /-- The rule is a block. -/
  isBlock {rule : Rule} {parts parts' : List Tree} (h : R rule parts parts') : rule.isBlock = true
  rule_not_mem h := Rule.not_mem_of_isBlock (isBlock h)

/-- No edits at all. -/
theorem rereads_none (tame : Prop) : Rereads tame fun _ _ _ => False := ⟨False.elim, False.elim⟩

/-- What becomes of some trees and the text behind them: either the text is another one, or there is
an edit inside the trees. -/
inductive Changed (tame : Prop) (R : Rule → List Tree → List Tree → Prop) (w : Follow)
    (trees : List Tree) (r : List Char) : List Tree → List Char → Prop
  /-- Another text behind the trees. -/
  | behind {r' : List Char} (h : w.Keeps tame r r') : Changed tame R w trees r trees r'
  /-- An edit inside the trees. -/
  | inside {trees' : List Tree} (h : Tree.Within R trees trees') : Changed tame R w trees r trees' r

/-- A change of trees that stand where they may, with a text behind them that is as asked before the
change and after it. -/
structure Amended (tame : Prop) (R : Rule → List Tree → List Tree → Prop) (w : Follow)
    (trees : List Tree) (r : List Char) (trees' : List Tree) (r' : List Char) : Prop where
  /-- The text behind the trees before the change. -/
  holds : w.Holds r
  /-- The text behind the trees after the change. -/
  holds' : w.Holds r'
  /-- The rules of the trees stand where they may. -/
  fits : ∃ site, Tree.FitsAll site trees
  /-- The values are well-formed where they are said to be tame. -/
  tamed : tame → ∀ v ∈ Tree.valuesAll trees, Braced v
  /-- The change. -/
  changed : Changed tame R w trees r trees' r'

namespace Amended

variable {tame : Prop} {R : Rule → List Tree → List Tree → Prop} {w : Follow}
  {ts us vs : List Tree} {r r' : List Char}

/-- What follows some trees is changed, or the trees themselves are. -/
theorem append_inv (h : Amended tame R w (ts ++ us) r vs r') :
    (∃ us', vs = ts ++ us' ∧ Amended tame R w us r us' r')
      ∨ ∃ ts', vs = ts' ++ us ∧ r' = r ∧ Tree.Within R ts ts' := by
  obtain ⟨hholds, hholds', ⟨site, hfits⟩, htamed, hchanged⟩ := h
  have hfits' : ∃ site, Tree.FitsAll site us := ⟨site, (Tree.fitsAll_append.1 hfits).2⟩
  have htamed' : tame → ∀ v ∈ Tree.valuesAll us, Braced v := by
    intro ht v hv
    exact htamed ht v (by simp [hv])
  cases hchanged with
  | behind hkeeps => exact .inl ⟨us, rfl, hholds, hholds', hfits', htamed', .behind hkeeps⟩
  | inside hedit =>
    rcases hedit.append_inv with ⟨ts', hts, rfl⟩ | ⟨us', hus, rfl⟩
    · exact .inr ⟨ts', rfl, rfl, hts⟩
    · exact .inl ⟨us', rfl, hholds, hholds', hfits', htamed', .inside hus⟩

theorem ofBlanks_inv {g : List Char} (h : Amended tame R w (Tree.ofBlanks g ++ us) r vs r') :
    ∃ us', vs = Tree.ofBlanks g ++ us' ∧ Amended tame R w us r us' r' := by
  rcases h.append_inv with h | ⟨_, -, -, hedit⟩
  · exact h
  · exact absurd hedit (Tree.Within.not_ofBlanks g)

/-- The trees in front of a change. -/
theorem of_append_left (h : Amended tame R w (ts ++ us) r vs r') {w' : Follow} {ts' : List Tree}
    {s s' : List Char} (hs : w'.Holds s) (hs' : w'.Holds s')
    (hchanged : Changed tame R w' ts s ts' s') : Amended tame R w' ts s ts' s' := by
  obtain ⟨-, -, ⟨site, hfits⟩, htamed, -⟩ := h
  refine ⟨hs, hs', ⟨site, (Tree.fitsAll_append.1 hfits).1⟩, ?_, hchanged⟩
  intro ht v hv
  exact htamed ht v (by simp [hv])

/-- Trees that are not changed. -/
theorem of_append_right (h : Amended tame R w (ts ++ us) r vs r') :
    Amended tame R w us r us r := by
  obtain ⟨hholds, -, ⟨site, hfits⟩, htamed, -⟩ := h
  refine ⟨hholds, hholds, ⟨site, (Tree.fitsAll_append.1 hfits).2⟩, ?_, .behind (.refl w r)⟩
  intro ht v hv
  exact htamed ht v (by simp [hv])

theorem behind_of_leaf {t : Tree} (h : Amended tame R w [t] r vs r')
    (ht : ∀ rule parts, t ≠ .node rule parts) : vs = [t] ∧ w.Keeps tame r r' := by
  cases h.changed with
  | behind hkeeps => exact ⟨rfl, hkeeps⟩
  | inside hedit =>
    exact absurd hedit (Tree.Within.not_of_leaves fun u hu => List.mem_singleton.1 hu ▸ ht)

theorem behind_of_nil (h : Amended tame R w [] r vs r') : vs = [] ∧ w.Keeps tame r r' := by
  cases h.changed with
  | behind hkeeps => exact ⟨rfl, hkeeps⟩
  | inside hedit => exact absurd hedit (Tree.Within.not_of_leaves (by simp))

end Amended

namespace Proto

/-! ## Reading after an edit -/

/-- What is read as a phrase after a change: the changed trees, from a text that begins like the one
before the change. -/
def Survives (tame : Prop) (further : Bool) (p : Phrase) (k : Char → Bool) (s : List Char)
    (trees : List Tree) (r : List Char) : Prop :=
  ∃ trees', Reads further p (Tree.textAll trees ++ r) (some (trees', r))
    ∧ Tree.skeletonAll trees' = Tree.skeletonAll trees
    ∧ Strays tame s (Tree.textAll trees ++ r)
    ∧ Opens k (blanks s).2 ∧ Opens k (blanks (Tree.textAll trees ++ r)).2

/-- A text with no blanks in front begins like the one before the change if it strays from it. -/
theorem Survives.of_opens {tame : Prop} {p : Phrase} {k : Char → Bool} {s : List Char}
    {trees trees' : List Tree} {r : List Char}
    (h : Reads false p (Tree.textAll trees ++ r) (some (trees', r)))
    (hskeleton : Tree.skeletonAll trees' = Tree.skeletonAll trees)
    (hstrays : Strays tame s (Tree.textAll trees ++ r)) (hs : Opens k s) :
    Survives tame false p k s trees r := by
  have hs' := hstrays.opens hs
  refine ⟨trees', h, hskeleton, hstrays, ?_, ?_⟩
  · rwa [hs.blanks_eq]
  · rwa [hs'.blanks_eq]

theorem Survives.mono {tame : Prop} {further : Bool} {p : Phrase} {k l : Char → Bool}
    {s : List Char} {trees : List Tree} {r : List Char} (h : Survives tame further p k s trees r)
    (hkl : ∀ c, k c = true → l c = true) : Survives tame further p l s trees r := by
  obtain ⟨trees', hreads, hskeleton, hstrays, hs, hs'⟩ := h
  exact ⟨trees', hreads, hskeleton, hstrays, hs.mono hkl, hs'.mono hkl⟩

/-- The outcome of reading a phrase survives all changes. -/
def Lasts (tame : Prop) (R : Rule → List Tree → List Tree → Prop) (further : Bool) (p : Phrase)
    (s : List Char) (o : Option (List Tree × List Char)) : Prop :=
  ∀ {k : Char → Bool} {w : Follow} {trees trees' : List Tree} {r r' : List Char},
    o = some (trees, r) → (p.run further).Predicts tame k w → p.Sound →
    (further = false → blanks s = ([], s)) → Amended tame R w trees r trees' r' →
    Survives tame further p k s trees' r'

variable {tame : Prop} {R : Rule → List Tree → List Tree → Prop}


/-- What survives behind blanks, and the blanks in front of it. -/
theorem Survives.behind_blanks {q : Phrase} {m : Char → Bool} {s r : List Char} {more : List Tree}
    (h : Survives tame false q m (blanks s).2 more r) :
    blanks ((blanks s).1 ++ (Tree.textAll more ++ r)) = ((blanks s).1, Tree.textAll more ++ r)
      ∧ Strays tame s ((blanks s).1 ++ (Tree.textAll more ++ r))
      ∧ Opens m (blanks s).2 ∧ Opens m (Tree.textAll more ++ r) := by
  obtain ⟨-, -, -, hstrays, hs, -⟩ := h
  rw [blanks_snd] at hs
  have hs' := hstrays.opens hs
  have hfront : blanks ((blanks s).1 ++ (blanks s).2) = ((blanks s).1, (blanks s).2) := by
    rw [blanks_append]
  have happend := hstrays.append (blanks s).1
  rw [blanks_append] at happend
  exact ⟨hstrays.blanks_append hs hfront, happend, hs, hs'⟩

/-! ### Tokens and composite rules -/

theorem Lasts.mark {scan : Scanner} {s t r : List Char} (h : scan s = some (t, r)) :
    Lasts tame R false (.mark scan) s (some ([.mark t], r)) := by
  rintro k w _ _ _ r' ⟨⟩ hp hsound - ham
  cases hp with | mark hpredicts =>
  obtain ⟨rfl, hkeeps⟩ := ham.behind_of_leaf nofun
  obtain ⟨hscan, hopens, hstrays⟩ := hpredicts h hkeeps
  exact .of_opens (by simpa [Tree.textAll, Tree.text] using Reads.mark_some hscan) rfl
    (by simpa [Tree.textAll, Tree.text] using hstrays) hopens

theorem Lasts.token {rule : Rule} {scan : Scanner} {s t r : List Char} (h : scan s = some (t, r)) :
    Lasts tame R false (.token rule scan) s (some ([.token rule t], r)) := by
  rintro k w _ _ _ r' ⟨⟩ hp hsound - ham
  obtain ⟨rfl, hkeeps⟩ := ham.behind_of_leaf nofun
  have htext : Tree.textAll [.token rule t] ++ r' = t ++ r' := by simp [Tree.textAll, Tree.text]
  rw [Phrase.run] at hp
  cases hp with
  | token hpredicts =>
    obtain ⟨hscan, hopens, hstrays⟩ := hpredicts h hkeeps
    rw [← htext] at hscan hstrays
    exact .of_opens (.token_some hscan) rfl hstrays hopens
  | value hk =>
    have hbraced : tame → Braced t := fun ht => ham.tamed ht t (by simp [Tree.valuesAll, Tree.values])
    obtain ⟨hscan, ⟨x, rfl⟩, hstrays⟩ := aggregate_predicts h hkeeps.calm hbraced
    rw [← htext] at hscan hstrays
    exact .of_opens (.token_some hscan) rfl hstrays ⟨hk, rfl⟩

/-- A rule is edited in its parts, or inside one of them. -/
theorem Lasts.node (hR : Rereads tame R) {rule : Rule} {p : Phrase} {s r : List Char}
    {parts : List Tree} (h : Reads false p s (some (parts, r)))
    (ih : Lasts tame R false p s (some (parts, r))) :
    Lasts tame R false (.node rule p) s (some ([.node rule parts], r)) := by
  rintro k w _ _ _ r' ⟨⟩ hp hsound hs ham
  rw [Phrase.run] at hp
  cases hp with | node hrule hp =>
  obtain ⟨hholds, hholds', ⟨site, hfits⟩, htamed, hchanged⟩ := ham
  have hfits' : ∃ site, Tree.FitsAll site parts := ⟨rule.site, hfits.1.2⟩
  have htamed' : tame → ∀ v ∈ Tree.valuesAll parts, Braced v := by
    simpa [Tree.valuesAll, Tree.values] using htamed
  have hnode : ∀ {parts' : List Tree} {r' : List Char}, Survives tame false p k s parts' r' →
      Survives tame false (.node rule p) k s [.node rule parts'] r' := by
    rintro parts' r' ⟨parts'', hreads, hskeleton, hrest⟩
    refine ⟨[.node rule parts''], ?_, by simp [Tree.skeletonAll, Tree.skeleton, hskeleton], ?_⟩
    · simpa [Tree.textAll, Tree.text] using Reads.node_some hreads
    · simpa [Tree.textAll, Tree.text] using hrest
  cases hchanged with
  | behind hkeeps =>
    exact hnode (ih rfl hp hsound hs ⟨hholds, hholds', hfits', htamed', .behind hkeeps⟩)
  | inside hedit =>
    obtain ⟨parts', rfl, hparts | hparts⟩ := hedit.node_inv
    · obtain ⟨parts'', hreads, hskeleton, hstrays⟩ := hR.reads hparts hrule h htamed'
      obtain ⟨-, -, -, -, hopens, -⟩ :=
        ih rfl hp hsound hs ⟨hholds, hholds, hfits', htamed', .behind (.refl w _)⟩
      rw [hs rfl] at hopens
      -- the phrase of a file begins with nothing, so no character can be predicted for it
      have hproto : rule ≠ .proto := by
        rintro rfl
        cases hrule
        cases hp with | seq hp =>
        cases hp
      exact hnode (.of_opens hreads hskeleton (hstrays hproto) hopens)
    · exact hnode (ih rfl hp hsound hs ⟨hholds, hholds', hfits', htamed', .inside hparts⟩)

/-! ### Sequences -/

/-- One phrase behind another. -/
theorem Survives.seq {p q : Phrase} {k m : Char → Bool} {s s₁ r : List Char}
    {trees more : List Tree} (hq : Survives tame false q m (blanks s₁).2 more r)
    (hp : Survives tame false p k s trees ((blanks s₁).1 ++ (Tree.textAll more ++ r))) :
    Survives tame false (.seq p q) k s (trees ++ (Tree.ofBlanks (blanks s₁).1 ++ more)) r := by
  obtain ⟨hblanks, -⟩ := hq.behind_blanks
  obtain ⟨trees', hreads₁, hskeleton₁, hrest⟩ := hp
  obtain ⟨more', hreads₂, hskeleton₂, -⟩ := hq
  have hseq : Reads false (.seq p q) _ _ := .seq_both hreads₁ (by rw [hblanks]; exact hreads₂)
  rw [hblanks] at hseq
  refine ⟨trees' ++ Tree.ofBlanks (blanks s₁).1 ++ more', ?_, ?_, ?_⟩
  · simpa only [Tree.textAll_append, Tree.textAll_ofBlanks, List.append_assoc] using hseq
  · simp [hskeleton₁, hskeleton₂]
  · simpa only [Tree.textAll_append, Tree.textAll_ofBlanks, List.append_assoc] using hrest

/-- A phrase goes on in front of what the next one begins with. -/
theorem Lasts.seq_both {p q : Phrase} {s s₁ r : List Char} {trees more : List Tree}
    (h : Reads false q (blanks s₁).2 (some (more, r)))
    (ih₁ : Lasts tame R false p s (some (trees, s₁)))
    (ih₂ : Lasts tame R false q (blanks s₁).2 (some (more, r))) :
    Lasts tame R false (.seq p q) s (some (trees ++ Tree.ofBlanks (blanks s₁).1 ++ more, r)) := by
  rintro k w _ _ _ r' ⟨⟩ hp hsound hs ham
  cases hp with | @seq _ _ _ l m _ hp hl hq =>
  have hskip : blanks (blanks s₁).2 = ([], (blanks s₁).2) := blanks_snd s₁
  have hmore := ih₂ rfl hq hsound.2 (fun _ => hskip) ham.of_append_right
  have hopens : (Follow.opens l).Holds s₁ := hmore.behind_blanks.2.2.1.mono hl
  rw [List.append_assoc] at ham
  rcases ham.append_inv with ⟨back, rfl, hback⟩ | ⟨front, rfl, rfl, hedit⟩
  · obtain ⟨more', rfl, hamore⟩ := hback.ofBlanks_inv
    have hmore' := ih₂ rfl hq hsound.2 (fun _ => hskip) hamore
    obtain ⟨hblanks, hstrays, -, hopens'⟩ := hmore'.behind_blanks
    have hfollow : (Follow.opens l).Holds ((blanks s₁).1 ++ (Tree.textAll more' ++ r')) := by
      rw [Follow.Holds, hblanks]
      exact hopens'.mono hl
    exact hmore'.seq (ih₁ rfl hp hsound.1 hs
      (ham.of_append_left hopens hfollow (.behind hstrays)))
  · have hfront := ih₁ rfl hp hsound.1 hs (ham.of_append_left hopens hopens (.inside hedit))
    have htext : s₁ = (blanks s₁).1 ++ (Tree.textAll more ++ r') := by
      rw [(h.text hsound.2 _ _ rfl).1, blanks_append]
    rw [htext] at hfront
    exact hmore.seq hfront

/-! ### Choices -/

theorem Lasts.alt_first {p q : Phrase} {s : List Char} {taken : List Tree × List Char}
    (ih : Lasts tame R false p s (some taken)) : Lasts tame R false (.alt p q) s (some taken) := by
  rintro k w _ _ _ r' ⟨⟩ hp hsound hs ham
  cases hp with | alt hp hl =>
  obtain ⟨trees, hreads, hrest⟩ := (ih rfl hp hsound.1 hs ham).mono hl
  exact ⟨trees, .alt_first hreads, hrest⟩

theorem Lasts.alt_second (hR : Rereads tame R) {p q : Phrase} {s : List Char}
    {o : Option (List Tree × List Char)} (h₁ : Reads false p s none) (h₂ : Reads false q s o)
    (ih : Lasts tame R false q s o) : Lasts tame R false (.alt p q) s o := by
  rintro k w trees trees' _ r' rfl hp hsound hs ham
  cases hp with | @alt _ _ _ l m _ _ _ hq hm hyields =>
  have hsurvives := ih rfl hq hsound.2 hs ham
  obtain ⟨trees'', hreads, hskeleton, hstrays, hopens, hopens'⟩ := hsurvives
  rw [hs rfl] at hopens
  have hskeletons : ∀ name number, Tree.skeletonAll trees'' = bareField name number →
      Tree.skeletonAll trees = bareField name number := by
    intro name number hbare
    rw [hskeleton] at hbare
    cases ham.changed with
    | behind => exact hbare
    | inside hedit =>
      exact absurd hbare (hedit.ne_bareField (fun h => hR.rule_not_mem h (by simp)) name number)
  have hrefuses := hyields h₁ h₂ hreads hstrays hopens (hstrays.opens hopens) hskeletons
  exact .of_opens (.alt_second hrefuses hreads) hskeleton hstrays (hopens.mono hm)

theorem Lasts.opt_some {p : Phrase} {s : List Char} {taken : List Tree × List Char}
    (ih : Lasts tame R false p s (some taken)) : Lasts tame R false (.opt p) s (some taken) := by
  rintro k w _ _ _ r' ⟨⟩ hp hsound hs ham
  cases hp with | opt hp hl =>
  obtain ⟨trees, hreads, hrest⟩ := (ih rfl hp hsound hs ham).mono hl
  exact ⟨trees, .opt_some hreads, hrest⟩

theorem Lasts.opt_none {p : Phrase} {s : List Char} (h : Reads false p s none) :
    Lasts tame R false (.opt p) s (some ([], s)) := by
  rintro k w _ _ _ r' ⟨⟩ hp hsound hs ham
  cases hp with | opt hp hl hm hdeclines =>
  obtain ⟨rfl, hstrays⟩ := ham.behind_of_nil
  have hopens := ham.holds
  rw [Follow.Holds, hs rfl] at hopens
  have hrefuses := hdeclines h hstrays hopens (hstrays.opens hopens)
  exact .of_opens (.opt_none hrefuses) rfl hstrays (hopens.mono hm)

/-! ### Repetitions -/

theorem Lasts.star_none {p : Phrase} {s : List Char} :
    Lasts tame R false (.star p) s (some ([], s)) := by
  rintro k w _ _ _ r' ⟨⟩ hp hsound hs ham
  cases hp with | star hp hw hl hm hn hfails =>
  obtain ⟨rfl, hstrays⟩ := ham.behind_of_nil
  have hopens := ham.holds
  rw [Follow.Holds, hs rfl] at hopens
  exact .of_opens (.star_none (hfails (hstrays.opens hopens))) rfl hstrays
    (hopens.mono fun c hc => hn c (hm c hc))

theorem Lasts.more_none {p : Phrase} {s : List Char} :
    Lasts tame R true p s (some ([], s)) := by
  rintro k w _ _ _ r' ⟨⟩ hp hsound - ham
  cases hp with | star hp hw hl hm hn hfails =>
  obtain ⟨rfl, hstrays⟩ := ham.behind_of_nil
  have hmk := fun c hc => hn c (hm c hc)
  exact ⟨[], .more_none (hfails ham.holds'), rfl, hstrays, ham.holds.mono hmk, ham.holds'.mono hmk⟩

/-- A part of a repetition and those behind it. -/
theorem Lasts.parts {p : Phrase} {s s₁ r r' : List Char} {trees more vs : List Tree}
    {k l : Char → Bool} {w v : Follow} (h : Reads true p s₁ (some (more, r)))
    (hskip : blanks s = ([], s)) (ih₁ : Lasts tame R false p s (some (trees, s₁)))
    (ih₂ : Lasts tame R true p s₁ (some (more, r))) (hp : p.Predicts tame l w)
    (hstar : (Phrase.star p).Predicts tame k v) (hw : w = .any ∨ w = .opens k) (hsound : p.Sound)
    (ham : Amended tame R v (trees ++ more) r vs r') :
    ∃ trees' more', vs = trees' ++ more' ∧ Survives tame true p k s₁ more' r'
      ∧ Survives tame false p l s trees' (Tree.textAll more' ++ r') := by
  have hmore := ih₂ rfl hstar hsound nofun ham.of_append_right
  have htext := (h.text hsound _ _ rfl).1
  have hfollow : ∀ {s₂ : List Char}, Opens k (blanks s₂).2 → w.Holds s₂ := by
    intro s₂ hopens
    rcases hw with rfl | rfl
    · trivial
    · exact hopens
  have ⟨_, _, _, _, hopens, _⟩ := hmore
  rcases ham.append_inv with ⟨more', rfl, hamore⟩ | ⟨trees', rfl, rfl, hedit⟩
  · have hmore' := ih₂ rfl hstar hsound nofun hamore
    have ⟨_, _, _, hstrays, _, hopens'⟩ := hmore'
    have hkeeps : w.Keeps tame s₁ (Tree.textAll more' ++ r') := by
      rcases hw with rfl | rfl
      · exact hstrays.calm
      · exact hstrays
    refine ⟨trees, more', rfl, hmore', ih₁ rfl hp hsound (fun _ => hskip) ?_⟩
    exact ham.of_append_left (hfollow hopens) (hfollow hopens') (.behind hkeeps)
  · refine ⟨trees', more, rfl, hmore, ?_⟩
    rw [htext]
    exact ih₁ rfl hp hsound (fun _ => hskip)
      (ham.of_append_left (hfollow hopens) (hfollow hopens) (.inside hedit))

theorem Lasts.star_some {p : Phrase} {s s₁ r : List Char} {trees more : List Tree}
    (h : Reads true p s₁ (some (more, r))) (ih₁ : Lasts tame R false p s (some (trees, s₁)))
    (ih₂ : Lasts tame R true p s₁ (some (more, r))) :
    Lasts tame R false (.star p) s (some (trees ++ more, r)) := by
  rintro k w _ _ _ r' ⟨⟩ hstar hsound hs ham
  rw [Phrase.run] at hstar
  cases hstar with | star hp hw hl hm hn hfails =>
  obtain ⟨trees', more', rfl, ⟨more'', hreads₂, hskeleton₂, -⟩, hfront⟩ :=
    Lasts.parts h (hs rfl) ih₁ ih₂ hp (.star hp hw hl hm (fun _ => id) hfails) hw hsound.1 ham
  obtain ⟨trees'', hreads₁, hskeleton₁, hrest⟩ := hfront.mono fun c hc => hn c (hl c hc)
  refine ⟨trees'' ++ more'', ?_, by simp [hskeleton₁, hskeleton₂], ?_⟩
  · simpa using Reads.star_some hreads₁ hreads₂
  · simpa using hrest

theorem Lasts.more_some {p : Phrase} {s s₁ r : List Char} {trees more : List Tree}
    (h : Reads true p s₁ (some (more, r)))
    (ih₁ : Lasts tame R false p (blanks s).2 (some (trees, s₁)))
    (ih₂ : Lasts tame R true p s₁ (some (more, r))) :
    Lasts tame R true p s (some (Tree.ofBlanks (blanks s).1 ++ trees ++ more, r)) := by
  rintro k w _ _ _ r' ⟨⟩ hstar hsound - ham
  rw [Phrase.run] at hstar
  cases hstar with | star hp hw hl hm hn hfails =>
  rw [List.append_assoc] at ham
  obtain ⟨back, rfl, hback⟩ := ham.ofBlanks_inv
  obtain ⟨trees', more', rfl, ⟨more'', hreads₂, hskeleton₂, -⟩, hfront⟩ :=
    Lasts.parts h (blanks_snd s) ih₁ ih₂ hp (.star hp hw hl hm (fun _ => id) hfails) hw hsound hback
  obtain ⟨hblanks, hstrays, hopens, hopens'⟩ := hfront.behind_blanks
  obtain ⟨trees'', hreads₁, hskeleton₁, -⟩ := hfront
  have htext : Tree.textAll (Tree.ofBlanks (blanks s).1 ++ (trees' ++ more')) ++ r'
      = (blanks s).1 ++ (Tree.textAll trees' ++ (Tree.textAll more' ++ r')) := by simp
  have hmore : Reads true p _ _ := .more_some (by rw [hblanks]; exact hreads₁) hreads₂
  rw [hblanks] at hmore
  have hlk := fun c hc => hn c (hl c hc)
  rw [Survives, htext, hblanks]
  exact ⟨_, hmore, by simp [hskeleton₁, hskeleton₂], hstrays, hopens.mono hlk, hopens'.mono hlk⟩

/-! ### Reading -/

/-- What is read of a phrase is read after every change. -/
theorem Reads.edited (hR : Rereads tame R) {further : Bool} {p : Phrase} {s : List Char}
    {o : Option (List Tree × List Char)} (h : Reads further p s o) : Lasts tame R further p s o := by
  induction h with
  | nothing =>
    rintro k w _ _ _ _ - hp
    cases hp
  | mark_some h => exact Lasts.mark h
  | token_some h => exact Lasts.token h
  | node_some h ih => exact Lasts.node hR h ih
  | seq_both _ h₂ ih₁ ih₂ => exact Lasts.seq_both h₂ ih₁ ih₂
  | alt_first _ ih => exact Lasts.alt_first ih
  | alt_second h₁ h₂ _ ih => exact Lasts.alt_second hR h₁ h₂ ih
  | opt_some _ ih => exact Lasts.opt_some ih
  | opt_none h => exact Lasts.opt_none h
  | star_none _ => exact Lasts.star_none
  | star_some _ h₂ ih₁ ih₂ => exact Lasts.star_some h₂ ih₁ ih₂
  | more_none _ => exact Lasts.more_none
  | more_some _ h₂ ih₁ ih₂ => exact Lasts.more_some h₂ ih₁ ih₂
  | body _ ih =>
    rintro k w trees trees' r r' rfl hp - hs ham
    cases hp with | body hk =>
    have hbrace : ∀ c, among [Scan.openBrace] c = true → k c = true := by
      intro c hc
      obtain rfl : c = Scan.openBrace := by simpa [among] using hc
      exact hk
    obtain ⟨trees'', hreads, hrest⟩ := ih rfl (predicts_messageBody.mono hbrace) sound_messageBody.1 hs ham
    exact ⟨trees'', .body hreads, hrest⟩
  | _ => rintro k w _ _ _ _ ⟨⟩

/-- What is read of a phrase is read in front of another text. -/
theorem Reads.behind {p : Phrase} {k : Char → Bool} {w : Follow} {s r r' : List Char}
    {trees : List Tree} (h : Reads false p s (some (trees, r))) (hp : p.Predicts tame k w)
    (hsound : p.Sound) (hfits : ∃ site, p.Fits site) (hs : blanks s = ([], s))
    (hval : tame → ∀ v ∈ Tree.valuesAll trees, Braced v) (hholds : w.Holds r) (hholds' : w.Holds r')
    (hkeeps : w.Keeps tame r r') : Survives tame false p k s trees r' := by
  obtain ⟨site, hfits⟩ := hfits
  exact h.edited (rereads_none tame) rfl hp hsound (fun _ => hs)
    ⟨hholds, hholds', ⟨site, h.fits hfits _ _ rfl⟩, hval, .behind hkeeps⟩

end Proto

end MettaSchema
