import MettaSchema.Proofs.Grammar.Aligned
import MettaSchema.Proofs.Grammar.Sites
import MettaSchema.Proofs.Grammar.Skeleton
import MettaSchema.Schema.Parse

/-!
# Layout does not matter

What stands between two tokens may be any blanks and comments: a text is read to the same
tokens whichever they are.

* `Phrase.Lays` — a phrase does not see which blanks stand between tokens.
* `Proto.lays_file` — the grammar of schema files is such a phrase.
* `Proto.Follows`, `Proto.Reads.aligned` — aligned texts are read alike, also where reading fails.
* `Proto.Respaces`, `Proto.Reads.respaced` — trees with other blanks are trees of an aligned text.
* `Schema.parse_respaced` — the schema does not change.
-/

namespace MettaSchema

open Scan

/-- The phrase takes the same tokens from aligned texts and leaves aligned texts, and what it
reads can be put together again with other blanks.  The flags say where a value in braces can
stand, as in `Scan.Aligned`: before the phrase, and behind it. -/
inductive Phrase.Lays : Bool → Phrase → (Bool → Prop) → Prop
  /-- Nothing. -/
  | nothing {v : Bool} {after : Bool → Prop} (hv : after v) : Lays v .nothing after
  /-- A mark. -/
  | mark {v : Bool} {after : Bool → Prop} {scan : Scanner} (hs : scan.Steady v after)
      (hb : scan.Builds v after) : Lays v (.mark scan) after
  /-- A token. -/
  | token {v : Bool} {after : Bool → Prop} {rule : Rule} {scan : Scanner}
      (hs : scan.Steady v after) (hb : scan.Builds v after) : Lays v (.token rule scan) after
  /-- A value in braces. -/
  | value {after : Bool → Prop} (hf : after false) :
      Lays true (.token .aggregate Scan.aggregate) after
  /-- A composite rule. -/
  | node {v : Bool} {after : Bool → Prop} {rule : Rule} {p : Phrase} (h : Lays v p after) :
      Lays v (.node rule p) after
  /-- One phrase behind another. -/
  | seq {v : Bool} {between after : Bool → Prop} {p q : Phrase} (hp : Lays v p between)
      (hq : ∀ w, between w → Lays w q after) : Lays v (.seq p q) after
  /-- One of two phrases. -/
  | alt {v : Bool} {after : Bool → Prop} {p q : Phrase} (hp : Lays v p after)
      (hq : Lays v q after) : Lays v (.alt p q) after
  /-- A phrase or nothing. -/
  | opt {v : Bool} {after : Bool → Prop} {p : Phrase} (hp : Lays v p after) (hv : after v) :
      Lays v (.opt p) after
  /-- A phrase any number of times. -/
  | star {v : Bool} {after : Bool → Prop} {p : Phrase} (hp : Lays v p (· = v)) (hv : after v) :
      Lays v (.star p) after
  /-- The body of a message. -/
  | body {after : Bool → Prop} (hf : after false) : Lays false .body after

/-- A mark of such a phrase is taken steadily. -/
theorem Phrase.Lays.steady_mark {v : Bool} {scan : Scanner} {after : Bool → Prop}
    (h : (Phrase.mark scan).Lays v after) : scan.Steady v after := by
  cases h with
  | mark hs => exact hs

/-- A token of such a phrase is taken steadily. -/
theorem Phrase.Lays.steady_token {v : Bool} {rule : Rule} {scan : Scanner} {after : Bool → Prop}
    (h : (Phrase.token rule scan).Lays v after) : scan.Steady v after := by
  cases h with
  | token hs => exact hs
  | value hf => exact steady_aggregate hf

namespace Phrase

/-! ## Phrases outside of values -/

/-- The phrase lays anywhere but in front of values, and no value can follow it. -/
def Plain (p : Phrase) : Prop := p.Lays false (· = false)

/-- The phrase lays behind an equals sign, and no value can follow it. -/
def Valued (p : Phrase) : Prop := p.Lays true (· = false)

theorem lays_token (rule : Rule) {scan : Scanner} (hl : scan.Local) (he : scan.Eats) (v : Bool)
    {after : Bool → Prop} (hf : after false) : (token rule scan).Lays v after :=
  .token (steady_of_local hl he v hf) (builds_of_local hl he v hf)

theorem lays_mark {scan : Scanner} (hl : scan.Local) (he : scan.Eats) (v : Bool)
    {after : Bool → Prop} (hf : after false) : (mark scan).Lays v after :=
  .mark (steady_of_local hl he v hf) (builds_of_local hl he v hf)

theorem plain_seq {p q : Phrase} (hp : p.Plain) (hq : q.Plain) : (seq p q).Plain :=
  .seq hp <| by rintro _ rfl; exact hq

theorem valued_seq {p q : Phrase} (hp : p.Valued) (hq : q.Plain) : (seq p q).Valued :=
  .seq hp <| by rintro _ rfl; exact hq

/-- Behind an equals sign a value can stand. -/
theorem plain_assign {q : Phrase} (hq : q.Valued) : (seq (punct "=") q).Plain := by
  have hequals : (punct "=").Lays false (· = true) :=
    .mark (steady_equals false rfl) (builds_equals false rfl)
  exact .seq hequals <| by rintro _ rfl; exact hq

theorem plain_opt {p : Phrase} (hp : p.Plain) : (opt p).Plain := .opt hp rfl

theorem plain_star {p : Phrase} (hp : p.Plain) : (star p).Plain := .star hp rfl

theorem plain_nothing : nothing.Plain := .nothing rfl

theorem plain_body : body.Plain := .body rfl

theorem plain_separated {separator p : Phrase} (hs : separator.Plain) (hp : p.Plain) :
    (separated separator p).Plain :=
  plain_seq hp (plain_star (plain_seq hs hp))

theorem plain_sequence {ps : List Phrase} (h : ∀ p ∈ ps, p.Plain) : (sequence ps).Plain := by
  fun_induction sequence ps with
  | case1 => exact plain_nothing
  | case2 p => exact h p (by simp)
  | case3 p q ps ih => exact plain_seq (h p (by simp)) (ih fun x hx => h x (by simp [hx]))

theorem plain_choice {ps : List Phrase} (h : ∀ p ∈ ps, p.Plain) : (choice ps).Plain := by
  fun_induction choice ps with
  | case1 => exact .mark (fun _ _ _ => .inl ⟨rfl, rfl⟩) nofun
  | case2 p => exact h p (by simp)
  | case3 p q ps ih => exact .alt (h p (by simp)) (ih fun x hx => h x (by simp [hx]))

theorem valued_sequence {q : Phrase} {ps : List Phrase} (hq : q.Valued) (h : ∀ p ∈ ps, p.Plain) :
    (sequence (q :: ps)).Valued := by
  cases ps with
  | nil => exact hq
  | cons p ps => exact valued_seq hq (plain_sequence h)

/-- Phrases, an equals sign, what is assigned, and more phrases. -/
theorem plain_assignment (ps qs : List Phrase) {q : Phrase} (hps : ∀ p ∈ ps, p.Plain)
    (hq : q.Valued) (hqs : ∀ p ∈ qs, p.Plain) : (sequence (ps ++ punct "=" :: q :: qs)).Plain := by
  have htail : (sequence (punct "=" :: q :: qs)).Plain := plain_assign (valued_sequence hq hqs)
  induction ps with
  | nil => exact htail
  | cons p ps ih =>
    have hp := hps p (by simp)
    have hrest := ih fun x hx => hps x (by simp [hx])
    cases ps <;> exact plain_seq hp hrest

theorem plain_punct {text : String} (hne : text ≠ "") (ht : text.toList.all isSolid = true) :
    (punct text).Plain :=
  lays_mark (local_exactly ht) (eats_exactly (by simpa using hne)) _ rfl

end Phrase

namespace Proto

open Phrase

/-! ## The grammar -/

theorem plain_keyword (rule : Rule) {text : String} (hne : text ≠ "")
    (ht : text.toList.all isSolid = true) : (keyword rule text).Plain :=
  lays_token rule (local_word ht) (eats_word hne) _ rfl

theorem plain_ident : ident.Plain := lays_token _ local_ident eats_ident _ rfl

theorem plain_fullIdent : fullIdent.Plain := lays_token _ local_dotted eats_dotted _ rfl

theorem plain_typeName : typeName.Plain := lays_token _ local_typeName eats_typeName _ rfl

theorem plain_optionName : optionName.Plain := lays_token _ local_optionName eats_optionName _ rfl

theorem plain_intLit : intLit.Plain := lays_token _ local_intLit eats_intLit _ rfl

theorem valued_intLit : intLit.Valued := lays_token _ local_intLit eats_intLit _ rfl

theorem plain_strLit : strLit.Plain := .token (steady_strLit _ rfl) (builds_strLit _ rfl)

theorem valued_strLit : strLit.Valued := .token (steady_strLit _ rfl) (builds_strLit _ rfl)

theorem plain_openBrace : openBrace.Plain := .mark (steady_openBrace rfl) (builds_openBrace rfl)

theorem plain_closeBrace : closeBrace.Plain :=
  lays_mark (local_exactly (by decide)) (eats_exactly (by decide)) _ rfl

theorem plain_stream : stream.Plain := .token (steady_stream _ rfl) (builds_stream _ rfl)

section

attribute [local simp] plain_seq plain_opt plain_star plain_body plain_punct plain_keyword
  plain_ident plain_fullIdent plain_typeName plain_optionName plain_intLit plain_strLit
  plain_openBrace plain_closeBrace

theorem plain_emptyStatement : emptyStatement.Plain := by
  simp +decide [emptyStatement]

/-- A sign may stand in front of a name, and a value in braces may not. -/
theorem valued_constant : constant.Valued := by
  have hsign (text : String) (hne : text ≠ "") (ht : text.toList.all isSolid = true) :
      (punct text).Lays true fun _ => True :=
    lays_mark (local_exactly ht) (eats_exactly (by simpa using hne)) _ trivial
  have hname (v : Bool) : fullIdent.Lays v (· = false) :=
    lays_token _ local_dotted eats_dotted v rfl
  refine .node (.alt (.value rfl) (.alt ?_ (.alt valued_intLit (.alt ?_ ?_))))
  · exact valued_seq valued_strLit (plain_star plain_strLit)
  · exact lays_token _ local_number eats_number _ rfl
  · refine .seq (.opt (.alt (hsign "-" ?_ ?_) (hsign "+" ?_ ?_)) trivial) fun v _ => hname v <;>
      decide

attribute [local simp] plain_emptyStatement

theorem plain_optionStatement : optionStatement.Plain :=
  .node <| plain_assignment [keyword .kwOption "option", optionName] [punct ";"] (by simp +decide)
    valued_constant (by simp +decide)

theorem plain_fieldOptions : fieldOptions.Plain := by
  have hoption : fieldOption.Plain :=
    .node <| plain_assignment [optionName] [] (by simp) valued_constant (by simp)
  have hmore : (star (seq (punct ",") fieldOption)).Plain :=
    plain_star (plain_seq (plain_punct (by decide) (by decide)) hoption)
  exact .node <| plain_sequence <| by simp +decide [hoption, hmore]

theorem plain_ranges : ranges.Plain := by
  have hend : (choice [intLit, keyword .kwMax "max"]).Plain := plain_choice (by simp +decide)
  have hrange : range.Plain := .node (plain_seq plain_intLit (plain_opt (plain_seq
    (plain_keyword _ (by decide) (by decide)) hend)))
  exact .node (plain_separated (plain_punct (by decide) (by decide)) hrange)

theorem plain_reservedNames : reservedNames.Plain :=
  .node (plain_separated (plain_punct (by decide) (by decide)) (plain_choice (by simp)))

attribute [local simp] plain_optionStatement plain_fieldOptions plain_ranges plain_reservedNames

theorem plain_reserved : reserved.Plain := by
  have hwhat : (choice [ranges, reservedNames]).Plain := plain_choice (by simp)
  exact .node (plain_sequence (by simp +decide [hwhat]))

theorem plain_extensions : extensions.Plain := .node (plain_sequence (by simp +decide))

theorem plain_enumValue : enumValue.Plain :=
  .node (plain_assignment [ident] [opt fieldOptions, punct ";"] (by simp) valued_intLit
    (by simp +decide))

attribute [local simp] plain_reserved plain_extensions plain_enumValue

theorem plain_enumDef : enumDef.Plain := by
  have hvalue : (choice [optionStatement, reserved, enumValue, emptyStatement]).Plain :=
    plain_choice (by simp)
  exact .node (plain_sequence (by simp +decide [hvalue]))

theorem plain_label : label.Plain :=
  lays_token _ (local_oneOfWords (by decide)) (eats_oneOfWords (by decide)) _ rfl

attribute [local simp] plain_label

theorem plain_field : field.Plain :=
  .node (plain_assignment [opt label, typeName, ident] [opt fieldOptions, punct ";"] (by simp)
    valued_intLit (by simp +decide))

theorem plain_mapField : mapField.Plain :=
  .node (plain_assignment
    [keyword .kwMap "map", punct "<", typeName, punct ",", typeName, punct ">", ident]
    [opt fieldOptions, punct ";"] (by simp +decide) valued_intLit (by simp +decide))

theorem plain_groupField : groupField.Plain :=
  .node (plain_assignment [opt label, keyword .kwGroup "group", ident] [opt fieldOptions, body]
    (by simp +decide) valued_intLit (by simp))

attribute [local simp] plain_field plain_mapField plain_groupField

theorem plain_oneofDef : oneofDef.Plain := by
  have hmember : (choice [optionStatement, groupField, field, emptyStatement]).Plain :=
    plain_choice (by simp)
  exact .node (plain_sequence (by simp +decide [hmember]))

theorem plain_extendDef : extendDef.Plain := by
  have hmember : (choice [groupField, field, emptyStatement]).Plain := plain_choice (by simp)
  exact .node (plain_sequence (by simp +decide [hmember]))

theorem plain_messageDef : messageDef.Plain := .node (plain_sequence (by simp +decide))

attribute [local simp] plain_enumDef plain_oneofDef plain_extendDef plain_messageDef

theorem plain_messageBody : messageBody.Plain := by
  have helement : messageElement.Plain := plain_choice (by simp)
  exact .node (plain_sequence (by simp [helement]))

theorem plain_rpc : rpc.Plain := by
  have htype (rule : Rule) : (node rule (seq (opt stream) typeName)).Plain :=
    .node (plain_seq (plain_opt plain_stream) plain_typeName)
  have hoption : (choice [optionStatement, emptyStatement]).Plain := plain_choice (by simp)
  have hbody : rpcBody.Plain := plain_sequence (by simp [hoption])
  have hend : (choice [rpcBody, punct ";"]).Plain := plain_choice (by simp +decide [hbody])
  exact .node (plain_sequence (by simp +decide [rpcInput, rpcOutput, htype, hend]))

theorem plain_serviceDef : serviceDef.Plain := by
  have helement : (choice [optionStatement, rpc, emptyStatement]).Plain :=
    plain_choice (by simp [plain_rpc])
  exact .node (plain_sequence (by simp +decide [helement]))

theorem plain_topLevel : topLevel.Plain := by
  have hmodifier : importModifier.Plain :=
    lays_token _ (local_oneOfWords (by decide)) (eats_oneOfWords (by decide)) _ rfl
  have himport : importLine.Plain := .node (plain_sequence (by simp +decide [hmodifier]))
  have hpackage : packageLine.Plain := .node (plain_sequence (by simp +decide))
  exact plain_choice (by simp [himport, hpackage, plain_serviceDef])

/-- Blanks between the tokens of a file make no difference. -/
theorem plain_file : file.Plain := by
  have hline (rule rule' : Rule) {text : String} (hne : text ≠ "")
      (ht : text.toList.all isSolid = true) :
      (node rule (sequence [keyword rule' text, punct "=", strLit, punct ";"])).Plain :=
    .node (plain_assignment [keyword rule' text] [punct ";"] (by simp [hne, ht]) valued_strLit
      (by simp +decide))
  have hfirst : (choice [syntaxLine, editionLine]).Plain :=
    plain_choice (by simp +decide [syntaxLine, editionLine, hline])
  have hend : (token .endOfInput Scan.endOfInput).Plain :=
    .token (steady_endOfInput _ rfl) (builds_endOfInput _ rfl)
  exact .node (plain_sequence (by simp [plain_nothing, hfirst, plain_topLevel, hend]))

end

/-! ## Reading aligned texts -/

/-- Two outcomes of reading: both fail, or both give the same tokens and leave aligned texts. -/
inductive Alike (after : Bool → Prop) :
    Option (List Tree × List Char) → Option (List Tree × List Char) → Prop
  /-- Both fail. -/
  | none : Alike after none none
  /-- Both give the same tokens. -/
  | some {trees trees' : List Tree} {r r' : List Char} {v : Bool}
      (ht : Tree.skeletonAll trees' = Tree.skeletonAll trees) (hv : after v)
      (hr : Aligned v r r') : Alike after (some (trees, r)) (some (trees', r'))

namespace Alike

variable {after : Bool → Prop} {o o' : Option (List Tree × List Char)}

theorem mono {after' : Bool → Prop} (ha : ∀ v, after v → after' v) (h : Alike after o o') :
    Alike after' o o' := by
  cases h with
  | none => exact .none
  | some ht hv hr => exact .some ht (ha _ hv) hr

/-- The same tokens may come first. -/
theorem behind {front front' : List Tree}
    (hfront : Tree.skeletonAll front' = Tree.skeletonAll front) (h : Alike after o o') :
    Alike after (o.map fun taken => (front ++ taken.1, taken.2))
      (o'.map fun taken => (front' ++ taken.1, taken.2)) := by
  cases h with
  | none => exact .none
  | some ht hv hr => exact .some (by simp [hfront, ht]) hv hr

end Alike

/-- From every text that is aligned with the given one, the phrase is read to an outcome that is
alike. -/
def Follows (further : Bool) (p : Phrase) (s : List Char) (o : Option (List Tree × List Char)) :
    Prop :=
  ∀ ⦃v : Bool⦄ ⦃after : Bool → Prop⦄ ⦃s' : List Char⦄, p.Lays v after →
    (further = true → after = (· = v)) → Aligned v s s' →
    ∃ o', Reads further p s' o' ∧ Alike after o o'

/-- What a steady scanner takes is followed. -/
theorem follows_scan {p : Phrase} {scan : Scanner} {tree : List Char → Tree}
    (hsome : ∀ {s t r : List Char}, scan s = some (t, r) → Reads false p s (some ([tree t], r)))
    (hnone : ∀ {s : List Char}, scan s = none → Reads false p s none)
    (hsteady : ∀ {v : Bool} {after : Bool → Prop}, p.Lays v after → scan.Steady v after)
    {s : List Char} {o : Option (List Tree × List Char)} (h : Reads false p s o) :
    Follows false p s o := by
  intro v after s' hp _ hal
  rcases hsteady hp hal with ⟨hn, hn'⟩ | ⟨t, r, r', w, hs, hs', hw, hr⟩
  · rw [h.unique (hnone hn)]
    exact ⟨_, hnone hn', .none⟩
  · rw [h.unique (hsome hs)]
    exact ⟨_, hsome hs', .some rfl hw hr⟩

namespace Follows

variable {p q : Phrase} {s s₁ : List Char} {trees : List Tree}
  {o : Option (List Tree × List Char)}

/-- Where the phrase cannot be read, it cannot be read from the aligned text. -/
theorem fails {further : Bool} (h : Follows further p s none) {v : Bool} {after : Bool → Prop}
    {s' : List Char} (hp : p.Lays v after) (hf : further = true → after = (· = v))
    (hal : Aligned v s s') : Reads further p s' none := by
  obtain ⟨o', ho', halike⟩ := h hp hf hal
  cases halike with | none =>
  exact ho'

/-- Where the phrase is read, the same tokens are read from the aligned text. -/
theorem takes {further : Bool} {r : List Char} (h : Follows further p s (some (trees, r)))
    {v : Bool} {after : Bool → Prop} {s' : List Char} (hp : p.Lays v after)
    (hf : further = true → after = (· = v)) (hal : Aligned v s s') :
    ∃ trees' r' w, Reads further p s' (some (trees', r'))
      ∧ Tree.skeletonAll trees' = Tree.skeletonAll trees ∧ after w ∧ Aligned w r r' := by
  obtain ⟨o', ho', halike⟩ := h hp hf hal
  cases halike with | some ht hw hr =>
  exact ⟨_, _, _, ho', ht, hw, hr⟩

/-- The first member of a sequence is followed, and then the second. -/
theorem seq (h₁ : Follows false p s (some (trees, s₁))) (h₂ : Follows false q (blanks s₁).2 o) :
    Follows false (.seq p q) s
      (o.map fun taken => (trees ++ Tree.ofBlanks (blanks s₁).1 ++ taken.1, taken.2)) := by
  intro v after s' hp _ hal
  cases hp with | seq hp hq =>
  obtain ⟨trees', s₁', w, hread, ht, hw, hr⟩ := h₁.takes hp Bool.noConfusion hal
  obtain ⟨o', ho', halike⟩ := h₂ (hq w hw) Bool.noConfusion hr.skip
  have hfront : Tree.skeletonAll (trees' ++ Tree.ofBlanks (blanks s₁').1)
      = Tree.skeletonAll (trees ++ Tree.ofBlanks (blanks s₁).1) := by
    simp [ht]
  refine ⟨_, ?_, halike.behind hfront⟩
  cases o' with
  | none => exact .seq_second hread ho'
  | some taken => exact .seq_both hread ho'

/-- The first part of a repetition is followed, and then the further ones. -/
theorem star {taken : List Tree × List Char} (h₁ : Follows false p s (some (trees, s₁)))
    (h₂ : Follows true p s₁ (some taken)) :
    Follows false (.star p) s (some (trees ++ taken.1, taken.2)) := by
  intro v after s' hp _ hal
  cases hp with | star hp hv =>
  obtain ⟨trees', s₁', w, hread, ht, rfl, hr⟩ := h₁.takes hp Bool.noConfusion hal
  obtain ⟨more', r', w, hmore, ht', rfl, hr'⟩ := h₂.takes hp (fun _ => rfl) hr
  exact ⟨_, .star_some hread hmore, .some (by simp [ht, ht']) hv hr'⟩

/-- A further part of a repetition is followed, and then those behind it. -/
theorem more {taken : List Tree × List Char}
    (h₁ : Follows false p (blanks s).2 (some (trees, s₁))) (h₂ : Follows true p s₁ (some taken)) :
    Follows true p s (some (Tree.ofBlanks (blanks s).1 ++ trees ++ taken.1, taken.2)) := by
  intro v after s' hp hf hal
  obtain rfl := hf rfl
  obtain ⟨trees', s₁', w, hread, ht, rfl, hr⟩ := h₁.takes hp Bool.noConfusion hal.skip
  obtain ⟨more', r', w, hmore, ht', rfl, hr'⟩ := h₂.takes hp (fun _ => rfl) hr
  exact ⟨_, .more_some hread hmore, .some (by simp [ht, ht']) rfl hr'⟩

end Follows

/-- Aligned texts are read alike. -/
theorem Reads.aligned {further : Bool} {p : Phrase} {s : List Char}
    {o : Option (List Tree × List Char)} (h : Reads further p s o) : Follows further p s o := by
  induction h with
  | mark_some hs => exact follows_scan .mark_some .mark_none (·.steady_mark) (.mark_some hs)
  | mark_none hs => exact follows_scan .mark_some .mark_none (·.steady_mark) (.mark_none hs)
  | token_some hs => exact follows_scan .token_some .token_none (·.steady_token) (.token_some hs)
  | token_none hs => exact follows_scan .token_some .token_none (·.steady_token) (.token_none hs)
  | seq_second _ _ ih₁ ih₂ => exact ih₁.seq ih₂
  | seq_both _ _ ih₁ ih₂ => exact ih₁.seq ih₂
  | star_some _ _ ih₁ ih₂ => exact ih₁.star ih₂
  | more_some _ _ ih₁ ih₂ => exact ih₁.more ih₂
  | nothing s =>
    intro v after s' hp _ hal
    cases hp with | nothing hv =>
    exact ⟨_, .nothing s', .some rfl hv hal⟩
  | node_some _ ih =>
    intro v after s' hp hf hal
    cases hp with | node hp =>
    obtain ⟨_, _, _, hread, ht, hw, hr⟩ := ih.takes hp hf hal
    exact ⟨_, .node_some hread, .some (by simp [Tree.skeletonAll, Tree.skeleton, ht]) hw hr⟩
  | node_none _ ih =>
    intro v after s' hp hf hal
    cases hp with | node hp =>
    exact ⟨_, .node_none (ih.fails hp hf hal), .none⟩
  | seq_first _ ih =>
    intro v after s' hp _ hal
    cases hp with | seq hp _ =>
    exact ⟨_, .seq_first (ih.fails hp Bool.noConfusion hal), .none⟩
  | alt_first _ ih =>
    intro v after s' hp hf hal
    cases hp with | alt hp _ =>
    obtain ⟨_, _, _, hread, ht, hw, hr⟩ := ih.takes hp hf hal
    exact ⟨_, .alt_first hread, .some ht hw hr⟩
  | alt_second _ _ ih₁ ih₂ =>
    intro v after s' hp hf hal
    cases hp with | alt hp hq =>
    obtain ⟨o', ho', halike⟩ := ih₂ hq hf hal
    exact ⟨_, .alt_second (ih₁.fails hp hf hal) ho', halike⟩
  | opt_some _ ih =>
    intro v after s' hp hf hal
    cases hp with | opt hp _ =>
    obtain ⟨_, _, _, hread, ht, hw, hr⟩ := ih.takes hp hf hal
    exact ⟨_, .opt_some hread, .some ht hw hr⟩
  | opt_none _ ih =>
    intro v after s' hp hf hal
    cases hp with | opt hp hv =>
    exact ⟨_, .opt_none (ih.fails hp hf hal), .some rfl hv hal⟩
  | star_none _ ih =>
    intro v after s' hp _ hal
    cases hp with | star hp hv =>
    exact ⟨_, .star_none (ih.fails hp Bool.noConfusion hal), .some rfl hv hal⟩
  | body _ ih =>
    intro v after s' hp _ hal
    cases hp with | body hfalse =>
    obtain ⟨o', ho', halike⟩ := ih plain_messageBody Bool.noConfusion hal
    refine ⟨o', .body ho', halike.mono ?_⟩
    rintro _ rfl
    exact hfalse
  | more_none _ ih =>
    intro v after s' hp hf hal
    obtain rfl := hf rfl
    exact ⟨_, .more_none (ih.fails hp Bool.noConfusion hal.skip), .some rfl rfl hal⟩

/-! ## Trees with other blanks -/

/-- What was read, with other blanks, and what is aligned with the rest make a text that is
aligned with the input. -/
def Respaces (further : Bool) (p : Phrase) (s : List Char) (trees : List Tree) (r : List Char) :
    Prop :=
  ∀ ⦃v : Bool⦄ ⦃after : Bool → Prop⦄ ⦃trees' : List Tree⦄ ⦃r' : List Char⦄, p.Lays v after →
    (further = true → after = (· = v)) → (∀ t ∈ Tree.valuesAll trees, Braced t) →
    Tree.RespacedAll trees trees' → (∀ w, after w → Aligned w r r') →
    Aligned v s (Tree.textAll trees' ++ r')

namespace Respaces

variable {p q : Phrase} {s s₁ r : List Char} {trees more : List Tree}

theorem mark {scan : Scanner} {t : List Char} (hs : scan s = some (t, r)) :
    Respaces false (.mark scan) s [.mark t] r := by
  intro v after trees' r' hp _ _ hsp hal
  cases hp with | mark _ hbuilds =>
  obtain ⟨u, rfl, hu⟩ := hsp.singleton
  cases u with
  | mark t' =>
    obtain rfl : t' = t := hu
    simpa [Tree.textAll, Tree.text] using hbuilds hs r' hal
  | _ => exact hu.elim

/-- A token is as it was, or a value in braces with other blanks. -/
theorem token {rule : Rule} {scan : Scanner} {t : List Char} (hs : scan s = some (t, r)) :
    Respaces false (.token rule scan) s [.token rule t] r := by
  intro v after trees' r' hp _ hval hsp hal
  obtain ⟨u, rfl, hu⟩ := hsp.singleton
  cases u with
  | token rule' t' =>
    obtain ⟨rfl, rfl⟩ : rule' = rule ∧ t' = t := hu
    simp only [Tree.textAll, Tree.text, List.append_nil]
    cases hp with
    | token _ hbuilds => exact hbuilds hs r' hal
    | value hf =>
      have hbraced : Braced t' := hval t' (by simp [Tree.valuesAll, Tree.values])
      rw [← (eats_aggregate hs).1]
      exact .of_braced hbraced (hal false hf)
  | _ => exact hu.elim

theorem node {rule : Rule} (h : Respaces false p s trees r) :
    Respaces false (.node rule p) s [.node rule trees] r := by
  intro v after trees' r' hp _ hval hsp hal
  cases hp with | node hp =>
  obtain ⟨u, rfl, hu⟩ := hsp.singleton
  cases u with
  | node rule' parts =>
    obtain ⟨rfl, hparts⟩ : rule' = rule ∧ Tree.RespacedAll trees parts := hu
    simp only [Tree.valuesAll, Tree.values, List.append_nil] at hval
    simpa [Tree.textAll, Tree.text] using h hp Bool.noConfusion hval hparts hal
  | _ => exact hu.elim

/-- Two members of a sequence, with other blanks between them. -/
theorem seq (h₁ : Respaces false p s trees s₁) (h₂ : Respaces false q (blanks s₁).2 more r) :
    Respaces false (.seq p q) s (trees ++ Tree.ofBlanks (blanks s₁).1 ++ more) r := by
  intro v after trees' r' hp _ hval hsp hal
  cases hp with | seq hp hq =>
  obtain ⟨front, more', rfl, hsp, hmore⟩ := hsp.append_left
  obtain ⟨first, gap, rfl, hfirst, hgap⟩ := hsp.append_left
  simp only [Tree.valuesAll_append, List.mem_append] at hval
  simp only [Tree.textAll_append, List.append_assoc]
  refine h₁ hp Bool.noConfusion (fun t ht => hval t (by simp [ht])) hfirst fun w hw => ?_
  refine .of_gap ?_ hgap.ofBlanks
  exact h₂ (hq w hw) Bool.noConfusion (fun t ht => hval t (by simp [ht])) hmore hal

/-- The first part of a repetition and the further ones. -/
theorem star (h₁ : Respaces false p s trees s₁) (h₂ : Respaces true p s₁ more r) :
    Respaces false (.star p) s (trees ++ more) r := by
  intro v after trees' r' hp _ hval hsp hal
  cases hp with | star hp hv =>
  obtain ⟨first, more', rfl, hfirst, hmore⟩ := hsp.append_left
  simp only [Tree.valuesAll_append, List.mem_append] at hval
  simp only [Tree.textAll_append, List.append_assoc]
  refine h₁ hp Bool.noConfusion (fun t ht => hval t (by simp [ht])) hfirst ?_
  rintro w rfl
  refine h₂ hp (fun _ => rfl) (fun t ht => hval t (by simp [ht])) hmore ?_
  rintro w rfl
  exact hal w hv

/-- A further part of a repetition, with other blanks in front, and those behind it. -/
theorem further (h₁ : Respaces false p (blanks s).2 trees s₁) (h₂ : Respaces true p s₁ more r) :
    Respaces true p s (Tree.ofBlanks (blanks s).1 ++ trees ++ more) r := by
  intro v after trees' r' hp hf hval hsp hal
  obtain rfl := hf rfl
  obtain ⟨front, more', rfl, hsp, hmore⟩ := hsp.append_left
  obtain ⟨gap, first, rfl, hgap, hfirst⟩ := hsp.append_left
  simp only [Tree.valuesAll_append, List.mem_append] at hval
  simp only [Tree.textAll_append, List.append_assoc]
  refine .of_gap ?_ hgap.ofBlanks
  refine h₁ hp Bool.noConfusion (fun t ht => hval t (by simp [ht])) hfirst ?_
  rintro w rfl
  exact h₂ hp (fun _ => rfl) (fun t ht => hval t (by simp [ht])) hmore hal

end Respaces

/-- Other blanks can be put between the tokens of what was read. -/
theorem Reads.respaced {further : Bool} {p : Phrase} {s : List Char}
    {o : Option (List Tree × List Char)} (h : Reads further p s o) :
    ∀ {trees : List Tree} {r : List Char}, o = some (trees, r) →
      Respaces further p s trees r := by
  induction h with
  | mark_some hs =>
    rintro _ _ ⟨⟩
    exact .mark hs
  | token_some hs =>
    rintro _ _ ⟨⟩
    exact .token hs
  | node_some _ ih =>
    rintro _ _ ⟨⟩
    exact (ih rfl).node
  | seq_both _ _ ih₁ ih₂ =>
    rintro _ _ ⟨⟩
    exact (ih₁ rfl).seq (ih₂ rfl)
  | star_some _ _ ih₁ ih₂ =>
    rintro _ _ ⟨⟩
    exact (ih₁ rfl).star (ih₂ rfl)
  | more_some _ _ ih₁ ih₂ =>
    rintro _ _ ⟨⟩
    exact (ih₁ rfl).further (ih₂ rfl)
  | nothing | opt_none | star_none =>
    -- Nothing was read, and the texts are aligned already.
    rintro _ _ ⟨⟩ v after trees' r' hp - - hsp hal
    obtain rfl := hsp.nil_left
    cases hp
    exact hal v ‹_›
  | more_none =>
    rintro _ _ ⟨⟩ v after trees' r' - hf - hsp hal
    obtain rfl := hf rfl
    obtain rfl := hsp.nil_left
    exact hal v rfl
  | alt_first _ ih =>
    rintro _ _ ⟨⟩ v after trees' r' hp
    cases hp with | alt hp _ =>
    exact ih rfl hp
  | alt_second _ _ _ ih =>
    rintro _ _ rfl v after trees' r' hp
    cases hp with | alt _ hq =>
    exact ih rfl hq
  | opt_some _ ih =>
    rintro _ _ ⟨⟩ v after trees' r' hp
    cases hp with | opt hp _ =>
    exact ih rfl hp
  | body _ ih =>
    rintro _ _ rfl v after trees' r' hp - hval hsp hal
    cases hp with | body hfalse =>
    exact ih rfl plain_messageBody Bool.noConfusion hval hsp fun w hw => hal w (hw ▸ hfalse)
  | _ => rintro _ _ ⟨⟩

/-- A text whose blanks are replaced by other gaps is accepted, and it has the same tokens. -/
theorem parse_file_respaced {source : List Char} {trees trees' : List Tree}
    (h : parse file source = .ok trees) (hval : ∀ t ∈ Tree.valuesAll trees, Braced t)
    (hsp : Tree.RespacedAll trees trees') :
    ∃ trees'', parse file (Tree.textAll trees') = .ok trees''
      ∧ Tree.skeletonAll trees'' = Tree.skeletonAll trees := by
  have hreads := reads_of_parse h
  have hal : Aligned false source (Tree.textAll trees' ++ []) :=
    hreads.respaced rfl plain_file Bool.noConfusion hval hsp fun _ _ => .nil
  rw [List.append_nil] at hal
  obtain ⟨trees'', r', w, hread, ht, -⟩ := hreads.aligned.takes plain_file Bool.noConfusion hal
  refine ⟨trees'', ?_, ht⟩
  rw [parse, (read_eq_iff sound_file).2 hread]

end Proto

/-! ## Schemas -/

theorem FileDecl.parse_textAll_respaced (name : String) {source : String} {trees trees' : List Tree}
    (h : Proto.parse Proto.file source.toList = .ok trees)
    (hval : ∀ t ∈ Tree.valuesAll trees, Braced t) (hsp : Tree.RespacedAll trees trees') :
    FileDecl.parse name (String.ofList (Tree.textAll trees')) = FileDecl.parse name source := by
  obtain ⟨trees'', h', hskeleton⟩ := Proto.parse_file_respaced h hval hsp
  have hstatements : FileStatement.ofTrees? trees'' = FileStatement.ofTrees? trees := by
    rw [← FileStatement.ofTrees?_skeletonAll trees'', hskeleton,
      FileStatement.ofTrees?_skeletonAll]
  simp only [FileDecl.parse, String.toList_ofList, h, h', hstatements]

/-- Layout does not matter: a text that is accepted, whose values in braces are well-formed, is
still accepted when the blanks between its tokens are replaced by any others, and it stands for
the same schema or the same error. -/
theorem Schema.parse_respaced (name : String) {source : String} {trees trees' : List Tree}
    (h : Proto.parse Proto.file source.toList = .ok trees)
    (hval : ∀ t ∈ Tree.valuesAll trees, Braced t) (hsp : Tree.RespacedAll trees trees') :
    (∃ trees'', Proto.parse Proto.file (Tree.textAll trees') = .ok trees'') ∧
      Schema.parse name (String.ofList (Tree.textAll trees')) = Schema.parse name source := by
  obtain ⟨trees'', h', -⟩ := Proto.parse_file_respaced h hval hsp
  refine ⟨⟨trees'', h'⟩, ?_⟩
  rw [Schema.parse, FileDecl.parse_textAll_respaced name h hval hsp, Schema.parse]

open MettaSchema.Tree in
/-- An option with a value in braces, and the given gaps between its tokens. -/
def Tree.spacedOption (gap gap' gap'' : String) : List Tree :=
  [node .proto
    [node .optionStatement
      [token .kwOption "option".toList, blank gap.toList, token .optionName ['o'],
       blank gap'.toList, mark ['='], blank gap''.toList,
       node .constant [token .aggregate "\x7b'\x7d'\x7d".toList], mark [';']],
     token .endOfInput []]]

open MettaSchema.Tree in
/-- Comments that hold a keyword, a quote or a brace take the place of spaces. -/
theorem Schema.parse_respaced_option :
    Proto.parse Proto.file "option o = \x7b'\x7d'\x7d;".toList = .ok (spacedOption " " " " " ") ∧
      (∀ t ∈ valuesAll (spacedOption " " " " " "), Braced t) ∧
      RespacedAll (spacedOption " " " " " ") (spacedOption "/*rpc ' */" "\n" "//\x7b\n") ∧
      Schema.parse "o.proto" "option/*rpc ' */o\n=//\x7b\n\x7b'\x7d'\x7d;" =
        Schema.parse "o.proto" "option o = \x7b'\x7d'\x7d;" := by
  have hparse : Proto.parse Proto.file "option o = \x7b'\x7d'\x7d;".toList
      = .ok (spacedOption " " " " " ") := by rfl
  have hliteral : Scan.Literal "'\x7d'".toList :=
    ⟨singleQuote, _, .inr rfl, rfl, .char (by decide) (by decide) rfl .close⟩
  have hbraced : Braced "\x7b'\x7d'\x7d".toList := ⟨_, .literal hliteral .nil, rfl⟩
  have hvalues : ∀ t ∈ valuesAll (spacedOption " " " " " "), Braced t := by
    simpa [spacedOption, valuesAll, values] using hbraced
  have hblock : Gap "/*rpc ' */".toList := .one (@Spacing.block "rpc ' ".toList (by decide))
  have hline : Gap "//\x7b\n".toList :=
    .one (@Spacing.line [openBrace] _ (List.forall_mem_singleton.2 rfl) rfl)
  have hspaced : RespacedAll (spacedOption " " " " " ")
      (spacedOption "/*rpc ' */" "\n" "//\x7b\n") :=
    ⟨⟨rfl, ⟨⟨rfl, ⟨rfl, rfl⟩, hblock, ⟨rfl, rfl⟩, .one (.blank rfl), rfl, hline,
      ⟨rfl, ⟨rfl, rfl⟩, trivial⟩, rfl, trivial⟩, ⟨rfl, rfl⟩, trivial⟩⟩, trivial⟩
  exact ⟨hparse, hvalues, hspaced, (Schema.parse_respaced "o.proto" hparse hvalues hspaced).2⟩

end MettaSchema
