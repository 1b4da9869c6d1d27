import MettaSchema.Proofs.Grammar.Exclusive

/-!
# The grammar is predictive

How to go on can be told from the next character or keyword everywhere in the grammar, and where
statements end can be told at their ends.

* `Proto.predicts_constant`, `Proto.predicts_field`, … — phrase by phrase.
* `Proto.predicts_messageBody` — message bodies, to which the grammar refers from inside itself.
* `Proto.predicts_topLevel` — the statements of a file.
-/

namespace MettaSchema

namespace Proto

open Scan Phrase

variable {tame : Prop} {l m : Char → Bool} {w : Follow}

/-! ## Names, literals and words -/

theorem predicts_token (rule : Rule) {scan : Scanner} (hl : scan.LocalTo isInner) (he : scan.Eats) :
    (token rule scan).Predicts tame anyChar (.opens l) :=
  (Predicts.token (predicts_of_local hl he)).any

theorem predicts_keyword (rule : Rule) {text : String} (ht : text.toList.all isInner = true)
    (hne : text ≠ "") : (keyword rule text).Predicts tame anyChar (.opens l) :=
  predicts_token rule (local_word ht) (eats_word hne)

theorem predicts_ident : ident.Predicts tame anyChar (.opens l) :=
  predicts_token _ local_ident eats_ident

theorem predicts_fullIdent : fullIdent.Predicts tame anyChar (.opens l) :=
  predicts_token _ local_dotted eats_dotted

theorem predicts_typeName : typeName.Predicts tame anyChar (.opens l) :=
  predicts_token _ local_typeName eats_typeName

theorem predicts_optionName : optionName.Predicts tame anyChar (.opens l) :=
  predicts_token _ local_optionName eats_optionName

theorem predicts_intLit : intLit.Predicts tame anyChar (.opens l) :=
  predicts_token _ local_intLit eats_intLit

theorem predicts_string : strLit.Predicts tame anyChar (.opens l) := .token predicts_strLit

theorem predicts_punct {text : String} {c : Char} (ht : text.toList = [c])
    (hc : beginsBlank c = false) : (punct text).Predicts tame (among [c]) (.opens l) := by
  rw [punct, ht]
  exact .mark (predicts_exactly hc)

theorem predicts_emptyStatement : emptyStatement.Predicts tame (among [';']) w :=
  .mark (predicts_delimiter (c := ';') rfl)

theorem predicts_openBrace : openBrace.Predicts tame (among [Scan.openBrace]) w :=
  .mark (predicts_delimiter rfl)

theorem predicts_closeBrace : closeBrace.Predicts tame (among [Scan.closeBrace]) w :=
  .mark (predicts_delimiter rfl)

/-- Statements in braces. -/
theorem predicts_braces {p : Phrase} (hp : p.Predicts tame anyChar .any)
    (hf : p.FailsAt (among [Scan.closeBrace])) :
    (seq openBrace (seq (star p) closeBrace)).Predicts tame (among [Scan.openBrace]) w :=
  .then (fun _ => predicts_openBrace) (.star_then hp hf predicts_closeBrace)

/-! ## Options -/

theorem agrees_exactly {c : Char} (hc : isInner c = true) : (exactly [c]).Agrees tame :=
  agrees_of_local (local_exactly (by simp [hc]))

/-- The constants that do not begin with a brace. -/
def plainConstants : List Phrase :=
  [seq strLit (star strLit), intLit, number, seq (opt (choice [punct "-", punct "+"])) fullIdent]

/-- What begins with a brace is no other constant. -/
theorem excludes_aggregate : ∀ q ∈ plainConstants, q.Excludes aggregate := by
  have hbrace : ∀ s, (∀ c ∈ [Scan.openBrace], ∀ x, s ≠ c :: x) → Reads false aggregate s none := by
    intro s hs
    cases s with
    | nil => exact .token_none rfl
    | cons c x =>
      have hc : c ≠ Scan.openBrace := by
        rintro rfl
        exact hs _ (by simp) x rfl
      exact .token_none (aggregate_eq_none hc x)
  have hblocked : ∀ x, plainConstants.all (·.blocked (Scan.openBrace :: x)) = true := fun _ => rfl
  exact fun q hq => excludes_of_chars [Scan.openBrace]
    (fun x => by simpa using List.all_eq_true.1 (hblocked x) q hq) hbrace

/-- What begins with a quote is no other constant. -/
theorem excludes_string {q : Phrase}
    (hq : ∀ x, [doubleQuote, singleQuote].all (fun c => q.blocked (c :: x)) = true) :
    q.Excludes (seq strLit (star strLit)) := by
  refine excludes_of_chars _ hq fun s hs => .seq_first ?_
  cases s with
  | nil => exact .token_none rfl
  | cons c x =>
    have hdouble : c ≠ doubleQuote := by
      rintro rfl
      exact hs _ (by simp) x rfl
    have hsingle : c ≠ singleQuote := by
      rintro rfl
      exact hs _ (by simp) x rfl
    exact .token_none (strLit_cons_of_ne hdouble hsingle x)

/-- A value can be followed by anything but a string. -/
theorem predicts_constant (hdouble : l doubleQuote = false) (hsingle : l singleQuote = false) :
    constant.Predicts tame anyChar (.opens l) := by
  have hfails : strLit.FailsAt l := by
    intro s hs
    cases s with
    | nil => exact .token_none rfl
    | cons c x =>
      have hc : c ≠ doubleQuote ∧ c ≠ singleQuote := by
        constructor <;>
        · rintro rfl
          simp_all [Opens]
      exact .token_none (strLit_cons_of_ne hc.1 hc.2 x)
  have hstrings : (seq strLit (star strLit)).Predicts tame anyChar (.opens l) :=
    .seq predicts_string (fun _ => id) (.star predicts_string (.inr rfl) (fun _ => id)
      (among_anyChar l) (fun _ => id) hfails)
  have hsign : (choice [punct "-", punct "+"]).Predicts tame anyChar (.opens anyChar) :=
    .alt (predicts_punct (c := '-') rfl rfl).any (fun _ => id)
      (predicts_punct (c := '+') rfl rfl).any (fun _ => id)
      (mark_excludes (c := '+') fun _ => rfl).yields
  have hname : (seq (opt (choice [punct "-", punct "+"])) fullIdent).Predicts tame anyChar
      (.opens l) :=
    .opt_then hsign ((declines_mark (agrees_exactly rfl)).alt (declines_mark (agrees_exactly rfl)))
      predicts_fullIdent (fun _ => id) (fun _ => id)
  refine .node rfl (.choice_cons (by simp) (.value rfl) ?_
    (excludes_choice excludes_aggregate).yields)
  refine .choice_cons (by simp) hstrings ?_ (excludes_choice ?_).yields
  · refine .choice_cons (by simp) predicts_intLit ?_
      (yields_of_agrees (agrees_of_local local_intLit))
    exact .choice_cons (by simp) (predicts_token _ local_number eats_number) hname
      (yields_of_agrees (agrees_of_local local_number))
  · intro q hq
    simp only [List.mem_cons, List.not_mem_nil, or_false] at hq
    rcases hq with rfl | rfl | rfl <;> exact excludes_string fun _ => rfl

theorem predicts_equals {q : Phrase} (hq : q.Predicts tame m w) :
    (seq (punct "=") q).Predicts tame (among ['=']) w :=
  .then (fun _ => predicts_punct rfl rfl) hq

theorem predicts_optionStatement : optionStatement.Predicts tame anyChar w :=
  .node rfl (.then (fun _ => predicts_keyword _ rfl (by decide)) (.then (fun _ => predicts_optionName)
    (predicts_equals (.seq (predicts_constant rfl rfl) (fun _ => id) predicts_emptyStatement))))

theorem failsAt_punct {text : String} {c : Char} (ht : text.toList = [c]) (hl : l c = false) :
    (punct text).FailsAt l := by
  intro s hs
  rw [punct, ht]
  cases s with
  | nil => exact .mark_none rfl
  | cons d x =>
    have hd : d ≠ c := by
      rintro rfl
      rw [hs.1] at hl
      cases hl
    exact .mark_none (exactly_eq_none hd x)

/-- Options in brackets. -/
theorem predicts_fieldOptions : fieldOptions.Predicts tame (among ['[']) (.opens l) := by
  have hoption : fieldOption.Predicts tame anyChar (.opens (among [',', ']'])) :=
    .node rfl (.then (fun _ => predicts_optionName) (predicts_equals (predicts_constant rfl rfl)))
  have hmore : (star (seq (punct ",") fieldOption)).Predicts tame (among [',', ']'])
      (.opens (among [']'])) :=
    .further (fun _ => predicts_punct (c := ',') rfl rfl) hoption rfl (by simp [among])
      (failsAt_punct (c := ',') rfl rfl)
  exact .node rfl (.then (fun _ => predicts_punct rfl rfl) (.seq hoption (fun _ => id)
    (.seq hmore (fun _ => id) (predicts_punct (c := ']') rfl rfl))))

theorem declines_fieldOptions (hl : l '[' = false) : fieldOptions.Declines tame l :=
  FailsAt.declines fun _ hs => .node_none (.seq_first (failsAt_punct (c := '[') rfl hl hs))

/-- The end of a statement that may have options. -/
theorem predicts_optionsTail :
    (seq (opt fieldOptions) (punct ";")).Predicts tame (among ['[', ';']) w :=
  .opt_then predicts_fieldOptions (declines_fieldOptions rfl) predicts_emptyStatement
    (by simp [among]) (by simp [among])

/-! ## Ranges and names -/

/-- Ranges, in front of a semicolon or options. -/
theorem predicts_ranges (hl : ∀ c, l c = true → c = ';' ∨ c = '[') :
    ranges.Predicts tame anyChar (.opens l) := by
  have hend : (choice [intLit, keyword .kwMax "max"]).Predicts tame anyChar
      (.opens (among [',', ';', '['])) :=
    .alt predicts_intLit (fun _ => id) (predicts_keyword _ rfl (by decide)) (fun _ => id)
      (yields_of_agrees (agrees_of_local local_intLit))
  have hdeclines : (seq (keyword .kwTo "to") (choice [intLit, keyword .kwMax "max"])).Declines tame
      (among [',', ';', '[']) :=
    (failsAt_of_blocked rfl fun _ => rfl).declines
  have hrange : range.Predicts tame anyChar (.opens (among [',', ';', '['])) :=
    .node rfl (.then (fun _ => predicts_intLit) (.opt (.then (fun _ =>
      predicts_keyword _ rfl (by decide)) hend) (fun _ => id) (among_anyChar _) hdeclines))
  have hcomma : l ',' = false := by
    cases hc : l ',' with
    | false => rfl
    | true => simpa using hl ',' hc
  exact .node rfl (.seq hrange (fun _ => id)
    (.further (fun _ => predicts_punct (c := ',') rfl rfl) hrange rfl
      (fun c hc => by rcases hl c hc with rfl | rfl <;> rfl)
      (failsAt_punct (c := ',') rfl hcomma)))

/-- Reserved names, in front of a semicolon. -/
theorem predicts_reservedNames : reservedNames.Predicts tame anyChar (.opens (among [';'])) := by
  have hname : (choice [strLit, ident]).Predicts tame anyChar (.opens (among [',', ';'])) :=
    .alt predicts_string (fun _ => id) predicts_ident (fun _ => id)
      (ident_excludes fun c hc x => by simp [blocked, strLit, strLit_eq_none hc]).yields
  exact .node rfl (.seq hname (fun _ => id)
    (.further (fun _ => predicts_punct (c := ',') rfl rfl) hname rfl (by simp [among])
      (failsAt_punct (c := ',') rfl rfl)))

theorem reservedNames_excludes_ranges : reservedNames.Excludes ranges := by
  have hstring : strLit.Excludes ranges := by
    intro s taken hs hreads
    cases hreads with | token_some hscan =>
    obtain ⟨⟨quote, u, hquote, rfl, -⟩, rfl⟩ := strLit_eq_some_iff.1 hscan
    refine reads_none_of_blocked hs ?_
    rcases hquote with rfl | rfl <;> rfl
  have hname : ident.Excludes ranges := ident_excludes fun c hc x => by
    simp [blocked, ranges, separated, range, intLit, intLit_eq_none hc]
  exact (Excludes.seq_left (excludes_choice (by simp [hstring, hname]))).node_left

theorem predicts_reserved : reserved.Predicts tame anyChar w := by
  have hwhat : (choice [ranges, reservedNames]).Predicts tame anyChar (.opens (among [';'])) :=
    .alt (predicts_ranges (by simp [among])) (fun _ => id) predicts_reservedNames (fun _ => id)
      reservedNames_excludes_ranges.yields
  exact .node rfl (.then (fun _ => predicts_keyword _ rfl (by decide))
    (.seq hwhat (fun _ => id) predicts_emptyStatement))

theorem predicts_extensions : extensions.Predicts tame anyChar w :=
  .node rfl (.then (fun _ => predicts_keyword _ rfl (by decide))
    (.seq (predicts_ranges (by simp [among])) (fun _ => id) predicts_optionsTail))

/-! ## Statements -/

theorem emptyStatement_excludes {ps : List Phrase}
    (h : ∀ x, ps.all (·.blocked (';' :: x)) = true) : ∀ p ∈ ps, emptyStatement.Excludes p :=
  fun p hp => mark_excludes (c := ';') fun x => List.all_eq_true.1 (h x) p hp

/-- Statements with keywords of their own, and others that are not there when one of these is. -/
theorem pairwise_statements (keywords : List (Phrase × String)) (others : List Phrase)
    (h : ∀ x ∈ keywords, x.1.Needs x.2 ∧ x.2.toList.all isNameChar = true)
    (hnodup : (keywords.map (·.2)).Nodup) (hothers : others.Pairwise fun p q => q.Excludes p)
    (hexcludes : ∀ q ∈ others, ∀ p ∈ keywords.map (·.1), q.Excludes p) :
    (keywords.map (·.1) ++ others).Pairwise fun p q => q.Excludes p :=
  List.pairwise_append.2
    ⟨pairwise_excludes h hnodup, hothers, fun p hp q hq => hexcludes q hq p hp⟩

/-! ## Enums -/

theorem predicts_enumValue : enumValue.Predicts tame anyChar w :=
  .node rfl (.then (fun _ => predicts_ident) (predicts_equals
    (.then (fun _ => predicts_intLit) predicts_optionsTail)))

theorem predicts_enumElement :
    (choice [optionStatement, reserved, enumValue, emptyStatement]).Predicts tame anyChar w := by
  have hvalue : ∀ p ∈ [optionStatement, reserved], enumValue.Excludes p := by
    simp only [List.forall_mem_cons]
    exact ⟨enumValue_excludes (by decide) fun _ => rfl, enumValue_excludes (by decide) fun _ => rfl,
      by simp⟩
  have hempty : ∀ p ∈ [optionStatement, reserved, enumValue], emptyStatement.Excludes p :=
    emptyStatement_excludes fun _ => rfl
  refine .choice (by simp) ?_ (pairwise_statements
    [(optionStatement, "option"), (reserved, "reserved")] _ ?_ (by decide) ?_ ?_)
  · simp [predicts_optionStatement, predicts_reserved, predicts_enumValue,
      predicts_emptyStatement.any]
  · simp only [List.forall_mem_cons]
    exact ⟨⟨needs_keyword.node, rfl⟩, ⟨needs_keyword.node, rfl⟩, by simp⟩
  · simpa using hempty enumValue (by simp)
  · simp only [List.forall_mem_cons]
    exact ⟨hvalue, fun p hp => hempty p (List.mem_append_left _ hp), by simp⟩

theorem predicts_enumDef : enumDef.Predicts tame anyChar w :=
  .node rfl (.then (fun _ => predicts_keyword _ rfl (by decide)) (.then (fun _ => predicts_ident)
    (predicts_braces predicts_enumElement (failsAt_of_blocked rfl fun _ => rfl))))

/-! ## Messages -/

theorem agrees_label : (oneOfWords ["optional", "required", "repeated"]).Agrees tame :=
  agrees_of_local (local_oneOfWords (by decide))

/-- A label or none, and what follows it. -/
theorem predicts_labelled {p : Phrase} (hp : p.Predicts tame anyChar w) :
    (seq (opt label) p).Predicts tame anyChar w :=
  .opt_then (predicts_token _ (local_oneOfWords (by decide)) (eats_oneOfWords (by decide)))
    (declines_of_agrees agrees_label) hp (fun _ => id) (fun _ => id)

theorem predicts_field : field.Predicts tame anyChar w :=
  .node rfl (predicts_labelled (.then (fun _ => predicts_typeName) (.then (fun _ => predicts_ident)
    (predicts_equals (.then (fun _ => predicts_intLit) predicts_optionsTail)))))

theorem predicts_mapField : mapField.Predicts tame anyChar w :=
  .node rfl (.then (fun _ => predicts_keyword _ rfl (by decide))
    (.then (fun _ => predicts_punct (c := '<') rfl rfl) (.then (fun _ => predicts_typeName)
    (.then (fun _ => predicts_punct (c := ',') rfl rfl) (.then (fun _ => predicts_typeName)
    (.then (fun _ => predicts_punct (c := '>') rfl rfl) (.then (fun _ => predicts_ident)
    (predicts_equals (.then (fun _ => predicts_intLit) predicts_optionsTail)))))))))

theorem predicts_groupField : groupField.Predicts tame anyChar w := by
  have hbody : (seq (opt fieldOptions) body).Predicts tame anyChar w :=
    .opt_then predicts_fieldOptions (declines_fieldOptions rfl) (.body (k := among [Scan.openBrace]) rfl)
      (among_anyChar _) (among_anyChar _)
  exact .node rfl (predicts_labelled (.then (fun _ => predicts_keyword _ rfl (by decide))
    (.then (fun _ => predicts_ident) (predicts_equals (.then (fun _ => predicts_intLit) hbody)))))

/-- The statements of a message body with keywords of their own, other than options. -/
def messageKeywords : List (Phrase × String) :=
  [(reserved, "reserved"), (extensions, "extensions"), (messageDef, "message"), (enumDef, "enum"),
    (extendDef, "extend"), (oneofDef, "oneof"), (mapField, "map")]

theorem needs_messageKeywords :
    ∀ x ∈ messageKeywords, x.1.Needs x.2 ∧ x.2.toList.all isNameChar = true := by
  simp only [messageKeywords, List.forall_mem_cons]
  exact ⟨⟨needs_keyword.node, rfl⟩, ⟨needs_keyword.node, rfl⟩, ⟨needs_keyword.node, rfl⟩,
    ⟨needs_keyword.node, rfl⟩, ⟨needs_keyword.node, rfl⟩, ⟨needs_keyword.node, rfl⟩,
    ⟨needs_keyword.node, rfl⟩, by simp⟩

/-- What needs a keyword of a message body that is no option is no option. -/
theorem excludes_optionStatement {p : Phrase} {b : String} (hp : p.Needs b)
    (hb : b.toList.all isNameChar = true) (hne : b ≠ "option") : p.Excludes optionStatement :=
  hp.excludes needs_keyword.node hb rfl hne

theorem groupField_excludes_option : groupField.Excludes optionStatement :=
  groupField_excludes (by decide) rfl needs_keyword.node

theorem emptyStatement_excludes_option : emptyStatement.Excludes optionStatement :=
  mark_excludes (c := ';') fun _ => rfl

/-- Groups, fields and empty statements. -/
theorem predicts_members :
    (choice [groupField, field, emptyStatement]).Predicts tame anyChar w := by
  have hempty : ∀ p ∈ [groupField, field], emptyStatement.Excludes p :=
    emptyStatement_excludes fun _ => rfl
  refine .choice (by simp) ?_ ?_
  · simp [predicts_groupField, predicts_field, predicts_emptyStatement.any]
  · simpa [field_excludes_groupField] using hempty

theorem predicts_oneofElement :
    (choice [optionStatement, groupField, field, emptyStatement]).Predicts tame anyChar w := by
  refine .choice_cons (by simp) predicts_optionStatement predicts_members (option_yields ?_)
  simp only [List.forall_mem_cons, true_or, true_and]
  exact ⟨.inr ⟨groupField_excludes_option, noField_node (by decide)⟩,
    .inr ⟨emptyStatement_excludes_option, noField_mark⟩, by simp⟩

theorem predicts_oneofDef : oneofDef.Predicts tame anyChar w :=
  .node rfl (.then (fun _ => predicts_keyword _ rfl (by decide)) (.then (fun _ => predicts_ident)
    (predicts_braces predicts_oneofElement (failsAt_of_blocked rfl fun _ => rfl))))

theorem predicts_extendDef : extendDef.Predicts tame anyChar w :=
  .node rfl (.then (fun _ => predicts_keyword _ rfl (by decide)) (.then (fun _ => predicts_typeName)
    (predicts_braces predicts_members (failsAt_of_blocked rfl fun _ => rfl))))

theorem predicts_messageDef : messageDef.Predicts tame anyChar w :=
  .node rfl (.then (fun _ => predicts_keyword _ rfl (by decide))
    (.then (fun _ => predicts_ident) (.body (k := anyChar) rfl)))

/-- At most one of the statements of a message body other than options is there. -/
theorem pairwise_messageElement : (messageKeywords.map (·.1) ++ [groupField, field,
    emptyStatement]).Pairwise fun p q => q.Excludes p := by
  have hempty : ∀ p ∈ messageKeywords.map (·.1) ++ [groupField, field],
      emptyStatement.Excludes p := emptyStatement_excludes fun _ => rfl
  have hgroup : ∀ p ∈ messageKeywords.map (·.1), groupField.Excludes p := by
    have hwords : ∀ x ∈ messageKeywords,
        x.2 ∉ ["group", "optional", "required", "repeated"] := by decide
    rw [List.forall_mem_map]
    intro x hx
    obtain ⟨hneeds, hname⟩ := needs_messageKeywords x hx
    exact groupField_excludes (hwords x hx) hname hneeds
  have hfield : ∀ p ∈ messageKeywords.map (·.1), field.Excludes p := by
    simp [messageKeywords, field_excludes_reserved, field_excludes_extensions,
      field_excludes_messageDef, field_excludes_enumDef, field_excludes_extendDef,
      field_excludes_oneofDef, field_excludes_mapField]
  refine pairwise_statements messageKeywords _ needs_messageKeywords (by decide) ?_ ?_
  · have hfirst := hempty groupField (by simp)
    have hsecond := hempty field (by simp)
    simp [hfirst, hsecond, field_excludes_groupField]
  · simp only [List.forall_mem_cons]
    exact ⟨hgroup, hfield, fun p hp => hempty p (List.mem_append_left _ hp), by simp⟩

theorem predicts_messageElement : messageElement.Predicts tame anyChar w := by
  have hrest : (choice (messageKeywords.map (·.1) ++ [groupField, field, emptyStatement])).Predicts
      tame anyChar w := by
    refine .choice (by simp) ?_ pairwise_messageElement
    simp [messageKeywords, predicts_reserved, predicts_extensions, predicts_messageDef,
      predicts_enumDef, predicts_extendDef, predicts_oneofDef, predicts_mapField,
      predicts_groupField, predicts_field, predicts_emptyStatement.any]
  have hwords : ∀ x ∈ messageKeywords, x.2 ≠ "option" := by decide
  have hfields : ∀ x ∈ messageKeywords, NoField x.1 := by
    simp only [messageKeywords, List.forall_mem_cons]
    exact ⟨noField_node (by decide), noField_node (by decide), noField_node (by decide),
      noField_node (by decide), noField_node (by decide), noField_node (by decide),
      noField_node (by decide), by simp⟩
  have hothers : ∀ q ∈ messageKeywords.map (·.1) ++ [groupField, field, emptyStatement],
      q = field ∨ q.Excludes optionStatement ∧ NoField q := by
    rw [List.forall_mem_append, List.forall_mem_map]
    constructor
    · intro x hx
      obtain ⟨hneeds, hname⟩ := needs_messageKeywords x hx
      exact .inr ⟨excludes_optionStatement hneeds hname (hwords x hx), hfields x hx⟩
    · simp only [List.forall_mem_cons, true_or, true_and]
      exact ⟨.inr ⟨groupField_excludes_option, noField_node (by decide)⟩,
        .inr ⟨emptyStatement_excludes_option, noField_mark⟩, by simp⟩
  exact .choice_cons (by simp) predicts_optionStatement hrest (option_yields hothers)

/-- A message body is read the same wherever it stands. -/
theorem predicts_messageBody : messageBody.Predicts tame (among [Scan.openBrace]) w :=
  .node rfl (predicts_braces predicts_messageElement (failsAt_of_blocked rfl fun _ => rfl))

/-! ## Services -/

theorem predicts_rpc : rpc.Predicts tame anyChar w := by
  have htype (rule : Rule) (hrule : phrase rule = node rule (seq (opt stream) typeName)) :
      (node rule (seq (opt stream) typeName)).Predicts tame anyChar (.opens (among [')'])) :=
    .node hrule (.opt_then (.token predicts_stream) (declines_of_agrees agrees_stream)
      predicts_typeName (fun _ => id) (fun _ => id))
  have hoption : (choice [optionStatement, emptyStatement]).Predicts tame anyChar .any :=
    .alt predicts_optionStatement (fun _ => id) predicts_emptyStatement.any (fun _ => id)
      emptyStatement_excludes_option.yields
  have hbody : rpcBody.Predicts tame (among [Scan.openBrace]) w :=
    predicts_braces hoption (failsAt_of_blocked rfl fun _ => rfl)
  have hend : (choice [rpcBody, punct ";"]).Predicts tame anyChar w :=
    .alt hbody (among_anyChar _) predicts_emptyStatement (among_anyChar _)
      (mark_excludes (c := ';') fun _ => rfl).yields
  exact .node rfl (.then (fun _ => predicts_keyword _ rfl (by decide))
    (.then (fun _ => predicts_ident) (.then (fun _ => predicts_punct (c := '(') rfl rfl)
    (.seq (htype .rpcInput rfl) (fun _ => id) (.then (fun _ => predicts_punct (c := ')') rfl rfl)
    (.then (fun _ => predicts_keyword _ rfl (by decide))
    (.then (fun _ => predicts_punct (c := '(') rfl rfl)
    (.seq (htype .rpcOutput rfl) (fun _ => id)
    (.then (fun _ => predicts_punct (c := ')') rfl rfl) hend)))))))))

theorem predicts_serviceElement :
    (choice [optionStatement, rpc, emptyStatement]).Predicts tame anyChar w := by
  have hempty : ∀ p ∈ [optionStatement, rpc], emptyStatement.Excludes p :=
    emptyStatement_excludes fun _ => rfl
  refine .choice (by simp) ?_ (pairwise_statements
    [(optionStatement, "option"), (rpc, "rpc")] [emptyStatement] ?_ (by decide) ?_ ?_)
  · simp [predicts_optionStatement, predicts_rpc, predicts_emptyStatement.any]
  · simp only [List.forall_mem_cons]
    exact ⟨⟨needs_keyword.node, rfl⟩, ⟨needs_keyword.node, rfl⟩, by simp⟩
  · simp
  · simpa using hempty

theorem predicts_serviceDef : serviceDef.Predicts tame anyChar w :=
  .node rfl (.then (fun _ => predicts_keyword _ rfl (by decide)) (.then (fun _ => predicts_ident)
    (predicts_braces predicts_serviceElement (failsAt_of_blocked rfl fun _ => rfl))))

/-! ## Files -/

/-- The statements of a file with keywords of their own. -/
def fileKeywords : List (Phrase × String) :=
  [(importLine, "import"), (packageLine, "package"), (optionStatement, "option"),
    (messageDef, "message"), (enumDef, "enum"), (serviceDef, "service"), (extendDef, "extend")]

theorem needs_fileKeywords :
    ∀ x ∈ fileKeywords, x.1.Needs x.2 ∧ x.2.toList.all isNameChar = true := by
  simp only [fileKeywords, List.forall_mem_cons]
  exact ⟨⟨needs_keyword.node, rfl⟩, ⟨needs_keyword.node, rfl⟩, ⟨needs_keyword.node, rfl⟩,
    ⟨needs_keyword.node, rfl⟩, ⟨needs_keyword.node, rfl⟩, ⟨needs_keyword.node, rfl⟩,
    ⟨needs_keyword.node, rfl⟩, by simp⟩

theorem predicts_importLine : importLine.Predicts tame anyChar w := by
  have hmodifier : importModifier.Predicts tame anyChar (.opens anyChar) :=
    predicts_token _ (local_oneOfWords (by decide)) (eats_oneOfWords (by decide))
  have hdeclines : importModifier.Declines tame anyChar :=
    declines_of_agrees (agrees_of_local (local_oneOfWords (by decide)))
  exact .node rfl (.then (fun _ => predicts_keyword _ rfl (by decide))
    (.opt_then hmodifier hdeclines (.then (fun _ => predicts_string) predicts_emptyStatement)
      (fun _ => id) (fun _ => id)))

theorem predicts_packageLine : packageLine.Predicts tame anyChar w :=
  .node rfl (.then (fun _ => predicts_keyword _ rfl (by decide))
    (.then (fun _ => predicts_fullIdent) predicts_emptyStatement))

theorem predicts_topLevel : topLevel.Predicts tame anyChar w := by
  have hempty : ∀ p ∈ fileKeywords.map (·.1), emptyStatement.Excludes p :=
    emptyStatement_excludes fun _ => rfl
  refine .choice (by simp) ?_ (pairwise_statements fileKeywords [emptyStatement]
    needs_fileKeywords (by decide) (by simp) (by simpa using hempty))
  simp [predicts_importLine, predicts_packageLine, predicts_optionStatement, predicts_messageDef,
    predicts_enumDef, predicts_serviceDef, predicts_extendDef, predicts_emptyStatement.any]

/-- The line that names the dialect. -/
def dialectLine : Phrase := choice [syntaxLine, editionLine]

theorem predicts_dialectLine : dialectLine.Predicts tame anyChar w := by
  have hline {rule rule' : Rule} {text : String} (ht : text.toList.all isInner = true)
      (hne : text ≠ "")
      (hrule : phrase rule = node rule (sequence [keyword rule' text, punct "=", strLit, punct ";"])) :
      (node rule (sequence [keyword rule' text, punct "=", strLit, punct ";"])).Predicts tame
        anyChar w :=
    .node hrule (.then (fun _ => predicts_keyword _ ht hne) (predicts_equals
      (.then (fun _ => predicts_string) predicts_emptyStatement)))
  have hedition : editionLine.Needs "edition" := needs_keyword.node
  refine .alt (hline rfl (by decide) rfl) (fun _ => id) (hline rfl (by decide) rfl) (fun _ => id) ?_
  exact (hedition.excludes (b := "syntax") needs_keyword.node rfl rfl (by decide)).yields

/-- A statement of a file does not name the dialect. -/
theorem topLevel_excludes_dialectLine : topLevel.Excludes dialectLine := by
  have hwords : ∀ x ∈ fileKeywords, x.2 ≠ "syntax" ∧ x.2 ≠ "edition" := by decide
  have hlist : ∀ q ∈ fileKeywords.map (·.1) ++ [emptyStatement], q.Excludes dialectLine := by
    rw [List.forall_mem_append, List.forall_mem_map]
    constructor
    · intro x hx
      obtain ⟨hneeds, hname⟩ := needs_fileKeywords x hx
      obtain ⟨hdialect, hedition⟩ := hwords x hx
      exact (hneeds.excludes needs_keyword.node hname rfl hdialect).alt
        (hneeds.excludes needs_keyword.node hname rfl hedition)
    · simp only [List.forall_mem_cons]
      exact ⟨mark_excludes (c := ';') fun _ => rfl, by simp⟩
  exact excludes_choice hlist

/-- The statements of a file, and its end. -/
def fileTail : Phrase := seq (star topLevel) (token .endOfInput Scan.endOfInput)

/-- The parts of a file: the line that names the dialect, if there is one, and the rest. -/
def fileBody : Phrase := seq nothing (seq (opt dialectLine) fileTail)

theorem phrase_proto : phrase .proto = node .proto fileBody := rfl

theorem fileTail_excludes_dialectLine : fileTail.Excludes dialectLine := by
  intro s taken hs hreads
  cases hreads with | seq_both h₁ h₂ =>
  cases h₁ with
  | star_some h => exact topLevel_excludes_dialectLine hs h
  | star_none =>
    rw [hs] at h₂
    cases h₂ with | token_some hend =>
    cases s with
    | nil => exact reads_none_of_blocked rfl rfl
    | cons c s => cases hend

theorem predicts_fileTail : fileTail.Predicts tame anyChar (.opens (among [])) :=
  .star_then predicts_topLevel (failsAt_of_blocked rfl fun _ => rfl) (.token predicts_endOfInput)

end Proto

end MettaSchema
