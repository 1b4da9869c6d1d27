import MettaSchema.Proofs.Grammar.Reading
import MettaSchema.Proofs.Grammar.Tails

/-!
# Where a value in braces ends

The grammar describes a value in braces by a rule that refers to itself: an opening brace, as many
items as there are, and a closing brace.  An item is another such value; or else a string literal;
or else any character but a closing brace, be it an opening brace or a quote.  A choice that has
been made is never taken back.  The scanner counts braces instead, in one pass.

* `Scan.Aggregate`, `Scan.Items` — what the rule takes.
* `Scan.aggregate_eq_iff` — the scanner takes just that.
* `Proto.read_braced` — a value with matching braces and complete literals is taken up to the brace
  that matches its first one, whatever follows.
-/

namespace MettaSchema

namespace Scan

/-- Characters other than braces and quotes. -/
theorem BraceContent.chars {t s : List Char}
    (ht : t.all (· ∉ [openBrace, closeBrace, doubleQuote, singleQuote]) = true)
    (h : BraceContent s) : BraceContent (t ++ s) := by
  induction t with
  | nil => exact h
  | cons c t ih =>
    rw [List.all_cons, Bool.and_eq_true, decide_eq_true_eq] at ht
    exact .char ht.1 (ih ht.2)

/-! ## The rule -/

mutual

/-- What the rule takes off the front of a text, with the rest, or nothing. -/
inductive Aggregate : List Char → Option (List Char × List Char) → Prop
  /-- No opening brace is there. -/
  | absent {s : List Char} (h : startsWith (· == openBrace) s = false) : Aggregate s none
  /-- A closing brace is behind the items. -/
  | closed {s t r : List Char} (h : Items s (t, closeBrace :: r)) :
      Aggregate (openBrace :: s) (some (openBrace :: (t ++ [closeBrace]), r))
  /-- No closing brace is behind the items. -/
  | unclosed {s t r : List Char} (h : Items s (t, r))
      (hr : startsWith (· == closeBrace) r = false) : Aggregate (openBrace :: s) none

/-- The items that the rule takes off the front of a text, with the rest. -/
inductive Items : List Char → List Char × List Char → Prop
  /-- A value in braces is tried first. -/
  | group {s t r : List Char} {taken : List Char × List Char} (h : Aggregate s (some (t, r)))
      (hmore : Items r taken) : Items s (prepend t taken)
  /-- A string literal comes next. -/
  | literal {s t r : List Char} {taken : List Char × List Char} (h : Aggregate s none)
      (hlit : strLit s = some (t, r)) (hmore : Items r taken) : Items s (prepend t taken)
  /-- Any character but a closing brace comes last. -/
  | char {c : Char} {s : List Char} {taken : List Char × List Char} (h : Aggregate (c :: s) none)
      (hlit : strLit (c :: s) = none) (hc : c ≠ closeBrace) (hmore : Items s taken) :
      Items (c :: s) (prepend [c] taken)
  /-- No item is left. -/
  | stop {s : List Char} (h : Aggregate s none) (hlit : strLit s = none)
      (hend : ∀ c x, s = c :: x → c = closeBrace) : Items s ([], s)

end

/-! ## The scanner -/

/-- A brace that is open further out waits for the inner ones to be closed. -/
theorem braceTail_add (depth : Nat) (s : List Char) : ∀ inner inside,
    braceTail (depth + inner + 1) inside s
      = (braceTail inner inside s).bind fun taken =>
          (braceTail depth 0 taken.2).map (prepend taken.1) := by
  have hpush (c : Char) (o : Option (List Char × List Char)) :
      (o.bind fun taken => (braceTail depth 0 taken.2).map (prepend taken.1)).map (push c)
        = (o.map (push c)).bind fun taken =>
            (braceTail depth 0 taken.2).map (prepend taken.1) := by
    cases o with
    | none => rfl
    | some taken =>
      simp only [Option.bind_some, Option.map_some, Option.map_map, push]
      rfl
  induction s with
  | nil => exact fun _ _ => rfl
  | cons c s ih =>
    intro inner inside
    cases inside with
    | succ k => simp only [braceTail, ih, hpush]
    | zero =>
      by_cases hclose : c = closeBrace
      · cases inner with
        | zero => simp only [braceTail, if_pos hclose]; rfl
        | succ inner =>
          have hstep := ih inner 0
          simp only [braceTail, if_pos hclose, ← hpush, ← hstep]
          rfl
      · by_cases hopen : c = openBrace
        · have hstep := ih (inner + 1) 0
          simp only [braceTail, if_neg hclose, if_pos hopen, ← hpush, ← hstep]
          rfl
        · cases hlit : strLit (c :: s) with
          | some taken => simp only [braceTail, if_neg hclose, if_neg hopen, hlit, ih, hpush]
          | none => simp only [braceTail, if_neg hclose, if_neg hopen, hlit, ih, hpush]

/-- The characters in front of the brace that closes a value, and the rest: all characters, if no
brace does. -/
def items (s : List Char) : List Char × List Char :=
  match braceTail 0 0 s with
  | some (t, r) => (t.dropLast, closeBrace :: r)
  | none => (s, [])

theorem aggregate_openBrace (s : List Char) :
    aggregate (openBrace :: s) = (braceTail 0 0 s).map (push openBrace) := by
  rw [aggregate, if_pos rfl]

/-- A value is closed if the brace behind its items is there. -/
theorem aggregate_of_items {s t r : List Char} (h : items s = (t, closeBrace :: r)) :
    aggregate (openBrace :: s) = some (openBrace :: (t ++ [closeBrace]), r) := by
  unfold items at h
  split at h
  · rename_i u v htail
    obtain ⟨rfl, hr⟩ := Prod.mk.inj h
    obtain ⟨-, rfl⟩ := List.cons.inj hr
    obtain ⟨x, rfl⟩ := exists_of_braceTail htail
    rw [aggregate_openBrace, htail, List.dropLast_concat]
    rfl
  · cases h

theorem aggregate_of_items_none {s t r : List Char} (h : items s = (t, r))
    (hr : startsWith (· == closeBrace) r = false) : aggregate (openBrace :: s) = none := by
  unfold items at h
  split at h
  · obtain ⟨-, rfl⟩ := Prod.mk.inj h
    cases hr
  · rename_i htail
    rw [aggregate_openBrace, htail]
    rfl

/-- Items behind a text that the scanner takes as it is. -/
theorem items_prepend {s t r : List Char} (hsplit : t ++ r = s)
    (h : braceTail 0 0 s = (braceTail 0 0 r).map (prepend t)) : items s = prepend t (items r) := by
  unfold items
  rw [h]
  cases htail : braceTail 0 0 r with
  | none => simp [prepend, hsplit]
  | some taken =>
    obtain ⟨u, v⟩ := taken
    obtain ⟨x, rfl⟩ := exists_of_braceTail htail
    simp [prepend, ← List.append_assoc]

theorem items_group {s t r : List Char} (h : aggregate s = some (t, r)) :
    items s = prepend t (items r) := by
  refine items_prepend (eats_aggregate h).1 ?_
  obtain ⟨x, rfl⟩ := exists_of_aggregate h
  obtain ⟨rfl, -⟩ := eats_aggregate h
  rw [List.cons_append, aggregate_openBrace] at h
  obtain ⟨u, hu, heq⟩ := map_push_eq_some.1 h
  obtain ⟨-, rfl⟩ := List.cons.inj heq
  have hne : openBrace ≠ closeBrace := by decide
  rw [List.cons_append, braceTail, if_neg hne, if_pos rfl, braceTail_add 0 _ 0 0, hu,
    Option.bind_some, Option.map_map]
  rfl

theorem items_literal {s t r : List Char} (h : strLit s = some (t, r)) :
    items s = prepend t (items r) := by
  obtain ⟨⟨quote, u, hquote, rfl, hu⟩, rfl⟩ := strLit_eq_some_iff.1 h
  refine items_prepend rfl ?_
  have hcontent : BraceContent (quote :: u) := by
    simpa using BraceContent.literal ⟨quote, u, hquote, rfl, hu⟩ .nil
  exact braceTail_append hcontent 0 r

theorem items_char {c : Char} {s : List Char} (h : aggregate (c :: s) = none)
    (hlit : strLit (c :: s) = none) (hc : c ≠ closeBrace) :
    items (c :: s) = prepend [c] (items s) := by
  refine items_prepend rfl ?_
  by_cases hopen : c = openBrace
  · -- a brace that is not closed leaves nothing to close the one around it
    subst hopen
    rw [aggregate_openBrace, Option.map_eq_none_iff] at h
    rw [braceTail, if_neg hc, if_pos rfl, braceTail_add 0 s 0 0, h]
    rfl
  · simp only [braceTail, if_neg hc, if_neg hopen, hlit]
    rfl

theorem items_stop {s : List Char} (hend : ∀ c x, s = c :: x → c = closeBrace) :
    items s = ([], s) := by
  cases s with
  | nil => rfl
  | cons c s =>
    obtain rfl := hend c s rfl
    rfl

theorem aggregate_absent {s : List Char} (h : startsWith (· == openBrace) s = false) :
    aggregate s = none := by
  cases s with
  | nil => rfl
  | cons c s =>
    have hc : c ≠ openBrace := by simpa [startsWith] using h
    rw [aggregate, if_neg hc]

/-! ## The scanner takes what the rule says -/

mutual

theorem Aggregate.aggregate_eq : ∀ {s : List Char} {o : Option (List Char × List Char)},
    Aggregate s o → aggregate s = o
  | _, _, .absent h => aggregate_absent h
  | _, _, .closed h => aggregate_of_items h.items_eq
  | _, _, .unclosed h hr => aggregate_of_items_none h.items_eq hr

theorem Items.items_eq : ∀ {s : List Char} {taken : List Char × List Char},
    Items s taken → items s = taken
  | _, _, .group h hmore => by rw [items_group h.aggregate_eq, hmore.items_eq]
  | _, _, .literal _ hlit hmore => by rw [items_literal hlit, hmore.items_eq]
  | _, _, .char h hlit hc hmore => by rw [items_char h.aggregate_eq hlit hc, hmore.items_eq]
  | _, _, .stop _ _ hend => items_stop hend

end

/-- The rule takes a value as the scanner does, if it takes the items of shorter texts so. -/
theorem aggregate_of_shorter {s : List Char} (ih : ∀ r, r.length < s.length → Items r (items r)) :
    Aggregate s (aggregate s) := by
  cases hs : startsWith (· == openBrace) s with
  | false =>
    rw [aggregate_absent hs]
    exact .absent hs
  | true =>
    cases s with
    | nil => cases hs
    | cons c s =>
      obtain rfl : c = openBrace := by simpa [startsWith] using hs
      have hitems := ih s (by simp)
      obtain ⟨t, r, htaken⟩ : ∃ t r, items s = (t, r) := ⟨_, _, rfl⟩
      rw [htaken] at hitems
      cases hr : startsWith (· == closeBrace) r with
      | false =>
        rw [aggregate_of_items_none htaken hr]
        exact .unclosed hitems hr
      | true =>
        cases r with
        | nil => cases hr
        | cons d r =>
          obtain rfl : d = closeBrace := by simpa [startsWith] using hr
          rw [aggregate_of_items htaken]
          exact .closed hitems

/-- The rule takes the items that the scanner does. -/
theorem items_items (s : List Char) : Items s (items s) := by
  induction hn : s.length using Nat.strongRecOn generalizing s with
  | _ n ih =>
    subst hn
    have hshorter (r : List Char) (hr : r.length < s.length) : Items r (items r) :=
      ih r.length hr r rfl
    have hrest {t r : List Char} (h : t ++ r = s ∧ t ≠ []) : Items r (items r) := by
      have hpos := List.length_pos_iff.2 h.2
      refine hshorter r ?_
      rw [← h.1, List.length_append]
      omega
    have hrule := aggregate_of_shorter hshorter
    cases hgroup : aggregate s with
    | some taken =>
      rw [hgroup] at hrule
      rw [items_group hgroup]
      exact .group hrule (hrest (eats_aggregate hgroup))
    | none =>
      rw [hgroup] at hrule
      cases hlit : strLit s with
      | some taken =>
        rw [items_literal hlit]
        exact .literal hrule hlit (hrest (eats_strLit hlit))
      | none =>
        cases s with
        | nil => exact .stop hrule hlit nofun
        | cons c x =>
          by_cases hc : c = closeBrace
          · subst hc
            exact .stop hrule hlit fun d y heq => (List.cons.inj heq).1.symm
          · rw [items_char hgroup hlit hc]
            exact .char hrule hlit hc (hshorter x (by simp))

/-- The scanner and the rule agree. -/
theorem aggregate_eq_iff {s : List Char} {o : Option (List Char × List Char)} :
    aggregate s = o ↔ Aggregate s o :=
  ⟨fun h => h ▸ aggregate_of_shorter fun r _ => items_items r, Aggregate.aggregate_eq⟩

end Scan

namespace Proto

/-! ## Values with matching braces -/

/-- A value built from groups in braces, complete string literals and other characters is taken up
to the brace that matches its first one, and read as that value, whatever follows: the rule takes
nothing else from there, and no other such value begins there. -/
theorem read_braced {v : List Char} (h : Scan.Braced v) (r : List Char) :
    read (phrase .aggregate) (v ++ r) = some ([.token .aggregate v], r)
    ∧ read (phrase .constant) (v ++ r) = some ([.node .constant [.token .aggregate v]], r)
    ∧ (∀ o, Scan.Aggregate (v ++ r) o ↔ o = some (v, r))
    ∧ ∀ v', Scan.Braced v' → v' <+: v ++ r → v' = v := by
  have hscan := Scan.aggregate_append h r
  have hreads : Reads false aggregate (v ++ r) (some ([.token .aggregate v], r)) :=
    .token_some hscan
  have hsound : constant.Sound := sound_messageElement.1.1.2.2.2.1
  refine ⟨(read_eq_iff (p := aggregate) Scan.eats_aggregate.splits).2 hreads,
    (read_eq_iff hsound).2 (.node_some (.alt_first hreads)), fun o => ?_, ?_⟩
  · rw [← Scan.aggregate_eq_iff, hscan, eq_comm]
  · rintro v' h' ⟨r', heq⟩
    have hscan' := Scan.aggregate_append h' r'
    rw [heq, hscan] at hscan'
    obtain ⟨hv, -⟩ := Prod.mk.inj (Option.some.inj hscan')
    exact hv.symm

/-- A value with a group in it, whose literals hold braces, the other quote and an escape. -/
def bracedText : String :=
  "\x7ba:\x7bb:'\x7d\\'\"\x7b' c:\"'\x7d\"\x7d d\x7d"

theorem read_braced_literals : Scan.Braced bracedText.toList
    ∧ read (phrase .aggregate) (bracedText ++ "\x7d'\x7b\"").toList
      = some ([.token .aggregate bracedText.toList], "\x7d'\x7b\"".toList) := by
  have hliteral {t : List Char} (ht : Scan.strLit t = some (t, [])) : Scan.Literal t :=
    (Scan.strLit_eq_some_iff.1 ht).1
  have hsingle : Scan.Literal "'\x7d\\'\"\x7b'".toList := hliteral rfl
  have hdouble : Scan.Literal "\"'\x7d\"".toList := hliteral rfl
  have hgroup : Scan.BraceContent ("b:".toList ++ ("'\x7d\\'\"\x7b'".toList ++ (" c:".toList
      ++ ("\"'\x7d\"".toList ++ [])))) :=
    .chars rfl (.literal hsingle (.chars rfl (.literal hdouble .nil)))
  have hbraced : Scan.Braced bracedText.toList :=
    ⟨_, .chars (t := "a:".toList) rfl (.group hgroup (.chars (t := " d".toList) rfl .nil)), by decide⟩
  refine ⟨hbraced, ?_⟩
  rw [String.toList_append]
  exact (read_braced hbraced _).1

end Proto

end MettaSchema
