import MettaSchema.Proofs.Grammar.Braces

/-!
# Braces that are left open

A stretch of text inside a value in braces opens some braces and closes others.  Literals in it hide
the braces that they hold, and whether a quote begins a literal can depend on what stands behind the
stretch.

* `Scan.Broken`, `Scan.Unfinished` — a line ends before the literal does; or the text does.
* `Scan.Leads` — a stretch that leads from one number of open braces to another, whatever stands
  behind it.
* `Scan.braceTail_leads` — the scanner goes on behind such a stretch with that number.
* `Scan.Effect`, `Scan.effect` — every other stretch closes the value, or a literal reaches
  beyond it.
* `Scan.Between` — the places between two tokens of a value in braces.
* `Scan.Between.aggregate_insert` — a text that leads nowhere can be put there.
-/

namespace MettaSchema

namespace Scan

variable {quote : Char} {s t : List Char}

/-! ## Quotes -/

/-- Behind a quote, the line ends before the literal does. -/
inductive Broken (quote : Char) : List Char → Prop
  /-- The end of the line. -/
  | lineEnd {c : Char} {s : List Char} (hc : isLineEnd c = true) : Broken quote (c :: s)
  /-- A backslash and the character that it escapes. -/
  | escape (d : Char) {s : List Char} (h : Broken quote s) : Broken quote ('\\' :: d :: s)
  /-- A character that stands for itself. -/
  | char {c : Char} {s : List Char} (hb : c ≠ '\\') (hq : c ≠ quote) (h : Broken quote s) :
      Broken quote (c :: s)

/-- Behind a quote, the text ends before the literal and before the line. -/
inductive Unfinished (quote : Char) : List Char → Prop
  /-- The end of the text. -/
  | nil : Unfinished quote []
  /-- A backslash and the character that it escapes. -/
  | escape (d : Char) {s : List Char} (h : Unfinished quote s) : Unfinished quote ('\\' :: d :: s)
  /-- A character that stands for itself. -/
  | char {c : Char} {s : List Char} (hb : c ≠ '\\') (hq : c ≠ quote) (hl : isLineEnd c = false)
      (h : Unfinished quote s) : Unfinished quote (c :: s)

theorem ne_of_isLineEnd {c : Char} (hc : isLineEnd c = true) :
    c ≠ '\\' ∧ c ≠ doubleQuote ∧ c ≠ singleQuote := by
  refine ⟨?_, ?_, ?_⟩ <;> (rintro rfl; revert hc; decide)

theorem Broken.append (h : Broken quote s) (r : List Char) : Broken quote (s ++ r) := by
  induction h with
  | lineEnd hc => exact .lineEnd hc
  | escape d _ ih => exact .escape d ih
  | char hb hq _ ih => exact .char hb hq ih

/-- A line that ends first ends the literal nowhere. -/
theorem Broken.quotedTail_eq_none (hquote : quote = doubleQuote ∨ quote = singleQuote)
    (h : Broken quote s) : quotedTail quote s = none := by
  induction h with
  | @lineEnd c s hc =>
    obtain ⟨hb, hd, hs⟩ := ne_of_isLineEnd hc
    have hq : c ≠ quote := by rcases hquote with rfl | rfl <;> assumption
    rw [quotedTail_cons hb, if_neg hq, if_pos hc]
  | escape d _ ih => rw [quotedTail_escape, ih, Option.map_none]
  | char hb hq _ ih =>
    rw [quotedTail_cons hb, if_neg hq, ih, Option.map_none, ite_self]

/-- A quote that begins no literal, as the line ends first. -/
theorem Broken.strLit_eq_none (hquote : quote = doubleQuote ∨ quote = singleQuote)
    (h : Broken quote s) : strLit (quote :: s) = none := by
  rw [strLit, if_pos hquote, h.quotedTail_eq_none hquote, Option.map_none]

/-- The literal ends at the next quote. -/
theorem Unfinished.quoted (h : Unfinished quote s) : Quoted quote (s ++ [quote]) := by
  induction h with
  | nil => exact .close
  | escape d _ ih => exact .escape d ih
  | char hb hq hl _ ih => exact .char hb hq hl ih

/-- Behind a quote, the literal ends, or its line does, or neither. -/
theorem quoted_cases (quote : Char) (s : List Char) (hs : ∀ a, s ≠ a ++ ['\\']) :
    Broken quote s ∨ Unfinished quote s ∨ ∃ t u, s = t ++ u ∧ Quoted quote t := by
  fun_induction quotedTail quote s with
  | case1 => exact .inr (.inl .nil)
  | case2 => exact .inr (.inr ⟨_, [], rfl, .close⟩)
  | case3 c hq =>
    have hb : c ≠ '\\' := by
      rintro rfl
      exact hs [] rfl
    cases hl : isLineEnd c with
    | true => exact .inl (.lineEnd hl)
    | false => exact .inr (.inl (.char hb hq hl .nil))
  | case4 d s ih =>
    rcases ih fun a ha => hs ('\\' :: d :: a) (by rw [ha]; rfl) with h | h | ⟨t, u, rfl, h⟩
    · exact .inl (.escape d h)
    · exact .inr (.inl (.escape d h))
    · exact .inr (.inr ⟨_, u, rfl, .escape d h⟩)
  | case5 d s => exact .inr (.inr ⟨_, d :: s, rfl, .close⟩)
  | case6 c d s hb hq hl => exact .inl (.lineEnd hl)
  | case7 c d s hb hq hl ih =>
    rcases ih fun a ha => hs (c :: a) (by rw [ha]; rfl) with h | h | ⟨t, u, hsplit, h⟩
    · exact .inl (.char hb hq h)
    · exact .inr (.inl (.char hb hq (Bool.eq_false_iff.2 hl) h))
    · exact .inr (.inr ⟨c :: t, u, by rw [hsplit]; rfl, .char hb hq (Bool.eq_false_iff.2 hl) h⟩)

/-! ## Braces -/

/-- The text leads from the first number of open braces to the second one, whatever stands behind
it.  A quote in it begins a literal that ends in it, or none, as the line ends first. -/
inductive Leads : Nat → Nat → List Char → Prop
  /-- Nothing. -/
  | nil (d : Nat) : Leads d d []
  /-- A character other than a brace or a quote. -/
  | char {d e : Nat} {c : Char} {s : List Char}
      (hc : c ∉ [openBrace, closeBrace, doubleQuote, singleQuote]) (h : Leads d e s) :
      Leads d e (c :: s)
  /-- A complete string literal. -/
  | literal {d e : Nat} {t s : List Char} (ht : Literal t) (h : Leads d e s) : Leads d e (t ++ s)
  /-- A quote that begins no literal. -/
  | stray {d e : Nat} {quote : Char} {s : List Char}
      (hquote : quote = doubleQuote ∨ quote = singleQuote) (hs : Broken quote s)
      (h : Leads d e s) : Leads d e (quote :: s)
  /-- An opening brace. -/
  | opens {d e : Nat} {s : List Char} (h : Leads (d + 1) e s) : Leads d e (openBrace :: s)
  /-- A closing brace. -/
  | closes {d e : Nat} {s : List Char} (h : Leads d e s) : Leads (d + 1) e (closeBrace :: s)

namespace Leads

variable {d e f : Nat}

/-- Further braces can be open all the time. -/
theorem add (h : Leads d e s) (n : Nat) : Leads (d + n) (e + n) s := by
  induction h with
  | nil d => exact .nil (d + n)
  | char hc _ ih => exact .char hc ih
  | literal ht _ ih => exact .literal ht ih
  | stray hquote hs _ ih => exact .stray hquote hs ih
  | opens _ ih =>
    rw [Nat.add_right_comm] at ih
    exact .opens ih
  | closes _ ih =>
    rw [Nat.add_right_comm]
    exact .closes ih

theorem append (h : Leads d e s) (h' : Leads e f t) : Leads d f (s ++ t) := by
  induction h with
  | nil => exact h'
  | char hc _ ih => exact .char hc (ih h')
  | literal ht _ ih =>
    rw [List.append_assoc]
    exact .literal ht (ih h')
  | stray hquote hs _ ih => exact .stray hquote (hs.append t) (ih h')
  | opens _ ih => exact .opens (ih h')
  | closes _ ih => exact .closes (ih h')

end Leads

/-- What can stand between matching braces leaves none open. -/
theorem BraceContent.leads (h : BraceContent s) (d : Nat) : Leads d d s := by
  induction h generalizing d with
  | nil => exact .nil d
  | char hc _ ih => exact .char hc (ih d)
  | literal ht _ ih => exact .literal ht (ih d)
  | group _ _ ihg ih => exact .opens ((ihg (d + 1)).append (.closes (ih d)))

theorem map_prepend_nil (o : Option (List Char × List Char)) : o.map (prepend []) = o := by
  cases o <;> rfl

theorem map_prepend_append (x y : List Char) (o : Option (List Char × List Char)) :
    (o.map (prepend y)).map (prepend x) = o.map (prepend (x ++ y)) := by
  cases o <;> simp [prepend]

/-- A quote that begins no literal is an ordinary character. -/
theorem braceTail_stray (hquote : quote = doubleQuote ∨ quote = singleQuote)
    (h : Broken quote s) (d : Nat) :
    braceTail d 0 (quote :: s) = (braceTail d 0 s).map (push quote) := by
  have hbraces : quote ≠ closeBrace ∧ quote ≠ openBrace := by
    rcases hquote with rfl | rfl <;> decide
  simp only [braceTail, if_neg hbraces.1, if_neg hbraces.2, h.strLit_eq_none hquote]

/-- The scanner goes on behind the text with the braces that it leaves open. -/
theorem braceTail_leads {d e : Nat} (h : Leads d e s) (r : List Char) :
    braceTail d 0 (s ++ r) = (braceTail e 0 r).map (prepend s) := by
  have hone {d e : Nat} {c : Char} {s : List Char} (ih : braceTail d 0 (s ++ r)
      = (braceTail e 0 r).map (prepend s)) : (braceTail d 0 (s ++ r)).map (push c)
        = (braceTail e 0 r).map (prepend (c :: s)) := by
    rw [ih, Option.map_map]
    rfl
  induction h with
  | nil d => exact (map_prepend_nil _).symm
  | @char d e c s hc h ih =>
    have hcontent : BraceContent [c] := .char hc .nil
    have hstep := braceTail_append hcontent d (s ++ r)
    rw [List.cons_append]
    exact hstep.trans (hone ih)
  | @literal d e t s ht h ih =>
    have hcontent : BraceContent t := by simpa using BraceContent.literal ht .nil
    rw [List.append_assoc, braceTail_append hcontent, ih, map_prepend_append]
  | @stray d e quote s hquote hs h ih =>
    rw [List.cons_append, braceTail_stray hquote (hs.append r)]
    exact hone ih
  | @opens d e s h ih =>
    have hopen : braceTail d 0 (openBrace :: (s ++ r))
        = (braceTail (d + 1) 0 (s ++ r)).map (push openBrace) := by
      have hne : openBrace ≠ closeBrace := by decide
      simp only [braceTail, if_neg hne, if_true]
    exact hopen.trans (hone ih)
  | @closes d e s h ih =>
    have hclose : braceTail (d + 1) 0 (closeBrace :: (s ++ r))
        = (braceTail d 0 (s ++ r)).map (push closeBrace) := by
      simp only [braceTail, if_true]
    exact hclose.trans (hone ih)

/-- A literal that reaches beyond a text ends at the next quote behind it. -/
theorem Unfinished.braceTail_eq {u : List Char} (hquote : quote = doubleQuote ∨ quote = singleQuote)
    (hu : Unfinished quote u) (d : Nat) (r : List Char) :
    braceTail d 0 (quote :: (u ++ quote :: r))
      = (braceTail d 0 r).map (prepend (quote :: (u ++ [quote]))) := by
  have hlit : Literal (quote :: (u ++ [quote])) := ⟨quote, _, hquote, rfl, hu.quoted⟩
  have hcontent : BraceContent (quote :: (u ++ [quote])) := by
    simpa using BraceContent.literal hlit .nil
  simpa using braceTail_append hcontent d r

/-! ## What a text does -/

/-- What a text does where some braces are open, whatever stands behind it. -/
inductive Effect (d : Nat) (s : List Char) : Prop
  /-- It leads to some number of open braces. -/
  | leads {e : Nat} (h : Leads d e s)
  /-- It closes all of them and the value. -/
  | closes {x y : List Char} (heq : s = x ++ closeBrace :: y)
      (h : ∀ r, braceTail d 0 (s ++ r) = some (x ++ [closeBrace], y ++ r))
  /-- A literal in it ends behind it, if at all. -/
  | reaches {e : Nat} {x u : List Char} {quote : Char}
      (hquote : quote = doubleQuote ∨ quote = singleQuote) (hu : Unfinished quote u)
      (h : ∀ r, braceTail d 0 (s ++ r) = (braceTail e 0 (quote :: (u ++ r))).map (prepend x))

/-- What a text does behind another one. -/
theorem Effect.behind {d e : Nat} (hleads : ∀ {f}, Leads e f s → Leads d f (t ++ s))
    (htail : ∀ r, braceTail d 0 (t ++ (s ++ r)) = (braceTail e 0 (s ++ r)).map (prepend t))
    (hs : Effect e s) : Effect d (t ++ s) := by
  cases hs with
  | leads h => exact .leads (hleads h)
  | @closes x y heq h =>
    refine .closes (x := t ++ x) (by rw [heq, List.append_assoc]) fun r => ?_
    rw [List.append_assoc, htail, h, Option.map_some, prepend, List.append_assoc]
  | @reaches f x u quote hquote hu h =>
    refine .reaches (e := f) (x := t ++ x) hquote hu fun r => ?_
    rw [List.append_assoc, htail, h, map_prepend_append]

theorem Effect.behind_leads {d e : Nat} (h : Leads d e t) (hs : Effect e s) : Effect d (t ++ s) :=
  .behind (fun hs => h.append hs) (fun r => braceTail_leads h (s ++ r)) hs

/-- What a text does behind a quote that begins no literal. -/
theorem Effect.behind_stray {d : Nat} (hquote : quote = doubleQuote ∨ quote = singleQuote)
    (h : Broken quote s) (hs : Effect d s) : Effect d (quote :: s) :=
  .behind (t := [quote]) (.stray hquote h) (fun r => braceTail_stray hquote (h.append r) d) hs

/-- There is no other effect, if the text does not end in a backslash. -/
theorem effect (d : Nat) (s : List Char) (hs : ∀ a, s ≠ a ++ ['\\']) : Effect d s := by
  induction hn : s.length using Nat.strongRecOn generalizing d s with
  | _ n ih =>
    subst hn
    have hrest {t s' : List Char} (heq : s = t ++ s') (ht : t ≠ []) (e : Nat) : Effect e s' := by
      have hpos := List.length_pos_iff.2 ht
      have hlt : s'.length < s.length := by
        rw [heq, List.length_append]
        omega
      exact ih _ hlt e s' (fun a ha => hs (t ++ a) (by rw [heq, ha]; simp)) rfl
    cases s with
    | nil => exact .leads (.nil d)
    | cons c s =>
      have hmore := hrest (t := [c]) rfl (List.cons_ne_nil c [])
      by_cases hopen : c = openBrace
      · subst hopen
        exact .behind_leads (.opens (.nil (d + 1))) (hmore (d + 1))
      · by_cases hclose : c = closeBrace
        · subst hclose
          cases d with
          | zero => exact .closes (x := []) rfl fun r => rfl
          | succ d => exact .behind_leads (.closes (.nil d)) (hmore d)
        · by_cases hquote : c = doubleQuote ∨ c = singleQuote
          · rcases quoted_cases c s fun a ha => hs (c :: a) (by rw [ha]; rfl) with
              hbroken | hunfinished | ⟨t, u, rfl, ht⟩
            · exact .behind_stray hquote hbroken (hmore d)
            · exact .reaches (e := d) (x := []) hquote hunfinished fun r => (map_prepend_nil _).symm
            · have hlit : Literal (c :: t) := ⟨c, t, hquote, rfl, ht⟩
              have hleads : Leads d d (c :: t) := by simpa using Leads.literal hlit (.nil d)
              exact .behind_leads hleads (hrest (t := c :: t) rfl (List.cons_ne_nil c t) d)
          · have hc : c ∉ [openBrace, closeBrace, doubleQuote, singleQuote] := by
              simpa [not_or] using ⟨hopen, hclose, not_or.1 hquote⟩
            exact .behind_leads (.char hc (.nil d)) (hmore d)

/-! ## Between two tokens -/

/-- A place between two tokens of what stands between braces that match: what is in front of the
place, and what is behind it. -/
inductive Between : List Char → List Char → Prop
  /-- In front of all tokens. -/
  | here {s : List Char} (h : BraceContent s) : Between [] s
  /-- Behind a character other than a brace or a quote. -/
  | char {c : Char} {a b : List Char} (hc : c ∉ [openBrace, closeBrace, doubleQuote, singleQuote])
      (h : Between a b) : Between (c :: a) b
  /-- Behind a complete string literal. -/
  | literal {t a b : List Char} (ht : Literal t) (h : Between a b) : Between (t ++ a) b
  /-- Behind a group. -/
  | group {g a b : List Char} (hg : BraceContent g) (h : Between a b) :
      Between (openBrace :: (g ++ closeBrace :: a)) b
  /-- Inside a group. -/
  | inside {a b s : List Char} (h : Between a b) (hs : BraceContent s) :
      Between (openBrace :: a) (b ++ closeBrace :: s)

namespace Between

variable {a b c : List Char}

/-- The braces that are open at the place are closed behind it. -/
theorem leads (h : Between a b) : ∃ n, Leads 0 n a ∧ Leads n 0 b := by
  induction h with
  | here h => exact ⟨0, .nil 0, h.leads 0⟩
  | char hc _ ih =>
    obtain ⟨n, ha, hb⟩ := ih
    exact ⟨n, .char hc ha, hb⟩
  | literal ht _ ih =>
    obtain ⟨n, ha, hb⟩ := ih
    exact ⟨n, .literal ht ha, hb⟩
  | group hg _ ih =>
    obtain ⟨n, ha, hb⟩ := ih
    exact ⟨n, .opens ((hg.leads 1).append (.closes ha)), hb⟩
  | inside _ hs ih =>
    obtain ⟨n, ha, hb⟩ := ih
    have ha' := ha.add 1
    rw [Nat.zero_add] at ha'
    exact ⟨n + 1, .opens ha', (hb.add 1).append (.closes (hs.leads 0))⟩

/-- A text that leads nowhere can be put between two tokens of a value: the value ends at the same
brace. -/
theorem aggregate_insert (h : Between a b) (hc : Leads 0 0 c) (r : List Char) :
    aggregate (openBrace :: (a ++ (c ++ (b ++ closeBrace :: r))))
      = some (openBrace :: (a ++ (c ++ (b ++ [closeBrace]))), r) := by
  obtain ⟨n, ha, hb⟩ := h.leads
  have hc' := hc.add n
  rw [Nat.zero_add] at hc'
  have htail := braceTail_leads (ha.append (hc'.append hb)) (closeBrace :: r)
  have hsplit : a ++ (c ++ (b ++ closeBrace :: r)) = (a ++ (c ++ b)) ++ closeBrace :: r := by simp
  rw [aggregate_openBrace, hsplit, htail, braceTail, if_pos rfl]
  simp [prepend, push]

end Between

end Scan

end MettaSchema
