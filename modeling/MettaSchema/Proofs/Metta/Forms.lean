/-!
# Reading MeTTa

What a MeTTa text says: a sequence of forms.  A semicolon begins a comment up to the end of the
line, parentheses hold the forms of a group, and every other run of characters that are not
blank is an atom.

* `Form`, `Form.read` — forms, and reading them off a text.
* `Form.tokens` — a form as a sequence of parentheses and atoms.
* `Form.read_eq_some_iff` — a text is read as the forms whose tokens it has.
* `Form.group_append_tokensAll` — forms behind other tokens are grouped apart from them.
* `Form.scan_append_line` — so is what stands behind the end of a line.
* `Form.scan_word`, `Form.scan_comment` — words and comments, with any text behind them.
-/

namespace MettaSchema

/-- A form of a MeTTa text. -/
inductive Form where
  /-- An atom. -/
  | atom (name : String)
  /-- A group of forms in parentheses. -/
  | list (items : List Form)
  deriving Repr, Inhabited

namespace Form

/-! ## Tokens -/

/-- What a text consists of between its blanks and comments. -/
inductive Token where
  /-- An opening parenthesis. -/
  | opens
  /-- A closing parenthesis. -/
  | closes
  /-- An atom. -/
  | atom (name : String)
  deriving DecidableEq, Repr

/-- Blank characters: those that Unicode calls white space. -/
def isBlank (c : Char) : Bool :=
  let n := c.toNat
  (9 ≤ n && n ≤ 13) || n == 32 || n == 133 || n == 160 || n == 5760 || (8192 ≤ n && n ≤ 8202)
    || n == 8232 || n == 8233 || n == 8239 || n == 8287 || n == 12288

/-- Characters of atoms. -/
def isPlain (c : Char) : Bool :=
  !(isBlank c || c == '(' || c == ')' || c == ';')

/-- What the next characters belong to. -/
inductive Mode where
  /-- To nothing yet. -/
  | between
  /-- To a comment. -/
  | comment
  /-- To an atom of which some characters have been taken. -/
  | word (taken : List Char)

/-- What a character gives that belongs to nothing yet, and what follows it. -/
def start (c : Char) : List Token × Mode :=
  if c = ';' then ([], .comment)
  else if c = '(' then ([.opens], .between)
  else if c = ')' then ([.closes], .between)
  else if isBlank c then ([], .between)
  else ([], .word [c])

/-- The tokens of a text. -/
def scan : Mode → List Char → List Token
  | .word taken, [] => [.atom (String.ofList taken)]
  | .between, [] => []
  | .comment, [] => []
  | .between, c :: s => (start c).1 ++ scan (start c).2 s
  | .comment, c :: s => if c = '\n' then scan .between s else scan .comment s
  | .word taken, c :: s =>
    if isPlain c then scan (.word (taken ++ [c])) s
    else .atom (String.ofList taken) :: ((start c).1 ++ scan (start c).2 s)

/-! ## Forms -/

/-- Groups tokens, where `groups` holds the forms of the groups that are open, the innermost
group and the latest form first.  All groups have to be closed in the end. -/
def group : (groups : List (List Form)) → List Token → Option (List Form)
  | [items], [] => some items.reverse
  | _, [] => none
  | groups, .opens :: ts => group ([] :: groups) ts
  | inner :: items :: groups, .closes :: ts => group ((.list inner.reverse :: items) :: groups) ts
  | items :: groups, .atom name :: ts => group ((.atom name :: items) :: groups) ts
  | _, _ => none

/-- The forms of a text, if its parentheses match. -/
def read (text : String) : Option (List Form) :=
  group [[]] (scan .between text.toList)

mutual

/-- The tokens of a form. -/
def tokens : Form → List Token
  | atom name => [.atom name]
  | list items => .opens :: (tokensAll items ++ [.closes])

/-- The tokens of some forms. -/
def tokensAll : List Form → List Token
  | [] => []
  | form :: rest => tokens form ++ tokensAll rest

end

@[simp] theorem tokensAll_append (forms more : List Form) :
    tokensAll (forms ++ more) = tokensAll forms ++ tokensAll more := by
  induction forms with
  | nil => rfl
  | cons form forms ih => simp [tokensAll, ih]

mutual

theorem group_tokens : ∀ (form : Form) (items : List Form) (groups : List (List Form))
    (ts : List Token),
    group (items :: groups) (form.tokens ++ ts) = group ((form :: items) :: groups) ts
  | atom name, items, groups, ts => by simp [tokens, group]
  | list inner, items, groups, ts => by
    have hinner := group_tokensAll inner [] (items :: groups) (.closes :: ts)
    simp only [tokens, List.cons_append, List.append_assoc, List.nil_append, group, hinner]
    simp

/-- Grouping the tokens of forms gives these forms. -/
theorem group_tokensAll : ∀ (forms : List Form) (items : List Form) (groups : List (List Form))
    (ts : List Token),
    group (items :: groups) (tokensAll forms ++ ts) = group ((forms.reverse ++ items) :: groups) ts
  | [], items, groups, ts => rfl
  | form :: forms, items, groups, ts => by
    rw [tokensAll, List.append_assoc, group_tokens form, group_tokensAll forms,
      List.reverse_cons, List.append_assoc, List.singleton_append]

end

/-- A text is read as the forms whose tokens it has. -/
theorem read_of_scan {text : String} {forms : List Form}
    (h : scan .between text.toList = tokensAll forms) : read text = some forms := by
  have hgroup := group_tokensAll forms [] [] []
  rw [List.append_nil, List.append_nil] at hgroup
  rw [read, h, hgroup, group, List.reverse_reverse]

/-- The tokens of the forms of groups, each of which but the outermost one has been opened. -/
def tokensOpen : List (List Form) → List Token
  | [] => []
  | [items] => tokensAll items.reverse
  | items :: groups => tokensOpen groups ++ .opens :: tokensAll items.reverse

theorem tokensOpen_cons (form : Form) (items : List Form) (groups : List (List Form)) :
    tokensOpen ((form :: items) :: groups) = tokensOpen (items :: groups) ++ form.tokens := by
  cases groups <;> simp [tokensOpen, tokensAll]

/-- What is grouped as some forms are the tokens of these forms. -/
theorem tokensOpen_of_group {groups : List (List Form)} {ts : List Token} {forms : List Form}
    (hne : groups ≠ []) (h : group groups ts = some forms) :
    tokensOpen groups ++ ts = tokensAll forms := by
  fun_induction group groups ts with
  | case1 items =>
    cases h
    exact List.append_nil _
  | case2 => cases h
  | case3 groups ts ih =>
    rw [← ih (List.cons_ne_nil _ _) h]
    obtain ⟨items, groups, rfl⟩ := List.exists_cons_of_ne_nil hne
    simp [tokensOpen, tokensAll]
  | case4 inner items groups ts ih =>
    rw [← ih (List.cons_ne_nil _ _) h, tokensOpen_cons]
    simp [tokensOpen, tokens]
  | case5 items groups name ts ih =>
    rw [← ih (List.cons_ne_nil _ _) h, tokensOpen_cons]
    simp [tokens]
  | case6 => cases h

/-- A text is read as the forms whose tokens it has, and as nothing else. -/
theorem read_eq_some_iff {text : String} {forms : List Form} :
    read text = some forms ↔ scan .between text.toList = tokensAll forms :=
  ⟨tokensOpen_of_group (List.cons_ne_nil [] []), read_of_scan⟩

/-- Forms behind other tokens are grouped apart from them. -/
theorem group_append_tokensAll (ts : List Token) (forms items : List Form)
    (groups : List (List Form)) :
    group (items :: groups) (ts ++ tokensAll forms)
      = (group (items :: groups) ts).map (· ++ forms) := by
  induction ts generalizing items groups with
  | nil =>
    have hgroup := group_tokensAll forms items groups []
    rw [List.append_nil] at hgroup
    rw [List.nil_append, hgroup]
    cases groups <;> simp [group]
  | cons t ts ih =>
    rw [List.cons_append]
    cases t with
    | opens =>
      rw [group, group]
      exact ih _ _
    | atom name =>
      rw [group, group]
      exact ih _ _
    | closes =>
      cases groups with
      | nil => rfl
      | cons outer groups => exact ih _ _

/-! ## Scanning -/

theorem scan_blank {c : Char} (h : isBlank c = true) (s : List Char) :
    scan .between (c :: s) = scan .between s := by
  have hne : c ≠ ';' ∧ c ≠ '(' ∧ c ≠ ')' := by
    refine ⟨?_, ?_, ?_⟩ <;> rintro rfl <;> revert h <;> decide
  simp [scan, start, hne, h]

theorem scan_space (s : List Char) : scan .between (' ' :: s) = scan .between s :=
  scan_blank rfl s

theorem scan_newline (s : List Char) : scan .between ('\n' :: s) = scan .between s :=
  scan_blank rfl s

theorem scan_opens (s : List Char) : scan .between ('(' :: s) = .opens :: scan .between s := rfl

theorem scan_closes (s : List Char) : scan .between (')' :: s) = .closes :: scan .between s := rfl

/-- Behind the end of a line a text is read from its start, whatever stands on the line. -/
theorem scan_append_line (mode : Mode) (line s : List Char) :
    scan mode (line ++ '\n' :: s) = scan mode line ++ scan .between s := by
  induction line generalizing mode with
  | nil =>
    cases mode with
    | between => exact scan_newline s
    | comment => rfl
    | word taken => exact congrArg _ (scan_newline s)
  | cons c line ih =>
    rw [List.cons_append]
    cases mode with
    | between => rw [scan, scan, ih, List.append_assoc]
    | comment =>
      rw [scan, scan]
      split <;> exact ih _
    | word taken =>
      rw [scan, scan]
      split
      · exact ih _
      · rw [ih, List.cons_append, List.append_assoc]

/-- The end of a line behind a text adds nothing to it. -/
theorem scan_lineEnd (mode : Mode) (s : List Char) : scan mode (s ++ ['\n']) = scan mode s := by
  rw [scan_append_line]
  exact List.append_nil _

theorem scan_comment_append {line : List Char} (h : '\n' ∉ line) (s : List Char) :
    scan .comment (line ++ s) = scan .comment s := by
  induction line with
  | nil => rfl
  | cons c line ih =>
    rw [List.mem_cons, not_or] at h
    rw [List.cons_append, scan, if_neg (Ne.symm h.1), ih h.2]

/-- A comment leaves no token. -/
theorem scan_comment {text : List Char} (h : '\n' ∉ text) (s : List Char) :
    scan .between (';' :: (text ++ '\n' :: s)) = scan .between s :=
  scan_comment_append h ('\n' :: s)

theorem start_of_plain {c : Char} (h : isPlain c = true) : start c = ([], .word [c]) := by
  simp only [isPlain, Bool.not_eq_true', Bool.or_eq_false_iff, beq_eq_false_iff_ne] at h
  simp [start, h]

theorem scan_taken {c : Char} (hc : isPlain c = false) (word s : List Char) :
    (∀ d ∈ word, isPlain d = true) → ∀ taken,
      scan (.word taken) (word ++ c :: s)
        = .atom (String.ofList (taken ++ word)) :: scan .between (c :: s) := by
  induction word with
  | nil =>
    intro _ taken
    simp [scan, hc]
  | cons d word ih =>
    intro h taken
    have hd : isPlain d = true := h d (by simp)
    have hstep : scan (.word taken) (d :: (word ++ c :: s))
        = scan (.word (taken ++ [d])) (word ++ c :: s) := by simp [scan, hd]
    rw [List.cons_append, hstep, ih (fun x hx => h x (by simp [hx])), List.append_assoc,
      List.singleton_append]

/-- A word in front of a character that ends words is an atom. -/
theorem scan_word {word : List Char} (hne : word ≠ []) (h : ∀ d ∈ word, isPlain d = true) {c : Char}
    (hc : isPlain c = false) (s : List Char) :
    scan .between (word ++ c :: s) = .atom (String.ofList word) :: scan .between (c :: s) := by
  obtain ⟨d, word, rfl⟩ := List.exists_cons_of_ne_nil hne
  have htail := scan_taken hc word s (fun x hx => h x (by simp [hx])) [d]
  rw [List.cons_append, scan, start_of_plain (h d (by simp)), List.nil_append, htail]
  rfl

end Form

end MettaSchema
