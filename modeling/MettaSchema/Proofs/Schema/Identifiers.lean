import MettaSchema.Proofs.Import.Written

/-!
# Identifiers

The names that are introduced in a text are identifiers: they are not empty and consist of letters,
digits and underscores.

* `Identifier`, `Identifier.Path` — identifiers, and identifiers joined by dots.
* `Statement.names_ofTrees?` — the names that statements introduce are tokens.
* `FileStatement.identified_ofText?` — so they are identifiers, and packages are paths of them.
-/

namespace MettaSchema

/-! ## Identifiers and paths of them -/

/-- A name that is not empty and consists of letters, digits and underscores. -/
def Identifier (name : String) : Prop :=
  name ≠ "" ∧ ∀ c ∈ name.toList, Scan.isNameChar c = true

instance (name : String) : Decidable (Identifier name) :=
  decidable_of_iff (name ≠ "" ∧ name.toList.all Scan.isNameChar = true) (by
    rw [Identifier, List.all_eq_true])

/-- Identifiers joined by dots. -/
inductive Identifier.Path : String → Prop
  /-- One identifier. -/
  | one {name : String} (h : Identifier name) : Path name
  /-- An identifier behind a dot. -/
  | dot {scope name : String} (hscope : Path scope) (h : Identifier name) :
      Path (scope ++ "." ++ name)

namespace Identifier

theorem of_isName {name : String} (h : Scan.isName name.toList = true) : Identifier name := by
  refine ⟨?_, Scan.isNameChar_of_isName h⟩
  rintro rfl
  cases h

theorem dot_not_mem {name : String} (h : Identifier name) : '.' ∉ name.toList := by
  intro hdot
  have hc := h.2 '.' hdot
  revert hc
  decide

theorem toNat_lt_of_isNameChar {c : Char} (h : Scan.isNameChar c = true) : c.toNat < 128 := by
  have hclasses : (((decide (65 ≤ c.val ∧ c.val ≤ 90) || decide (97 ≤ c.val) && decide (c.val ≤ 122))
      || decide (48 ≤ c.val) && decide (c.val ≤ 57)) || c == '_') = true := h
  simp only [Bool.or_eq_true, Bool.and_eq_true, decide_eq_true_eq, beq_iff_eq,
    UInt32.le_iff_toNat_le] at hclasses
  unfold Char.toNat
  rcases hclasses with ((⟨-, h⟩ | ⟨-, h⟩) | ⟨-, h⟩) | rfl
  · exact Nat.lt_of_le_of_lt h (by decide)
  · exact Nat.lt_of_le_of_lt h (by decide)
  · exact Nat.lt_of_le_of_lt h (by decide)
  · decide

/-- What holds of the ASCII characters of names holds of all characters of names. -/
theorem forall_isNameChar {P : Char → Prop}
    (h : ∀ n < 128, Scan.isNameChar (Char.ofNat n) = true → P (Char.ofNat n)) {c : Char}
    (hc : Scan.isNameChar c = true) : P c := by
  have hchar := h c.toNat (toNat_lt_of_isNameChar hc)
  rw [Char.ofNat_toNat] at hchar
  exact hchar hc

/-- Changing the case of letters does not lead out of identifiers. -/
theorem isNameChar_changeCase {c : Char} (h : Scan.isNameChar c = true) :
    Scan.isNameChar c.toLower = true ∧ Scan.isNameChar c.toUpper = true :=
  forall_isNameChar (P := fun c =>
    Scan.isNameChar c.toLower = true ∧ Scan.isNameChar c.toUpper = true) (by decide +kernel) h

theorem lowerCase {name : String} (h : Identifier name) : Identifier (lowerCase name) := by
  refine ⟨?_, ?_⟩
  · intro hnil
    have hlist := congrArg String.toList hnil
    rw [MettaSchema.lowerCase, String.toList_ofList, String.toList_empty, List.map_eq_nil_iff]
      at hlist
    exact h.1 (String.toList_eq_nil_iff.1 hlist)
  · intro c hc
    rw [MettaSchema.lowerCase, String.toList_ofList] at hc
    obtain ⟨d, hd, rfl⟩ := List.mem_map.1 hc
    exact (isNameChar_changeCase (h.2 d hd)).1

theorem isNameChar_camelCase {s : List Char} (h : ∀ c ∈ s, Scan.isNameChar c = true) :
    ∀ upper, ∀ c ∈ camelCase upper s, Scan.isNameChar c = true := by
  induction s with
  | nil => exact fun _ => nofun
  | cons d s ih =>
    obtain ⟨hd, hs⟩ := List.forall_mem_cons.1 h
    intro upper
    unfold camelCase
    split
    · exact ih hs true
    · refine List.forall_mem_cons.2 ⟨?_, ih hs false⟩
      split
      · exact (isNameChar_changeCase hd).2
      · exact hd

theorem mapEntryName {name : String} (h : Identifier name) : Identifier (mapEntryName name) := by
  refine ⟨?_, ?_⟩
  · intro hnil
    have hlist := congrArg String.toList hnil
    simp [MettaSchema.mapEntryName] at hlist
  · intro c hc
    rw [MettaSchema.mapEntryName, String.toList_append, String.toList_ofList, List.mem_append] at hc
    have hentry : "Entry".toList.all Scan.isNameChar = true := by decide
    exact hc.elim (isNameChar_camelCase h.2 true c) (List.all_eq_true.1 hentry c)

end Identifier

namespace Identifier.Path

theorem of_dotted {s : List Char} (h : Scan.Dotted s) : Path (String.ofList s) := by
  induction h with
  | name h => exact .one (.of_isName (by rwa [String.toList_ofList]))
  | @dot u w _ h ih =>
    have hname : Identifier (String.ofList w) := .of_isName (by rwa [String.toList_ofList])
    have hjoin : String.ofList (u ++ '.' :: w) = String.ofList u ++ "." ++ String.ofList w := by
      apply String.toList_injective
      simp
    rw [hjoin]
    exact .dot ih hname

theorem qualify {scope name : String} (hscope : scope = "" ∨ Path scope) (h : Identifier name) :
    Path (qualify scope name) := by
  unfold MettaSchema.qualify
  split
  · exact .one h
  · rename_i hne
    exact .dot (hscope.resolve_left hne) h

theorem takeWhile_identifier {name : String} (h : Identifier name) {r : List Char}
    (hr : r.takeWhile (· != '.') = []) :
    (name.toList.reverse ++ r).takeWhile (· != '.') = name.toList.reverse := by
  have hdots : ∀ c ∈ name.toList.reverse, (c != '.') = true := by
    intro c hc
    have hne : c ≠ '.' := by
      rintro rfl
      exact h.dot_not_mem (List.mem_reverse.1 hc)
    simpa using hne
  rw [List.takeWhile_append_of_pos hdots, hr, List.append_nil]

theorem afterLastDot_one {name : String} (h : Identifier name) : afterLastDot name = name := by
  have hname : name.toList.reverse.takeWhile (· != '.') = name.toList.reverse := by
    rw [← List.append_nil name.toList.reverse, takeWhile_identifier h rfl, List.append_nil]
  rw [afterLastDot, hname, List.reverse_reverse, String.ofList_toList]

theorem afterLastDot_dot (scope : String) {name : String} (h : Identifier name) :
    afterLastDot (scope ++ "." ++ name) = name := by
  have hreverse : (scope ++ "." ++ name).toList.reverse
      = name.toList.reverse ++ '.' :: scope.toList.reverse := by simp
  rw [afterLastDot, hreverse, takeWhile_identifier h (by simp), List.reverse_reverse,
    String.ofList_toList]

/-- The last part of a path is an identifier. -/
theorem identifier_afterLastDot {fullName : String} (h : Path fullName) :
    Identifier (afterLastDot fullName) := by
  cases h with
  | one h =>
    rw [afterLastDot_one h]
    exact h
  | @dot scope name _ h =>
    rw [afterLastDot_dot scope h]
    exact h

end Identifier.Path

/-! ## Names in statements -/

mutual

/-- The names that a statement introduces. -/
def Statement.names : Statement → List String
  | field _ _ name _ => [name]
  | map _ _ name _ => [name]
  | group _ name _ body => name :: Statement.namesAll body
  | oneof members => Statement.namesAll members
  | message name body => name :: Statement.namesAll body
  | enum name values => name :: values.map (·.1)

/-- The names that some statements introduce. -/
def Statement.namesAll : List Statement → List String
  | [] => []
  | s :: rest => s.names ++ Statement.namesAll rest

end

/-- The names that a service introduces. -/
def ServiceDecl.names (service : ServiceDecl) : List String :=
  service.name :: service.methods.map (·.name)

namespace Statement

theorem namesAll_append (ss ts : List Statement) : namesAll (ss ++ ts) = namesAll ss ++ namesAll ts := by
  induction ss with
  | nil => rfl
  | cons s ss ih => simp [namesAll, ih]

/-- The name and the names of the values of an enum are tokens. -/
theorem names_enumParts? {parts : List Tree} {name : String} {values : List (String × String)}
    (h : enumParts? parts = some (name, values)) :
    ∀ n ∈ name :: values.map (·.1), (Rule.ident, n.toList) ∈ Tree.leavesAll parts := by
  simp only [enumParts?, Option.bind_eq_bind, Option.bind_eq_some_iff, Option.pure_def,
    Option.some.injEq, Prod.mk.injEq] at h
  obtain ⟨_, hname, lists, hlists, rfl, rfl⟩ := h
  refine List.forall_mem_cons.2 ⟨Tree.mem_leavesAll_of_token? hname, ?_⟩
  intro n hn
  obtain ⟨value, hvalue, rfl⟩ := List.mem_map.1 hn
  obtain ⟨t, ht, list, hlist, hvalue⟩ := mem_flatten_of_mapM_eq_some hlists hvalue
  refine Tree.mem_leavesAll.2 ⟨t, ht, ?_⟩
  obtain ⟨_, _, _, rfl, hvalueName, -, rfl⟩ | ⟨-, rfl⟩ := enumValue?_cases hlist
  · rw [List.mem_singleton.1 hvalue]
    exact Tree.mem_leavesAll_of_token? hvalueName
  · cases hvalue

mutual

/-- The names that a statement introduces are tokens. -/
theorem names_ofTree? : ∀ (t : Tree) {ss : List Statement}, ofTree? t = some ss →
    ∀ n ∈ namesAll ss, (Rule.ident, n.toList) ∈ t.leaves
  | .mark _, ss, h => by cases h; nofun
  | .blank _, ss, h => by cases h; nofun
  | .token _ _, ss, h => by cases h; nofun
  | .node rule parts, ss, h => by
    have hinner : ∀ {body : List Statement}, ofTrees? parts = some body →
        ∀ n ∈ namesAll body, (Rule.ident, n.toList) ∈ Tree.leavesAll parts := names_ofTrees? parts
    rw [Tree.leaves]
    cases ofTree?_eq_some.1 h with
    | field _ hname | map _ hname =>
      simpa [namesAll, names] using Tree.mem_leavesAll_of_token? hname
    | group hname _ hbody | message hname hbody =>
      simpa [namesAll, names] using ⟨Tree.mem_leavesAll_of_token? hname, hinner hbody⟩
    | oneof hmembers => simpa [namesAll, names] using hinner hmembers
    | enum hvalues => simpa [namesAll, names] using names_enumParts? hvalues
    | body hbody => exact hinner hbody
    | other => nofun

/-- The names that statements introduce are tokens. -/
theorem names_ofTrees? : ∀ (ts : List Tree) {ss : List Statement}, ofTrees? ts = some ss →
    ∀ n ∈ namesAll ss, (Rule.ident, n.toList) ∈ Tree.leavesAll ts
  | [], ss, h => by cases h; nofun
  | t :: rest, ss, h => by
    simp only [ofTrees?, Option.bind_eq_bind, Option.bind_eq_some_iff, Option.pure_def,
      Option.some.injEq] at h
    obtain ⟨first, hfirst, more, hmore, rfl⟩ := h
    rw [namesAll_append, List.forall_mem_append, Tree.leavesAll]
    exact ⟨fun n hn => List.mem_append_left _ (names_ofTree? t hfirst n hn),
      fun n hn => List.mem_append_right _ (names_ofTrees? rest hmore n hn)⟩

end

end Statement

/-- The names of a service and of its methods are tokens. -/
theorem ServiceDecl.names_ofParts? {parts : List Tree} {service : ServiceDecl}
    (h : ofParts? parts = some service) :
    ∀ n ∈ service.names, (Rule.ident, n.toList) ∈ Tree.leavesAll parts := by
  simp only [ofParts?, Option.bind_eq_bind, Option.bind_eq_some_iff, Option.pure_def,
    Option.some.injEq] at h
  obtain ⟨_, hname, lists, hlists, rfl⟩ := h
  refine List.forall_mem_cons.2 ⟨Tree.mem_leavesAll_of_token? hname, ?_⟩
  intro n hn
  obtain ⟨method, hmethod, rfl⟩ := List.mem_map.1 hn
  obtain ⟨t, ht, list, hlist, hmethod⟩ := mem_flatten_of_mapM_eq_some hlists hmethod
  refine Tree.mem_leavesAll.2 ⟨t, ht, ?_⟩
  obtain ⟨_, _, rfl, hmethodName, -, -, rfl⟩ | ⟨-, rfl⟩ := MethodDecl.ofTree?_cases hlist
  · rw [List.mem_singleton.1 hmethod]
    exact Tree.mem_leavesAll_of_token? hmethodName
  · cases hmethod

/-- The names that a statement of a file introduces are identifiers, and a package is a path of
them. -/
def FileStatement.Identified : FileStatement → Prop
  | message name body => ∀ n ∈ name :: Statement.namesAll body, Identifier n
  | enum name values => ∀ n ∈ name :: values.map (·.1), Identifier n
  | .service decl => ∀ n ∈ decl.names, Identifier n
  | package name => Identifier.Path name
  | _ => True

theorem FileStatement.identified_ofTree? {t : Tree} {ss : List FileStatement}
    (h : ofTree? t = some ss) (hspelt : ∀ leaf ∈ t.leaves, leaf.1.Spelt leaf.2) :
    ∀ s ∈ ss, s.Identified := by
  have hident : ∀ n : String, (Rule.ident, n.toList) ∈ t.leaves → Identifier n :=
    fun n hn => .of_isName (hspelt _ hn)
  cases t with
  | node rule parts =>
    cases ofTree?_eq_some.1 h with
    | dialect | edition | imports => exact List.forall_mem_singleton.2 trivial
    | package hname =>
      have hdotted := hspelt _ (Tree.mem_leavesAll_of_token? hname)
      have hpath := Identifier.Path.of_dotted hdotted
      rw [String.ofList_toList] at hpath
      exact List.forall_mem_singleton.2 hpath
    | message hname hbody =>
      refine List.forall_mem_singleton.2 (List.forall_mem_cons.2 ⟨?_, ?_⟩)
      · exact hident _ (Tree.mem_leavesAll_of_token? hname)
      · exact fun n hn => hident n (Statement.names_ofTrees? _ hbody n hn)
    | enum hvalues =>
      refine List.forall_mem_singleton.2 ?_
      exact fun n hn => hident n (Statement.names_enumParts? hvalues n hn)
    | service hservice =>
      refine List.forall_mem_singleton.2 ?_
      exact fun n hn => hident n (ServiceDecl.names_ofParts? hservice n hn)
    | other => nofun
  | _ =>
    cases h
    nofun

/-- The names in the statements of a text are identifiers. -/
theorem FileStatement.identified_ofText? {source : String} {ss : List FileStatement}
    (h : ofText? source = some ss) : ∀ s ∈ ss, s.Identified := by
  obtain ⟨parts, lists, hlists, rfl, hspelt, -⟩ := exists_parts_of_ofText? h
  intro s hs
  obtain ⟨t, ht, list, hlist, hs⟩ := mem_flatten_of_mapM_eq_some hlists hs
  refine identified_ofTree? hlist (fun leaf hleaf => hspelt leaf ?_) s hs
  exact Tree.mem_leavesAll.2 ⟨t, ht, hleaf⟩

end MettaSchema
