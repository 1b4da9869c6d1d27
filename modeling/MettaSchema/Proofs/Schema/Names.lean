import MettaSchema.Proofs.Schema.Print
import MettaSchema.Proofs.Schema.Declared

/-!
# Full names

In a schema that can be printed a full name is a dotted name, and it tells a message from an enum.

* `Message.dotted_symbols`, `Schema.dotted_references` — full names are dotted names.
* `Siblings.kind_unique`, `Schema.kind_unique` — a full name is not given to a message and to an
  enum.
* `Schema.mem_symbols_decl` — the declarations of a schema declare what the schema does.
-/

namespace MettaSchema

open Scan

/-! ## Qualified names -/

/-- What stands in front of the names in a scope. -/
def scopeStart (scope : String) : List Char :=
  if scope = "" then [] else scope.toList ++ ['.']

theorem toList_qualify (scope name : String) :
    (qualify scope name).toList = scopeStart scope ++ name.toList := by
  unfold qualify scopeStart
  split
  · rfl
  · simp

/-- A scope: the root or a dotted name. -/
def IsScope (scope : String) : Prop := scope = "" ∨ Dotted scope.toList

theorem IsScope.qualify {scope name : String} (h : IsScope scope)
    (hname : isName name.toList = true) : Dotted (qualify scope name).toList := by
  rw [toList_qualify, scopeStart]
  split
  · exact .name hname
  · rename_i hne
    rw [List.append_assoc]
    exact .dot (h.resolve_left hne) hname

theorem Schema.Printable.isScope {schema : Schema} (h : schema.Printable) :
    IsScope schema.packageName := by
  unfold packageName
  cases hp : schema.package with
  | none => exact .inl rfl
  | some package => exact .inr (h.package package (by simp [hp]))

/-! ## What is declared in a scope -/

/-- What some messages and enums declare. -/
def DeclaredBy (messages : List (String × Message)) (enums : List (String × EnumType))
    (ref : String × SymbolKind) : Prop :=
  (∃ p ∈ messages, ref ∈ p.2.symbols) ∨ ∃ e ∈ enums, ref = (e.2.fullName, .enum)

theorem Message.mem_symbols_iff {m : Message} {ref : String × SymbolKind} :
    ref ∈ m.symbols ↔ DeclaredBy m.messages m.enums ref ∨ ref = (m.fullName, .message) := by
  cases m
  rw [mem_symbols_mk, DeclaredBy, or_assoc]

/-- Messages that can be written have dotted names in their scope. -/
theorem Siblings.dotted {scope : String} {messages : List (String × Message)}
    {enums : List (String × EnumType)} (h : Siblings scope messages enums) (hscope : IsScope scope)
    {p : String × Message} (hp : p ∈ messages) (hm : p.2.Everywhere Message.Printable) :
    Dotted p.2.fullName.toList := by
  rw [(h.keyed p hp).2]
  exact hscope.qualify hm.self.name

/-- So has what they declare, if that is so for each of the messages. -/
theorem Siblings.dotted_declared {scope : String} {messages : List (String × Message)}
    {enums : List (String × EnumType)} (h : Siblings scope messages enums) (hscope : IsScope scope)
    (hm : ∀ p ∈ messages, ∀ ref ∈ p.2.symbols, Dotted ref.1.toList) {ref : String × SymbolKind}
    (href : DeclaredBy messages enums ref) : Dotted ref.1.toList := by
  rcases href with ⟨p, hp, href⟩ | ⟨e, he, rfl⟩
  · exact hm p hp ref href
  · obtain ⟨-, hprintable⟩ := h.printable e he
    rw [hprintable.fullName]
    exact hscope.qualify hprintable.name

/-- What a message declares, however deep, has a dotted name. -/
theorem Message.dotted_symbols (m : Message) : m.Everywhere Printable → Dotted m.fullName.toList →
    ∀ ref ∈ m.symbols, Dotted ref.1.toList := by
  induction m using nestedInduction with
  | inner m ih =>
    intro h hdotted ref href
    have hscope : IsScope m.fullName := .inr hdotted
    rcases mem_symbols_iff.1 href with href | rfl
    · refine h.self.inner.dotted_declared hscope (fun p hp => ?_) href
      exact ih p hp (h.inner hp) (h.self.inner.dotted hscope hp (h.inner hp))
    · exact hdotted

namespace Schema

theorem dotted_symbols {schema : Schema} (h : schema.Printable) :
    ∀ ref ∈ schema.symbols, Dotted ref.1.toList := by
  intro ref href
  refine h.siblings.dotted_declared h.isScope (fun p hp => ?_) (mem_symbols.1 href)
  exact p.2.dotted_symbols (h.everywhere p hp) (h.siblings.dotted h.isScope hp (h.everywhere p hp))

theorem dotted_bundled :
    ∀ file ∈ Bundled.files, ∀ symbol ∈ file.symbols, Dotted symbol.1.toList := by
  decide +kernel

theorem dotted_references {schema : Schema} (h : schema.Printable) :
    ∀ ref ∈ schema.references, Dotted ref.1.toList := by
  intro ref href
  rcases h.declared ref href with hsymbol | ⟨file, hfile, hsymbol⟩
  · exact dotted_symbols h ref hsymbol
  · exact dotted_bundled file (mem_files_of_bundled hfile) ref hsymbol

end Schema

/-! ## Messages and enums -/

/-- The end of a full name behind one of the names in it: nothing, or a dot and more. -/
def IsTail (x : List Char) : Prop := x = [] ∨ ∃ r, x = '.' :: r

theorem takeWhile_name {a x : List Char} (ha : '.' ∉ a) (hx : IsTail x) :
    (a ++ x).takeWhile (· != '.') = a := by
  have hdots : ∀ c ∈ a, (c != '.') = true := by
    intro c hc
    have hne : c ≠ '.' := by
      rintro rfl
      exact ha hc
    simpa using hne
  rw [List.takeWhile_append_of_pos hdots]
  rcases hx with rfl | ⟨r, rfl⟩ <;> simp

/-- A full name says which of the names in a scope it goes through. -/
theorem name_unique {a b x y : List Char} (ha : '.' ∉ a) (hb : '.' ∉ b) (hx : IsTail x)
    (hy : IsTail y) (h : a ++ x = b ++ y) : a = b := by
  rw [← takeWhile_name ha hx, h, takeWhile_name hb hy]

theorem scopeStart_of_dotted {scope : String} (h : Dotted scope.toList) :
    scopeStart scope = scope.toList ++ ['.'] := by
  rw [scopeStart, if_neg]
  rintro rfl
  exact h.ne_nil rfl

/-- What a message declares goes by the full name of the message, or goes on behind it. -/
theorem Message.symbols_start (m : Message) : m.Everywhere Printable → Dotted m.fullName.toList →
    ∀ ref ∈ m.symbols, ∃ x, IsTail x ∧ ref.1.toList = m.fullName.toList ++ x := by
  induction m using nestedInduction with
  | inner m ih =>
    intro h hdotted ref href
    rcases mem_symbols_iff.1 href with (⟨p, hp, href⟩ | ⟨e, he, rfl⟩) | rfl
    · have hfull := h.self.inner.dotted (.inr hdotted) hp (h.inner hp)
      obtain ⟨x, -, hx⟩ := ih p hp (h.inner hp) hfull ref href
      refine ⟨'.' :: (p.2.name.toList ++ x), .inr ⟨_, rfl⟩, ?_⟩
      rw [hx, (h.self.inner.keyed p hp).2, toList_qualify, scopeStart_of_dotted hdotted]
      simp
    · have he' := (h.self.inner.printable e he).2
      refine ⟨'.' :: e.2.name.toList, .inr ⟨_, rfl⟩, ?_⟩
      rw [he'.fullName, toList_qualify, scopeStart_of_dotted hdotted]
      simp
    · exact ⟨[], .inl rfl, by simp⟩

/-- No full name is given to a message and to an enum. -/
def KindUnique (declared : String × SymbolKind → Prop) : Prop :=
  ∀ n k k', declared (n, k) → declared (n, k') → k = k'

namespace Siblings

variable {scope : String} {messages : List (String × Message)} {enums : List (String × EnumType)}

/-- What is declared in a scope is declared by the one message or enum whose name follows the
scope in the full name. -/
theorem owner (h : Siblings scope messages enums) (hscope : IsScope scope)
    (hm : ∀ p ∈ messages, p.2.Everywhere Message.Printable) {ref : String × SymbolKind}
    (href : DeclaredBy messages enums ref) :
    ∃ (name : String) (x : List Char), isName name.toList = true ∧ IsTail x
      ∧ ref.1.toList = scopeStart scope ++ (name.toList ++ x)
      ∧ ((∃ p ∈ messages, p.1 = name ∧ ref ∈ p.2.symbols)
        ∨ (name ∈ Keyed.keys enums ∧ ref.2 = .enum)) := by
  rcases href with ⟨p, hp, href⟩ | ⟨e, he, rfl⟩
  · obtain ⟨hkey, hname⟩ := h.keyed p hp
    have hfull := h.dotted hscope hp (hm p hp)
    obtain ⟨x, hx, hstart⟩ := p.2.symbols_start (hm p hp) hfull ref href
    refine ⟨p.2.name, x, (hm p hp).self.name, hx, ?_, .inl ⟨p, hp, hkey, href⟩⟩
    rw [hstart, hname, toList_qualify, List.append_assoc]
  · obtain ⟨hkey, he'⟩ := h.printable e he
    refine ⟨e.2.name, [], he'.name, .inl rfl, ?_, .inr ⟨?_, rfl⟩⟩
    · rw [he'.fullName, toList_qualify, List.append_nil]
    · exact List.mem_map.2 ⟨e, he, hkey⟩

/-- Messages and enums with distinct names give no full name to both kinds if no message does. -/
theorem kind_unique (h : Siblings scope messages enums) (hscope : IsScope scope)
    (hm : ∀ p ∈ messages, p.2.Everywhere Message.Printable)
    (hu : ∀ p ∈ messages, KindUnique (· ∈ p.2.symbols)) :
    KindUnique (DeclaredBy messages enums) := by
  intro n k k' hk hk'
  obtain ⟨name, x, hname, hx, hn, howner⟩ := h.owner hscope hm hk
  obtain ⟨name', x', hname', hx', hn', howner'⟩ := h.owner hscope hm hk'
  have hnames : name = name' := by
    rw [hn] at hn'
    exact String.toList_injective (name_unique (dot_not_mem_of_isName hname)
      (dot_not_mem_of_isName hname') hx hx' (List.append_cancel_left hn'))
  subst hnames
  obtain ⟨hmessages, -, hdisjoint⟩ := List.nodup_append.1 h.distinct
  rcases howner with ⟨p, hp, hkey, hmem⟩ | ⟨henum, rfl⟩
  · rcases howner' with ⟨p', hp', hkey', hmem'⟩ | ⟨henum', -⟩
    · obtain rfl := Keyed.eq_of_key_eq hmessages hp hp' (hkey.trans hkey'.symm)
      exact hu p hp n k k' hmem hmem'
    · have hkeys : name ∈ Keyed.keys messages := List.mem_map.2 ⟨p, hp, hkey⟩
      exact absurd rfl (hdisjoint name hkeys name henum')
  · rcases howner' with ⟨p', hp', hkey', -⟩ | ⟨-, rfl⟩
    · have hkeys : name ∈ Keyed.keys messages := List.mem_map.2 ⟨p', hp', hkey'⟩
      exact absurd rfl (hdisjoint name hkeys name henum)
    · rfl

end Siblings

theorem Message.kind_unique (m : Message) : m.Everywhere Printable → Dotted m.fullName.toList →
    KindUnique (· ∈ m.symbols) := by
  induction m using nestedInduction with
  | inner m ih =>
    intro h hdotted
    have hm : ∀ p ∈ m.messages, p.2.Everywhere Printable := fun p hp => h.inner hp
    have hscope : IsScope m.fullName := .inr hdotted
    have hinner : KindUnique (DeclaredBy m.messages m.enums) := by
      refine h.self.inner.kind_unique hscope hm fun p hp => ih p hp (hm p hp) ?_
      exact h.self.inner.dotted hscope hp (hm p hp)
    -- what is inside a message has a longer full name than the message
    have hlonger {k : SymbolKind} (hk : DeclaredBy m.messages m.enums (m.fullName, k)) : False := by
      obtain ⟨name, x, -, -, hn, -⟩ := h.self.inner.owner hscope hm hk
      have hlength := congrArg List.length hn
      rw [scopeStart_of_dotted hdotted] at hlength
      simp at hlength
    intro n k k' hk hk'
    rcases mem_symbols_iff.1 hk with hk | hk
    · rcases mem_symbols_iff.1 hk' with hk' | hk'
      · exact hinner n k k' hk hk'
      · cases hk'
        exact (hlonger hk).elim
    · cases hk
      rcases mem_symbols_iff.1 hk' with hk' | hk'
      · exact (hlonger hk').elim
      · cases hk'
        rfl

theorem Schema.kind_unique {schema : Schema} (h : schema.Printable) :
    KindUnique (· ∈ schema.symbols) := by
  have hsiblings : KindUnique (DeclaredBy schema.messages schema.enums) := by
    refine h.siblings.kind_unique h.isScope h.everywhere fun p hp => ?_
    refine p.2.kind_unique (h.everywhere p hp) ?_
    exact h.siblings.dotted h.isScope hp (h.everywhere p hp)
  intro n k k' hk hk'
  exact hsiblings n k k' (mem_symbols.1 hk) (mem_symbols.1 hk')

/-! ## Declarations -/

theorem MessageDecl.mem_symbolsAll {ref : String × SymbolKind} {scope : String}
    {decls : List MessageDecl} :
    ref ∈ symbolsAll scope decls ↔ ∃ decl ∈ decls, ref ∈ decl.symbols scope := by
  induction decls with
  | nil => simp [symbolsAll]
  | cons decl decls ih => simp [symbolsAll, ih]

namespace Siblings

variable {scope : String} {messages : List (String × Message)} {enums : List (String × EnumType)}

/-- The declarations of messages and enums declare what these do, if that is so for each of the
messages. -/
theorem mem_symbols_decl (h : Siblings scope messages enums) (ref : String × SymbolKind)
    (hm : ∀ p ∈ messages, (ref ∈ p.2.decl.symbols scope ↔ ref ∈ p.2.symbols)) :
    ref ∈ MessageDecl.symbolsAll scope (Message.declAll messages)
        ++ (enums.map (·.2.decl)).map (fun e => (qualify scope e.name, .enum))
      ↔ DeclaredBy messages enums ref := by
  rw [List.mem_append, MessageDecl.mem_symbolsAll, Message.declAll_eq_map]
  refine or_congr ?_ ?_
  · constructor
    · rintro ⟨decl, hdecl, href⟩
      obtain ⟨p, hp, rfl⟩ := List.mem_map.1 hdecl
      exact ⟨p, hp, (hm p hp).1 href⟩
    · rintro ⟨p, hp, href⟩
      exact ⟨p.2.decl, List.mem_map.2 ⟨p, hp, rfl⟩, (hm p hp).2 href⟩
  · rw [List.map_map, List.mem_map]
    refine exists_congr fun e => and_congr_right fun he => ?_
    rw [(h.printable e he).2.fullName, eq_comm]
    rfl

end Siblings

theorem Message.mem_symbols_decl (ref : String × SymbolKind) (m : Message) :
    m.Everywhere Printable → ∀ scope, m.fullName = qualify scope m.name →
      (ref ∈ m.decl.symbols scope ↔ ref ∈ m.symbols) := by
  induction m using nestedInduction with
  | inner m ih =>
    intro h scope hname
    have hinner := h.self.inner.mem_symbols_decl ref fun p hp =>
      ih p hp (h.inner hp) m.fullName (h.self.inner.keyed p hp).2
    rw [mem_symbols_iff, ← hinner, hname]
    obtain ⟨name, fullName, fields, messages, enums, ascending⟩ := m
    simp only [decl, MessageDecl.symbols, List.mem_append, List.mem_singleton]

/-- The declarations of a schema declare what the schema does. -/
theorem Schema.mem_symbols_decl {schema : Schema} (h : schema.Printable)
    (ref : String × SymbolKind) : ref ∈ schema.decl.symbols ↔ ref ∈ schema.symbols := by
  have hsiblings := h.siblings.mem_symbols_decl ref fun p hp =>
    p.2.mem_symbols_decl ref (h.everywhere p hp) _ (h.siblings.keyed p hp).2
  rw [mem_symbols, ← DeclaredBy, ← hsiblings]
  rfl

end MettaSchema
