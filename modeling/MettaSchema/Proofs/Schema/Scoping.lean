import Mathlib.Data.List.TakeWhile
import MettaSchema.Schema.Build

/-!
# Names in nested scopes

A name without a leading dot stands for the acceptable type in the innermost scope around its place
that has one.  The scopes around a scope are that scope, what stands before any of its dots, and the
root.

* `Encloses`, `mem_enclosing`, `enclosing_descending` — the scopes around a scope, which are listed
  from the inside out.
* `SymbolTable.Offers` — what a scope has to have if a name is to be found there.
* `outward`, `SymbolTable.Walks` — the search, which goes from a scope to the next one around it.
* `SymbolTable.walks_iff` — it ends, with what the name stands for.
* `SymbolTable.resolve_by_scopes` — what a name stands for, said by the scopes around it.
-/

namespace MettaSchema

/-! ## The scopes around a scope -/

/-- A scope is around a scope. -/
inductive Encloses : (outer scope : String) → Prop where
  /-- A scope is around itself. -/
  | itself (scope : String) : Encloses scope scope
  /-- What stands before a dot is around the whole. -/
  | beforeDot (outer rest : String) : Encloses outer (outer ++ "." ++ rest)
  /-- The root is around every scope. -/
  | root (scope : String) : Encloses "" scope

theorem mem_beforeDots {u s : List Char} : u ∈ beforeDots s ↔ ∃ v, s = u ++ '.' :: v := by
  induction s generalizing u with
  | nil => simp [beforeDots]
  | cons c s ih =>
    cases u with
    | nil => by_cases hc : c = '.' <;> simp [beforeDots, hc]
    | cons d u =>
      have hlonger : d :: u ∈ (beforeDots s).map (c :: ·) ↔ c = d ∧ ∃ v, s = u ++ '.' :: v := by
        rw [List.mem_map, ← ih]
        constructor
        · rintro ⟨_, hmem, ⟨⟩⟩
          exact ⟨rfl, hmem⟩
        · rintro ⟨rfl, hmem⟩
          exact ⟨u, hmem, rfl⟩
      by_cases hc : c = '.' <;> simp [beforeDots, hc] at hlonger ⊢ <;> exact hlonger

theorem beforeDots_append (u v : List Char) :
    beforeDots (u ++ '.' :: v) = beforeDots u ++ u :: (beforeDots v).map (u ++ '.' :: ·) := by
  induction u with
  | nil => simp [beforeDots]
  | cons c u ih =>
    simp only [List.cons_append, beforeDots, ih]
    split <;> simp [Function.comp_def]

theorem beforeDots_eq_nil {s : List Char} (h : '.' ∉ s) : beforeDots s = [] := by
  refine List.eq_nil_iff_forall_not_mem.2 fun u hu => h ?_
  obtain ⟨v, rfl⟩ := mem_beforeDots.1 hu
  simp

/-- What stands before a dot is shorter than what stands before a later one. -/
theorem beforeDots_ascending (s : List Char) :
    (beforeDots s).Pairwise (·.length < ·.length) := by
  induction s with
  | nil => exact .nil
  | cons c s ih =>
    have hlonger : ((beforeDots s).map (c :: ·)).Pairwise (·.length < ·.length) :=
      List.pairwise_map.2 (ih.imp fun h => by simpa using h)
    unfold beforeDots
    split
    · exact .cons (by simp) hlonger
    · exact hlonger

theorem mem_enclosing {outer scope : String} : outer ∈ enclosing scope ↔ Encloses outer scope := by
  simp only [enclosing, List.mem_cons, List.mem_map, List.mem_append, List.mem_reverse,
    mem_beforeDots, List.not_mem_nil, or_false]
  constructor
  · rintro (rfl | ⟨u, ⟨v, hv⟩ | rfl, rfl⟩)
    · exact .itself _
    · have hscope : scope = String.ofList u ++ "." ++ String.ofList v := by
        apply String.toList_injective
        simp [hv]
      rw [hscope]
      exact .beforeDot _ _
    · exact .root scope
  · rintro (_ | ⟨_, rest⟩ | _)
    · exact .inl rfl
    · exact .inr ⟨outer.toList, .inl ⟨rest.toList, by simp⟩, by simp⟩
    · exact .inr ⟨[], .inr rfl, rfl⟩

theorem Encloses.isPrefix {outer scope : String} (h : Encloses outer scope) :
    outer.toList <+: scope.toList := by
  cases h with
  | itself => exact List.prefix_rfl
  | beforeDot _ rest => exact ⟨'.' :: rest.toList, by simp⟩
  | root => exact List.nil_prefix

theorem Encloses.length_le {outer scope : String} (h : Encloses outer scope) :
    outer.length ≤ scope.length := by
  simpa only [String.length_toList] using h.isPrefix.length_le

/-- There is one scope of each length around a scope. -/
theorem Encloses.eq_of_length {outer outer' scope : String} (h : Encloses outer scope)
    (h' : Encloses outer' scope) (hlength : outer.length = outer'.length) : outer = outer' := by
  have heq : outer.toList.length = outer'.toList.length := by
    rw [String.length_toList, String.length_toList, hlength]
  have hinitial := List.prefix_of_prefix_length_le h.isPrefix h'.isPrefix heq.le
  exact String.toList_injective (hinitial.eq_of_length heq)

/-- The root is the only scope around itself; it is listed twice. -/
theorem enclosing_root : enclosing "" = ["", ""] := by decide

/-- The scopes around a scope are listed from the longest to the shortest. -/
theorem enclosing_descending (scope : String) :
    (enclosing scope).Pairwise fun inner outer => outer.length ≤ inner.length := by
  have hlonger : ∀ outer ∈ enclosing scope, outer.length ≤ scope.length :=
    fun outer houter => (mem_enclosing.1 houter).length_le
  rw [enclosing] at hlonger ⊢
  rw [List.pairwise_cons, List.pairwise_map, List.pairwise_append, List.pairwise_reverse]
  refine ⟨fun outer houter => hlonger outer (List.mem_cons_of_mem _ houter), ?_, ?_, ?_⟩
  · refine (beforeDots_ascending scope.toList).imp fun h => ?_
    simpa using Nat.le_of_lt h
  · exact .cons nofun .nil
  · simp

/-! ## What is found in them -/

/-- The name is no full name: it has no leading dot. -/
def RelativeName (name : String) : Prop := ∀ fullName, name.toList ≠ '.' :: fullName

/-- The first value in a list whose members grow smaller belongs to the largest member with a
value. -/
theorem findSome?_eq_some_iff_of_descending {α β : Type} {size : α → Nat} {f : α → Option β}
    {xs : List α} (hsorted : xs.Pairwise fun a b => size b ≤ size a)
    (hsize : ∀ a ∈ xs, ∀ b ∈ xs, size a = size b → a = b) {y : β} :
    xs.findSome? f = some y ↔ ∃ a ∈ xs, f a = some y ∧ ∀ b ∈ xs, size a < size b → f b = none := by
  have hlargest {y : β} (h : xs.findSome? f = some y) :
      ∃ a ∈ xs, f a = some y ∧ ∀ b ∈ xs, size a < size b → f b = none := by
    obtain ⟨before, a, behind, rfl, ha, hbefore⟩ := List.findSome?_eq_some_iff.1 h
    refine ⟨a, by simp, ha, fun b hb hlt => ?_⟩
    have hbehind := (List.pairwise_cons.1 (List.pairwise_append.1 hsorted).2.1).1
    rcases List.mem_append.1 hb with hb | hb
    · exact hbefore b hb
    · rcases List.mem_cons.1 hb with rfl | hb
      · omega
      · have := hbehind b hb
        omega
  refine ⟨hlargest, fun ⟨a, hmem, ha, hlarger⟩ => ?_⟩
  cases hfirst : xs.findSome? f with
  | none => rw [List.findSome?_eq_none_iff.1 hfirst a hmem] at ha; cases ha
  | some z =>
    -- neither of the two members with a value can be larger than the other
    obtain ⟨b, hmemb, hb, hlargerb⟩ := hlargest hfirst
    rcases Nat.lt_trichotomy (size a) (size b) with hlt | heq | hgt
    · rw [hlarger b hmemb hlt] at hb; cases hb
    · obtain rfl := hsize a hmem b hmemb heq
      rw [← hb, ha]
    · rw [hlargerb a hmem hgt] at ha; cases ha

namespace SymbolTable

variable {table : SymbolTable} {accept : SymbolKind → Bool}

/-- An acceptable type of the given kind is declared under a full name. -/
def Offers (table : SymbolTable) (accept : SymbolKind → Bool) (fullName : String)
    (kind : SymbolKind) : Prop :=
  table.find? fullName = some kind ∧ accept kind = true

theorem accepted?_eq_some {fullName : String} {symbol : String × SymbolKind} :
    table.accepted? accept fullName = some symbol
      ↔ symbol.1 = fullName ∧ table.Offers accept fullName symbol.2 := by
  obtain ⟨name, kind⟩ := symbol
  unfold accepted? Offers
  cases table.find? fullName with
  | none => simp
  | some kind' =>
    by_cases haccept : accept kind' = true <;> simp [haccept] <;> grind

theorem accepted?_of_offers {fullName : String} {kind : SymbolKind}
    (h : table.Offers accept fullName kind) :
    table.accepted? accept fullName = some (fullName, kind) :=
  accepted?_eq_some.2 ⟨rfl, h⟩

theorem accepted?_eq_none {fullName : String} :
    table.accepted? accept fullName = none ↔ ∀ kind, ¬ table.Offers accept fullName kind := by
  rw [Option.eq_none_iff_forall_ne_some]
  constructor
  · exact fun h kind hoffers => h (fullName, kind) (accepted?_of_offers hoffers)
  · exact fun h symbol hsymbol => h symbol.2 (accepted?_eq_some.1 hsymbol).2

theorem resolve_of_relative (table : SymbolTable) {name : String} (hname : RelativeName name)
    (accept : SymbolKind → Bool) (scope : String) : table.resolve accept scope name
      = (enclosing scope).findSome? fun outer => table.accepted? accept (qualify outer name) := by
  unfold resolve
  split
  · rename_i fullName h
    exact absurd h (hname fullName)
  · rfl

/-- A name with a leading dot is a full name. -/
theorem resolve_absolute_eq (table : SymbolTable) (accept : SymbolKind → Bool)
    (scope fullName : String) :
    table.resolve accept scope ("." ++ fullName) = table.accepted? accept fullName := by
  have hname : ("." ++ fullName).toList = '.' :: fullName.toList := by simp
  simp [resolve, hname]

theorem resolve_eq_some_iff {scope name : String} (hname : RelativeName name)
    {fullName : String} {kind : SymbolKind} :
    table.resolve accept scope name = some (fullName, kind) ↔
      ∃ outer, Encloses outer scope ∧ fullName = qualify outer name
        ∧ table.Offers accept fullName kind
        ∧ ∀ inner, Encloses inner scope → outer.length < inner.length →
            ∀ kind', ¬ table.Offers accept (qualify inner name) kind' := by
  have hsize : ∀ a ∈ enclosing scope, ∀ b ∈ enclosing scope, a.length = b.length → a = b :=
    fun a ha b hb => (mem_enclosing.1 ha).eq_of_length (mem_enclosing.1 hb)
  rw [resolve_of_relative table hname,
    findSome?_eq_some_iff_of_descending (enclosing_descending scope) hsize]
  simp only [mem_enclosing, accepted?_eq_some, accepted?_eq_none]
  constructor
  · rintro ⟨outer, houter, ⟨rfl, hoffers⟩, hinner⟩
    exact ⟨outer, houter, rfl, hoffers, hinner⟩
  · rintro ⟨outer, houter, rfl, hoffers, hinner⟩
    exact ⟨outer, houter, ⟨rfl, hoffers⟩, hinner⟩

theorem resolve_eq_none_iff {scope name : String} (hname : RelativeName name) :
    table.resolve accept scope name = none ↔
      ∀ outer, Encloses outer scope → ∀ kind, ¬ table.Offers accept (qualify outer name) kind := by
  rw [resolve_of_relative table hname, List.findSome?_eq_none_iff]
  simp only [mem_enclosing, accepted?_eq_none]

end SymbolTable

/-! ## The search -/

/-- The next scope around a scope: what stands before its last dot, or the root if there is no
dot. -/
def outward (scope : String) : String :=
  String.ofList ((scope.toList.reverse.dropWhile (· != '.')).drop 1).reverse

/-- Either there is no dot in a text, or there is a last one. -/
theorem exists_last_dot (s : List Char) : '.' ∉ s ∨ ∃ u v, s = u ++ '.' :: v ∧ '.' ∉ v := by
  by_cases h : '.' ∈ s.reverse
  · obtain ⟨v, u, hs, hv⟩ := List.eq_append_cons_of_mem h
    refine .inr ⟨u.reverse, v.reverse, ?_, by simpa using hv⟩
    rw [← List.reverse_reverse s, hs]
    simp
  · exact .inl (by simpa using h)

theorem outward_of_no_dot {scope : String} (h : '.' ∉ scope.toList) : outward scope = "" := by
  have hdrop : scope.toList.reverse.dropWhile (· != '.') = [] := by
    refine List.dropWhile_eq_nil_iff.2 fun c hc => ?_
    simp only [bne_iff_ne]
    rintro rfl
    exact h (List.mem_reverse.1 hc)
  simp [outward, hdrop]

theorem outward_of_dot {scope : String} {u v : List Char} (hscope : scope.toList = u ++ '.' :: v)
    (hv : '.' ∉ v) : outward scope = String.ofList u := by
  have hall : ∀ c ∈ v.reverse, (c != '.') = true := by
    intro c hc
    simp only [bne_iff_ne]
    rintro rfl
    exact hv (List.mem_reverse.1 hc)
  have hdrop : scope.toList.reverse.dropWhile (· != '.') = '.' :: u.reverse := by
    rw [hscope, List.reverse_append, List.reverse_cons, List.append_assoc,
      List.dropWhile_append_of_pos hall]
    rfl
  simp [outward, hdrop]

theorem length_outward {scope : String} (h : scope ≠ "") :
    (outward scope).length < scope.length := by
  rcases exists_last_dot scope.toList with hdot | ⟨u, v, hscope, hv⟩
  · rw [outward_of_no_dot hdot]
    simpa [Nat.pos_iff_ne_zero] using h
  · rw [outward_of_dot hscope hv, ← String.length_toList, ← String.length_toList, hscope]
    simp

/-- The scopes around a scope are that scope and those around the next one. -/
theorem findSome?_enclosing {α : Type} (f : String → Option α) (scope : String) :
    (enclosing scope).findSome? f
      = (f scope).or ((enclosing (outward scope)).findSome? f) := by
  rcases exists_last_dot scope.toList with hdot | ⟨u, v, hscope, hv⟩
  · have hlist : enclosing scope = [scope, ""] := by
      rw [enclosing, beforeDots_eq_nil hdot]
      rfl
    rw [outward_of_no_dot hdot, enclosing_root, hlist]
    cases hscope : f scope <;> cases hempty : f "" <;> simp [hscope, hempty]
  · have hlist : enclosing scope = scope :: enclosing (String.ofList u) := by
      rw [enclosing, hscope, beforeDots_append, beforeDots_eq_nil hv, enclosing]
      simp
    rw [outward_of_dot hscope hv, hlist, List.findSome?_cons]
    cases f scope <;> rfl

namespace SymbolTable

/-- Looking for a name, from a scope outward: the search ends with the first acceptable type, or
behind the root. -/
inductive Walks (table : SymbolTable) (accept : SymbolKind → Bool) (name : String) :
    (scope : String) → (found : Option (String × SymbolKind)) → Prop where
  /-- The scope has an acceptable type of the name. -/
  | here {scope : String} {kind : SymbolKind} (h : table.Offers accept (qualify scope name) kind) :
      Walks table accept name scope (some (qualify scope name, kind))
  /-- The root has none. -/
  | nowhere (h : ∀ kind, ¬ table.Offers accept (qualify "" name) kind) :
      Walks table accept name "" none
  /-- Another scope has none, and the search goes on around it. -/
  | further {scope : String} {found : Option (String × SymbolKind)}
      (h : ∀ kind, ¬ table.Offers accept (qualify scope name) kind) (hscope : scope ≠ "")
      (rest : Walks table accept name (outward scope) found) : Walks table accept name scope found

variable {table : SymbolTable} {accept : SymbolKind → Bool} {name : String}

theorem Walks.resolve_eq (hname : RelativeName name) {scope : String}
    {found : Option (String × SymbolKind)} (h : table.Walks accept name scope found) :
    table.resolve accept scope name = found := by
  rw [resolve_of_relative table hname]
  induction h with
  | here hoffers =>
    rw [findSome?_enclosing, accepted?_of_offers hoffers]
    rfl
  | nowhere hnone =>
    rw [enclosing_root]
    simp [accepted?_eq_none.2 hnone]
  | further hnone _ _ ih =>
    rw [findSome?_enclosing, accepted?_eq_none.2 hnone, ih]
    rfl

/-- The search ends from every scope, since the next scope around a scope is shorter. -/
theorem exists_walks (table : SymbolTable) (accept : SymbolKind → Bool) (name scope : String) :
    ∃ found, table.Walks accept name scope found := by
  induction hlength : scope.length using Nat.strongRecOn generalizing scope with
  | ind length ih =>
    rcases Classical.em (∃ kind, table.Offers accept (qualify scope name) kind) with
      ⟨kind, hkind⟩ | hoffers
    · exact ⟨_, .here hkind⟩
    · have hnone := not_exists.1 hoffers
      rcases Classical.em (scope = "") with rfl | hscope
      · exact ⟨none, .nowhere hnone⟩
      · have hshorter := length_outward hscope
        rw [hlength] at hshorter
        obtain ⟨found, hfound⟩ := ih _ hshorter (outward scope) rfl
        exact ⟨found, .further hnone hscope hfound⟩

/-- The search for a name ends with what the name stands for. -/
theorem walks_iff (hname : RelativeName name) {scope : String}
    {found : Option (String × SymbolKind)} :
    table.Walks accept name scope found ↔ table.resolve accept scope name = found := by
  refine ⟨Walks.resolve_eq hname, ?_⟩
  rintro rfl
  obtain ⟨found, hfound⟩ := table.exists_walks accept name scope
  rwa [hfound.resolve_eq hname]

/-! ## What names stand for -/

/-- A name without a leading dot stands for the acceptable type of the innermost scope that has
one, and for nothing if no scope around it has one; the search for it ends there, from every scope.
A name with a leading dot stands for the acceptable type under the rest of the name. -/
theorem resolve_by_scopes (table : SymbolTable) (accept : SymbolKind → Bool) (scope : String) :
    (∀ name, RelativeName name →
      (∀ fullName kind, table.resolve accept scope name = some (fullName, kind) ↔
        ∃ outer, Encloses outer scope ∧ fullName = qualify outer name
          ∧ table.Offers accept fullName kind
          ∧ ∀ inner, Encloses inner scope → outer.length < inner.length →
              ∀ kind', ¬ table.Offers accept (qualify inner name) kind')
      ∧ (table.resolve accept scope name = none ↔
        ∀ outer, Encloses outer scope →
          ∀ kind, ¬ table.Offers accept (qualify outer name) kind)
      ∧ (∃ found, table.Walks accept name scope found)
      ∧ ∀ found, table.Walks accept name scope found ↔ table.resolve accept scope name = found)
    ∧ ∀ rest fullName kind, table.resolve accept scope ("." ++ rest) = some (fullName, kind) ↔
        fullName = rest ∧ table.Offers accept rest kind := by
  refine ⟨fun name hname => ⟨fun _ _ => ?_, ?_, ?_, fun _ => ?_⟩, fun rest fullName kind => ?_⟩
  · exact resolve_eq_some_iff hname
  · exact resolve_eq_none_iff hname
  · exact table.exists_walks accept name scope
  · exact walks_iff hname
  · rw [resolve_absolute_eq, accepted?_eq_some]

/-- Where only messages are acceptable, an enum of the name is passed over for a message of a scope
further out. -/
theorem resolve_by_scopes_message :
    let table : SymbolTable := ⟨[("pkg.Svc.Foo", .enum), ("pkg.Foo", .message)]⟩
    RelativeName "Foo" ∧ ∃ outer, Encloses outer "pkg.Svc" ∧ "pkg.Foo" = qualify outer "Foo"
      ∧ table.Offers messagesOnly "pkg.Foo" .message
      ∧ ∀ inner, Encloses inner "pkg.Svc" → outer.length < inner.length →
          ∀ kind', ¬ table.Offers messagesOnly (qualify inner "Foo") kind' := by
  intro table
  have hname : RelativeName "Foo" := fun _ h => by simp at h
  have hfound : table.resolve messagesOnly "pkg.Svc" "Foo" = some ("pkg.Foo", .message) := by
    decide
  have hinnermost := ((resolve_by_scopes table messagesOnly "pkg.Svc").1 "Foo" hname).1
  exact ⟨hname, (hinnermost "pkg.Foo" .message).1 hfound⟩

end SymbolTable

end MettaSchema
