import Mathlib.Data.List.Forall2
import MettaSchema.Schema.Basic

/-!
# Keyed lists

What is in a keyed list after entries have been put into it one after another: of two entries
with one key the later one.

* `Keyed.mem_ofList_cons` — an entry is in the list unless a later one has its key.
* `Keyed.key_mem_ofList` — no key is lost.
* `Keyed.forall₂_ofList` — of lists that correspond the same entries stay.
* `Keyed.ofList_eq_self` — entries with distinct keys stay as they are.
-/

namespace MettaSchema

namespace Keyed

variable {α : Type}

/-- The keys of some entries. -/
def keys (entries : List (String × α)) : List String := entries.map (·.1)

@[simp] theorem keys_cons (p : String × α) (entries : List (String × α)) :
    keys (p :: entries) = p.1 :: keys entries := rfl

/-- Putting in an entry adds its key and nothing else. -/
theorem mem_keys_insert {key k : String} {value : α} {map : List (String × α)} :
    k ∈ keys (insert key value map) ↔ k = key ∨ k ∈ keys map := by
  induction map with
  | nil => simp [insert, keys]
  | cons p map ih =>
    obtain ⟨k', v'⟩ := p
    unfold insert
    split
    · rename_i h
      subst h
      simp
    · simp only [keys_cons, List.mem_cons, ih]
      grind

theorem nodup_insert {key : String} {value : α} {map : List (String × α)}
    (h : (keys map).Nodup) : (keys (insert key value map)).Nodup := by
  induction map with
  | nil => simp [insert, keys]
  | cons p map ih =>
    obtain ⟨k', v'⟩ := p
    rw [keys_cons, List.nodup_cons] at h
    unfold insert
    split
    · rw [keys_cons, List.nodup_cons]
      rename_i hk
      exact ⟨hk ▸ h.1, h.2⟩
    · rename_i hk
      rw [keys_cons, List.nodup_cons]
      refine ⟨fun hmem => ?_, ih h.2⟩
      rcases mem_keys_insert.1 hmem with rfl | hmem
      · exact hk rfl
      · exact h.1 hmem

/-- What is in a list after an entry has been put into it. -/
theorem mem_insert {p : String × α} {key : String} {value : α} {map : List (String × α)}
    (h : (keys map).Nodup) :
    p ∈ insert key value map ↔ p = (key, value) ∨ (p ∈ map ∧ p.1 ≠ key) := by
  induction map with
  | nil => simp [insert]
  | cons q map ih =>
    obtain ⟨k', v'⟩ := q
    rw [keys_cons, List.nodup_cons] at h
    unfold insert
    split
    · rename_i hk
      subst hk
      have hother : p ∈ map → p.1 ≠ k' := by
        rintro hp rfl
        exact h.1 (List.mem_map.2 ⟨p, hp, rfl⟩)
      simp only [List.mem_cons]
      grind
    · rename_i hk
      simp only [List.mem_cons, ih h.2]
      grind

/-- A map of one entry. -/
theorem nodup_insert_nil (key : String) (value : α) : (keys (insert key value [])).Nodup := by
  simp [insert, keys]

theorem mem_foldl_insert {p : String × α} (entries : List (String × α)) :
    ∀ {map : List (String × α)}, (keys map).Nodup →
      (p ∈ entries.foldl (fun map entry => insert entry.1 entry.2 map) map
        ↔ (p ∈ map ∧ p.1 ∉ keys entries) ∨ p ∈ ofList entries) := by
  induction entries with
  | nil => simp [keys, ofList]
  | cons q entries ih =>
    intro map hmap
    rw [ofList, List.foldl_cons, List.foldl_cons, ih (nodup_insert hmap),
      ih (nodup_insert_nil q.1 q.2), mem_insert hmap, mem_insert (by simp [keys]), keys_cons]
    simp only [List.mem_cons, List.not_mem_nil]
    grind

/-- The first of some entries is kept unless a later one has its key. -/
theorem mem_ofList_cons {p q : String × α} {entries : List (String × α)} :
    p ∈ ofList (q :: entries) ↔ (p = q ∧ q.1 ∉ keys entries) ∨ p ∈ ofList entries := by
  rw [ofList, List.foldl_cons, mem_foldl_insert entries (nodup_insert_nil q.1 q.2),
    mem_insert (by simp [keys])]
  grind

/-- Of the entries under one key, the last is kept. -/
theorem key_mem_ofList {k : String} {entries : List (String × α)} (h : k ∈ keys entries) :
    ∃ v, (k, v) ∈ ofList entries := by
  induction entries with
  | nil => simp [keys] at h
  | cons q entries ih =>
    by_cases hlater : k ∈ keys entries
    · obtain ⟨v, hv⟩ := ih hlater
      exact ⟨v, mem_ofList_cons.2 (.inr hv)⟩
    · obtain rfl : k = q.1 := by simpa [hlater] using h
      exact ⟨q.2, mem_ofList_cons.2 (.inl ⟨rfl, hlater⟩)⟩

/-- Nothing is kept that was not put in. -/
theorem mem_of_mem_ofList {p : String × α} {entries : List (String × α)} (h : p ∈ ofList entries) :
    p ∈ entries := by
  induction entries with
  | nil => exact absurd h (by simp [ofList])
  | cons q entries ih =>
    rcases mem_ofList_cons.1 h with ⟨rfl, -⟩ | h
    · simp
    · exact List.mem_cons_of_mem q (ih h)

theorem nodup_keys_ofList (entries : List (String × α)) : (keys (ofList entries)).Nodup := by
  have hfold : ∀ map : List (String × α), (keys map).Nodup →
      (keys (entries.foldl (fun map entry => insert entry.1 entry.2 map) map)).Nodup := by
    induction entries with
    | nil => exact fun _ h => h
    | cons entry entries ih => exact fun map h => ih _ (nodup_insert h)
  exact hfold [] List.nodup_nil

/-! ## Distinct keys -/

theorem eq_of_key_eq {p q : String × α} {entries : List (String × α)} (h : (keys entries).Nodup)
    (hp : p ∈ entries) (hq : q ∈ entries) (hkey : p.1 = q.1) : p = q := by
  induction entries with
  | nil => cases hp
  | cons r entries ih =>
    rw [keys_cons, List.nodup_cons] at h
    have hother {x : String × α} (hx : x ∈ entries) : r.1 ≠ x.1 :=
      fun heq => h.1 (List.mem_map.2 ⟨x, hx, heq.symm⟩)
    rcases List.mem_cons.1 hp with rfl | hp'
    · rcases List.mem_cons.1 hq with rfl | hq'
      · rfl
      · exact absurd hkey (hother hq')
    · rcases List.mem_cons.1 hq with rfl | hq'
      · exact absurd hkey.symm (hother hp')
      · exact ih h.2 hp' hq'

theorem insert_eq_append {key : String} {value : α} {map : List (String × α)}
    (h : key ∉ keys map) : insert key value map = map ++ [(key, value)] := by
  induction map with
  | nil => rfl
  | cons p map ih =>
    obtain ⟨k', v'⟩ := p
    rw [keys_cons, List.mem_cons, not_or] at h
    rw [insert, if_neg (Ne.symm h.1), ih h.2, List.cons_append]

theorem foldl_insert_eq_append (entries : List (String × α)) :
    ∀ {map : List (String × α)}, (keys entries).Nodup → (∀ k ∈ keys entries, k ∉ keys map) →
      entries.foldl (fun map entry => insert entry.1 entry.2 map) map = map ++ entries := by
  induction entries with
  | nil => simp
  | cons q entries ih =>
    intro map hnodup hdisjoint
    rw [keys_cons, List.nodup_cons] at hnodup
    have hq : q.1 ∉ keys map := hdisjoint q.1 (by simp)
    rw [List.foldl_cons, insert_eq_append hq, ih hnodup.2]
    · simp
    · intro k hk hmem
      simp only [keys, List.map_append, List.map_cons, List.map_nil, List.mem_append,
        List.mem_singleton] at hmem
      rcases hmem with hmem | rfl
      · exact hdisjoint k (List.mem_cons_of_mem _ hk) hmem
      · exact hnodup.1 hk

/-- Entries with distinct keys stay as they are. -/
theorem ofList_eq_self {entries : List (String × α)} (h : (keys entries).Nodup) :
    ofList entries = entries := by
  rw [ofList, foldl_insert_eq_append entries h (by simp [keys]), List.nil_append]

/-! ## Entries that correspond -/

section Corresponding

variable {β : Type} {R : String × α → String × β → Prop} (hkey : ∀ p q, R p q → p.1 = q.1)

include hkey

theorem forall₂_insert {map : List (String × α)} {map' : List (String × β)}
    (h : List.Forall₂ R map map') {p : String × α} {q : String × β} (hpq : R p q) :
    List.Forall₂ R (insert p.1 p.2 map) (insert q.1 q.2 map') := by
  induction h with
  | nil => exact .cons hpq .nil
  | @cons first first' rest rest' hfirst hrest ih =>
    obtain ⟨key, value⟩ := p
    obtain ⟨key', value'⟩ := q
    obtain ⟨k, v⟩ := first
    obtain ⟨k', v'⟩ := first'
    obtain rfl : key = key' := hkey _ _ hpq
    obtain rfl : k = k' := hkey _ _ hfirst
    unfold insert
    split
    · rename_i hk
      subst hk
      exact .cons hpq hrest
    · exact .cons hfirst ih

/-- Of entries that correspond one by one those stay that correspond. -/
theorem forall₂_ofList {entries : List (String × α)} {entries' : List (String × β)}
    (h : List.Forall₂ R entries entries') :
    List.Forall₂ R (ofList entries) (ofList entries') :=
  List.rel_foldl (P := List.Forall₂ R) (R := R)
    (fun _ _ hmap _ _ hpq => forall₂_insert hkey hmap hpq) .nil h

end Corresponding

/-- The values of the entries can be mapped before or behind. -/
theorem ofList_map {β : Type} (f : α → β) (entries : List (String × α)) :
    ofList (entries.map fun e => (e.1, f e.2)) = (ofList entries).map fun e => (e.1, f e.2) := by
  have hkey : ∀ (p : String × α) (q : String × β), (p.1, f p.2) = q → p.1 = q.1 := by
    rintro p q rfl
    rfl
  have hmap : List.Forall₂ (fun p q => (p.1, f p.2) = q) entries
      (entries.map fun e => (e.1, f e.2)) := by
    rw [List.forall₂_map_right_iff, List.forall₂_same]
    exact fun _ _ => rfl
  have hof := forall₂_ofList hkey hmap
  rw [← List.forall₂_map_left_iff (f := fun e : String × α => (e.1, f e.2)), List.forall₂_eq_eq_eq] at hof
  exact hof.symm

end Keyed

end MettaSchema
