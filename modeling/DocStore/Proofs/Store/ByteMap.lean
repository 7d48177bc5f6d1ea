/-
Ordered maps by their lookups. What a map holds determines it, an insertion and a removal change
the lookup of one key only, and both leave the other entries in place.
-/
import DocStore.Store.ByteMap
import DocStore.Proofs.Ranked
import Mathlib.Data.List.Sort
import Mathlib.Tactic

namespace DocStore

namespace Ranked

variable {α : Type}

theorem Ascending.eq_of_mem_iff {a b : List (Bytes × α)} (ha : Ascending id a)
    (hb : Ascending id b) (h : ∀ e, e ∈ a ↔ e ∈ b) : a = b := by
  have irrefl : Std.Irrefl fun x y : Bytes × α => id x.1 < id y.1 := ⟨fun _ => List.lt_irrefl _⟩
  have antisymm : Std.Antisymm fun x y : Bytes × α => id x.1 < id y.1 :=
    ⟨fun _ _ hxy hyx => absurd (List.lt_trans hxy hyx) (List.lt_irrefl _)⟩
  exact List.Pairwise.eq_of_mem_iff ha hb h

theorem Ascending.mem_insert_iff {entries : List (Bytes × α)} (h : Ascending id entries)
    (key : Bytes) (value : α) (e : Bytes × α) :
    e ∈ Ranked.insert id key value entries ↔ e = (key, value) ∨ e ∈ entries ∧ e.1 ≠ key := by
  induction entries with
  | nil => simp [Ranked.insert]
  | cons entry rest ih =>
    obtain ⟨above, tail⟩ := List.pairwise_cons.1 h
    have ne_of_lt : ∀ x ∈ rest, ∀ k : Bytes, k < entry.1 ∨ k = entry.1 → x.1 ≠ k := by
      intro x hx k hk hxk
      have hlt : entry.1 < k := hxk ▸ above x hx
      rcases hk with hk | hk
      · exact List.lt_irrefl _ (List.lt_trans hk hlt)
      · exact List.lt_irrefl _ (hk ▸ hlt)
    rw [Ranked.insert]
    split
    · rename_i hlt
      have hne : entry.1 ≠ key := fun he => List.lt_irrefl _ (he ▸ hlt)
      constructor
      · intro he
        rcases List.mem_cons.1 he with rfl | he
        · exact .inl rfl
        · refine .inr ⟨he, ?_⟩
          rcases List.mem_cons.1 he with rfl | hmem
          · exact hne
          · exact ne_of_lt e hmem key (.inl hlt)
      · rintro (rfl | ⟨he, -⟩)
        · exact List.mem_cons_self
        · exact List.mem_cons_of_mem _ he
    · split
      · rename_i heq
        constructor
        · intro he
          rcases List.mem_cons.1 he with rfl | he
          · exact .inl rfl
          · exact .inr ⟨List.mem_cons_of_mem _ he, ne_of_lt e he key (.inr heq)⟩
        · rintro (rfl | ⟨he, hne⟩)
          · exact List.mem_cons_self
          · rcases List.mem_cons.1 he with rfl | he
            · exact absurd heq.symm hne
            · exact List.mem_cons_of_mem _ he
      · rename_i hne
        rw [List.mem_cons, ih tail, List.mem_cons]
        constructor
        · rintro (rfl | rfl | ⟨he, hk⟩)
          · exact .inr ⟨.inl rfl, fun h => hne h.symm⟩
          · exact .inl rfl
          · exact .inr ⟨.inr he, hk⟩
        · rintro (rfl | ⟨rfl | he, hk⟩)
          · exact .inr (.inl rfl)
          · exact .inl rfl
          · exact .inr (.inr ⟨he, hk⟩)

end Ranked

namespace ByteMap

/-! ## What a map holds -/

theorem eq_of_entries {a b : ByteMap} (h : a.entries = b.entries) : a = b := by
  cases a; cases b; cases h; rfl

theorem eq_of_mem_iff {a b : ByteMap} (h : ∀ e, e ∈ a.entries ↔ e ∈ b.entries) : a = b :=
  eq_of_entries (a.ascending.eq_of_mem_iff b.ascending h)

theorem get?_eq_some_iff (map : ByteMap) (key value : Bytes) :
    map.get? key = some value ↔ (key, value) ∈ map.entries :=
  map.ascending.lookup_eq_some_iff key value

theorem eq_of_get? {a b : ByteMap} (h : ∀ key, a.get? key = b.get? key) : a = b :=
  eq_of_mem_iff fun e => by rw [← get?_eq_some_iff, h, get?_eq_some_iff]

/-! ## Insertion and removal -/

theorem mem_insert_iff (map : ByteMap) (key value : Bytes) (e : Bytes × Bytes) :
    e ∈ (map.insert key value).entries ↔ e = (key, value) ∨ e ∈ map.entries ∧ e.1 ≠ key :=
  map.ascending.mem_insert_iff key value e

theorem mem_erase_iff (map : ByteMap) (key : Bytes) (e : Bytes × Bytes) :
    e ∈ (map.erase key).entries ↔ e ∈ map.entries ∧ e.1 ≠ key := by
  simp [erase]

theorem get?_insert (map : ByteMap) (key value other : Bytes) :
    (map.insert key value).get? other = if other = key then some value else map.get? other := by
  apply Option.ext
  intro v
  rw [get?_eq_some_iff, mem_insert_iff]
  split
  · rename_i h; subst h; simp [eq_comm]
  · rename_i h; simp [h, get?_eq_some_iff]

theorem get?_erase (map : ByteMap) (key other : Bytes) :
    (map.erase key).get? other = if other = key then none else map.get? other := by
  apply Option.ext
  intro v
  rw [get?_eq_some_iff, mem_erase_iff]
  split
  · rename_i h; simp [h]
  · rename_i h; simp [h, get?_eq_some_iff]

@[simp] theorem get?_insert_self (map : ByteMap) (key value : Bytes) :
    (map.insert key value).get? key = some value := by
  rw [get?_insert, if_pos rfl]

@[simp] theorem get?_erase_self (map : ByteMap) (key : Bytes) : (map.erase key).get? key = none := by
  rw [get?_erase, if_pos rfl]

theorem get?_insert_of_ne (map : ByteMap) {key other : Bytes} (value : Bytes) (h : other ≠ key) :
    (map.insert key value).get? other = map.get? other := by
  rw [get?_insert, if_neg h]

theorem get?_erase_of_ne (map : ByteMap) {key other : Bytes} (h : other ≠ key) :
    (map.erase key).get? other = map.get? other := by
  rw [get?_erase, if_neg h]

theorem get?_erase_eq_none {map : ByteMap} {key : Bytes} (h : map.get? key = none) (other : Bytes) :
    (map.erase other).get? key = none := by
  rw [get?_erase, h, ite_self]

theorem get?_of_get?_erase {map : ByteMap} {key other value : Bytes}
    (h : (map.erase other).get? key = some value) : map.get? key = some value := by
  rw [get?_erase] at h
  split at h
  · cases h
  · exact h

/-- A key above all others goes to the end. -/
theorem entries_insert_of_forall_lt {map : ByteMap} {key : Bytes} (h : ∀ e ∈ map.entries, e.1 < key)
    (value : Bytes) : (map.insert key value).entries = map.entries ++ [(key, value)] := by
  refine (map.insert key value).ascending.eq_of_mem_iff ?_ fun e => ?_
  · refine List.pairwise_append.2 ⟨map.ascending, List.pairwise_singleton _ _, ?_⟩
    intro e he last hlast
    rw [List.mem_singleton.1 hlast]
    exact h e he
  · rw [mem_insert_iff, List.mem_append, List.mem_singleton]
    constructor
    · rintro (rfl | ⟨he, -⟩)
      · exact .inr rfl
      · exact .inl he
    · rintro (he | rfl)
      · exact .inr ⟨he, fun heq => List.lt_irrefl _ (heq ▸ h e he)⟩
      · exact .inl rfl

/-- A removal takes one entry out from between the others. -/
theorem entries_erase_of_eq {map : ByteMap} {before after : List (Bytes × Bytes)} {e : Bytes × Bytes}
    (h : map.entries = before ++ e :: after) : (map.erase e.1).entries = before ++ after := by
  have hsorted := map.ascending
  rw [h] at hsorted
  obtain ⟨-, htail, hbefore⟩ := List.pairwise_append.1 hsorted
  have hkept : ∀ x ∈ before ++ after, x.1 ≠ e.1 := by
    intro x hx heq
    rcases List.mem_append.1 hx with hx | hx
    · exact List.lt_irrefl _ (heq ▸ hbefore x hx e List.mem_cons_self)
    · exact List.lt_irrefl _ (heq ▸ (List.pairwise_cons.1 htail).1 x hx)
  show map.entries.filter _ = _
  rw [h, List.filter_append, List.filter_cons_of_neg (by simp), ← List.filter_append,
    List.filter_eq_self]
  intro x hx
  simpa using hkept x hx

end ByteMap

end DocStore
