/-
The view of a namespace: the ordered map of its own keys, each without the stem. Writes and scans
in the store are writes and scans of the view, and a write through one namespace leaves the views
of all others as they were, as long as the length of every name fits the four bytes it is stored
in: no stored key belongs to two namespaces then.
-/
import DocStore.Proofs.ByteOrder
import DocStore.Proofs.Store.Scan
import DocStore.Store.Namespace

namespace DocStore

namespace Namespace

/-! ## Stored keys -/

/-- The length of every name fits the four bytes that the stem has for it. -/
def Fits (space : Namespace) : Prop := ∀ name ∈ space.names, (utf8 name).length < 2 ^ 32

instance (space : Namespace) : Decidable space.Fits :=
  inferInstanceAs (Decidable (∀ name ∈ space.names, _))

theorem utf8_inj {s t : String} (h : utf8 s = utf8 t) : s = t := by
  have := congrArg ofUtf8? h
  simpa [ofUtf8?_utf8] using this

/-- The length before the name tells where a name ends. -/
theorem nameStem_append_inj {s t : String} (hs : (utf8 s).length < 2 ^ 32)
    (ht : (utf8 t).length < 2 ^ 32) {a b : Bytes} (h : nameStem s ++ a = nameStem t ++ b) :
    s = t ∧ a = b := by
  unfold nameStem at h
  simp only [List.cons_append, List.append_assoc, List.cons.injEq, true_and] at h
  obtain ⟨hlen, hrest⟩ := List.append_inj h (by simp)
  have hsize : UInt32.size - 1 = 2 ^ 32 - 1 := rfl
  rw [hsize, Nat.min_eq_left (by omega), Nat.min_eq_left (by omega)] at hlen
  obtain ⟨hname, htail⟩ := List.append_inj hrest (bigEndian_inj (by omega) (by omega) hlen)
  exact ⟨utf8_inj hname, htail⟩

/-- A stored key belongs to one namespace only, and is there the stored form of one key only. -/
theorem dataKey_inj {a b : Namespace} (ha : a.Fits) (hb : b.Fits) {k l : Bytes}
    (h : a.dataKey k = b.dataKey l) : a = b ∧ k = l := by
  obtain ⟨names⟩ := a
  obtain ⟨others⟩ := b
  unfold dataKey stem at h
  unfold Fits at ha hb
  induction names generalizing others with
  | nil =>
    cases others with
    | nil => exact ⟨rfl, by simpa using h⟩
    | cons other others => simp [nameStem] at h
  | cons name names ih =>
    cases others with
    | nil => simp [nameStem] at h
    | cons other others =>
      simp only [List.flatMap_cons, List.append_assoc] at h
      obtain ⟨rfl, hrest⟩ := nameStem_append_inj (ha name List.mem_cons_self)
        (hb other List.mem_cons_self) h
      obtain ⟨hspace, hkey⟩ := ih (fun n hn => ha n (List.mem_cons_of_mem _ hn)) others
        (fun n hn => hb n (List.mem_cons_of_mem _ hn)) hrest
      cases hspace
      exact ⟨rfl, hkey⟩

theorem dataKey_inj_right (space : Namespace) {k l : Bytes} (h : space.dataKey k = space.dataKey l) :
    k = l := by
  simpa [dataKey] using h

@[simp] theorem dataKey_lt_dataKey_iff (space : Namespace) (k l : Bytes) :
    space.dataKey k < space.dataKey l ↔ k < l := by
  simp [dataKey]

@[simp] theorem dataKey_le_dataKey_iff (space : Namespace) (k l : Bytes) :
    space.dataKey k ≤ space.dataKey l ↔ k ≤ l := by
  simp [dataKey]

/-! ## Views -/

/-- The key of the namespace whose stored form is `raw`, if there is one. -/
def ownKey? (space : Namespace) (raw : Bytes) : Option Bytes :=
  if space.stem ++ [0] <+: raw then some (raw.drop (space.stem.length + 1)) else none

theorem ownKey?_eq_some_iff (space : Namespace) (raw key : Bytes) :
    space.ownKey? raw = some key ↔ raw = space.dataKey key := by
  unfold ownKey? dataKey
  constructor
  · intro h
    split at h
    · rename_i hpre
      obtain ⟨rest, rfl⟩ := hpre
      cases h
      simp
    · cases h
  · rintro rfl
    rw [if_pos ⟨key, by simp⟩]
    simp

/-- What the store holds of a namespace: its entries under its own keys. -/
def view (space : Namespace) (store : ByteMap) : ByteMap where
  entries := store.entries.filterMap fun e => (space.ownKey? e.1).map fun key => (key, e.2)
  ascending := by
    refine List.pairwise_filterMap.2 (store.ascending.imp fun {a b} hab x hx y hy => ?_)
    obtain ⟨k, hk, rfl⟩ := Option.map_eq_some_iff.1 hx
    obtain ⟨l, hl, rfl⟩ := Option.map_eq_some_iff.1 hy
    rw [ownKey?_eq_some_iff] at hk hl
    simpa [hk, hl] using hab

theorem mem_view_iff (space : Namespace) (store : ByteMap) (e : Bytes × Bytes) :
    e ∈ (space.view store).entries ↔ (space.dataKey e.1, e.2) ∈ store.entries := by
  simp only [view, List.mem_filterMap, Option.map_eq_some_iff, ownKey?_eq_some_iff]
  constructor
  · rintro ⟨⟨raw, value⟩, hmem, key, hraw, rfl⟩
    exact hraw ▸ hmem
  · intro hmem
    exact ⟨_, hmem, e.1, rfl, rfl⟩

theorem get?_view (space : Namespace) (store : ByteMap) (key : Bytes) :
    (space.view store).get? key = store.get? (space.dataKey key) := by
  apply Option.ext
  intro value
  rw [ByteMap.get?_eq_some_iff, ByteMap.get?_eq_some_iff, mem_view_iff]

/-! ## Writes through a namespace -/

@[simp] theorem view_insert (space : Namespace) (store : ByteMap) (key value : Bytes) :
    space.view (store.insert (space.dataKey key) value) = (space.view store).insert key value := by
  apply ByteMap.eq_of_get?
  intro other
  rw [get?_view, ByteMap.get?_insert, ByteMap.get?_insert, get?_view]
  by_cases h : other = key
  · rw [if_pos h, if_pos (h ▸ rfl)]
  · rw [if_neg h, if_neg fun he => h (dataKey_inj_right space he)]

@[simp] theorem view_erase (space : Namespace) (store : ByteMap) (key : Bytes) :
    space.view (store.erase (space.dataKey key)) = (space.view store).erase key := by
  apply ByteMap.eq_of_get?
  intro other
  rw [get?_view, ByteMap.get?_erase, ByteMap.get?_erase, get?_view]
  by_cases h : other = key
  · rw [if_pos h, if_pos (h ▸ rfl)]
  · rw [if_neg h, if_neg fun he => h (dataKey_inj_right space he)]

variable {space other : Namespace} (hspace : space.Fits) (hother : other.Fits) (hne : other ≠ space)

include hspace hother hne

theorem dataKey_ne (k l : Bytes) : other.dataKey l ≠ space.dataKey k :=
  fun h => hne (dataKey_inj hother hspace h).1

theorem view_insert_of_ne (store : ByteMap) (key value : Bytes) :
    other.view (store.insert (space.dataKey key) value) = other.view store := by
  apply ByteMap.eq_of_get?
  intro k
  rw [get?_view, get?_view, ByteMap.get?_insert_of_ne _ _ (dataKey_ne hspace hother hne key k)]

theorem view_erase_of_ne (store : ByteMap) (key : Bytes) :
    other.view (store.erase (space.dataKey key)) = other.view store := by
  apply ByteMap.eq_of_get?
  intro k
  rw [get?_view, get?_view, ByteMap.get?_erase_of_ne _ (dataKey_ne hspace hother hne key k)]

end Namespace

/-! ## Scans of a namespace -/

namespace Namespace

/-- The bounds of a scan of the namespace cut out its own keys between the bounds asked for, and
nothing else. -/
theorem contains_dataScan_iff (space : Namespace) (options : ScanOptions) (raw : Bytes) :
    (space.dataScan options).contains raw = true ↔
      ∃ key, raw = space.dataKey key ∧ options.contains key = true := by
  have own : ∀ key, space.stem ++ [0] ≤ space.dataKey key ∧ space.dataKey key < space.stem ++ [1] :=
    fun key => (between_tags_iff _ _).2 ⟨key, rfl⟩
  have inside : ∀ key, (space.dataScan options).contains (space.dataKey key) = options.contains key := by
    intro key
    unfold ScanOptions.contains dataScan
    congr 1
    · cases options.lower <;> simp [dataBound, Bound.isBelow, own]
    · cases options.upper <;> simp [dataBound, Bound.isAbove, own]
  constructor
  · intro h
    have hown : space.stem ++ [0] ≤ raw ∧ raw < space.stem ++ [1] := by
      unfold ScanOptions.contains dataScan at h
      rw [Bool.and_eq_true] at h
      constructor
      · cases hl : options.lower <;> rw [hl] at h <;>
          simp only [dataBound, Bound.isBelow, decide_eq_true_eq] at h
        · exact h.1
        · exact List.le_trans (own _).1 h.1
        · exact List.le_trans (own _).1 (List.le_of_lt h.1)
      · cases hu : options.upper <;> rw [hu] at h <;>
          simp only [dataBound, Bound.isAbove, decide_eq_true_eq] at h
        · exact h.2
        · exact List.lt_of_le_of_lt h.2 (own _).2
        · exact List.lt_trans h.2 (own _).2
    obtain ⟨key, rfl⟩ := (between_tags_iff _ _).1 hown
    exact ⟨key, rfl, inside key ▸ h⟩
  · rintro ⟨key, rfl, h⟩
    rw [inside, h]

/-- An entry of the namespace as it lies in the store. -/
def stored (space : Namespace) (e : Bytes × Bytes) : Bytes × Bytes := (space.dataKey e.1, e.2)

theorem found_dataScan (space : Namespace) (store : ByteMap) (options : ScanOptions) :
    store.found (space.dataScan options) = ((space.view store).found options).map space.stored := by
  have hfilter : (store.entries.filter fun e => (space.dataScan options).contains e.1) =
      ((space.view store).entries.filter fun e => options.contains e.1).map space.stored := by
    refine Ranked.Ascending.eq_of_mem_iff (store.ascending.filter _) ?_ fun e => ?_
    · refine List.Pairwise.map _ (fun a b hab => ?_) ((space.view store).ascending.filter _)
      simpa [stored] using hab
    · simp only [List.mem_filter, List.mem_map, contains_dataScan_iff, mem_view_iff]
      constructor
      · rintro ⟨hmem, key, hkey, hin⟩
        exact ⟨(key, e.2), ⟨hkey ▸ hmem, hin⟩, Prod.ext hkey.symm rfl⟩
      · rintro ⟨x, ⟨hmem, hin⟩, rfl⟩
        exact ⟨hmem, x.1, rfl, hin⟩
  unfold ByteMap.found
  rw [← ScanOptions.directed_map]
  exact congrArg _ hfilter

/-- A scan of the namespace is the scan of its view. -/
theorem scan_dataScan (space : Namespace) (store : ByteMap) (options : ScanOptions) :
    (store.scan (space.dataScan options)).map space.relative = (space.view store).scan options := by
  have hentry : ∀ e, space.relative ((space.dataScan options).entry (space.stored e)) = options.entry e := by
    intro e
    show space.relative (options.entry (space.stored e)) = options.entry e
    simp [relative, ScanOptions.entry, stored, dataKey]
  rw [ByteMap.scan_eq, ByteMap.scan_eq, found_dataScan]
  have hlimit : ∀ l : List (Bytes × Bytes), (space.dataScan options).limited l = options.limited l :=
    fun _ => rfl
  rw [hlimit, ScanOptions.limited_map, List.map_map, List.map_map]
  exact List.map_congr_left fun e _ => hentry e

/-- Every key that a scan of the namespace meets is the stem, a zero byte and the key as it is
returned, so what is cut off is never more than there is. -/
theorem dataKey_relative_key (space : Namespace) {store : ByteMap} {options : ScanOptions} {e : Entry}
    (h : e ∈ store.scan (space.dataScan options)) : space.dataKey (space.relative e).key = e.key := by
  rw [ByteMap.scan_eq, found_dataScan, List.mem_map] at h
  obtain ⟨x, hx, rfl⟩ := h
  have hx : x ∈ ((space.view store).found options).map space.stored := by
    unfold ScanOptions.limited at hx
    split at hx
    · exact List.mem_of_mem_take hx
    · exact hx
  obtain ⟨y, -, rfl⟩ := List.mem_map.1 hx
  simp [relative, ScanOptions.entry, stored, dataKey]

end Namespace

end DocStore
