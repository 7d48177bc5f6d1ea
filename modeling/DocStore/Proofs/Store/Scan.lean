/-
What a scan returns: the entries between its bounds, in its direction, up to its limit. The
ranges it answers without looking at the map hold no key, so the bounds it could not be run on
never arise. A scan cut off after some entries and resumed after the last of them finds the
rest.
-/
import DocStore.Proofs.Store.ByteMap
import DocStore.Store.Scan

namespace DocStore

namespace ScanOptions

/-! ## Empty ranges -/

/-- A range that is called empty holds no key. -/
theorem not_contains_of_isEmptyRange {options : ScanOptions} (h : options.isEmptyRange = true)
    (key : Bytes) : options.contains key = false := by
  unfold isEmptyRange at h
  unfold contains
  cases hl : options.lower <;> cases hu : options.upper <;> simp only [hl, hu] at h <;>
    simp only [Bound.isBelow, Bound.isAbove, decide_eq_true_eq, Bool.and_eq_false_imp,
      decide_eq_false_iff_not, reduceCtorEq] at h ⊢
  · exact fun hlo hhi => List.lt_irrefl _ (List.lt_of_le_of_lt (List.le_trans hlo hhi) h)
  · exact fun hlo => List.not_lt.2 (List.le_trans h hlo)
  · exact fun hlo hhi => List.not_lt.2 (List.le_trans hhi h) hlo
  · exact fun hlo hhi => List.lt_irrefl _ (List.lt_trans (List.lt_of_le_of_lt h hlo) hhi)

/-- Bounds that cross leave an empty range between them. -/
theorem isEmptyRange_of_cross {options : ScanOptions}
    (h : options.lower.cross options.upper = true) : options.isEmptyRange = true := by
  unfold isEmptyRange
  cases hl : options.lower <;> cases hu : options.upper <;> rw [hl, hu] at h <;>
    simp only [Bound.cross, decide_eq_true_eq, reduceCtorEq] at h ⊢
  · exact h
  · exact List.le_of_lt h
  · exact List.le_of_lt h
  · exact h

/-! ## Direction and limit -/

/-- A list in the direction of a scan. -/
def directed {α : Type} (options : ScanOptions) (list : List α) : List α :=
  if options.reverse then list.reverse else list

/-- The beginning of a list that the limit of a scan lets through. -/
def limited {α : Type} (options : ScanOptions) (list : List α) : List α :=
  match options.limit with
  | some limit => list.take limit
  | none => list

/-- An entry of a map as a scan returns it. -/
def entry (options : ScanOptions) (e : Bytes × Bytes) : Entry :=
  ⟨e.1, if options.values then some e.2 else none⟩

/-- Whether a key comes after `last` in the direction of a scan. -/
def isAhead (options : ScanOptions) (last key : Bytes) : Bool :=
  if options.reverse then decide (key < last) else decide (last < key)

/-- Of two keys at most one is ahead of the other. -/
theorem isAhead_asymm {options : ScanOptions} {a b : Bytes} (h : options.isAhead a b = true) :
    options.isAhead b a = false := by
  unfold isAhead at *
  split at h <;> simp_all [List.le_of_lt]

theorem isAhead_irrefl (options : ScanOptions) (key : Bytes) : options.isAhead key key = false := by
  unfold isAhead
  split <;> simp

@[simp] theorem mem_directed {α : Type} (options : ScanOptions) (list : List α) (a : α) :
    a ∈ options.directed list ↔ a ∈ list := by
  unfold directed; split <;> simp

theorem directed_filter {α : Type} (options : ScanOptions) (p : α → Bool) (list : List α) :
    options.directed (list.filter p) = (options.directed list).filter p := by
  unfold directed; split <;> simp

theorem directed_map {α β : Type} (options : ScanOptions) (f : α → β) (list : List α) :
    options.directed (list.map f) = (options.directed list).map f := by
  unfold directed; split <;> simp

theorem limited_map {α β : Type} (options : ScanOptions) (f : α → β) (list : List α) :
    options.limited (list.map f) = (options.limited list).map f := by
  unfold limited; split <;> simp

end ScanOptions

namespace ByteMap

/-! ## Scans as lists -/

/-- The entries between the bounds of a scan, in its direction. -/
def found (map : ByteMap) (options : ScanOptions) : List (Bytes × Bytes) :=
  options.directed (map.entries.filter fun e => options.contains e.1)

theorem mem_found_iff (map : ByteMap) (options : ScanOptions) (e : Bytes × Bytes) :
    e ∈ map.found options ↔ e ∈ map.entries ∧ options.contains e.1 = true := by
  simp [found]

theorem found_eq_nil_of_isEmptyRange {options : ScanOptions} (map : ByteMap)
    (h : options.isEmptyRange = true) : map.found options = [] := by
  apply List.eq_nil_iff_forall_not_mem.2
  intro e he
  have := ((mem_found_iff map options e).1 he).2
  rw [ScanOptions.not_contains_of_isEmptyRange h] at this
  cases this

/-- A scan returns what it finds, up to its limit. -/
theorem scan_eq (map : ByteMap) (options : ScanOptions) :
    map.scan options = (options.limited (map.found options)).map options.entry := by
  unfold scan
  by_cases hempty : options.isEmptyRange = true
  · rw [found_eq_nil_of_isEmptyRange map hempty]
    simp only [hempty, Bool.true_or, if_true, ScanOptions.limited]
    split <;> simp
  · by_cases hzero : options.limit = some 0
    · simp [hzero, ScanOptions.limited]
    · have hcross : ¬ options.lower.cross options.upper = true :=
        fun h => hempty (ScanOptions.isEmptyRange_of_cross h)
      rw [if_neg (by simp [hempty, hzero])]
      simp only [range?, if_neg hcross, Option.getD_some]
      rfl

/-- Entries found come in order: each is ahead of those before it. -/
theorem found_pairwise (map : ByteMap) (options : ScanOptions) :
    (map.found options).Pairwise fun a b => options.isAhead a.1 b.1 = true := by
  have sorted := map.ascending.filter fun e => options.contains e.1
  unfold found ScanOptions.directed ScanOptions.isAhead
  split
  · rw [List.pairwise_reverse]
    exact sorted.imp fun h => by simpa using h
  · exact sorted.imp fun h => by simpa using h

theorem found_erase_of_not_contains {options : ScanOptions} {key : Bytes}
    (h : options.contains key = false) (map : ByteMap) :
    (map.erase key).found options = map.found options := by
  unfold found erase
  rw [List.filter_filter]
  congr 1
  apply List.filter_congr
  intro e _
  by_cases hkey : e.1 = key
  · simp [hkey, h]
  · simp [hkey]

/-- A scan does not see the removal of a key that is not between its bounds. -/
theorem scan_erase_of_not_contains {options : ScanOptions} {key : Bytes}
    (h : options.contains key = false) (map : ByteMap) :
    (map.erase key).scan options = map.scan options := by
  rw [scan_eq, scan_eq, found_erase_of_not_contains h]

theorem length_scan_le (map : ByteMap) (options : ScanOptions) :
    (map.scan options).length ≤ map.size := by
  have hfound : (map.found options).length ≤ map.size := by
    unfold found ScanOptions.directed size
    split
    · rw [List.length_reverse]; exact List.length_filter_le _ _
    · exact List.length_filter_le _ _
  rw [scan_eq, List.length_map, ScanOptions.limited]
  split
  · rw [List.length_take]; omega
  · exact hfound

@[simp] theorem scan_all (map : ByteMap) :
    map.scan .all = map.entries.map fun e => ⟨e.1, some e.2⟩ := by
  have hall : (map.entries.filter fun e => ScanOptions.all.contains e.1) = map.entries :=
    List.filter_eq_self.2 fun _ _ => rfl
  rw [scan_eq, found, hall]
  rfl

@[simp] theorem scan_all_keysOnly (map : ByteMap) :
    map.scan ScanOptions.all.keysOnly = map.entries.map fun e => ⟨e.1, none⟩ := by
  have hall : (map.entries.filter fun e => ScanOptions.all.keysOnly.contains e.1) = map.entries :=
    List.filter_eq_self.2 fun _ _ => rfl
  rw [scan_eq, found, hall]
  rfl

/-- The scan of one entry, from either end. -/
theorem scan_first (map : ByteMap) (reverse : Bool) : map.scan (.first reverse) =
    ((if reverse then map.entries.getLast? else map.entries.head?).map
      fun e => (⟨e.1, some e.2⟩ : Entry)).toList := by
  have hall : (map.entries.filter fun e => (ScanOptions.first reverse).contains e.1) = map.entries :=
    List.filter_eq_self.2 fun _ _ => rfl
  rw [scan_eq, found, hall]
  show ((if reverse then map.entries.reverse else map.entries).take 1).map
    (fun e => (⟨e.1, some e.2⟩ : Entry)) = _
  cases reverse with
  | false => cases map.entries <;> rfl
  | true =>
    rw [if_pos rfl, if_pos rfl, ← List.head?_reverse]
    cases map.entries.reverse <;> rfl

end ByteMap

/-! ## Resuming a scan -/

theorem ScanOptions.contains_resume {options : ScanOptions} {last : Bytes}
    (h : options.contains last = true) (count : Nat) (key : Bytes) :
    (options.resume last count).contains key = (options.contains key && options.isAhead last key) := by
  unfold contains at *
  rw [Bool.and_eq_true] at h
  obtain ⟨hlower, hupper⟩ := h
  unfold resume isAhead
  by_cases hrev : options.reverse = true
  · -- every key below the last one is below the old upper bound
    have hup : key < last → options.upper.isAbove key = true := by
      intro hlt
      unfold Bound.isAbove at hupper ⊢
      split at hupper
      · rfl
      · simp only [decide_eq_true_eq] at hupper ⊢
        exact List.le_trans (List.le_of_lt hlt) hupper
      · simp only [decide_eq_true_eq] at hupper ⊢
        exact List.lt_trans hlt hupper
    simp only [hrev, if_true]
    rw [Bool.eq_iff_iff]
    simp only [Bool.and_eq_true]
    simp only [Bound.isAbove, decide_eq_true_eq]
    exact ⟨fun ⟨h1, h2⟩ => ⟨⟨h1, hup h2⟩, h2⟩, fun ⟨⟨h1, _⟩, h2⟩ => ⟨h1, h2⟩⟩
  · have hlow : last < key → options.lower.isBelow key = true := by
      intro hlt
      unfold Bound.isBelow at hlower ⊢
      split at hlower
      · rfl
      · simp only [decide_eq_true_eq] at hlower ⊢
        exact List.le_trans hlower (List.le_of_lt hlt)
      · simp only [decide_eq_true_eq] at hlower ⊢
        exact List.lt_trans hlower hlt
    simp only [hrev, Bool.false_eq_true, if_false]
    rw [Bool.eq_iff_iff]
    simp only [Bool.and_eq_true]
    simp only [Bound.isBelow, decide_eq_true_eq]
    exact ⟨fun ⟨h1, h2⟩ => ⟨⟨hlow h1, h2⟩, h1⟩, fun ⟨⟨_, h1⟩, h2⟩ => ⟨h2, h1⟩⟩

@[simp] theorem ScanOptions.reverse_resume (options : ScanOptions) (last : Bytes) (count : Nat) :
    (options.resume last count).reverse = options.reverse := by
  unfold resume; simp only; split <;> rfl

@[simp] theorem ScanOptions.values_resume (options : ScanOptions) (last : Bytes) (count : Nat) :
    (options.resume last count).values = options.values := by
  unfold resume; simp only; split <;> rfl

@[simp] theorem ScanOptions.limit_resume (options : ScanOptions) (last : Bytes) (count : Nat) :
    (options.resume last count).limit = options.limit.map (· - count) := by
  unfold resume; simp only; split <;> rfl

/-- After some entries have been found, the scan resumed after the last of them finds the rest. -/
theorem ByteMap.found_resume {map : ByteMap} {options : ScanOptions} {before rest : List (Bytes × Bytes)}
    {last : Bytes × Bytes} (h : map.found options = before ++ last :: rest) (count : Nat) :
    map.found (options.resume last.1 count) = rest := by
  have hlast : options.contains last.1 = true :=
    ((mem_found_iff map options last).1 (by rw [h]; simp)).2
  have hfound : map.found (options.resume last.1 count) =
      (map.found options).filter fun e => options.isAhead last.1 e.1 := by
    unfold found
    rw [← ScanOptions.directed_filter, List.filter_filter]
    simp only [ScanOptions.directed, ScanOptions.reverse_resume,
      ScanOptions.contains_resume hlast count, Bool.and_comm]
  have hsorted := map.found_pairwise options
  rw [h, List.pairwise_append, List.pairwise_cons] at hsorted
  obtain ⟨-, ⟨hrest, -⟩, hbefore⟩ := hsorted
  -- what is ahead of the last entry is the rest: nothing before it, nor itself
  rw [hfound, h, List.filter_append, List.filter_cons_of_neg, List.filter_eq_nil_iff.2,
    List.filter_eq_self.2, List.nil_append]
  · exact hrest
  · intro e he
    rw [ScanOptions.isAhead_asymm (hbefore e he last List.mem_cons_self)]
    simp
  · rw [ScanOptions.isAhead_irrefl]
    simp

/-! ## Pages -/

theorem ByteMap.scan_eq_nil_iff {map : ByteMap} {options : ScanOptions} (h : options.limit ≠ some 0) :
    map.scan options = [] ↔ map.found options = [] := by
  rw [scan_eq, List.map_eq_nil_iff, ScanOptions.limited]
  split
  · rename_i limit hlimit
    have : limit ≠ 0 := fun h0 => h (h0 ▸ hlimit)
    simp [this]
  · rfl

/-- The scan resumed after a page does not go back to what was on it. -/
theorem ByteMap.not_contains_resume {map : ByteMap} {options : ScanOptions} {size : Nat} {last : Entry}
    (hlast : (map.scan { options with limit := some size }).getLast? = some last) (count : Nat)
    {e : Entry} (he : e ∈ map.scan { options with limit := some size }) :
    (options.resume last.key count).contains e.key = false := by
  have hpage : map.scan { options with limit := some size } =
      ((map.found options).take size).map options.entry := scan_eq map _
  rw [hpage, List.getLast?_map, Option.map_eq_some_iff] at hlast
  obtain ⟨y, hy, rfl⟩ := hlast
  rw [hpage, List.mem_map] at he
  obtain ⟨x, hx, rfl⟩ := he
  have hcontains : options.contains y.1 = true :=
    ((map.mem_found_iff options y).1 (List.mem_of_mem_take (List.mem_of_getLast? hy))).2
  have hsorted : ((map.found options).take size).Pairwise fun a b => options.isAhead a.1 b.1 = true :=
    (map.found_pairwise options).take
  obtain ⟨before, hbefore⟩ := List.getLast?_eq_some_iff.1 hy
  rw [hbefore] at hx hsorted
  have hahead : options.isAhead y.1 x.1 = false := by
    rcases List.mem_append.1 hx with hx | hx
    · exact ScanOptions.isAhead_asymm
        ((List.pairwise_append.1 hsorted).2.2 x hx y List.mem_cons_self)
    · rw [List.mem_singleton.1 hx]
      exact ScanOptions.isAhead_irrefl _ _
  show (options.resume y.1 count).contains x.1 = false
  rw [ScanOptions.contains_resume hcontains, hahead, Bool.and_false]

/-- The scan resumed after the last entry of a page finds all but what was on the page. -/
theorem ByteMap.found_resume_page {map : ByteMap} {options : ScanOptions} {size : Nat} {last : Entry}
    (hlast : (map.scan { options with limit := some size }).getLast? = some last) (count : Nat) :
    map.found (options.resume last.key count) = (map.found options).drop size := by
  have hpage : map.scan { options with limit := some size } =
      ((map.found options).take size).map options.entry := scan_eq map _
  rw [hpage, List.getLast?_map, Option.map_eq_some_iff] at hlast
  obtain ⟨e, he, rfl⟩ := hlast
  obtain ⟨before, hbefore⟩ := List.getLast?_eq_some_iff.1 he
  have hsplit : map.found options = before ++ e :: (map.found options).drop size := by
    conv_lhs => rw [← List.take_append_drop size (map.found options), hbefore]
    simp
  exact found_resume hsplit count

/-- A scan is its first page and, unless that page is short, the scan resumed after it. -/
theorem ByteMap.scan_eq_page_append {map : ByteMap} {options : ScanOptions} {size : Nat}
    (hlimit : ∀ limit, options.limit = some limit → size ≤ limit) {last : Entry}
    (hlast : (map.scan { options with limit := some size }).getLast? = some last) :
    map.scan options = map.scan { options with limit := some size } ++
      if (map.scan { options with limit := some size }).length < size then []
      else map.scan (options.resume last.key (map.scan { options with limit := some size }).length) := by
  have hpage : map.scan { options with limit := some size } =
      ((map.found options).take size).map options.entry := scan_eq map _
  have hlength : (map.scan { options with limit := some size }).length =
      min size (map.found options).length := by
    rw [hpage, List.length_map, List.length_take]
  split
  · rename_i hshort
    have hle : (map.found options).length ≤ size := by omega
    rw [hpage, List.append_nil, List.take_of_length_le hle, scan_eq, ScanOptions.limited]
    split
    · rename_i limit hsome
      rw [List.take_of_length_le (Nat.le_trans hle (hlimit limit hsome))]
    · rfl
  · rename_i hfull
    have hasked : (map.scan { options with limit := some size }).length = size := by omega
    have hrest := found_resume_page hlast size
    have hentry : (options.resume last.key size).entry = options.entry := by
      funext x
      simp [ScanOptions.entry]
    rw [hasked, hpage, scan_eq, scan_eq, hentry, hrest, ← List.map_append]
    congr 1
    unfold ScanOptions.limited
    rw [ScanOptions.limit_resume]
    cases hl : options.limit with
    | none => exact (List.take_append_drop size _).symm
    | some limit =>
      have := hlimit limit hl
      simp only [Option.map_some]
      conv_lhs => rw [← Nat.add_sub_cancel' this]
      exact List.take_add

end DocStore
