/-
A scan a page at a time finds what the whole scan finds. As long as nobody writes, what a cursor
has still to yield is what is pending and what a scan of the rest would return; each step yields
the first of these, or reports the end if there are none. A cursor never comes back to a key it
has yielded, so the removal of that key does not show in what is still to come.
-/
import DocStore.Proofs.Store.Engine
import DocStore.Store.Cursor

namespace DocStore

/-! ## Fetches -/

namespace Engine

/-- At most one call has been served, a scan of the namespace. -/
inductive Fetched (space : Namespace) (before : Engine) : Engine → Prop
  | refl : Fetched space before before
  | scan {options : ScanOptions} (hserved : before.fault? (.scan (space.dataScan options)) = none) :
    Fetched space before (before.called (.scan (space.dataScan options)) before.store)

/-- A scan of the namespace has met a fault. -/
inductive FetchFailed (space : Namespace) (before : Engine) : StoreError → Engine → Prop
  | scan {options : ScanOptions} {fault : StoreError}
    (hfault : before.fault? (.scan (space.dataScan options)) = some fault) :
    FetchFailed space before fault (before.called (.scan (space.dataScan options)) before.store)

theorem Fetched.unwritten {space : Namespace} {before after : Engine} (h : Fetched space before after) :
    before.Unwritten after := by
  cases h <;> exact ⟨rfl, rfl⟩

theorem FetchFailed.unwritten {space : Namespace} {before after : Engine} {fault : StoreError}
    (h : FetchFailed space before fault after) : before.Unwritten after := by
  cases h
  exact ⟨rfl, rfl⟩

end Engine

namespace Cursor

/-! ## Pages -/

/-- What is left of a scan that goes on with `rest`. -/
def unfetched (space : Namespace) (store : ByteMap) (rest : Option ScanOptions) : List Entry :=
  match rest with
  | some options => (space.view store).scan options
  | none => []

/-- The rest of a scan holds none of the keys of some entries. -/
def IsPast (rest : Option ScanOptions) (entries : List Entry) : Prop :=
  ∀ options, rest = some options → ∀ e ∈ entries, options.contains e.key = false

theorem pageLimit_le {options : ScanOptions} (pageSize : Nat) {limit : Nat}
    (h : options.limit = some limit) : pageLimit options pageSize ≤ limit := by
  unfold pageLimit
  rw [h]
  exact Nat.min_le_left _ _

theorem limit_of_pageLimit_eq_zero {options : ScanOptions} {pageSize : Nat} (hsize : 0 < pageSize)
    (h : pageLimit options pageSize = 0) : options.limit = some 0 := by
  unfold pageLimit at h
  split at h
  · rename_i limit hlimit
    rw [hlimit]
    congr 1
    omega
  · omega

/-- The scan that fetches the next page. -/
def pageScan (options : ScanOptions) (pageSize : Nat) : ScanOptions :=
  { options with limit := some (pageLimit options pageSize) }

/-- What a fetch returns, given the page that it finds. -/
def fetched (options : ScanOptions) (pageSize : Nat) (page : List Entry) :
    List Entry × Option ScanOptions :=
  match page.getLast? with
  | none => ([], none)
  | some last => (page, if page.length < pageLimit options pageSize then none
      else some (options.resume last.key page.length))

theorem fst_fetched (options : ScanOptions) (pageSize : Nat) (page : List Entry) :
    (fetched options pageSize page).1 = page := by
  unfold fetched
  cases hlast : page.getLast? with
  | none => exact (List.getLast?_eq_none_iff.1 hlast).symm
  | some last => rfl

/-- The scan goes on after a page that is not short, past its last key. -/
theorem snd_fetched_eq_some_iff {options rest : ScanOptions} {pageSize : Nat} {page : List Entry} :
    (fetched options pageSize page).2 = some rest ↔
      ¬ page.length < pageLimit options pageSize ∧
        ∃ last, page.getLast? = some last ∧ rest = options.resume last.key page.length := by
  unfold fetched
  cases page.getLast? with
  | none => simp
  | some last =>
    simp only [Option.some.injEq, exists_eq_left']
    split
    · simp_all
    · simp_all [eq_comm]

/-- The scan ends with a short page. -/
theorem length_lt_of_snd_fetched_eq_none {options : ScanOptions} {pageSize : Nat} {page : List Entry}
    (hasks : pageLimit options pageSize ≠ 0) (h : (fetched options pageSize page).2 = none) :
    page.length < pageLimit options pageSize := by
  unfold fetched at h
  cases hlast : page.getLast? with
  | none =>
    rw [List.getLast?_eq_none_iff.1 hlast]
    exact Nat.pos_of_ne_zero hasks
  | some last =>
    rw [hlast] at h
    simp only at h
    split at h
    · assumption
    · cases h

/-- Without room for an entry nothing is fetched. -/
theorem fetch_of_pageLimit_eq_zero {options : ScanOptions} {pageSize : Nat}
    (h : pageLimit options pageSize = 0) (space : Namespace) (engine : Engine) :
    fetch space options pageSize engine = .ok ([], none) engine :=
  congrFun (if_pos h) engine

/-- A fetch is one scan. -/
theorem fetch_of_pageLimit_ne_zero {options : ScanOptions} {pageSize : Nat}
    (h : pageLimit options pageSize ≠ 0) (space : Namespace) (engine : Engine) :
    fetch space options pageSize engine =
      match engine.fault? (.scan (space.dataScan (pageScan options pageSize))) with
      | some error => .error error
        (engine.called (.scan (space.dataScan (pageScan options pageSize))) engine.store)
      | none => .ok (fetched options pageSize ((space.view engine.store).scan (pageScan options pageSize)))
        (engine.called (.scan (space.dataScan (pageScan options pageSize))) engine.store) := by
  have hscan := space.scan_eq engine (pageScan options pageSize)
  rw [show fetch space options pageSize = _ from if_neg h]
  cases hfault : engine.fault? (.scan (space.dataScan (pageScan options pageSize))) with
  | some error =>
    rw [hfault] at hscan
    exact bind_error hscan _
  | none =>
    rw [hfault] at hscan
    refine (bind_ok hscan _).trans ?_
    unfold fetched
    cases ((space.view engine.store).scan (pageScan options pageSize)).getLast? <;> rfl

theorem fetch_ends (space : Namespace) (options : ScanOptions) (pageSize : Nat) :
    Ends (Engine.Fetched space) (Engine.FetchFailed space) (fetch space options pageSize) := by
  by_cases hzero : pageLimit options pageSize = 0
  · constructor <;> intro engine answer after h <;>
      rw [fetch_of_pageLimit_eq_zero hzero] at h <;> cases h
    exact .refl
  · constructor <;> intro engine answer after h <;>
      rw [fetch_of_pageLimit_ne_zero hzero] at h <;> split at h <;> cases h
    · exact .scan ‹_›
    · exact .scan ‹_›

theorem next_ends (cursor : Cursor) :
    Ends (Engine.Fetched cursor.space) (Engine.FetchFailed cursor.space) cursor.next := by
  obtain ⟨space, pageSize, pending, rest⟩ := cursor
  unfold next
  split
  · exact .pure (fun _ => .refl) _
  · split
    · exact .pure (fun _ => .refl) _
    · refine .bind_pure (fetch_ends _ _ _) fun page => ?_
      split <;> exact ⟨_, rfl⟩

theorem keeps_next (cursor : Cursor) : Keeps Engine.Unwritten cursor.next :=
  Keeps.iff_ends.2 (cursor.next_ends.mono (fun _ _ h => h.unwritten) fun _ _ _ h => h.unwritten)

/-- A page that is fetched is the first part of the scan, and what is left to scan after it is the
other part. -/
theorem fetched_spec (space : Namespace) (store : ByteMap) {options : ScanOptions} {pageSize : Nat}
    (h : pageLimit options pageSize ≠ 0) {page : List Entry} {rest : Option ScanOptions}
    (hfetched : fetched options pageSize ((space.view store).scan (pageScan options pageSize)) =
      (page, rest)) :
    page ++ unfetched space store rest = (space.view store).scan options ∧
      (page = [] → rest = none) ∧ IsPast rest page := by
  unfold fetched at hfetched
  cases hlast : ((space.view store).scan (pageScan options pageSize)).getLast? with
  | none =>
    rw [hlast] at hfetched
    cases hfetched
    refine ⟨?_, fun _ => rfl, nofun⟩
    have hfound : (space.view store).found (pageScan options pageSize) = [] :=
      (ByteMap.scan_eq_nil_iff (by simpa [pageScan] using h)).1 (List.getLast?_eq_none_iff.1 hlast)
    rw [ByteMap.scan_eq]
    show [] = (options.limited ((space.view store).found (pageScan options pageSize))).map options.entry
    rw [hfound, ScanOptions.limited]
    split <;> simp
  | some last =>
    rw [hlast] at hfetched
    cases hfetched
    refine ⟨?_, ?_, ?_⟩
    · rw [ByteMap.scan_eq_page_append (fun limit => pageLimit_le pageSize) hlast]
      refine congrArg _ ?_
      unfold pageScan
      split <;> rfl
    · intro hnil
      rw [hnil] at hlast
      cases hlast
    · intro options' hrest e he
      split at hrest
      · cases hrest
      · cases hrest
        exact ByteMap.not_contains_resume hlast _ he

theorem fetch_spec (space : Namespace) (options : ScanOptions) {pageSize : Nat} (hsize : 0 < pageSize)
    (engine : Engine) :
    (∃ error after, fetch space options pageSize engine = .error error after ∧
        engine.faults ≠ .never) ∨
      ∃ page rest after, fetch space options pageSize engine = .ok (page, rest) after ∧
        page ++ unfetched space engine.store rest = (space.view engine.store).scan options ∧
        (page = [] → rest = none) ∧ IsPast rest page := by
  by_cases hzero : pageLimit options pageSize = 0
  · refine .inr ⟨[], none, engine, fetch_of_pageLimit_eq_zero hzero space engine, ?_, fun _ => rfl, nofun⟩
    rw [ByteMap.scan_eq, ScanOptions.limited, limit_of_pageLimit_eq_zero hsize hzero]
    rfl
  · have hfetch := fetch_of_pageLimit_ne_zero hzero space engine
    cases hfault : engine.fault? (.scan (space.dataScan (pageScan options pageSize))) with
    | some error =>
      rw [hfault] at hfetch
      refine .inl ⟨error, _, hfetch, ?_⟩
      intro hnever
      rw [Engine.fault?_of_never hnever] at hfault
      cases hfault
    | none =>
      rw [hfault] at hfetch
      exact .inr ⟨_, _, _, hfetch, fetched_spec space engine.store hzero rfl⟩

/-! ## Steps -/

/-- What a cursor has still to yield of a store that stays as it is. -/
def remaining (cursor : Cursor) (store : ByteMap) : List Entry :=
  cursor.pending ++ unfetched cursor.space store cursor.rest

/-- Pages have room for entries, and the cursor is past what is pending. -/
structure Sound (cursor : Cursor) : Prop where
  pageSize : 0 < cursor.pageSize
  past : IsPast cursor.rest cursor.pending

theorem sound_start (space : Namespace) (options : ScanOptions) (pageSize : Nat) :
    (start space options pageSize).Sound :=
  ⟨Nat.le_max_left _ _, fun _ _ e he => by cases he⟩

/-- The cursor yields `entry` and goes on as `next`. -/
structure Yields (cursor : Cursor) (store : ByteMap) (entry : Entry) (next : Cursor) : Prop where
  sound : next.Sound
  space : next.space = cursor.space
  remaining : cursor.remaining store = entry :: next.remaining store
  past : IsPast next.rest [entry]

/-- A step of a cursor fails, or reports the end when nothing remains, or yields the first entry
that remains. -/
theorem next_spec {cursor : Cursor} (h : cursor.Sound) (engine : Engine) :
    (∃ error after, cursor.next engine = .error error after ∧ engine.faults ≠ .never) ∨
      (∃ after, cursor.next engine = .ok none after ∧ cursor.remaining engine.store = []) ∨
      ∃ entry rest after, cursor.next engine = .ok (some (entry, rest)) after ∧
        cursor.Yields engine.store entry rest := by
  obtain ⟨space, pageSize, pending, rest⟩ := cursor
  cases pending with
  | cons entry pending =>
    refine .inr (.inr ⟨entry, ⟨space, pageSize, pending, rest⟩, engine, rfl, ?_⟩)
    refine ⟨⟨h.pageSize, ?_⟩, rfl, rfl, ?_⟩
    · exact fun options hrest e he => h.past options hrest e (List.mem_cons_of_mem _ he)
    · intro options hrest e he
      exact h.past options hrest e (List.mem_singleton.1 he ▸ List.mem_cons_self)
  | nil =>
    cases rest with
    | none => exact .inr (.inl ⟨engine, rfl, rfl⟩)
    | some options =>
      rcases fetch_spec space options h.pageSize engine with
        ⟨error, after, hfetch, hfaults⟩ | ⟨page, rest, after, hfetch, hall, hend, hpast⟩
      · exact .inl ⟨error, after, bind_error hfetch _, hfaults⟩
      · cases page with
        | nil =>
          refine .inr (.inl ⟨after, bind_ok hfetch _, ?_⟩)
          rw [hend rfl] at hall
          exact hall.symm
        | cons entry pending =>
          refine .inr (.inr ⟨entry, ⟨space, pageSize, pending, rest⟩, after, bind_ok hfetch _, ?_⟩)
          refine ⟨⟨h.pageSize, ?_⟩, rfl, hall.symm, ?_⟩
          · exact fun options hrest e he => hpast options hrest e (List.mem_cons_of_mem _ he)
          · intro options hrest e he
            exact hpast options hrest e (List.mem_singleton.1 he ▸ List.mem_cons_self)

/-- A cursor does not see the removal of the key it has yielded last. -/
theorem remaining_erase {cursor : Cursor} {entry : Entry} (h : IsPast cursor.rest [entry])
    (store : ByteMap) :
    cursor.remaining (store.erase (cursor.space.dataKey entry.key)) = cursor.remaining store := by
  unfold remaining unfetched
  congr 1
  cases hrest : cursor.rest with
  | none => rfl
  | some options =>
    show (cursor.space.view _).scan options = (cursor.space.view store).scan options
    rw [Namespace.view_erase]
    exact ByteMap.scan_erase_of_not_contains (h options hrest entry List.mem_cons_self) _

/-- The fuel that a fold over a cursor starts with is enough for all that remains. -/
theorem length_remaining_lt (cursor : Cursor) (store : ByteMap) :
    (cursor.remaining store).length < store.size + cursor.pending.length + 1 := by
  have hview : (cursor.space.view store).size ≤ store.size := List.length_filterMap_le _ _
  unfold remaining unfetched
  rw [List.length_append]
  cases cursor.rest with
  | none => simp only [List.length_nil]; omega
  | some options =>
    have := (cursor.space.view store).length_scan_le options
    simp only
    omega

end Cursor

end DocStore
