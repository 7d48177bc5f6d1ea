/-
Paging does not show. A stream that is collected to its end yields what the whole scan returns,
whatever the size of a page. Its pages follow one another without a gap, none of them is longer than
what is left of the limit, and there are as many as the entries within the bounds and the limit make
necessary: unless the limit is used up first, one more than the full pages.
-/
import DocStore.Proofs.Store.Cursor
import DocStore.Session.Run
import Mathlib.Algebra.Order.Floor.Div

namespace DocStore

/-! ## Pages -/

/-- A page of a stream: what was left to scan, how many entries were asked for, and those found. -/
structure Page where
  options : ScanOptions
  asked : Nat
  entries : List Entry

namespace Page

/-- The scan that finds the entries of the page. -/
def scan (page : Page) : ScanOptions := { page.options with limit := some page.asked }

/-- The call that fetches the page. -/
def call (space : Namespace) (page : Page) : Call := .scan (space.dataScan page.scan)

/-- The next page is of what is left to scan strictly past the last key of this one. -/
def LeadsTo (page next : Page) : Prop :=
  ∃ last, page.entries.getLast? = some last ∧
    next.options = page.options.resume last.key page.entries.length

/-- How many pages it takes to go through `count` entries, or as many as a limit lets through. -/
def needed (size count : Nat) : Option Nat → Nat
  | some limit => if limit ≤ count then limit ⌈/⌉ size else count / size + 1
  | none => count / size + 1

/-- The page holds what is found of what was left to scan, and has room for no more entries than a
page has, nor for more than are left of the limit: nothing is subtracted that is not there. -/
structure FoundIn (page : Page) (map : ByteMap) (size : Nat) : Prop where
  found : page.entries = map.scan page.scan
  asked : page.asked ≤ size
  within : page.entries.length ≤ page.asked
  limited : ∀ limit, page.options.limit = some limit → page.asked ≤ limit

/-- The pages divide a scan of a map. -/
structure Divide (map : ByteMap) (options : ScanOptions) (size : Nat) (pages : List Page) : Prop where
  first : ∀ page ∈ pages.head?, page.options = options
  next : pages.IsChain LeadsTo
  each : ∀ page ∈ pages, page.FoundIn map size
  all : pages.flatMap Page.entries = map.scan options
  count : pages.length = needed size (map.found options).length options.limit

end Page

namespace Cursor

theorem pageLimit_le_pageSize (options : ScanOptions) (pageSize : Nat) :
    pageLimit options pageSize ≤ pageSize := by
  unfold pageLimit
  split
  · exact Nat.min_le_right _ _
  · exact Nat.le_refl _

end Cursor

/-! ## How many pages -/

namespace Page

open Cursor (pageLimit pageScan)

variable {options : ScanOptions} {size count : Nat}

theorem needed_of_spent (hsize : 0 < size) (h : pageLimit options size = 0) :
    needed size count options.limit = 0 := by
  rw [Cursor.limit_of_pageLimit_eq_zero hsize h]
  simp [needed]

/-- A page that is not full is the only one. -/
theorem needed_of_short (h : count < pageLimit options size) :
    needed size count options.limit = 1 := by
  have hsize := Cursor.pageLimit_le_pageSize options size
  have hcount : count / size + 1 = 1 := by rw [Nat.div_eq_of_lt (by omega)]
  unfold needed
  split
  · rename_i limit hlimit
    have := Cursor.pageLimit_le size hlimit
    rw [if_neg (by omega), hcount]
  · exact hcount

/-- A quotient that is rounded up grows by one when the dividend grows by the divisor. -/
theorem ceilDiv_eq_sub_add_one {limit : Nat} (hsize : 0 < size) (h : size ≤ limit) :
    limit ⌈/⌉ size = (limit - size) ⌈/⌉ size + 1 := by
  rw [Nat.ceilDiv_eq_add_pred_div, Nat.ceilDiv_eq_add_pred_div,
    Nat.div_eq_sub_div hsize (show size ≤ limit + size - 1 by omega)]
  congr 2
  omega

/-- After a full page as many pages are needed as for what is left. -/
theorem needed_of_full (hsize : 0 < size) (hasks : pageLimit options size ≠ 0)
    (h : pageLimit options size ≤ count) :
    needed size count options.limit =
      needed size (count - pageLimit options size) (options.limit.map (· - pageLimit options size)) +
        1 := by
  cases hlimit : options.limit with
  | none =>
    have hfull : pageLimit options size = size := by rw [pageLimit, hlimit]
    rw [hfull] at h ⊢
    exact congrArg (· + 1) (Nat.div_eq_sub_div hsize h)
  | some limit =>
    have hmin : pageLimit options size = min limit size := by rw [pageLimit, hlimit]
    rw [hmin] at h hasks ⊢
    simp only [needed, Option.map_some]
    rcases Nat.le_total size limit with hle | hle
    · rw [Nat.min_eq_right hle] at h ⊢
      split
      · rw [if_pos (by omega), ceilDiv_eq_sub_add_one hsize hle]
      · rw [if_neg (by omega), Nat.div_eq_sub_div hsize h]
    · -- the limit is used up by this page
      rw [Nat.min_eq_left hle] at h hasks ⊢
      have hone : limit ⌈/⌉ size = 1 := by
        rw [Nat.ceilDiv_eq_add_pred_div]
        exact Nat.div_eq_of_lt_le (by omega) (by omega)
      rw [if_pos h, hone, Nat.sub_self, if_pos (Nat.zero_le _), zero_ceilDiv]

/-! ## One page after another -/

variable {map : ByteMap}

/-- The page that is fetched next. -/
def ofScan (map : ByteMap) (options : ScanOptions) (size : Nat) : Page :=
  ⟨options, pageLimit options size, map.scan (pageScan options size)⟩

theorem length_ofScan (map : ByteMap) (options : ScanOptions) (size : Nat) :
    (ofScan map options size).entries.length =
      min (pageLimit options size) (map.found options).length := by
  have hpage : map.scan (pageScan options size) =
      ((map.found options).take (pageLimit options size)).map options.entry := ByteMap.scan_eq map _
  rw [ofScan, hpage, List.length_map, List.length_take]

theorem foundIn_ofScan (map : ByteMap) (options : ScanOptions) (size : Nat) :
    (ofScan map options size).FoundIn map size where
  found := rfl
  asked := Cursor.pageLimit_le_pageSize _ _
  within := by
    rw [length_ofScan]
    exact Nat.min_le_left _ _
  limited _ := Cursor.pageLimit_le size

theorem divide_nil (hsize : 0 < size) (h : pageLimit options size = 0) : Divide map options size [] where
  first := nofun
  next := .nil
  each := nofun
  all := by
    rw [ByteMap.scan_eq, ScanOptions.limited, Cursor.limit_of_pageLimit_eq_zero hsize h]
    rfl
  count := (needed_of_spent hsize h).symm

section
variable {space : Namespace} {store : ByteMap}

/-- A page after which nothing is left to scan is the only one. -/
theorem divide_last (hasks : pageLimit options size ≠ 0)
    (hlast : (Cursor.fetched options size ((space.view store).scan (pageScan options size))).2 = none) :
    Divide (space.view store) options size [ofScan (space.view store) options size] := by
  have hlength := length_ofScan (space.view store) options size
  have hshort : (ofScan (space.view store) options size).entries.length < pageLimit options size :=
    Cursor.length_lt_of_snd_fetched_eq_none hasks hlast
  obtain ⟨hall, -, -⟩ := Cursor.fetched_spec space store hasks
    (Prod.ext (Cursor.fst_fetched _ _ _) hlast)
  refine ⟨?_, .singleton _, ?_, ?_, ?_⟩
  · rintro _ ⟨⟩
    rfl
  · exact List.forall_mem_singleton.2 (foundIn_ofScan _ _ _)
  · rw [List.flatMap_singleton]
    exact (List.append_nil _).symm.trans hall
  · rw [needed_of_short (by omega)]
    rfl

/-- A page and the pages of what is left to scan after it divide the scan. -/
theorem divide_cons (hsize : 0 < size) (hasks : pageLimit options size ≠ 0) {left : ScanOptions}
    (hnext : (Cursor.fetched options size ((space.view store).scan (pageScan options size))).2 = some left)
    {pages : List Page} (hdivide : Divide (space.view store) left size pages) :
    Divide (space.view store) options size (ofScan (space.view store) options size :: pages) := by
  have hlength := length_ofScan (space.view store) options size
  obtain ⟨hall, -, -⟩ := Cursor.fetched_spec space store hasks
    (Prod.ext (Cursor.fst_fetched _ _ _) hnext)
  obtain ⟨hfull, last, hlast, rfl⟩ := Cursor.snd_fetched_eq_some_iff.1 hnext
  have hfull : ¬ (ofScan (space.view store) options size).entries.length < pageLimit options size :=
    hfull
  refine ⟨?_, ?_, ?_, ?_, ?_⟩
  · rintro _ ⟨⟩
    rfl
  · refine List.isChain_cons.2 ⟨fun page hpage => ⟨last, hlast, ?_⟩, hdivide.next⟩
    exact hdivide.first page hpage
  · exact List.forall_mem_cons.2 ⟨foundIn_ofScan _ _ _, hdivide.each⟩
  · rw [List.flatMap_cons, hdivide.all]
    exact hall
  · have hleft : (space.view store).found (options.resume last.key
        ((space.view store).scan (pageScan options size)).length) =
        ((space.view store).found options).drop (pageLimit options size) :=
      ByteMap.found_resume_page hlast _
    have hasked : ((space.view store).scan (pageScan options size)).length =
        pageLimit options size := by
      show (ofScan (space.view store) options size).entries.length = _
      omega
    rw [List.length_cons, hdivide.count, hleft, List.length_drop, ScanOptions.limit_resume, hasked,
      ← needed_of_full hsize hasks (by omega)]

end

end Page

/-! ## Whole streams -/

/-- The engine after scans that have fetched some pages. -/
def Engine.paged (engine : Engine) (space : Namespace) (pages : List Page) : Engine :=
  { engine with calls := (pages.map (Page.call space)).reverse ++ engine.calls }

theorem Engine.paged_cons (engine : Engine) (space : Namespace) (page : Page) (pages : List Page) :
    engine.paged space (page :: pages) =
      (engine.called (page.call space) engine.store).paged space pages := by
  simp [paged, called]

namespace Session

variable {space : Namespace} {size : Nat}

/-- The entries of the page in use are collected before the next one is fetched. -/
theorem collect_pending (fuel : Nat) (pending : List Entry) (rest : Option ScanOptions)
    (found : List Entry) (engine : Engine) :
    collect (fuel + pending.length) ⟨space, size, pending, rest⟩ found engine =
      collect fuel ⟨space, size, [], rest⟩ (pending.reverse ++ found) engine := by
  induction pending generalizing found with
  | nil => rfl
  | cons entry pending ih =>
    show collect (fuel + pending.length) ⟨space, size, pending, rest⟩ (entry :: found) engine = _
    rw [ih, List.reverse_cons, List.append_assoc, List.singleton_append]

theorem collect_last (fuel : Nat) (found : List Entry) (engine : Engine) :
    collect fuel ⟨space, size, [], none⟩ found engine = .ok found engine := by
  cases fuel <;> rfl

theorem collect_of_end {cursor : Cursor} {engine after : Engine}
    (hnext : cursor.next engine = .ok none after) (fuel : Nat) (found : List Entry) :
    collect (fuel + 1) cursor found engine = .ok found after :=
  bind_ok hnext _

theorem collect_of_entry {cursor rest : Cursor} {engine after : Engine} {entry : Entry}
    (hnext : cursor.next engine = .ok (some (entry, rest)) after) (fuel : Nat) (found : List Entry) :
    collect (fuel + 1) cursor found engine = collect fuel rest (entry :: found) after :=
  bind_ok hnext _

/-- A page is fetched and collected, with fuel for its entries. -/
theorem collect_page {options : ScanOptions} {rest : Option ScanOptions} {page : List Entry}
    {engine after : Engine} (hfetch : Cursor.fetch space options size engine = .ok (page, rest) after)
    (hpage : page = [] → rest = none) {fuel : Nat} (hfuel : page.length ≤ fuel) (found : List Entry) :
    ∃ left, (page ≠ [] → left + page.length = fuel + 1) ∧
      collect (fuel + 1) ⟨space, size, [], some options⟩ found engine =
        collect left ⟨space, size, [], rest⟩ (page.reverse ++ found) after := by
  cases page with
  | nil =>
    obtain rfl := hpage rfl
    refine ⟨fuel, nofun, ?_⟩
    rw [collect_last]
    exact collect_of_end (bind_ok hfetch _) _ _
  | cons entry pending =>
    rw [List.length_cons] at hfuel
    refine ⟨fuel - pending.length, fun _ => by rw [List.length_cons]; omega, ?_⟩
    have hnext : (Cursor.mk space size [] (some options)).next engine =
        .ok (some (entry, ⟨space, size, pending, rest⟩)) after := bind_ok hfetch _
    rw [collect_of_entry hnext, List.reverse_cons, List.append_assoc, List.singleton_append,
      ← collect_pending, Nat.sub_add_cancel (by omega)]

/-- With fuel for all that is found, collecting goes on to the last page. -/
theorem collect_pages (space : Namespace) (hsize : 0 < size) {fuel : Nat} {options : ScanOptions}
    {engine : Engine} (hserved : engine.faults = .never)
    (hfuel : ((space.view engine.store).scan options).length < fuel) (found : List Entry) :
    ∃ pages, Page.Divide (space.view engine.store) options size pages ∧
      collect fuel ⟨space, size, [], some options⟩ found engine =
        .ok ((pages.flatMap Page.entries).reverse ++ found) (engine.paged space pages) := by
  -- on the fuel: a page after which the scan goes on has entries, and collecting them takes some
  induction fuel using Nat.strong_induction_on generalizing options engine found with
  | _ fuel ih =>
    obtain ⟨fuel, rfl⟩ := Nat.exists_eq_succ_of_ne_zero (Nat.ne_zero_of_lt hfuel)
    by_cases hzero : Cursor.pageLimit options size = 0
    · refine ⟨[], Page.divide_nil hsize hzero, ?_⟩
      have hfetch := Cursor.fetch_of_pageLimit_eq_zero hzero space engine
      exact collect_of_end (bind_ok hfetch _) _ _
    · let page := Page.ofScan (space.view engine.store) options size
      have hfetch := Cursor.fetch_of_pageLimit_ne_zero hzero space engine
      rw [Engine.fault?_of_never hserved] at hfetch
      obtain ⟨rest, hrest⟩ : ∃ rest, Cursor.fetched options size page.entries = (page.entries, rest) :=
        ⟨_, Prod.ext (Cursor.fst_fetched _ _ _) rfl⟩
      have hsnd := congrArg Prod.snd hrest
      obtain ⟨hall, hend, -⟩ := Cursor.fetched_spec space engine.store hzero hrest
      rw [← hall, List.length_append] at hfuel
      obtain ⟨left, hleft, hcollect⟩ :=
        collect_page (hfetch.trans (congrArg (EStateM.Result.ok · _) hrest)) hend
          (show page.entries.length ≤ fuel by omega) found
      rw [hcollect]
      cases rest with
      | none =>
        refine ⟨[page], Page.divide_last hzero hsnd, ?_⟩
        rw [collect_last, List.flatMap_singleton]
        rfl
      | some next =>
        have hpage : page.entries ≠ [] := fun hnil => nomatch hend hnil
        have hleft := hleft hpage
        have hpos := List.length_pos_of_ne_nil hpage
        let called := engine.called (page.call space) engine.store
        have hrest : ((space.view called.store).scan next).length < left := by
          have : page.entries.length + ((space.view called.store).scan next).length < fuel + 1 := hfuel
          omega
        obtain ⟨pages, hdivide, hpages⟩ := ih left (by omega) (show called.faults = .never from hserved)
          hrest (page.entries.reverse ++ found)
        refine ⟨page :: pages, Page.divide_cons hsize hzero hsnd hdivide, ?_⟩
        rw [Engine.paged_cons, List.flatMap_cons, List.reverse_append, List.append_assoc]
        exact hpages

/-- For every scan of a namespace, however large a page is, the stream that is collected to its end
yields what the whole scan returns. The calls it makes are for the pages, which divide the scan. -/
theorem paging_is_invisible (space : Namespace) (options : ScanOptions) (pageSize : Nat)
    {engine : Engine} (hserved : engine.faults = .never) :
    ∃ entries pages, (∃ after, space.scan options engine = .ok entries after) ∧
      collectStream space options pageSize engine = .ok entries (engine.paged space pages) ∧
      Page.Divide (space.view engine.store) options (max 1 pageSize) pages := by
  have hscan := space.scan_eq engine options
  rw [Engine.fault?_of_never hserved] at hscan
  have hfuel : ((space.view engine.store).scan options).length < engine.store.size + 1 :=
    (Cursor.start space options pageSize).length_remaining_lt engine.store
  obtain ⟨pages, hdivide, hcollect⟩ :=
    collect_pages space (show 0 < max 1 pageSize by omega) hserved hfuel []
  refine ⟨_, pages, ⟨_, hscan⟩, ?_, hdivide⟩
  refine (bind_ok (x := get) rfl _).trans ((bind_ok hcollect _).trans ?_)
  rw [List.append_nil, List.reverse_reverse, hdivide.all]
  rfl

/-- An engine that holds four entries of a namespace. -/
def fourEntries : Engine :=
  { store := ⟨[[1], [2], [3], [4]].map fun key => ((Namespace.root.sub "a").dataKey key, key),
      by decide +kernel⟩ }

/-- Without a limit two full pages of the four entries are followed by an empty one, with a limit
of four they are not. -/
theorem paging_of_four :
    (∃ pages, collectStream (Namespace.root.sub "a") { values := false } 2 fourEntries =
        .ok [⟨[1], none⟩, ⟨[2], none⟩, ⟨[3], none⟩, ⟨[4], none⟩]
          (fourEntries.paged (Namespace.root.sub "a") pages) ∧ pages.length = 3) ∧
      ∃ pages, collectStream (Namespace.root.sub "a") { reverse := true, limit := some 4 } 2 fourEntries =
        .ok [⟨[4], some [4]⟩, ⟨[3], some [3]⟩, ⟨[2], some [2]⟩, ⟨[1], some [1]⟩]
          (fourEntries.paged (Namespace.root.sub "a") pages) ∧ pages.length = 2 := by
  constructor
  · obtain ⟨entries, pages, ⟨after, hscan⟩, hcollect, hdivide⟩ := paging_is_invisible
      (Namespace.root.sub "a") { values := false } 2
      (show fourEntries.faults = .never from rfl)
    cases hscan
    exact ⟨pages, hcollect, hdivide.count.trans (by decide +kernel)⟩
  · obtain ⟨entries, pages, ⟨after, hscan⟩, hcollect, hdivide⟩ := paging_is_invisible
      (Namespace.root.sub "a") { reverse := true, limit := some 4 } 2
      (show fourEntries.faults = .never from rfl)
    cases hscan
    exact ⟨pages, hcollect, hdivide.count.trans (by decide +kernel)⟩

end Session

end DocStore
