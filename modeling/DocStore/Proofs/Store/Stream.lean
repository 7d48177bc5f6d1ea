/-
Streams under concurrent writes. Between two polls of a scan anything may be called on the store.
What carries the proofs is which keys a cursor may still come to: those on the page that it has
left, and those within the bounds of what is left to scan. A poll that yields a key leaves behind
it only keys ahead of it, and loses none that is there.
-/
import DocStore.Proofs.Store.Cursor
import DocStore.Proofs.Store.Isolation

namespace DocStore

/-! ## Polls -/

/-- What a poll of a stream comes to. -/
inductive PollOutcome where
  | entry (e : Entry)
  | failed (error : StoreError)
  | ended

/-- Polls a stream. One that has ended or failed is not asked again. -/
def Cursor.poll (stream : Option Cursor) (engine : Engine) : (PollOutcome × Option Cursor) × Engine :=
  match stream with
  | none => ((.ended, none), engine)
  | some cursor =>
    match cursor.next engine with
    | .ok (some (e, cursor)) engine => ((.entry e, some cursor), engine)
    | .ok none engine => ((.ended, none), engine)
    | .error error engine => ((.failed error, none), engine)

/-- What happens while a stream is in use: it is polled, or something is called on the store. -/
inductive StreamStep where
  | poll
  | call (space : Namespace) (call : Call)

/-- A poll of a stream, with the engine before and after it. -/
structure Poll where
  outcome : PollOutcome
  before : Engine
  after : Engine

namespace Poll

/-- Whether the poll has called the engine. -/
def called (poll : Poll) : Bool := decide (poll.after.calls ≠ poll.before.calls)

/-- The entry that the poll has yielded, if it has. -/
def yielded? (poll : Poll) : Option Entry :=
  match poll.outcome with
  | .entry e => some e
  | _ => none

theorem outcome_of_yielded {p : Poll} {e : Entry} (h : p.yielded? = some e) : p.outcome = .entry e := by
  unfold yielded? at h
  split at h
  · cases h
    assumption
  · cases h

theorem entries_cons (e : Entry) (before after : Engine) (polls : List Poll) :
    (⟨.entry e, before, after⟩ :: polls).filterMap yielded? = e :: polls.filterMap yielded? := rfl

theorem entries_eq_nil {polls : List Poll} (h : ∀ p ∈ polls, ∀ e, p.outcome ≠ .entry e) :
    polls.filterMap yielded? = [] := by
  refine List.filterMap_eq_nil_iff.2 fun p hp => ?_
  unfold yielded?
  split
  · rename_i e hentry
    exact absurd hentry (h p hp e)
  · rfl

/-- The poll makes one call at most, and writes nothing. -/
def CallsOnce (poll : Poll) : Prop :=
  poll.after = poll.before ∨ ∃ call, poll.after = poll.before.called call poll.before.store

/-- Whether a namespace holds a key when it is polled. -/
def Finds (poll : Poll) (space : Namespace) (key : Bytes) : Prop :=
  ((space.view poll.before.store).get? key).isSome = true

instance (poll : Poll) (space : Namespace) (key : Bytes) : Decidable (poll.Finds space key) :=
  inferInstanceAs (Decidable (_ = true))

end Poll

/-- The engine after a call, whether it fails or not. -/
def Namespace.afterCall (space : Namespace) (call : Call) (engine : Engine) : Engine :=
  match space.call call engine with
  | .ok _ after => after
  | .error _ after => after

/-- The polls of a stream as steps follow one another. -/
def StreamStep.polls : List StreamStep → Option Cursor → Engine → List Poll
  | [], _, _ => []
  | .poll :: rest, stream, engine =>
    let ((outcome, stream), after) := Cursor.poll stream engine
    ⟨outcome, engine, after⟩ :: polls rest stream after
  | .call space made :: rest, stream, engine => polls rest stream (space.afterCall made engine)

/-- The entry is what a scan returns of a key that the map holds, within the bounds of the scan. -/
structure Entry.StoredIn (e : Entry) (map : ByteMap) (options : ScanOptions) : Prop where
  stored : ∃ bytes, map.get? e.key = some bytes ∧ e = options.entry (e.key, bytes)
  contained : options.contains e.key = true

/-- The last of some polls that has called the engine: it has fetched the page in use. -/
def Poll.fetch? (polls : List Poll) : Option Poll := (polls.filter Poll.called).getLast?

/-- The entry was in the namespace when the page in use was fetched. -/
def Entry.FetchedIn (e : Entry) (fetch? : Option Poll) (space : Namespace) (options : ScanOptions) :
    Prop :=
  ∃ fetch, fetch? = some fetch ∧ e.StoredIn (space.view fetch.before.store) options

/-! ## One page -/

namespace Cursor

variable {space : Namespace} {options : ScanOptions}

/-- A page of a scan without a limit. -/
def page (space : Namespace) (store : ByteMap) (options : ScanOptions) (pageSize : Nat) : List Entry :=
  (((space.view store).found options).take pageSize).map options.entry

theorem fetch_eq (hlimit : options.limit = none) {pageSize : Nat} (hsize : 0 < pageSize)
    (engine : Engine) : ∃ call, fetch space options pageSize engine =
      match engine.fault? call with
      | some error => .error error (engine.called call engine.store)
      | none => .ok
        (match (page space engine.store options pageSize).getLast? with
        | none => ([], none)
        | some last => (page space engine.store options pageSize,
          if (page space engine.store options pageSize).length < pageSize then none
          else some (options.resume last.key (page space engine.store options pageSize).length)))
        (engine.called call engine.store) := by
  have hpageLimit : pageLimit options pageSize = pageSize := by
    rw [pageLimit, hlimit]
  have hpage : (space.view engine.store).scan (pageScan options pageSize) =
      page space engine.store options pageSize := by
    rw [pageScan, hpageLimit]
    exact ByteMap.scan_eq _ _
  have hfetch := fetch_of_pageLimit_ne_zero (hpageLimit ▸ hsize.ne') space engine
  rw [hpage, fetched, hpageLimit] at hfetch
  exact ⟨_, hfetch⟩

section
variable {space : Namespace} {store : ByteMap} {options : ScanOptions} {pageSize : Nat}

theorem storedIn_of_mem_page {e : Entry} (h : e ∈ page space store options pageSize) :
    e.StoredIn (space.view store) options := by
  obtain ⟨stored, hmem, rfl⟩ := List.mem_map.1 h
  obtain ⟨hheld, hcontains⟩ := (ByteMap.mem_found_iff _ _ _).1 (List.mem_of_mem_take hmem)
  exact ⟨⟨stored.2, (ByteMap.get?_eq_some_iff _ _ _).2 hheld, rfl⟩, hcontains⟩

theorem page_pairwise : (page space store options pageSize).Pairwise fun a b =>
    options.isAhead a.key b.key = true :=
  List.pairwise_map.2 ((space.view store).found_pairwise options).take

/-- A key within the bounds is on the page, or the page is full and the key ahead of it. -/
theorem mem_page_or_ahead {key bytes : Bytes} (hcontains : options.contains key = true)
    (hheld : (space.view store).get? key = some bytes) :
    (∃ e ∈ page space store options pageSize, e.key = key) ∨
      (page space store options pageSize).length = pageSize ∧
        ∀ e ∈ page space store options pageSize, options.isAhead e.key key = true := by
  have hfound : (key, bytes) ∈ (space.view store).found options :=
    (ByteMap.mem_found_iff _ _ _).2 ⟨(ByteMap.get?_eq_some_iff _ _ _).1 hheld, hcontains⟩
  have hsorted := (space.view store).found_pairwise options
  rw [← List.take_append_drop pageSize ((space.view store).found options)] at hfound hsorted
  rcases List.mem_append.1 hfound with htake | hdrop
  · exact .inl ⟨_, List.mem_map_of_mem htake, rfl⟩
  · refine .inr ⟨?_, ?_⟩
    · have := List.length_pos_of_mem hdrop
      rw [List.length_drop] at this
      rw [page, List.length_map, List.length_take]
      omega
    · intro e he
      obtain ⟨stored, hmem, rfl⟩ := List.mem_map.1 he
      exact (List.pairwise_append.1 hsorted).2.2 stored hmem _ hdrop

theorem isAhead_trans {a b c : Bytes} (hab : options.isAhead a b = true)
    (hbc : options.isAhead b c = true) : options.isAhead a c = true := by
  unfold ScanOptions.isAhead at *
  split at hab <;> simp_all only [decide_eq_true_eq, if_true, if_false, Bool.false_eq_true]
  · exact List.lt_trans hbc hab
  · exact List.lt_trans hab hbc

/-- What is ahead of the last entry of a page is ahead of the page. -/
theorem isAhead_of_getLast? {last : Entry} {key : Bytes}
    (hlast : (page space store options pageSize).getLast? = some last)
    (hkey : options.isAhead last.key key = true) :
    ∀ e ∈ page space store options pageSize, options.isAhead e.key key = true := by
  have hsorted : (page space store options pageSize).Pairwise fun a b =>
      options.isAhead a.key b.key = true := page_pairwise
  obtain ⟨before, hbefore⟩ := List.getLast?_eq_some_iff.1 hlast
  rw [hbefore] at hsorted ⊢
  intro e he
  rcases List.mem_append.1 he with he | he
  · exact isAhead_trans ((List.pairwise_append.1 hsorted).2.2 e he last List.mem_cons_self) hkey
  · rwa [List.mem_singleton.1 he]

end

/-! ## Keys to come -/

/-- The keys that a cursor may still come to. -/
def ToCome (cursor : Cursor) (key : Bytes) : Prop :=
  (∃ e ∈ cursor.pending, e.key = key) ∨
    ∃ rest, cursor.rest = some rest ∧ rest.contains key = true

/-- The cursor is under way through the bounds of a scan without a limit, in its direction. -/
structure Follows (cursor : Cursor) (space : Namespace) (options : ScanOptions) : Prop where
  space : cursor.space = space
  pageSize : 0 < cursor.pageSize
  sorted : cursor.pending.Pairwise fun a b => options.isAhead a.key b.key = true
  contained : ∀ e ∈ cursor.pending, options.contains e.key = true
  unlimited : ∀ rest, cursor.rest = some rest → rest.limit = none
  reverse : ∀ rest, cursor.rest = some rest → rest.reverse = options.reverse
  values : ∀ rest, cursor.rest = some rest → rest.values = options.values
  within : ∀ rest, cursor.rest = some rest → ∀ key, rest.contains key = true →
    options.contains key = true ∧ ∀ e ∈ cursor.pending, options.isAhead e.key key = true

theorem follows_start (space : Namespace) {options : ScanOptions} (hlimit : options.limit = none)
    (pageSize : Nat) : (start space options pageSize).Follows space options := by
  refine ⟨rfl, Nat.le_max_left _ _, .nil, nofun, ?_, ?_, ?_, ?_⟩
  · rintro _ ⟨⟩
    exact hlimit
  · rintro _ ⟨⟩
    rfl
  · rintro _ ⟨⟩
    rfl
  · rintro _ ⟨⟩ key hkey
    exact ⟨hkey, nofun⟩

theorem toCome_start {space : Namespace} {options : ScanOptions} {pageSize : Nat} {key : Bytes}
    (h : options.contains key = true) : (start space options pageSize).ToCome key :=
  .inr ⟨options, rfl, h⟩

/-- A cursor yields an entry and goes on as `next`. Only keys ahead of the entry may still come, and
all of those that might have come before and are there. -/
structure Advances (cursor : Cursor) (space : Namespace) (options : ScanOptions) (engine : Engine)
    (e : Entry) (next : Cursor) (after : Engine) : Prop where
  follows : next.Follows space options
  comes : cursor.ToCome e.key
  ahead : ∀ key, next.ToCome key → cursor.ToCome key ∧ options.isAhead e.key key = true
  keeps : ∀ key bytes, cursor.ToCome key → (space.view engine.store).get? key = some bytes →
    e.key = key ∨ next.ToCome key
  source : cursor.pending = e :: next.pending ∧ after = engine ∨
    after.calls ≠ engine.calls ∧ ∀ x ∈ e :: next.pending, x.StoredIn (space.view engine.store) options

theorem Advances.fetched {cursor next : Cursor} {space : Namespace} {options : ScanOptions}
    {engine after : Engine} {e : Entry} (h : cursor.Advances space options engine e next after)
    {past : List Poll} (hpending : ∀ x ∈ cursor.pending, x.FetchedIn (Poll.fetch? past) space options) :
    ∀ x ∈ e :: next.pending,
      x.FetchedIn (Poll.fetch? (past ++ [⟨.entry e, engine, after⟩])) space options := by
  unfold Poll.fetch? at *
  rw [List.filter_append]
  rcases h.source with ⟨hsame, rfl⟩ | ⟨hcalled, hstored⟩
  · have hcalled : Poll.called ⟨.entry e, after, after⟩ = false := by simp [Poll.called]
    rw [List.filter_cons_of_neg (by rw [hcalled]; exact Bool.false_ne_true), List.filter_nil,
      List.append_nil, ← hsame]
    exact hpending
  · have hcalled : Poll.called ⟨.entry e, engine, after⟩ = true := decide_eq_true hcalled
    rw [List.filter_cons_of_pos hcalled, List.filter_nil, List.getLast?_concat]
    exact fun x hx => ⟨_, rfl, hstored x hx⟩

theorem isAhead_congr {a b : ScanOptions} (h : a.reverse = b.reverse) : a.isAhead = b.isAhead := by
  unfold ScanOptions.isAhead
  rw [h]

theorem entry_congr {a b : ScanOptions} (h : a.values = b.values) : a.entry = b.entry := by
  unfold ScanOptions.entry
  rw [h]

/-- A cursor advances by fetching a page. -/
theorem advances_of_page {space : Namespace} {options rest : ScanOptions} {pageSize : Nat}
    (h : Follows ⟨space, pageSize, [], some rest⟩ space options) {engine : Engine} {e last : Entry}
    {pending : List Entry} (hpage : page space engine.store rest pageSize = e :: pending)
    (hlast : (page space engine.store rest pageSize).getLast? = some last) (call : Call) :
    Advances ⟨space, pageSize, [], some rest⟩ space options engine e
      ⟨space, pageSize, pending, if (e :: pending).length < pageSize then none
        else some (rest.resume last.key (e :: pending).length)⟩ (engine.called call engine.store) := by
  have hahead := isAhead_congr (h.reverse rest rfl)
  have hentry := entry_congr (h.values rest rfl)
  -- the rest of the scan differs from all of it in its bounds only
  have hwithin : ∀ key, rest.contains key = true → options.contains key = true := fun key hkey =>
    (h.within rest rfl key hkey).1
  have hstored : ∀ x ∈ e :: pending, x.StoredIn (space.view engine.store) rest := by
    rw [← hpage]
    exact fun x => storedIn_of_mem_page
  have hbehind : ∀ key, rest.isAhead last.key key = true → ∀ x ∈ e :: pending,
      rest.isAhead x.key key = true := by
    rw [← hpage]
    exact fun key => isAhead_of_getLast? hlast
  have hsorted : (e :: pending).Pairwise fun a b => rest.isAhead a.key b.key = true := by
    rw [← hpage]
    exact page_pairwise
  have hmem : last ∈ e :: pending := by
    rw [← hpage]
    exact List.mem_of_getLast? hlast
  -- what is left to scan after the page is ahead of its last entry
  have hresume : ∀ resumed, (if (e :: pending).length < pageSize then none
      else some (rest.resume last.key (e :: pending).length)) = some resumed →
      resumed = rest.resume last.key (e :: pending).length := by
    intro resumed hresumed
    split at hresumed <;> cases hresumed
    rfl
  have hcontains := ScanOptions.contains_resume (hstored last hmem).contained (e :: pending).length
  rw [hahead] at hbehind hsorted hcontains
  obtain ⟨habove, hpending⟩ := List.pairwise_cons.1 hsorted
  refine ⟨⟨rfl, h.pageSize, hpending, ?_, ?_, ?_, ?_, ?_⟩, ?_, ?_, ?_, .inr ⟨?_, ?_⟩⟩
  · exact fun x hx => hwithin _ (hstored x (List.mem_cons_of_mem _ hx)).contained
  · intro resumed hresumed
    rw [hresume resumed hresumed, ScanOptions.limit_resume, h.unlimited rest rfl]
    rfl
  · intro resumed hresumed
    rw [hresume resumed hresumed, ScanOptions.reverse_resume, h.reverse rest rfl]
  · intro resumed hresumed
    rw [hresume resumed hresumed, ScanOptions.values_resume, h.values rest rfl]
  · intro resumed hresumed key hkey
    rw [hresume resumed hresumed, hcontains, Bool.and_eq_true] at hkey
    exact ⟨hwithin key hkey.1, fun x hx => hbehind key hkey.2 x (List.mem_cons_of_mem _ hx)⟩
  · exact .inr ⟨rest, rfl, (hstored e List.mem_cons_self).contained⟩
  · rintro key (⟨x, hx, rfl⟩ | ⟨resumed, hresumed, hkey⟩)
    · exact ⟨.inr ⟨rest, rfl, (hstored x (List.mem_cons_of_mem _ hx)).contained⟩, habove x hx⟩
    · rw [hresume resumed hresumed, hcontains, Bool.and_eq_true] at hkey
      exact ⟨.inr ⟨rest, rfl, hkey.1⟩, hbehind key hkey.2 e List.mem_cons_self⟩
  · rintro key bytes (⟨x, hx, -⟩ | ⟨_, ⟨⟩, hkey⟩) hheld
    · cases hx
    · rcases mem_page_or_ahead hkey hheld with ⟨x, hx, rfl⟩ | ⟨hfull, hpast⟩
      · rw [hpage] at hx
        rcases List.mem_cons.1 hx with rfl | hx
        · exact .inl rfl
        · exact .inr (.inl ⟨x, hx, rfl⟩)
      · rw [hpage, hahead] at hpast
        rw [hpage] at hfull
        refine .inr (.inr ⟨_, if_neg (by omega), ?_⟩)
        rw [hcontains, Bool.and_eq_true]
        exact ⟨hkey, hpast last hmem⟩
  · exact List.cons_ne_self _ _
  · intro x hx
    obtain ⟨⟨bytes, hheld, hx'⟩, hin⟩ := hstored x hx
    exact ⟨⟨bytes, hheld, hentry ▸ hx'⟩, hwithin _ hin⟩

/-- A cursor advances along the page that it is on. -/
theorem advances_of_pending {space : Namespace} {options : ScanOptions} {rest : Option ScanOptions}
    {pageSize : Nat} {e : Entry} {pending : List Entry}
    (h : Follows ⟨space, pageSize, e :: pending, rest⟩ space options) (engine : Engine) :
    Advances ⟨space, pageSize, e :: pending, rest⟩ space options engine e
      ⟨space, pageSize, pending, rest⟩ engine := by
  obtain ⟨habove, hsorted⟩ := List.pairwise_cons.1 h.sorted
  refine ⟨⟨rfl, h.pageSize, hsorted, ?_, h.unlimited, h.reverse, h.values, ?_⟩, ?_, ?_, ?_,
    .inl ⟨rfl, rfl⟩⟩
  · exact fun x hx => h.contained x (List.mem_cons_of_mem _ hx)
  · exact fun rest hrest key hkey => ⟨(h.within rest hrest key hkey).1,
      fun x hx => (h.within rest hrest key hkey).2 x (List.mem_cons_of_mem _ hx)⟩
  · exact .inl ⟨e, List.mem_cons_self, rfl⟩
  · rintro key (⟨x, hx, rfl⟩ | ⟨rest, hrest, hkey⟩)
    · exact ⟨.inl ⟨x, List.mem_cons_of_mem _ hx, rfl⟩, habove x hx⟩
    · exact ⟨.inr ⟨rest, hrest, hkey⟩, (h.within rest hrest key hkey).2 e List.mem_cons_self⟩
  · rintro key bytes (⟨x, hx, rfl⟩ | hrest) -
    · rcases List.mem_cons.1 hx with rfl | hx
      · exact .inl rfl
      · exact .inr (.inl ⟨x, hx, rfl⟩)
    · exact .inr (.inr hrest)

/-- When a page is empty no key within the bounds is there. -/
theorem get?_of_page_eq_nil {space : Namespace} {store : ByteMap} {options : ScanOptions}
    {pageSize : Nat} (hsize : 0 < pageSize) (hempty : page space store options pageSize = [])
    {key : Bytes} (hkey : options.contains key = true) : (space.view store).get? key = none := by
  by_contra hheld
  obtain ⟨bytes, hbytes⟩ := Option.ne_none_iff_exists'.1 hheld
  rcases mem_page_or_ahead hkey hbytes with ⟨e, he, -⟩ | ⟨hfull, -⟩
  · rw [hempty] at he
    cases he
  · rw [hempty] at hfull
    exact absurd hfull (Nat.ne_of_lt hsize)

/-- A poll fetches one page at most. -/
theorem callsOnce_of_poll {stream next : Option Cursor} {engine after : Engine}
    {outcome : PollOutcome} (h : poll stream engine = ((outcome, next), after)) :
    Poll.CallsOnce ⟨outcome, engine, after⟩ := by
  unfold poll at h
  rcases stream with _ | cursor
  · cases h
    exact .inl rfl
  · have hfetched : ∀ {found middle}, cursor.next engine = .ok found middle →
        middle = engine ∨ ∃ call, middle = engine.called call engine.store := by
      intro found middle hnext
      cases cursor.next_ends.of_ok hnext with
      | refl => exact .inl rfl
      | scan => exact .inr ⟨_, rfl⟩
    rcases hnext : cursor.next engine with ⟨_ | ⟨e, rest⟩, middle⟩ | ⟨error, middle⟩ <;>
      simp only [hnext] at h <;> cases h
    · exact hfetched hnext
    · exact hfetched hnext
    · cases cursor.next_ends.of_error hnext
      exact .inr ⟨_, rfl⟩

/-- A poll yields an entry, or it is the last one; at the end no key that might have come is
there. -/
theorem poll_spec {cursor : Cursor} {space : Namespace} {options : ScanOptions}
    (h : cursor.Follows space options) (engine : Engine) :
    (∃ e next after, poll (some cursor) engine = ((.entry e, some next), after) ∧
        cursor.Advances space options engine e next after) ∨
      (∃ error after, poll (some cursor) engine = ((.failed error, none), after)) ∨
      ∃ after, poll (some cursor) engine = ((.ended, none), after) ∧
        ∀ key, cursor.ToCome key → (space.view engine.store).get? key = none := by
  obtain ⟨home, pageSize, pending, rest⟩ := cursor
  obtain rfl : home = space := h.space
  rcases pending with _ | ⟨e, pending⟩
  · rcases rest with _ | rest
    · refine .inr (.inr ⟨engine, rfl, ?_⟩)
      rintro key (⟨e, he, -⟩ | ⟨rest, hrest, -⟩)
      · cases he
      · cases hrest
    · -- the page is used up: the next one is fetched
      obtain ⟨call, hfetch⟩ := (fetch_eq (h.unlimited rest rfl) h.pageSize engine :
        ∃ call, fetch home rest pageSize engine = _)
      cases hfault : engine.fault? call with
      | some error =>
        rw [hfault] at hfetch
        exact .inr (.inl ⟨error, engine.called call engine.store,
          by simp only [poll, next, bind_error hfetch]⟩)
      | none =>
        rw [hfault] at hfetch
        rcases hlast : (page home engine.store rest pageSize).getLast? with _ | last
        · rw [hlast] at hfetch
          refine .inr (.inr ⟨_, by simp only [poll, next, bind_ok hfetch]; rfl, ?_⟩)
          rintro key (⟨e, he, -⟩ | ⟨_, ⟨⟩, hkey⟩)
          · cases he
          · exact get?_of_page_eq_nil h.pageSize (List.getLast?_eq_none_iff.1 hlast) hkey
        · obtain ⟨e, pending, hpage⟩ := List.exists_cons_of_ne_nil
            (List.ne_nil_of_mem (List.mem_of_getLast? hlast))
          have hadvances := advances_of_page h hpage hlast call
          rw [hlast] at hfetch
          rw [hpage] at hfetch
          exact .inl ⟨e, _, _, by simp only [poll, next, bind_ok hfetch]; rfl, hadvances⟩
  · exact .inl ⟨e, _, engine, rfl, advances_of_pending h engine⟩

end Cursor

/-! ## Runs -/

namespace StreamStep

variable {space : Namespace} {options : ScanOptions} {steps : List StreamStep}
  {stream : Option Cursor} {engine : Engine}

theorem polls_poll {outcome : PollOutcome} {next : Option Cursor} {after : Engine}
    (hpoll : Cursor.poll stream engine = ((outcome, next), after)) :
    polls (.poll :: steps) stream engine = ⟨outcome, engine, after⟩ :: polls steps next after := by
  rw [polls, hpoll]

theorem callsOnce_of_mem_polls : ∀ p ∈ polls steps stream engine, p.CallsOnce := by
  induction steps generalizing stream engine with
  | nil => exact nofun
  | cons step rest ih =>
    cases step with
    | call space call => exact ih
    | poll =>
      rcases hpoll : Cursor.poll stream engine with ⟨⟨outcome, next⟩, after⟩
      rw [polls_poll hpoll]
      exact List.forall_mem_cons.2 ⟨Cursor.callsOnce_of_poll hpoll, ih⟩

/-- A stream that is over stays so, and leaves the engine alone. -/
theorem polls_none : ∀ p ∈ polls steps none engine, p.outcome = .ended ∧ p.after = p.before := by
  induction steps generalizing engine with
  | nil => exact nofun
  | cons step rest ih =>
    cases step with
    | poll =>
      intro p hp
      rcases List.mem_cons.1 hp with rfl | hp
      · exact ⟨rfl, rfl⟩
      · exact ih p hp
    | call space call => exact ih

/-- After a poll that yields no entry the stream is over. -/
theorem poll_of_last {outcome : PollOutcome} {next : Option Cursor} {after : Engine}
    (hpoll : Cursor.poll stream engine = ((outcome, next), after)) (h : ∀ e, outcome ≠ .entry e) :
    next = none := by
  unfold Cursor.poll at hpoll
  rcases stream with _ | cursor
  · cases hpoll
    rfl
  · rcases hnext : cursor.next engine with ⟨_ | ⟨e, cursor⟩, middle⟩ | ⟨error, middle⟩ <;>
      simp only [hnext] at hpoll <;> cases hpoll
    · rfl
    · exact absurd rfl (h e)
    · rfl

theorem polls_after_last {before after : List Poll} {p : Poll}
    (hsplit : polls steps stream engine = before ++ p :: after) (hlast : ∀ e, p.outcome ≠ .entry e) :
    ∀ q ∈ after, q.outcome = .ended ∧ q.after = q.before := by
  induction steps generalizing stream engine before with
  | nil => simp [polls] at hsplit
  | cons step rest ih =>
    cases step with
    | call space call => exact ih hsplit
    | poll =>
      rcases hpoll : Cursor.poll stream engine with ⟨⟨outcome, next⟩, middle⟩
      rw [polls_poll hpoll] at hsplit
      rcases List.cons_eq_append_iff.1 hsplit with ⟨rfl, heq⟩ | ⟨before, rfl, hrest⟩
      · cases heq
        obtain rfl := poll_of_last hpoll hlast
        exact polls_none
      · exact ih hrest

/-- Once a poll yields no entry none after it does. -/
theorem ne_entry_of_last {outcome : PollOutcome} {next : Option Cursor} {after : Engine}
    (hpoll : Cursor.poll stream engine = ((outcome, next), after)) (h : ∀ e, outcome ≠ .entry e) :
    ∀ p ∈ polls (.poll :: steps) stream engine, ∀ e, p.outcome ≠ .entry e := by
  obtain rfl := poll_of_last hpoll h
  intro p hp
  rw [polls_poll hpoll] at hp
  rcases List.mem_cons.1 hp with rfl | hp
  · exact h
  · rw [(polls_none p hp).1]
    exact fun e => nofun

/-- A poll of a stream yields an entry and advances the cursor, or nothing is yielded any more. -/
theorem advances_or_last (h : ∀ cursor, stream = some cursor → cursor.Follows space options)
    (engine : Engine) :
    (∃ cursor e next after, stream = some cursor ∧
        Cursor.poll stream engine = ((.entry e, some next), after) ∧
        cursor.Advances space options engine e next after) ∨
      ∀ steps, ∀ p ∈ polls (.poll :: steps) stream engine, ∀ e, p.outcome ≠ .entry e := by
  rcases hstream : stream with _ | cursor
  · exact .inr fun steps => ne_entry_of_last rfl fun e => nofun
  · rcases Cursor.poll_spec (h cursor hstream) engine with
      ⟨e, next, after, hpoll, hadvances⟩ | ⟨error, after, hpoll⟩ | ⟨after, hpoll, -⟩
    · exact .inl ⟨cursor, e, next, after, rfl, hpoll, hadvances⟩
    · exact .inr fun steps => ne_entry_of_last hpoll fun e => nofun
    · exact .inr fun steps => ne_entry_of_last hpoll fun e => nofun

/-- The keys that are yielded go one way, and are among those that may come. -/
theorem entries_pairwise (h : ∀ cursor, stream = some cursor → cursor.Follows space options) :
    ((polls steps stream engine).filterMap Poll.yielded?).Pairwise
        (fun a b => options.isAhead a.key b.key = true) ∧
      ∀ e ∈ (polls steps stream engine).filterMap Poll.yielded?,
        ∃ cursor, stream = some cursor ∧ cursor.ToCome e.key := by
  induction steps generalizing stream engine with
  | nil => exact ⟨.nil, nofun⟩
  | cons step rest ih =>
    cases step with
    | call space call => exact ih h
    | poll =>
      rcases advances_or_last h engine with
        ⟨cursor, e, next, after, rfl, hpoll, hadvances⟩ | hlast
      · rw [polls_poll hpoll, Poll.entries_cons]
        have hnext : ∀ cursor, some next = some cursor → cursor.Follows space options := by
          rintro _ ⟨⟩
          exact hadvances.follows
        obtain ⟨hpairwise, hcome⟩ := ih hnext
        -- what comes later might have come before, and is ahead of this entry
        have hahead : ∀ x ∈ (polls rest (some next) after).filterMap Poll.yielded?,
            cursor.ToCome x.key ∧ options.isAhead e.key x.key = true := by
          intro x hx
          obtain ⟨_, ⟨⟩, hx⟩ := hcome x hx
          exact hadvances.ahead _ hx
        refine ⟨List.pairwise_cons.2 ⟨fun x hx => (hahead x hx).2, hpairwise⟩, fun x hx => ?_⟩
        rcases List.mem_cons.1 hx with rfl | hx
        · exact ⟨cursor, rfl, hadvances.comes⟩
        · exact ⟨cursor, rfl, (hahead x hx).1⟩
      · rw [Poll.entries_eq_nil (hlast rest)]
        exact ⟨.nil, nofun⟩

/-- An entry that is yielded was in the namespace when the page in use was fetched. -/
theorem fetched_of_entry {past before after : List Poll} {p : Poll} {e : Entry}
    (h : ∀ cursor, stream = some cursor → cursor.Follows space options)
    (hpending : ∀ cursor, stream = some cursor → ∀ x ∈ cursor.pending,
      x.FetchedIn (Poll.fetch? past) space options)
    (hsplit : polls steps stream engine = before ++ p :: after) (hentry : p.outcome = .entry e) :
    e.FetchedIn (Poll.fetch? (past ++ (before ++ [p]))) space options := by
  -- what has been polled so far goes from the polls to come to the past
  induction steps generalizing stream engine past before with
  | nil => simp [polls] at hsplit
  | cons step rest ih =>
    cases step with
    | call space call => exact ih h hpending hsplit
    | poll =>
      rcases advances_or_last h engine with
        ⟨cursor, x, next, middle, rfl, hpoll, hadvances⟩ | hlast
      · have hfetched := hadvances.fetched (hpending cursor rfl)
        rw [polls_poll hpoll] at hsplit
        rcases List.cons_eq_append_iff.1 hsplit with ⟨rfl, heq⟩ | ⟨before, rfl, hrest⟩
        · cases heq
          cases hentry
          exact hfetched e List.mem_cons_self
        · have hpast : past ++ (⟨.entry x, engine, middle⟩ :: before ++ [p]) =
              past ++ [⟨.entry x, engine, middle⟩] ++ (before ++ [p]) := by simp
          rw [hpast]
          refine ih (fun _ hnext => ?_) (fun _ hnext y hy => ?_) hrest
          · cases hnext
            exact hadvances.follows
          · cases hnext
            exact hfetched y (List.mem_cons_of_mem _ hy)
      · have hmem : p ∈ polls (.poll :: rest) stream engine :=
          hsplit ▸ List.mem_append_right _ List.mem_cons_self
        exact absurd hentry (hlast rest p hmem e)

/-- A stream that ends without a failure has yielded every key that might have come and was there
at every poll. -/
theorem mem_entries_of_ended {cursor : Cursor} {before after : List Poll} {last : Poll} {key : Bytes}
    (h : cursor.Follows space options) (hcomes : cursor.ToCome key)
    (hsplit : polls steps (some cursor) engine = before ++ last :: after)
    (hended : last.outcome = .ended) (hserved : ∀ p ∈ before, ∀ error, p.outcome ≠ .failed error)
    (hstays : ∀ p ∈ before ++ [last], p.Finds space key) :
    ∃ e ∈ before.filterMap Poll.yielded?, e.key = key := by
  induction steps generalizing cursor engine before with
  | nil => simp [polls] at hsplit
  | cons step rest ih =>
    cases step with
    | call space call => exact ih h hcomes hsplit hserved hstays
    | poll =>
      rcases Cursor.poll_spec h engine with
        ⟨e, next, middle, hpoll, hadvances⟩ | ⟨error, middle, hpoll⟩ | ⟨middle, hpoll, hgone⟩
      · rw [polls_poll hpoll] at hsplit
        rcases List.cons_eq_append_iff.1 hsplit with ⟨rfl, heq⟩ | ⟨before, rfl, hrest⟩
        · cases heq
          cases hended
        · rw [Poll.entries_cons]
          -- the key is yielded by this poll, or may still come
          obtain ⟨bytes, hbytes⟩ := Option.isSome_iff_exists.1 (hstays _ List.mem_cons_self)
          rcases hadvances.keeps key bytes hcomes hbytes with hkey | hcomes
          · exact ⟨e, List.mem_cons_self, hkey⟩
          · obtain ⟨x, hx, hkey⟩ := ih hadvances.follows hcomes hrest
              (fun p hp => hserved p (List.mem_cons_of_mem _ hp))
              fun p hp => hstays p (List.mem_cons_of_mem _ hp)
            exact ⟨x, List.mem_cons_of_mem _ hx, hkey⟩
      · rw [polls_poll hpoll] at hsplit
        rcases List.cons_eq_append_iff.1 hsplit with ⟨rfl, heq⟩ | ⟨before, rfl, hrest⟩
        · cases heq
          cases hended
        · exact absurd rfl (hserved _ List.mem_cons_self error)
      · -- the end is reported only when the key is not there
        rw [polls_poll hpoll] at hsplit
        have hfirst : ⟨.ended, engine, middle⟩ ∈ before ++ [last] := by
          rcases List.cons_eq_append_iff.1 hsplit with ⟨rfl, heq⟩ | ⟨before, rfl, -⟩
          · cases heq
            exact List.mem_cons_self
          · exact List.mem_cons_self
        obtain ⟨bytes, hbytes⟩ := Option.isSome_iff_exists.1 (hstays _ hfirst)
        rw [hgone key hcomes] at hbytes
        cases hbytes

end StreamStep

/-! ## Consistency -/

/-- Some polls of a stream over the part of a namespace that `options` ask for are consistent,
whatever has happened between them. -/
structure Poll.Consistent (space : Namespace) (options : ScanOptions) (polls : List Poll) : Prop where
  /-- The keys that are yielded go one way. -/
  ordered : (polls.filterMap Poll.yielded?).Pairwise fun a b => options.isAhead a.key b.key = true
  /-- What is yielded was in the namespace when its page was fetched. -/
  fetched : ∀ before p after e, polls = before ++ p :: after → p.outcome = .entry e →
    e.FetchedIn (Poll.fetch? (before ++ [p])) space options
  /-- When the stream ends without a failure it has yielded once each key that was there at every
  poll. -/
  complete : ∀ before last after, polls = before ++ last :: after → last.outcome = .ended →
    (∀ p ∈ before, ∀ error, p.outcome ≠ .failed error) → ∀ key, options.contains key = true →
    (∀ p ∈ before ++ [last], p.Finds space key) →
    ((before.filterMap Poll.yielded?).map Entry.key).count key = 1
  /-- After its end or a failure the stream yields nothing and makes no call. -/
  afterLast : ∀ before last after, polls = before ++ last :: after → (∀ e, last.outcome ≠ .entry e) →
    ∀ p ∈ after, p.outcome = .ended ∧ p.after = p.before

/-- A key that is there until the stream ends is yielded with a value that it had at a poll. -/
theorem Poll.Consistent.exists_entry {space : Namespace} {options : ScanOptions}
    {before after : List Poll} {last : Poll} {key : Bytes}
    (h : Poll.Consistent space options (before ++ last :: after)) (hended : last.outcome = .ended)
    (hserved : ∀ p ∈ before, ∀ error, p.outcome ≠ .failed error)
    (hkey : options.contains key = true) (hstays : ∀ p ∈ before ++ [last], p.Finds space key) :
    ∃ p ∈ before, ∃ fetch ∈ before, ∃ bytes,
      (space.view fetch.before.store).get? key = some bytes ∧
        p.outcome = .entry (options.entry (key, bytes)) := by
  have hcount := h.complete _ _ _ rfl hended hserved key hkey hstays
  obtain ⟨e, he, rfl⟩ := List.mem_map.1 (List.count_pos_iff.1 (hcount ▸ Nat.one_pos))
  obtain ⟨p, hp, hentry⟩ := List.mem_filterMap.1 he
  -- its page was fetched no later than it was yielded
  obtain ⟨front, back, rfl⟩ := List.append_of_mem hp
  obtain ⟨fetch, hfetch, ⟨bytes, hfound, heq⟩, -⟩ := h.fetched front p (back ++ last :: after) e
    (by simp) (outcome_of_yielded hentry)
  have hmem : fetch ∈ front ++ [p] := (List.mem_filter.1 (List.mem_of_getLast? hfetch)).1
  refine ⟨p, hp, fetch, ?_, bytes, hfound, heq ▸ outcome_of_yielded hentry⟩
  rw [List.append_cons front p back]
  exact List.mem_append_left _ hmem

/-- A stream of a scan without a limit is consistent, whatever is called on the store between its
polls, and whichever of its own calls fail. -/
theorem StreamStep.consistent_polls (space : Namespace) {options : ScanOptions}
    (hlimit : options.limit = none) (pageSize : Nat) (steps : List StreamStep) (engine : Engine) :
    Poll.Consistent space options
      (polls steps (some (Cursor.start space options pageSize)) engine) := by
  have hfollows := Cursor.follows_start space hlimit pageSize
  have hstream : ∀ cursor, some (Cursor.start space options pageSize) = some cursor →
      cursor.Follows space options := by
    rintro _ ⟨⟩
    exact hfollows
  have hordered : ((polls steps (some (Cursor.start space options pageSize)) engine).filterMap
      Poll.yielded?).Pairwise fun a b => options.isAhead a.key b.key = true :=
    (entries_pairwise hstream).1
  refine ⟨hordered, ?_, ?_, fun before last after => polls_after_last⟩
  · intro before p after e hsplit hentry
    have hpending : ∀ cursor, some (Cursor.start space options pageSize) = some cursor →
        ∀ x ∈ cursor.pending, x.FetchedIn (Poll.fetch? []) space options := by
      rintro _ ⟨⟩
      exact nofun
    exact fetched_of_entry hstream hpending hsplit hentry
  · intro before last after hsplit hended hserved key hkey hstays
    obtain ⟨e, he, rfl⟩ := mem_entries_of_ended hfollows (Cursor.toCome_start hkey) hsplit hended
      hserved hstays
    rw [hsplit, List.filterMap_append] at hordered
    refine List.count_eq_one_of_mem ?_ (List.mem_map_of_mem he)
    refine List.pairwise_map.2 ((List.pairwise_append.1 hordered).1.imp fun {a b} hab heq => ?_)
    rw [heq, ScanOptions.isAhead_irrefl] at hab
    cases hab

end DocStore
