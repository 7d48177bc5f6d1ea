/-
The keys of a fresh generator, one after another. Each has the latest reading so far, and counts the
readings since the first that was as late. So a reading that stands still or goes back only counts,
the counter never runs out before as many keys have been issued as it has values, and every key is
above all earlier ones, as a key and in the order of bytes.
-/
import DocStore.Proofs.SequenceKey

namespace DocStore.SequenceKey

/-! ## Readings so far -/

/-- The latest of some clock readings, zero if there are none. -/
def latest (readings : List UInt64) : Nat := readings.foldl (fun last now => max last now.toNat) 0

@[simp] theorem latest_append_singleton (readings : List UInt64) (now : UInt64) :
    latest (readings ++ [now]) = max (latest readings) now.toNat := by
  simp [latest, List.foldl_append]

theorem latest_le_append (readings more : List UInt64) : latest readings ≤ latest (readings ++ more) := by
  induction more using List.reverseRecOn with
  | nil => simp
  | append_singleton more now ih =>
    rw [← List.append_assoc, latest_append_singleton]
    exact Nat.le_trans ih (Nat.le_max_left _ _)

theorem latest_take_le (readings : List UInt64) (count : Nat) :
    latest (readings.take count) ≤ latest readings := by
  conv_rhs => rw [← List.take_append_drop count readings]
  exact latest_le_append _ _

/-- The key is the one due at the last of some readings: `first` is the earliest of them that is as
late as any, and the key counts the readings after it. -/
structure Due (readings : List UInt64) (first : Nat) (key : SequenceKey) : Prop where
  nanos : key.nanos.toNat = latest readings
  reached : latest (readings.take (first + 1)) = latest readings
  notBefore : ∀ i < first, latest (readings.take (i + 1)) ≠ latest readings
  counter : key.counter.toNat + (first + 1) = readings.length

/-- What a generator remembers after some readings: nothing, or the key due at the last of them. -/
def Remembers (readings : List UInt64) : Option SequenceKey → Prop
  | none => readings = []
  | some key => ∃ first, Due readings first key

/-! ## One key -/

/-- A reading past all others starts a new count. -/
theorem due_of_later {readings : List UInt64} {now : UInt64}
    (h : readings ≠ [] → latest readings < now.toNat) :
    Due (readings ++ [now]) readings.length ⟨now, 0⟩ := by
  have hlatest : latest (readings ++ [now]) = now.toNat := by
    rw [latest_append_singleton]
    rcases eq_or_ne readings [] with rfl | hne
    · simp [latest]
    · exact Nat.max_eq_right (Nat.le_of_lt (h hne))
  refine ⟨hlatest.symm, ?_, ?_, by simp⟩
  · rw [List.take_of_length_le (by simp)]
  · intro i hi heq
    have hne : readings ≠ [] := by
      rintro rfl
      simp at hi
    have hlt := Nat.lt_of_le_of_lt (latest_take_le readings (i + 1)) (h hne)
    rw [List.take_append_of_le_length hi, hlatest] at heq
    exact absurd heq (Nat.ne_of_lt hlt)

/-- A reading that is not past all others counts on. -/
theorem Due.counts_on {readings : List UInt64} {first : Nat} {key : SequenceKey}
    (h : Due readings first key) (hroom : readings.length < 2 ^ 32) {now : UInt64}
    (hnow : now ≤ key.nanos) : Due (readings ++ [now]) first key.successor := by
  have hcount := h.counter
  have hlatest : latest (readings ++ [now]) = latest readings := by
    rw [UInt64.le_iff_toNat_le, h.nanos] at hnow
    rw [latest_append_singleton, Nat.max_eq_left hnow]
  have hcounts : key.counter.toNat + 1 < 2 ^ 32 := by omega
  obtain ⟨hrank, hcounter⟩ := successor_of_counter_lt hcounts
  have hnanos : key.successor.nanos.toNat = key.nanos.toNat := by
    unfold rank at hrank
    omega
  have htake : ∀ i ≤ first, (readings ++ [now]).take (i + 1) = readings.take (i + 1) := fun i hi =>
    List.take_append_of_le_length (by omega)
  refine ⟨?_, ?_, ?_, ?_⟩
  · rw [hnanos, h.nanos, hlatest]
  · rw [htake first le_rfl, h.reached, hlatest]
  · intro i hi
    rw [htake i hi.le, hlatest]
    exact h.notBefore i hi
  · rw [hcounter, List.length_append, List.length_singleton]
    omega

/-- The key issued at a reading is the one due at it. -/
theorem remembers_next {readings : List UInt64} {last : Option SequenceKey}
    (h : Remembers readings last) (hroom : readings.length < 2 ^ 32) (now : UInt64) :
    Remembers (readings ++ [now]) (some (next last now)) := by
  cases last with
  | none =>
    obtain rfl : readings = [] := h
    exact ⟨_, due_of_later fun hne => absurd rfl hne⟩
  | some key =>
    obtain ⟨first, hdue⟩ := h
    unfold next
    simp only
    split
    · next hnow => exact ⟨first, hdue.counts_on hroom hnow⟩
    · next hnow =>
      rw [UInt64.le_iff_toNat_le, hdue.nanos] at hnow
      exact ⟨_, due_of_later fun _ => Nat.lt_of_not_le hnow⟩

/-! ## All keys -/

theorem length_issue (last : Option SequenceKey) (readings : List UInt64) :
    (issue last readings).length = readings.length := by
  induction readings generalizing last with
  | nil => rfl
  | cons now rest ih => rw [issue, List.length_cons, List.length_cons, ih]

/-- Every key issued is the one due at its reading. -/
theorem due_of_issue {past readings : List UInt64} {last : Option SequenceKey}
    (h : Remembers past last) (hroom : past.length + readings.length < 2 ^ 32) {i : Nat}
    {key : SequenceKey} (hkey : (issue last readings)[i]? = some key) :
    ∃ first, Due (past ++ readings.take (i + 1)) first key := by
  induction readings generalizing past last i with
  | nil => simp [issue] at hkey
  | cons now rest ih =>
    rw [List.length_cons] at hroom
    have hnext := remembers_next h (by omega) now
    rw [issue] at hkey
    cases i with
    | zero =>
      cases hkey
      exact hnext
    | succ i =>
      obtain ⟨first, hdue⟩ := ih hnext (by simp; omega) hkey
      exact ⟨first, by simpa using hdue⟩

/-- Keys issued one after another increase, and are above the key before them. -/
theorem issue_increases {last : Option SequenceKey} {count : Nat} (h : CounterBelow last count)
    (readings : List UInt64) (hroom : count + readings.length ≤ 2 ^ 32) :
    (∀ before, last = some before → ∀ key ∈ issue last readings, before.rank < key.rank) ∧
      (issue last readings).Pairwise fun a b => a.rank < b.rank := by
  induction readings generalizing last count with
  | nil => exact ⟨fun _ _ => nofun, .nil⟩
  | cons now rest ih =>
    rw [List.length_cons] at hroom
    obtain ⟨habove, hcounter⟩ := next_spec h (by omega) now
    obtain ⟨hrest, hpairwise⟩ := ih hcounter (by omega)
    refine ⟨fun before hlast key hkey => ?_, List.pairwise_cons.2 ⟨hrest _ rfl, hpairwise⟩⟩
    rcases List.mem_cons.1 hkey with rfl | hkey
    · exact habove before hlast
    · exact Nat.lt_trans (habove before hlast) (hrest _ rfl key hkey)

/-- The `i`-th key of a fresh generator has the latest of the readings up to the `i`-th and counts
from the first reading that was as late, whatever the clock does; and every key is above all earlier
ones, in the order of keys and in that of bytes. -/
theorem issued_keys_count_latest (readings : List UInt64) (hcount : readings.length < 2 ^ 32) :
    (issue none readings).length = readings.length ∧
    (∀ i key, (issue none readings)[i]? = some key →
      key.nanos.toNat = latest (readings.take (i + 1)) ∧
      ∃ j ≤ i, key.counter.toNat = i - j ∧
        latest (readings.take (j + 1)) = latest (readings.take (i + 1)) ∧
        ∀ k < j, latest (readings.take (k + 1)) ≠ latest (readings.take (i + 1))) ∧
    (issue none readings).Pairwise fun a b => a.compare b = .lt ∧ a.toBytes < b.toBytes := by
  refine ⟨length_issue none readings, ?_, ?_⟩
  · intro i key hkey
    have hfresh : Remembers [] none := rfl
    obtain ⟨j, hdue⟩ := due_of_issue hfresh (by simpa using hcount) hkey
    rw [List.nil_append] at hdue
    have hi : i < readings.length := by
      rw [← length_issue none readings]
      exact (List.getElem?_eq_some_iff.1 hkey).1
    have hcounter := hdue.counter
    rw [List.length_take] at hcounter
    -- of the readings so far, the first few are the first few of all
    have htake : ∀ k ≤ j, (readings.take (i + 1)).take (k + 1) = readings.take (k + 1) := by
      intro k hk
      rw [List.take_take, Nat.min_eq_left (by omega)]
    refine ⟨hdue.nanos, j, by omega, by omega, ?_, fun k hk => ?_⟩
    · rw [← htake j le_rfl]
      exact hdue.reached
    · rw [← htake k hk.le]
      exact hdue.notBefore k hk
  · have hincreases := (issue_increases (counterBelow_none 0) readings (by omega)).2
    exact hincreases.imp fun h => ⟨(compare_eq_lt_iff _ _).2 h, (toBytes_lt_iff _ _).2 h⟩

/-- A clock that stands still, goes back, reaches its last reading and comes back to its first. -/
def unsteadyClock : List UInt64 := [7, 7, 5, 18446744073709551615, 0, 18446744073709551615, 7]

theorem unsteadyClock_keys_increase : unsteadyClock.length < 2 ^ 32 ∧
    issue none unsteadyClock =
      [⟨7, 0⟩, ⟨7, 1⟩, ⟨7, 2⟩, ⟨18446744073709551615, 0⟩, ⟨18446744073709551615, 1⟩,
        ⟨18446744073709551615, 2⟩, ⟨18446744073709551615, 3⟩] ∧
    (issue none unsteadyClock).Pairwise fun a b => a.compare b = .lt ∧ a.toBytes < b.toBytes := by
  have hcount : unsteadyClock.length < 2 ^ 32 := by decide
  exact ⟨hcount, by decide, (issued_keys_count_latest unsteadyClock hcount).2.2⟩

end DocStore.SequenceKey
