/-
The order of sequence keys. Read as one number, with the nanoseconds above the counter, a key
orders as its bytes do, and the strings of twelve bytes are the bytes of keys, each of one key. The
key issued after another is above it, whatever the clock reads, as long as fewer keys have been
issued than the counter has values.
-/
import DocStore.Proofs.ByteOrder
import DocStore.SequenceKey

namespace DocStore.SequenceKey

/-! ## Keys as numbers -/

/-- A key as one number. -/
def rank (key : SequenceKey) : Nat := key.nanos.toNat * 2 ^ 32 + key.counter.toNat

theorem nanos_lt (key : SequenceKey) : key.nanos.toNat < 256 ^ 8 := key.nanos.toNat_lt

theorem counter_lt (key : SequenceKey) : key.counter.toNat < 256 ^ 4 := key.counter.toNat_lt

theorem rank_inj {a b : SequenceKey} (h : a.rank = b.rank) : a = b := by
  have ha := a.counter_lt
  have hb := b.counter_lt
  unfold rank at h
  cases a; cases b
  simp only [mk.injEq, ← UInt64.toNat_inj, ← UInt32.toNat_inj] at *
  omega

/-- The bytes of keys order as the keys do. -/
theorem toBytes_lt_iff (a b : SequenceKey) : a.toBytes < b.toBytes ↔ a.rank < b.rank := by
  have ha := a.counter_lt
  have hb := b.counter_lt
  have nanos_eq : bigEndian 8 a.nanos.toNat = bigEndian 8 b.nanos.toNat ↔
      a.nanos.toNat = b.nanos.toNat :=
    ⟨bigEndian_inj a.nanos_lt b.nanos_lt, fun h => by rw [h]⟩
  unfold toBytes rank
  rw [append_lt_append_of_length_eq _ _ (by simp), bigEndian_lt_iff a.nanos_lt b.nanos_lt,
    bigEndian_lt_iff ha hb, nanos_eq]
  omega

theorem compare_eq_lt_iff (a b : SequenceKey) : a.compare b = .lt ↔ a.rank < b.rank := by
  have ha := a.counter_lt
  have hb := b.counter_lt
  unfold compare rank
  rw [Ordering.then_eq_lt, Nat.compare_eq_lt, Nat.compare_eq_eq, Nat.compare_eq_lt]
  omega

theorem swap_compare (a b : SequenceKey) : (a.compare b).swap = b.compare a := by
  unfold compare
  rw [Ordering.swap_then, Nat.compare_swap, Nat.compare_swap]

theorem compare_self (a : SequenceKey) : a.compare a = .eq := by
  simp [compare]

/-! ## Keys as bytes -/

@[simp] theorem length_toBytes (key : SequenceKey) : key.toBytes.length = 12 := by
  simp [toBytes]

/-- A key is read back from its bytes. -/
theorem ofBytes?_toBytes (key : SequenceKey) : ofBytes? key.toBytes = some key := by
  have hnanos : (bigEndian 8 key.nanos.toNat ++ bigEndian 4 key.counter.toNat).take 8 =
      bigEndian 8 key.nanos.toNat := List.take_left' (length_bigEndian _ _)
  have hcounter : (bigEndian 8 key.nanos.toNat ++ bigEndian 4 key.counter.toNat).drop 8 =
      bigEndian 4 key.counter.toNat := List.drop_left' (length_bigEndian _ _)
  rw [ofBytes?, if_pos key.length_toBytes, toBytes, hnanos, hcounter,
    ofBigEndian_bigEndian key.nanos_lt, ofBigEndian_bigEndian key.counter_lt, UInt64.ofNat_toNat,
    UInt32.ofNat_toNat]

theorem toBytes_inj {a b : SequenceKey} (h : a.toBytes = b.toBytes) : a = b := by
  have hread := a.ofBytes?_toBytes
  rw [h, b.ofBytes?_toBytes] at hread
  exact (Option.some.inj hread).symm

/-- Twelve bytes are those of the key that is read from them. -/
theorem toBytes_of_length_eq {bytes : Bytes} (h : bytes.length = 12) :
    toBytes ⟨UInt64.ofNat (ofBigEndian (bytes.take 8)), UInt32.ofNat (ofBigEndian (bytes.drop 8))⟩ =
      bytes := by
  have htake : (bytes.take 8).length = 8 := by simp [h]
  have hdrop : (bytes.drop 8).length = 4 := by simp [h]
  have hnanos := ofBigEndian_lt (bytes.take 8)
  have hcounter := ofBigEndian_lt (bytes.drop 8)
  rw [htake] at hnanos
  rw [hdrop] at hcounter
  have hfirst := bigEndian_ofBigEndian (bytes.take 8)
  have hlast := bigEndian_ofBigEndian (bytes.drop 8)
  rw [htake] at hfirst
  rw [hdrop] at hlast
  rw [toBytes, UInt64.toNat_ofNat_of_lt' hnanos, UInt32.toNat_ofNat_of_lt' hcounter, hfirst, hlast,
    List.take_append_drop]

theorem ofBytes?_eq_some_iff (bytes : Bytes) (key : SequenceKey) :
    ofBytes? bytes = some key ↔ bytes.length = 12 ∧ bytes = key.toBytes := by
  constructor
  · intro h
    unfold ofBytes? at h
    split at h
    · rename_i hlength
      cases h
      exact ⟨hlength, (toBytes_of_length_eq hlength).symm⟩
    · cases h
  · rintro ⟨-, rfl⟩
    exact key.ofBytes?_toBytes

/-- Comparing the bytes of keys compares the keys. -/
theorem compare_toBytes (a b : SequenceKey) : Ord.compare a.toBytes b.toBytes = a.compare b := by
  have hlt : ∀ a b : SequenceKey, Ord.compare a.toBytes b.toBytes = .lt ↔ a.compare b = .lt := by
    intro a b
    rw [compare_bytes_eq_lt_iff, toBytes_lt_iff, compare_eq_lt_iff]
  rcases Nat.lt_trichotomy a.rank b.rank with h | h | h
  · have hcompare := (compare_eq_lt_iff a b).2 h
    rw [hcompare, (hlt a b).2 hcompare]
  · rw [rank_inj h, compare_self, Std.LawfulEqOrd.compare_eq_iff_eq]
  · have hcompare := (compare_eq_lt_iff b a).2 h
    rw [← swap_compare b a, hcompare, Std.OrientedCmp.gt_iff_lt.2 ((hlt b a).2 hcompare)]
    rfl

/-- The bytes of keys compare as the keys do, so they are less, equal or greater just when the keys
are, and the strings that are the bytes of a key are all those of twelve bytes, each of one key. -/
theorem bytes_order_as_keys :
    (∀ a b : SequenceKey, Ord.compare a.toBytes b.toBytes = a.compare b ∧
      (a.toBytes < b.toBytes ↔ a.compare b = .lt) ∧ (a.toBytes = b.toBytes ↔ a = b)) ∧
    ∀ bytes key, ofBytes? bytes = some key ↔ bytes.length = 12 ∧ bytes = key.toBytes := by
  refine ⟨fun a b => ⟨compare_toBytes a b, ?_, toBytes_inj, congrArg toBytes⟩, ofBytes?_eq_some_iff⟩
  rw [toBytes_lt_iff, compare_eq_lt_iff]

/-- The counter ends where the next nanosecond begins. -/
example : compare ⟨7, 4294967295⟩ ⟨8, 0⟩ = .lt ∧
    toBytes ⟨7, 4294967295⟩ = [0, 0, 0, 0, 0, 0, 0, 7, 255, 255, 255, 255] ∧
    toBytes ⟨8, 0⟩ = [0, 0, 0, 0, 0, 0, 0, 8, 0, 0, 0, 0] := by
  decide

/-! ## Issuing keys -/

/-- The counter of the last key issued, if there is one, is below `n`. It is if at most `n` keys
have been issued since the generator was fresh. -/
def CounterBelow (last : Option SequenceKey) (n : Nat) : Prop :=
  ∀ key, last = some key → key.counter.toNat < n

theorem counterBelow_none (n : Nat) : CounterBelow none n := by
  intro key h
  cases h

theorem successor_of_counter_lt {key : SequenceKey} (h : key.counter.toNat + 1 < 2 ^ 32) :
    key.successor.rank = key.rank + 1 ∧ key.successor.counter.toNat = key.counter.toNat + 1 := by
  have hc : (key.counter + 1).toNat = key.counter.toNat + 1 := by
    rw [UInt32.toNat_add]
    exact Nat.mod_eq_of_lt h
  unfold successor
  rw [if_pos (by simpa [UInt32.size] using h)]
  refine ⟨?_, hc⟩
  simp only [rank, hc]
  omega

/-- A key issued while the counter has room is above the last one, and the counter goes up by
one at most. -/
theorem next_spec {last : Option SequenceKey} {n : Nat} (h : CounterBelow last n) (hn : n < 2 ^ 32)
    (now : UInt64) :
    (∀ key, last = some key → key.rank < (next last now).rank) ∧
      CounterBelow (some (next last now)) (n + 1) := by
  cases last with
  | none =>
    refine ⟨fun key hkey => (by cases hkey), fun key hkey => ?_⟩
    cases hkey
    simp [next]
  | some last =>
    have hlast := h last rfl
    unfold next
    simp only
    split
    · have hroom : last.counter.toNat + 1 < 2 ^ 32 := by omega
      obtain ⟨hrank, hcounter⟩ := successor_of_counter_lt hroom
      refine ⟨fun key hkey => ?_, fun key hkey => ?_⟩
      · cases hkey; omega
      · cases hkey; omega
    · rename_i hnow
      rw [UInt64.le_iff_toNat_le] at hnow
      refine ⟨fun key hkey => ?_, fun key hkey => ?_⟩
      · cases hkey
        have := last.counter_lt
        simp only [rank]
        omega
      · cases hkey
        simp

end DocStore.SequenceKey
