/-
The order of byte strings. A common beginning does not matter to it, beginnings of one length
decide if they differ, and the strings between a stem with a zero byte and the stem with a one
byte are exactly those that begin with the stem and a zero byte. Fixed-width big-endian numbers
are ordered as the numbers are, and every string of that width is the form of one number.
-/
import DocStore.Bytes
import Mathlib.Tactic

namespace DocStore

/-! ## Common beginnings -/

@[simp] theorem append_lt_append_iff (stem a b : Bytes) : stem ++ a < stem ++ b ↔ a < b := by
  induction stem with
  | nil => rfl
  | cons byte stem ih => rw [List.cons_append, List.cons_append, List.cons_lt_cons_self, ih]

@[simp] theorem append_le_append_iff (stem a b : Bytes) : stem ++ a ≤ stem ++ b ↔ a ≤ b := by
  rw [← List.not_lt, ← List.not_lt, append_lt_append_iff]

@[simp] theorem cons_le_cons_self (byte : UInt8) (a b : Bytes) : byte :: a ≤ byte :: b ↔ a ≤ b :=
  append_le_append_iff [byte] a b

/-- Beginnings of one length decide the order, if they differ. -/
theorem append_lt_append_of_length_eq {a c : Bytes} (b d : Bytes) (h : a.length = c.length) :
    a ++ b < c ++ d ↔ a < c ∨ a = c ∧ b < d := by
  induction a generalizing c with
  | nil =>
    obtain rfl : c = [] := List.length_eq_zero_iff.1 h.symm
    simp
  | cons x a ih =>
    cases c with
    | nil => simp at h
    | cons y c =>
      simp only [List.cons_append, List.cons_lt_cons_iff, ih (Nat.succ.inj h), List.cons.injEq]
      tauto

/-- Comparing byte strings byte by byte finds their order. -/
theorem compare_bytes_eq_lt_iff (a b : Bytes) : Ord.compare a b = .lt ↔ a < b := by
  induction a generalizing b with
  | nil => cases b <;> simp
  | cons x a ih =>
    cases b with
    | nil => simp
    | cons y b =>
      rw [List.compare_cons_cons, Ordering.then_eq_lt, ih, List.cons_lt_cons_iff, Std.compare_eq_lt,
        Std.LawfulEqOrd.compare_eq_iff_eq]

/-- The strings from `stem` and a zero byte up to `stem` and a one byte are those that begin with
`stem` and a zero byte. -/
theorem between_tags_iff (stem key : Bytes) :
    stem ++ [0] ≤ key ∧ key < stem ++ [1] ↔ ∃ rest, key = stem ++ 0 :: rest := by
  constructor
  · induction stem generalizing key with
    | nil =>
      rintro ⟨above, below⟩
      cases key with
      | nil => exact absurd above (by decide)
      | cons byte rest =>
        rcases List.cons_lt_cons_iff.1 below with h | ⟨-, h⟩
        · obtain rfl : byte = 0 := UInt8.toNat_inj.1 (Nat.lt_one_iff.1 (UInt8.lt_iff_toNat_lt.1 h))
          exact ⟨rest, rfl⟩
        · exact absurd h (List.not_lt_nil _)
    | cons first stem ih =>
      rintro ⟨above, below⟩
      cases key with
      | nil => exact absurd above (by simp)
      | cons byte rest =>
        have hb : byte = first := by
          rcases List.cons_lt_cons_iff.1 below with h | ⟨h, -⟩
          · exact absurd (List.cons_lt_cons_iff.2 (.inl h)) (List.not_lt.2 above)
          · exact h
        subst hb
        obtain ⟨tail, rfl⟩ := ih rest ⟨(cons_le_cons_self byte _ _).1 above, List.cons_lt_cons_self.1 below⟩
        exact ⟨tail, rfl⟩
  · rintro ⟨rest, rfl⟩
    exact ⟨(append_le_append_iff _ _ _).2 (List.not_lt.1 (by simp)),
      (append_lt_append_iff _ _ _).2 (List.cons_lt_cons_iff.2 (.inl (by decide)))⟩

/-! ## Big-endian numbers -/

theorem bigEndian_lt_iff {width m n : Nat} (hm : m < 256 ^ width) (hn : n < 256 ^ width) :
    bigEndian width m < bigEndian width n ↔ m < n := by
  induction width generalizing m n with
  | zero => simp_all [bigEndian]
  | succ width ih =>
    have hpos : 0 < 256 ^ width := Nat.pos_of_ne_zero (by simp)
    have hdm : m / 256 ^ width < 256 := Nat.div_lt_of_lt_mul (by rw [Nat.pow_succ] at hm; omega)
    have hdn : n / 256 ^ width < 256 := Nat.div_lt_of_lt_mul (by rw [Nat.pow_succ] at hn; omega)
    have digit_lt : UInt8.ofNat (m / 256 ^ width) < UInt8.ofNat (n / 256 ^ width) ↔
        m / 256 ^ width < n / 256 ^ width := by
      rw [UInt8.lt_iff_toNat_lt, UInt8.toNat_ofNat_of_lt' hdm, UInt8.toNat_ofNat_of_lt' hdn]
    have digit_eq : UInt8.ofNat (m / 256 ^ width) = UInt8.ofNat (n / 256 ^ width) ↔
        m / 256 ^ width = n / 256 ^ width := by
      rw [← UInt8.toNat_inj, UInt8.toNat_ofNat_of_lt' hdm, UInt8.toNat_ofNat_of_lt' hdn]
    have tail := ih (Nat.mod_lt m hpos) (Nat.mod_lt n hpos)
    have splitm := Nat.div_add_mod m (256 ^ width)
    have splitn := Nat.div_add_mod n (256 ^ width)
    simp only [bigEndian, Nat.pow_eq, List.cons_lt_cons_iff, digit_lt, digit_eq, tail]
    constructor
    · rintro (h | ⟨h, h'⟩)
      · by_contra hle
        exact absurd (Nat.div_le_div_right (c := 256 ^ width) (Nat.le_of_not_lt hle)) (by omega)
      · rw [h] at splitm; omega
    · intro h
      rcases Nat.lt_or_eq_of_le (Nat.div_le_div_right (c := 256 ^ width) h.le) with hlt | heq
      · exact .inl hlt
      · rw [heq] at splitm; exact .inr ⟨heq, by omega⟩

theorem foldl_bigEndian (n : Nat) (bytes : Bytes) :
    bytes.foldl (fun n byte => n * 256 + byte.toNat) n =
      n * 256 ^ bytes.length + ofBigEndian bytes := by
  unfold ofBigEndian
  induction bytes generalizing n with
  | nil => simp
  | cons byte rest ih =>
    rw [List.foldl_cons, List.foldl_cons, ih, ih (0 * 256 + byte.toNat), List.length_cons, pow_succ]
    ring

/-- The first digit counts for all that follow. -/
theorem ofBigEndian_cons (byte : UInt8) (rest : Bytes) :
    ofBigEndian (byte :: rest) = byte.toNat * 256 ^ rest.length + ofBigEndian rest := by
  rw [ofBigEndian, List.foldl_cons, foldl_bigEndian, Nat.zero_mul, Nat.zero_add]

theorem ofBigEndian_lt (bytes : Bytes) : ofBigEndian bytes < 256 ^ bytes.length := by
  induction bytes with
  | nil => decide
  | cons byte rest ih =>
    have hbyte : byte.toNat + 1 ≤ 256 := byte.toNat_lt
    have hle := Nat.mul_le_mul_right (256 ^ rest.length) hbyte
    rw [ofBigEndian_cons, List.length_cons, pow_succ, Nat.mul_comm _ 256]
    rw [Nat.add_mul, Nat.one_mul] at hle
    omega

/-- A number is read back from its digits, if there are enough of them. -/
theorem ofBigEndian_bigEndian {width n : Nat} (h : n < 256 ^ width) :
    ofBigEndian (bigEndian width n) = n := by
  induction width generalizing n with
  | zero =>
    have hzero : n = 0 := by simpa using h
    rw [hzero]
    rfl
  | succ width ih =>
    have hpos : 0 < 256 ^ width := Nat.pos_of_ne_zero (by simp)
    have hdigit : n / 256 ^ width < 256 := Nat.div_lt_of_lt_mul (by rw [pow_succ] at h; omega)
    rw [bigEndian, ofBigEndian_cons, length_bigEndian, Nat.pow_eq, ih (Nat.mod_lt n hpos),
      UInt8.toNat_ofNat_of_lt' hdigit]
    exact Nat.div_add_mod' n (256 ^ width)

/-- Bytes are the digits of the number that they write. -/
theorem bigEndian_ofBigEndian (bytes : Bytes) : bigEndian bytes.length (ofBigEndian bytes) = bytes := by
  induction bytes with
  | nil => rfl
  | cons byte rest ih =>
    have hpos : 0 < 256 ^ rest.length := Nat.pos_of_ne_zero (by simp)
    have hlt := ofBigEndian_lt rest
    rw [List.length_cons, bigEndian, ofBigEndian_cons, Nat.pow_eq, Nat.mul_comm byte.toNat,
      Nat.mul_add_div hpos, Nat.mul_add_mod, Nat.div_eq_of_lt hlt, Nat.mod_eq_of_lt hlt, ih,
      Nat.add_zero, UInt8.ofNat_toNat]

theorem bigEndian_inj {width m n : Nat} (hm : m < 256 ^ width) (hn : n < 256 ^ width)
    (h : bigEndian width m = bigEndian width n) : m = n := by
  rw [← ofBigEndian_bigEndian hm, h, ofBigEndian_bigEndian hn]

end DocStore
