/-
The order of values is exact and linear. A value that can be ordered has a standing: a number has
its exact value, read off the bits of a double as sign, exponent and fraction give it, or an
infinity; a date has its seconds and nanoseconds; a string has its bytes. Two values are ordered as
their standings are, without any rounding, so the order is transitive also where integers and
doubles alternate, and within numbers, dates and strings a value is smaller than another, equal to
it or greater.
-/
import DocStore.Proofs.ByteOrder
import DocStore.Proofs.Document.Numbers
import DocStore.Proofs.Number.Integers
import DocStore.Proofs.Query.Operator
import DocStore.Proofs.Store.View
import Mathlib.Data.Prod.Lex
import Mathlib.Order.WithBot

namespace DocStore

/-! ## The values of doubles -/

namespace Double

/-- The eleven exponent bits. -/
def exponentBits (x : Double) : Nat := x.bits.toNat / 2 ^ 52 % 2 ^ 11

/-- The 52 fraction bits. -/
def fractionBits (x : Double) : Nat := x.bits.toNat % 2 ^ 52

/-- The magnitude that the other bits of a finite double than its sign stand for. -/
def absValue (x : Double) : ℚ :=
  if x.exponentBits = 0 then x.fractionBits * (2 : ℚ) ^ (-1074 : ℤ)
  else (2 ^ 52 + x.fractionBits) * (2 : ℚ) ^ ((x.exponentBits : ℤ) - 1075)

/-- The value that the bits of a finite double stand for. -/
def value (x : Double) : ℚ := if x.isNegative then -x.absValue else x.absValue

/-- Where a double lies among the rational numbers and the infinities, `none` for what is not a
number. -/
def place? (x : Double) : Option (WithBot (WithTop ℚ)) :=
  if x.exponentBits < 2047 then some ((x.value : WithTop ℚ) : WithBot (WithTop ℚ))
  else if x.fractionBits ≠ 0 then none
  else if x.isNegative then some ⊥
  else some ⊤

theorem pattern_mod (x : Double) : x.pattern % exponentWeight = x.fractionBits :=
  Nat.mod_mod_of_dvd _ ⟨2 ^ 11, by decide⟩

theorem pattern_div (x : Double) : x.pattern / exponentWeight = x.exponentBits :=
  Nat.mod_mul_right_div_self x.bits.toNat exponentWeight (2 ^ 11)

theorem magnitude_eq_absValue_mul (x : Double) :
    (magnitude x.pattern : ℚ) = x.absValue * Extended.scale := by
  rw [magnitude_eq, shift, pattern_div, significand, Extended.cast_scale, absValue, Nat.cast_mul]
  by_cases h : x.exponentBits = 0
  · have hlt : x.pattern < exponentWeight := by
      rw [← pattern_div, Nat.div_eq_zero_iff] at h
      exact h.resolve_left (by decide)
    rw [if_pos hlt, if_pos h, h, ← pattern_mod, Nat.mod_eq_of_lt hlt, mul_assoc, ← zpow_add₀ two_ne_zero]
    simp
  · have hle : ¬ x.pattern < exponentWeight := fun hlt => h (by rw [← pattern_div, Nat.div_eq_of_lt hlt])
    have hshift : (x.exponentBits : ℤ) - 1075 + 1074 = (x.exponentBits - 1 : ℕ) := by omega
    rw [if_neg hle, if_neg h, pattern_mod, mul_assoc, ← zpow_add₀ two_ne_zero, hshift, zpow_natCast,
      Nat.cast_add, Nat.cast_pow, Nat.cast_ofNat, add_comm]
    rfl

theorem cast_units (x : Double) : (x.units : ℚ) = x.value * Extended.scale := by
  unfold units value
  split
  · rw [Int.cast_neg, Int.cast_natCast, magnitude_eq_absValue_mul, neg_mul]
  · rw [Int.cast_natCast, magnitude_eq_absValue_mul]

example : (⟨0xBFF8000000000000⟩ : Double).value = -3 / 2 := by decide +kernel

end Double

/-! ## The extended line -/

namespace Extended

/-- The rational number or the infinity at a place of the extended line. -/
def toPlace : Extended → WithBot (WithTop ℚ)
  | negInfinity => ⊥
  | finite units => ((units / scale : ℚ) : WithTop ℚ)
  | infinity => ⊤

theorem toPlace_ofInt (n : Int) : (ofInt n).toPlace = (((n : ℚ) : WithTop ℚ) : WithBot (WithTop ℚ)) := by
  show (((((n * scale : ℤ) : ℚ) / scale : ℚ) : WithTop ℚ) : WithBot (WithTop ℚ)) = _
  rw [Int.cast_mul, Int.cast_natCast, mul_div_cancel_right₀ _ cast_scale_ne_zero]

theorem strictMono_toPlace_finite : StrictMono fun units => (finite units).toPlace := by
  intro a b hab
  have hscale : (0 : ℚ) < scale := Nat.cast_pos.2 scale_pos
  refine WithBot.coe_lt_coe.2 (WithTop.coe_lt_coe.2 ?_)
  exact div_lt_div_of_pos_right (Int.cast_lt.2 hab) hscale

/-- The order of the extended line is that of the places on it. -/
theorem compare_eq_cmp (a b : Extended) : a.compare b = cmp a.toPlace b.toPlace := by
  have hbot : ∀ units, ⊥ < (finite units).toPlace := fun units => WithBot.bot_lt_coe _
  have htop : ∀ units, (finite units).toPlace < ⊤ := fun units =>
    WithBot.coe_lt_coe.2 (WithTop.coe_lt_top _)
  cases a with
  | finite m =>
    cases b with
    | finite n => exact (cmp_eq_compare m n).symm.trans (strictMono_toPlace_finite.cmp_map_eq m n).symm
    | negInfinity => exact ((cmp_eq_gt_iff _ _).2 (hbot m)).symm
    | infinity => exact ((cmp_eq_lt_iff _ _).2 (htop m)).symm
  | negInfinity =>
    cases b with
    | finite n => exact ((cmp_eq_lt_iff _ _).2 (hbot n)).symm
    | negInfinity => exact (cmp_self_eq_eq _).symm
    | infinity => exact ((cmp_eq_lt_iff _ _).2 bot_lt_top).symm
  | infinity =>
    cases b with
    | finite n => exact ((cmp_eq_gt_iff _ _).2 (htop n)).symm
    | negInfinity => exact ((cmp_eq_gt_iff _ _).2 bot_lt_top).symm
    | infinity => exact (cmp_self_eq_eq _).symm

end Extended

namespace Double

/-- A double lies where its place on the extended line does. -/
theorem place?_eq (x : Double) : x.place? = x.extended?.map Extended.toPlace := by
  have hexponent : x.exponentBits < 2048 := Nat.mod_lt _ (by decide)
  have hfraction : x.fractionBits < 4503599627370496 := Nat.mod_lt _ (by decide)
  have hparts := Nat.div_add_mod x.pattern exponentWeight
  rw [pattern_div, pattern_mod, exponentWeight] at hparts
  have hinfinite : infinitePattern = 2047 * 4503599627370496 := rfl
  by_cases hlt : x.exponentBits < 2047
  · rw [place?, if_pos hlt, extended?_of_isFinite (decide_eq_true (by omega)),
      ← mul_div_cancel_right₀ x.value Extended.cast_scale_ne_zero, ← cast_units]
    rfl
  · have hlarge : x.exponentBits = 2047 := by omega
    rw [hlarge] at hparts
    have hfinite : x.isFinite = false := decide_eq_false (by omega)
    rw [place?, if_neg hlt, extended?, hfinite]
    by_cases hzero : x.fractionBits = 0
    · have hnan : x.isNaN = false := decide_eq_false (by omega)
      rw [hnan, if_neg (not_not_intro hzero)]
      cases x.isNegative <;> rfl
    · have hnan : x.isNaN = true := decide_eq_true (by omega)
      rw [hnan, if_pos hzero]
      rfl

end Double

/-! ## Comparisons -/

instance transCmp_cmp {α : Type} [LinearOrder α] : Std.TransCmp (cmp : α → α → Ordering) := by
  rw [show (cmp : α → α → Ordering) = compare from funext₂ cmp_eq_compare]
  infer_instance

instance lawfulEqCmp_cmp {α : Type} [LinearOrder α] : Std.LawfulEqCmp (cmp : α → α → Ordering) := by
  rw [show (cmp : α → α → Ordering) = compare from funext₂ cmp_eq_compare]
  infer_instance

instance Value.transCmp_compareBytes : Std.TransCmp Value.compareBytes :=
  Std.TransCmp.compareOfLessAndEq_of_irrefl_of_trans_of_antisymm List.lt_irrefl List.lt_trans
    fun hab hba => List.le_antisymm (List.not_lt.1 hba) (List.not_lt.1 hab)

instance Value.lawfulEqCmp_compareBytes : Std.LawfulEqCmp Value.compareBytes where
  eq_of_compare {a b} h := by
    unfold Value.compareBytes at h
    split at h
    · cases h
    · split at h
      · assumption
      · cases h

theorem Timestamp.compare_eq_cmp (s t : Timestamp) :
    s.compare t = cmp (toLex (s.seconds, s.nanos)) (toLex (t.seconds, t.nanos)) := by
  rw [cmp_eq_compare]
  rfl

theorem Timestamp.compare_eq_iff {s t : Timestamp} : s.compare t = .eq ↔ s = t := by
  rw [compare_eq_cmp, Std.LawfulEqCmp.compare_eq_iff_eq, toLex_inj]
  constructor
  · intro h
    cases s
    cases t
    cases h
    rfl
  · rintro rfl
    rfl

/-! ## Standings -/

/-- What a value is ordered by. -/
inductive Standing where
  | number (place : WithBot (WithTop ℚ))
  | date (seconds : ℤ) (nanos : ℕ)
  | text (bytes : Bytes)

/-- The kinds of values within which there is an order. -/
inductive OrderClass where
  | number
  | date
  | text
  deriving DecidableEq

namespace Standing

def orderClass : Standing → OrderClass
  | number _ => .number
  | date _ _ => .date
  | text _ => .text

/-- The order of two standings of one kind; others have none. -/
def compare? : Standing → Standing → Option Ordering
  | number p, number q => some (cmp p q)
  | date s m, date t n => some (cmp (toLex (s, m)) (toLex (t, n)))
  | text s, text t => some (Value.compareBytes s t)
  | _, _ => none

theorem swap_compare? (a b : Standing) : b.compare? a = (a.compare? b).map Ordering.swap := by
  cases a <;> cases b <;> first | rfl | exact congrArg some Std.OrientedCmp.eq_swap

theorem isSome_compare?_iff (a b : Standing) :
    (a.compare? b).isSome = true ↔ a.orderClass = b.orderClass := by
  cases a <;> cases b <;> first | exact iff_of_true rfl rfl | exact iff_of_false nofun nofun

theorem compare?_trans {a b c : Standing} {o o' : Ordering} (hab : a.compare? b = some o)
    (ho : o.isLE = true) (hbc : b.compare? c = some o') (ho' : o'.isLE = true) :
    ∃ o'', a.compare? c = some o'' ∧ o''.isLE = true := by
  cases a <;> cases b <;> cases hab <;> cases c <;> cases hbc
  · exact ⟨_, rfl, Std.TransCmp.isLE_trans ho ho'⟩
  · exact ⟨_, rfl, Std.TransCmp.isLE_trans ho ho'⟩
  · exact ⟨_, rfl, Std.TransCmp.isLE_trans ho ho'⟩

end Standing

namespace Value

/-- The standing of a value that can be ordered. -/
def standing? : Value → Option Standing
  | int i => some (.number ((i.toInt : ℚ) : WithTop ℚ))
  | float x => x.place?.map .number
  | date t => some (.date t.seconds t.nanos)
  | string s => some (.text (utf8 s))
  | _ => none

theorem standing?_of_isNumber {a : Value} (h : a.isNumber = true) :
    a.standing? = a.number?.map fun place => .number place.toPlace := by
  cases a <;> cases h
  · exact congrArg (some ∘ Standing.number) (Extended.toPlace_ofInt _).symm
  · rename_i x
    show x.place?.map _ = _
    rw [Double.place?_eq, Option.map_map]
    rfl

/-- Values are ordered as their standings are. -/
theorem compare?_eq (a b : Value) :
    a.compare? b = (do (← a.standing?).compare? (← b.standing?)) := by
  cases ha : a.isNumber with
  | true =>
    rw [standing?_of_isNumber ha]
    cases hb : b.isNumber with
    | true =>
      rw [compare?_of_isNumber ha hb, standing?_of_isNumber hb]
      cases a.number? with
      | none => rfl
      | some p =>
        cases b.number? with
        | none => rfl
        | some q => exact congrArg some (Extended.compare_eq_cmp p q)
    | false =>
      rw [compare?_of_ne_isNumber (by rw [ha, hb]; nofun)]
      cases a.number? <;> cases b <;> first | rfl | cases hb
  | false =>
    cases hb : b.isNumber with
    | true =>
      rw [compare?_of_ne_isNumber (by rw [ha, hb]; nofun), standing?_of_isNumber hb]
      cases b.number? <;> cases a <;> first | rfl | cases ha
    | false =>
      cases a <;> cases ha <;> cases b <;> cases hb <;> first
        | rfl
        | exact congrArg some (Timestamp.compare_eq_cmp _ _)

theorem compare?_eq_some_iff {a b : Value} {o : Ordering} : a.compare? b = some o ↔
    ∃ p q, a.standing? = some p ∧ b.standing? = some q ∧ p.compare? q = some o := by
  rw [compare?_eq]
  cases a.standing? <;> cases b.standing? <;> simp

/-! ## Order within a class -/

/-- The class of a value that can be ordered. -/
def orderClass? : Value → Option OrderClass
  | int _ => some .number
  | float x => if x.isNaN then none else some .number
  | date _ => some .date
  | string _ => some .text
  | _ => none

theorem orderClass?_eq (a : Value) : a.orderClass? = a.standing?.map Standing.orderClass := by
  cases a with
  | float x =>
    show (if x.isNaN then none else some OrderClass.number) = (x.place?.map Standing.number).map _
    rw [Double.place?_eq, Double.extended?]
    repeat' split
    all_goals rfl
  | _ => rfl

/-- Both values are numbers, both dates or both strings; what is not a number is none. -/
def InOneClass (a b : Value) : Prop := ∃ k, a.orderClass? = some k ∧ b.orderClass? = some k

/-- The value is comparable with the other one, and not greater. -/
def AtMost (a b : Value) : Prop := ∃ o, a.compare? b = some o ∧ o.isLE = true

section
variable {a b c : Value}

theorem inOneClass_iff : InOneClass a b ↔
    ∃ p q, a.standing? = some p ∧ b.standing? = some q ∧ p.orderClass = q.orderClass := by
  unfold InOneClass
  rw [orderClass?_eq, orderClass?_eq]
  cases a.standing? <;> cases b.standing? <;> simp [eq_comm]

theorem isSome_compare?_iff : (a.compare? b).isSome = true ↔ InOneClass a b := by
  rw [inOneClass_iff, compare?_eq]
  cases a.standing? <;> cases b.standing? <;> simp [Standing.isSome_compare?_iff]

theorem swap_compare? (a b : Value) : b.compare? a = (a.compare? b).map Ordering.swap := by
  rw [compare?_eq, compare?_eq]
  cases a.standing? <;> cases b.standing? <;> first | rfl | exact Standing.swap_compare? _ _

theorem AtMost.trans (hab : a.AtMost b) (hbc : b.AtMost c) : a.AtMost c := by
  obtain ⟨o, hab, ho⟩ := hab
  obtain ⟨o', hbc, ho'⟩ := hbc
  obtain ⟨p, q, hp, hq, hpq⟩ := compare?_eq_some_iff.1 hab
  obtain ⟨q', r, hq', hr, hqr⟩ := compare?_eq_some_iff.1 hbc
  obtain rfl := Option.some.inj (hq.symm.trans hq')
  obtain ⟨o'', hpr, ho''⟩ := Standing.compare?_trans hpq ho hqr ho'
  exact ⟨o'', compare?_eq_some_iff.2 ⟨p, r, hp, hr, hpr⟩, ho''⟩

theorem InOneClass.atMost_or_atMost (h : InOneClass a b) : a.AtMost b ∨ b.AtMost a := by
  obtain ⟨o, ho⟩ := Option.isSome_iff_exists.1 (isSome_compare?_iff.2 h)
  have hswap := swap_compare? a b
  rw [ho] at hswap
  cases o with
  | lt => exact .inl ⟨_, ho, rfl⟩
  | eq => exact .inl ⟨_, ho, rfl⟩
  | gt => exact .inr ⟨_, hswap, rfl⟩

theorem InOneClass.equal_eq (h : InOneClass a b) : a.equal b = (a.compare? b == some .eq) := by
  cases ha : a.isNumber with
  | true => exact equal_of_isNumber ha b
  | false =>
    obtain ⟨k, hk, hk'⟩ := h
    rw [Bool.eq_iff_iff, beq_iff_eq]
    cases a <;> cases ha <;> cases hk <;> cases b <;> simp [orderClass?] at hk'
    · show (_ == _) = true ↔ some (compareBytes (utf8 _) (utf8 _)) = some .eq
      rw [beq_iff_eq, Option.some.injEq, Std.LawfulEqCmp.compare_eq_iff_eq]
      exact ⟨congrArg utf8, Namespace.utf8_inj⟩
    · show decide _ = true ↔ some _ = some _
      rw [decide_eq_true_iff, Option.some.injEq, Timestamp.compare_eq_iff]

theorem compare?_eq_some_eq_iff : a.compare? b = some .eq ↔ InOneClass a b ∧ a.equal b = true := by
  constructor
  · intro h
    have hclass : InOneClass a b := isSome_compare?_iff.1 (by rw [h]; rfl)
    exact ⟨hclass, by rw [hclass.equal_eq, h]; rfl⟩
  · rintro ⟨hclass, hequal⟩
    rwa [hclass.equal_eq, beq_iff_eq] at hequal

/-- What the conditions on a field say that compare it with a value of its class. -/
theorem InOneClass.holds_eq (h : InOneClass a b) : ∃ o, a.compare? b = some o ∧
    Condition.holds (some a) (.operators [.less b]) = (o == .lt) ∧
    Condition.holds (some a) (.operators [.atMost b]) = (o != .gt) ∧
    Condition.holds (some a) (.equals b) = (o == .eq) ∧
    Condition.holds (some a) (.operators [.atLeast b]) = (o != .lt) ∧
    Condition.holds (some a) (.operators [.greater b]) = (o == .gt) := by
  obtain ⟨o, ho⟩ := Option.isSome_iff_exists.1 (isSome_compare?_iff.2 h)
  have hequal := h.equal_eq
  rw [ho] at hequal
  refine ⟨o, ho, ?_⟩
  simp only [Condition.holds_operator, Condition.holds_equals, Operator.holds, Option.bind_some, ho,
    Option.getD_some, hequal]
  exact ⟨rfl, rfl, rfl, rfl, rfl⟩

end

/-- The order of values is exact, and an order within each class. -/
structure OrderedExactly (a b c : Value) : Prop where
  /-- Values are ordered as their standings are. -/
  exact : a.compare? b = (do (← a.standing?).compare? (← b.standing?))
  comparable : (a.compare? b).isSome = true ↔ InOneClass a b
  swapped : b.compare? a = (a.compare? b).map Ordering.swap
  total : InOneClass a b → a.AtMost b ∨ b.AtMost a
  trans : a.AtMost b → b.AtMost c → a.AtMost c
  same : a.compare? b = some .eq ↔ InOneClass a b ∧ a.equal b = true
  /-- A field is less than a value of its class, equal to it or greater, and only one of these. -/
  oneHolds : InOneClass a b → [Condition.holds (some a) (.operators [.less b]),
    Condition.holds (some a) (.equals b), Condition.holds (some a) (.operators [.greater b])].count true = 1
  atMost : InOneClass a b → Condition.holds (some a) (.operators [.atMost b]) =
    (Condition.holds (some a) (.operators [.less b]) || Condition.holds (some a) (.equals b))
  atLeast : InOneClass a b → Condition.holds (some a) (.operators [.atLeast b]) =
    (Condition.holds (some a) (.operators [.greater b]) || Condition.holds (some a) (.equals b))

/-- Any values are ordered by what they exactly are, numbers in whichever representation, and the order
is one that the comparing conditions of a query agree with. -/
theorem ordered_exactly (a b c : Value) : OrderedExactly a b c where
  exact := compare?_eq a b
  comparable := isSome_compare?_iff
  swapped := swap_compare? a b
  total := InOneClass.atMost_or_atMost
  trans := AtMost.trans
  same := compare?_eq_some_eq_iff
  oneHolds h := by
    obtain ⟨o, -, hless, -, hequal, -, hgreater⟩ := h.holds_eq
    rw [hless, hequal, hgreater]
    cases o <;> rfl
  atMost h := by
    obtain ⟨o, -, hless, hatMost, hequal, -, -⟩ := h.holds_eq
    rw [hless, hatMost, hequal]
    cases o <;> rfl
  atLeast h := by
    obtain ⟨o, -, -, -, hequal, hatLeast, hgreater⟩ := h.holds_eq
    rw [hequal, hatLeast, hgreater]
    cases o <;> rfl

/-- `2^53 + 1` lies above the double `2^53`, to which it would be rounded. -/
example : (int 9007199254740993).compare? (float ⟨0x4340000000000000⟩) = some .gt := by
  decide +kernel

end Value

end DocStore
