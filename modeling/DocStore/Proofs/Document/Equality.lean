/-
Equality of values is symmetric and transitive, though integers and doubles of one value may
alternate below arrays and mappings, and the fields of one mapping are looked up in the other but
not back. A value equals itself unless what is not a number occurs in it. Strictly equal values are
equal.
-/
import DocStore.Proofs.Document.Alike

namespace DocStore.Value

/-! ## Values with what is not a number in them -/

mutual

/-- Whether what is not a number occurs anywhere in a value. -/
def hasNaN : Value → Bool
  | float x => x.isNaN
  | array items => itemsHaveNaN items
  | map fields => fieldsHaveNaN fields
  | _ => false

/-- Whether what is not a number occurs in some item. -/
def itemsHaveNaN : List Value → Bool
  | [] => false
  | item :: rest => item.hasNaN || itemsHaveNaN rest

/-- Whether what is not a number occurs in some field. -/
def fieldsHaveNaN : List (String × Value) → Bool
  | [] => false
  | (_, value) :: rest => value.hasNaN || fieldsHaveNaN rest

end

theorem equal_self_of_isNumber {a : Value} (h : a.isNumber = true) : a.equal a = a.number?.isSome := by
  rw [equal_of_isNumber h, compare?_of_isNumber h h]
  cases a.number? with
  | none => rfl
  | some place =>
    show (some (place.compare place) == some .eq) = true
    rw [Extended.compare_eq_iff.2 rfl]
    rfl

mutual

/-- A value equals itself unless what is not a number occurs in it. -/
theorem equal_self : ∀ {a : Value}, a.Canonical → a.equal a = !a.hasNaN
  | .int _, _ => equal_self_of_isNumber rfl
  | .float x, _ => (equal_self_of_isNumber rfl).trans x.isSome_extended?
  | .null, _ => rfl
  | .bool b, _ => beq_self_eq_true b
  | .string s, _ => beq_self_eq_true s
  | .date t, _ => decide_eq_true rfl
  | .array _, h => equalItems_self h
  | .map fields, h => by
    rw [equal, beq_self_eq_true, Bool.true_and, hasNaN]
    exact equalFields_self h.2 fun name x hmem => (h.1.lookup_eq_some_iff name x).2 hmem

theorem equalItems_self : ∀ {xs : List Value}, CanonicalItems xs → equalItems xs xs = !itemsHaveNaN xs
  | [], _ => rfl
  | x :: xs, h => by
    rw [equalItems, itemsHaveNaN, equal_self h.1, equalItems_self h.2, Bool.not_or]

/-- The same of fields that are looked up among others they belong to. -/
theorem equalFields_self {ys : List (String × Value)} :
    ∀ {xs : List (String × Value)}, CanonicalFields xs →
    (∀ name x, (name, x) ∈ xs → ys.lookup name = some x) → equalFields xs ys = !fieldsHaveNaN xs
  | [], _, _ => rfl
  | (name, x) :: xs, h, hfound => by
    have hrest := equalFields_self h.2 fun name x hmem => hfound name x (List.mem_cons_of_mem _ hmem)
    rw [equalFields, fieldsHaveNaN, hfound name x List.mem_cons_self, hrest, Bool.not_or]
    exact congrArg (· && _) (equal_self h.1)

end

/-! ## Strict equality -/

theorem equal_float_eq (x y : Double) : (float x).equal (float y) = x.equal y := by
  rw [equal_of_isNumber rfl, compare?_of_isNumber rfl rfl, Double.equal, number?, number?]
  cases x.extended? with
  | none => rfl
  | some p =>
    cases y.extended? with
    | none => rfl
    | some q =>
      show (some (p.compare q) == some .eq) = decide (p = q)
      rw [Bool.eq_iff_iff, beq_iff_eq, Option.some.injEq, decide_eq_true_iff, Extended.compare_eq_iff]

mutual

theorem equal_of_strictEqual {a b : Value} (hb : b.Canonical) (h : a.strictEqual b = true) :
    a.equal b = true := by
  cases a with
  | int i =>
    cases b with
    | int j =>
      rw [strictEqual, beq_iff_eq] at h
      rw [h, equal_self_of_isNumber rfl]
      rfl
    | _ => cases h
  | float x =>
    cases b with
    | float y => exact (equal_float_eq x y).trans h
    | _ => cases h
  | array xs =>
    cases b with
    | array ys => exact equalItems_of_strictEqualItems hb h
    | _ => cases h
  | map xs =>
    cases b with
    | map ys =>
      obtain ⟨hlength, hfields⟩ := fields_of_strictEqualFields hb.2 h
      rw [equal, hlength, beq_self_eq_true, Bool.true_and, equalFields_iff]
      intro field hfield
      obtain ⟨y, hmem, hequal⟩ := hfields field hfield
      exact ⟨y, (hb.1.lookup_eq_some_iff _ _).2 hmem, hequal⟩
    | _ => cases h
  | _ => cases b <;> exact h

theorem equalItems_of_strictEqualItems : ∀ {xs ys : List Value}, CanonicalItems ys →
    strictEqualItems xs ys = true → equalItems xs ys = true
  | [], [], _, _ => rfl
  | x :: xs, y :: ys, hys, h => by
    rw [strictEqualItems, Bool.and_eq_true] at h
    rw [equalItems, Bool.and_eq_true]
    exact ⟨equal_of_strictEqual hys.1 h.1, equalItems_of_strictEqualItems hys.2 h.2⟩

theorem fields_of_strictEqualFields : ∀ {xs ys : List (String × Value)}, CanonicalFields ys →
    strictEqualFields xs ys = true → xs.length = ys.length ∧
      ∀ field ∈ xs, ∃ y, (field.1, y) ∈ ys ∧ field.2.equal y = true
  | [], [], _, _ => ⟨rfl, nofun⟩
  | (name, x) :: xs, (other, y) :: ys, hys, h => by
    rw [strictEqualFields, Bool.and_eq_true, Bool.and_eq_true, beq_iff_eq] at h
    obtain ⟨⟨rfl, hxy⟩, hrest⟩ := h
    obtain ⟨hlength, hfields⟩ := fields_of_strictEqualFields hys.2 hrest
    refine ⟨congrArg (· + 1) hlength, List.forall_mem_cons.2 ⟨?_, fun field hfield => ?_⟩⟩
    · exact ⟨y, List.mem_cons_self, equal_of_strictEqual hys.1 hxy⟩
    · obtain ⟨z, hmem, hequal⟩ := hfields field hfield
      exact ⟨z, List.mem_cons_of_mem _ hmem, hequal⟩

end

/-! ## Equality as an equivalence -/

section
variable {a b : Value} (ha : a.Canonical) (hb : b.Canonical)
include ha hb

theorem equal_symm (h : a.equal b = true) : b.equal a = true := by
  have halike := alike_of_equal ha hb h
  rwa [equal_congr halike.symm halike]

theorem equal_trans {c : Value} (hab : a.equal b = true) (hbc : b.equal c = true) :
    a.equal c = true := by
  rwa [equal_congr (alike_of_equal ha hb hab) (.refl c)]

end

/-- Equality of canonical values is an equivalence on those in which every double is a number, and
the others are not equal to themselves. What is strictly equal is equal. -/
theorem equal_is_equivalence {a b : Value} (ha : a.Canonical) (hb : b.Canonical) (c : Value) :
    a.equal b = b.equal a ∧
      (a.equal b = true → b.equal c = true → a.equal c = true) ∧
      (a.equal a = true ↔ a.hasNaN = false) ∧
      (a.strictEqual b = true → a.equal b = true) := by
  refine ⟨?_, equal_trans ha hb, ?_, equal_of_strictEqual hb⟩
  · rw [Bool.eq_iff_iff]
    exact ⟨equal_symm ha hb, equal_symm hb ha⟩
  · rw [equal_self ha, Bool.not_eq_true']

/-- One and two below an array and a mapping, one as an integer and two as a double. -/
def oneAndTwo : Value := map [("a", array [int 1]), ("b", map [("c", float ⟨0x4000000000000000⟩)])]

/-- The same with the representations exchanged. -/
def exchanged : Value := map [("a", array [float ⟨0x3FF0000000000000⟩]), ("b", map [("c", int 2)])]

theorem oneAndTwo_equal_exchanged : oneAndTwo.Canonical ∧ exchanged.Canonical ∧
    oneAndTwo.equal exchanged = true ∧ exchanged.equal oneAndTwo = true ∧
    oneAndTwo.equal oneAndTwo = true := by
  have hone : oneAndTwo.Canonical :=
    ⟨(by decide : Ranked.Ascending utf8 _), ⟨trivial, trivial⟩,
      ⟨List.pairwise_singleton _ _, trivial, trivial⟩, trivial⟩
  have hexchanged : exchanged.Canonical :=
    ⟨(by decide : Ranked.Ascending utf8 _), ⟨trivial, trivial⟩,
      ⟨List.pairwise_singleton _ _, trivial, trivial⟩, trivial⟩
  have hequal : oneAndTwo.equal exchanged = true := by decide +kernel
  obtain ⟨hsymm, htrans, -⟩ := equal_is_equivalence hone hexchanged oneAndTwo
  have hback : exchanged.equal oneAndTwo = true := hsymm ▸ hequal
  exact ⟨hone, hexchanged, hequal, hback, htrans hequal hback⟩

end DocStore.Value
