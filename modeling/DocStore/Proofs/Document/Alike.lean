/-
Values that differ in nothing but the representation of their numbers. Neither equality nor the
order of values tells them apart, and a path leads from both to such values again or to nothing.
Canonical values that are equal are of this kind: having as many fields, each of which is found
among those of the other, two equal mappings have the same names in the same order.
-/
import DocStore.Proofs.Document.Numbers
import DocStore.Proofs.Ranked

namespace DocStore.Value

mutual

/-- The values are the same but for the representation of numbers. -/
inductive Alike : Value → Value → Prop
  | number {a b : Value} (ha : a.isNumber = true) (hb : b.isNumber = true)
    (h : a.number? = b.number?) : Alike a b
  | null : Alike null null
  | bool (b : Bool) : Alike (bool b) (bool b)
  | string (s : String) : Alike (string s) (string s)
  | date (t : Timestamp) : Alike (date t) (date t)
  | array {xs ys : List Value} (h : AlikeItems xs ys) : Alike (array xs) (array ys)
  | map {xs ys : List (String × Value)} (h : AlikeFields xs ys) : Alike (map xs) (map ys)

/-- The items are alike, one by one. -/
inductive AlikeItems : List Value → List Value → Prop
  | nil : AlikeItems [] []
  | cons {x y : Value} {xs ys : List Value} (h : Alike x y) (hs : AlikeItems xs ys) :
    AlikeItems (x :: xs) (y :: ys)

/-- The fields have the same names and alike values, one by one. -/
inductive AlikeFields : List (String × Value) → List (String × Value) → Prop
  | nil : AlikeFields [] []
  | cons (name : String) {x y : Value} {xs ys : List (String × Value)} (h : Alike x y)
    (hs : AlikeFields xs ys) : AlikeFields ((name, x) :: xs) ((name, y) :: ys)

end

mutual

theorem Alike.refl : ∀ a : Value, Alike a a
  | .null => .null
  | .bool b => .bool b
  | .int _ => .number rfl rfl rfl
  | .float _ => .number rfl rfl rfl
  | .string s => .string s
  | .date t => .date t
  | .array items => .array (AlikeItems.refl items)
  | .map fields => .map (AlikeFields.refl fields)

theorem AlikeItems.refl : ∀ items : List Value, AlikeItems items items
  | [] => .nil
  | x :: xs => .cons (Alike.refl x) (AlikeItems.refl xs)

theorem AlikeFields.refl : ∀ fields : List (String × Value), AlikeFields fields fields
  | [] => .nil
  | (name, x) :: xs => .cons name (Alike.refl x) (AlikeFields.refl xs)

end

mutual

theorem Alike.symm : ∀ {a b : Value}, Alike a b → Alike b a
  | _, _, .number ha hb h => .number hb ha h.symm
  | _, _, .null => .null
  | _, _, .bool b => .bool b
  | _, _, .string s => .string s
  | _, _, .date t => .date t
  | _, _, .array h => .array h.symm
  | _, _, .map h => .map h.symm

theorem AlikeItems.symm : ∀ {xs ys : List Value}, AlikeItems xs ys → AlikeItems ys xs
  | _, _, .nil => .nil
  | _, _, .cons h hs => .cons h.symm hs.symm

theorem AlikeFields.symm : ∀ {xs ys : List (String × Value)}, AlikeFields xs ys → AlikeFields ys xs
  | _, _, .nil => .nil
  | _, _, .cons name h hs => .cons name h.symm hs.symm

end

/-! ## Parts -/

section
variable {a b : Value}

theorem Alike.isNumber_eq (h : Alike a b) : a.isNumber = b.isNumber := by
  cases h with
  | number ha hb => rw [ha, hb]
  | _ => rfl

theorem Alike.number?_eq (h : Alike a b) : a.number? = b.number? := by
  cases h with
  | number _ _ h => exact h
  | _ => rfl

section
variable {p q : Value → Bool} (hpq : ∀ {x y}, Alike x y → p x = q y)
include hpq

theorem AlikeItems.map_eq : ∀ {xs ys : List Value}, AlikeItems xs ys → xs.map p = ys.map q
  | _, _, .nil => rfl
  | _, _, .cons h hs => by rw [List.map_cons, List.map_cons, hpq h, hs.map_eq]

/-- A test that takes alike values for one passes some item of both of two alike lists, or of
neither. -/
theorem AlikeItems.any_eq {xs ys : List Value} (h : AlikeItems xs ys) : xs.any p = ys.any q := by
  simpa only [List.any_map, Function.id_comp] using congrArg (List.any · id) (h.map_eq hpq)

theorem AlikeItems.all_eq {xs ys : List Value} (h : AlikeItems xs ys) : xs.all p = ys.all q := by
  simpa only [List.all_map, Function.id_comp] using congrArg (List.all · id) (h.map_eq hpq)

end

theorem AlikeFields.length_eq :
    ∀ {xs ys : List (String × Value)}, AlikeFields xs ys → xs.length = ys.length
  | _, _, .nil => rfl
  | _, _, .cons _ _ hs => congrArg (· + 1) hs.length_eq

theorem AlikeFields.lookup (name : String) : ∀ {xs ys : List (String × Value)}, AlikeFields xs ys →
    Option.Rel Alike (xs.lookup name) (ys.lookup name)
  | _, _, .nil => .none
  | _, _, .cons other h hs => by
    rw [Ranked.lookup_cons, Ranked.lookup_cons]
    by_cases hname : name = other
    · rw [if_pos hname, if_pos hname]
      exact .some h
    · rw [if_neg hname, if_neg hname]
      exact hs.lookup name

theorem Alike.get? (h : Alike a b) (name : String) : Option.Rel Alike (a.get? name) (b.get? name) := by
  cases h with
  | number ha hb => cases a <;> cases ha <;> cases b <;> cases hb <;> exact .none
  | map h => exact h.lookup name
  | _ => exact .none

theorem Alike.getPath? (h : Alike a b) (path : String) :
    Option.Rel Alike (a.getPath? path) (b.getPath? path) := by
  unfold Value.getPath?
  induction pathNames path generalizing a b with
  | nil => exact .some h
  | cons name names ih =>
    rw [List.foldlM_cons, List.foldlM_cons]
    have hget := h.get? name
    generalize a.get? name = x at hget
    generalize b.get? name = y at hget
    cases hget with
    | none => exact .none
    | some h => exact ih h

end

/-! ## Order and equality -/

section
variable {a a' b b' : Value}

theorem compare?_congr (ha : Alike a a') (hb : Alike b b') : a.compare? b = a'.compare? b' := by
  by_cases hsame : a.isNumber = b.isNumber
  · cases hnum : a.isNumber with
    | true =>
      have hnum' := hsame ▸ hnum
      rw [compare?_of_isNumber hnum hnum',
        compare?_of_isNumber (ha.isNumber_eq ▸ hnum) (hb.isNumber_eq ▸ hnum'), ha.number?_eq,
        hb.number?_eq]
    | false =>
      have hnum' := hsame ▸ hnum
      cases ha with
      | number ha => rw [ha] at hnum; cases hnum
      | _ =>
        cases hb with
        | number hb => rw [hb] at hnum'; cases hnum'
        | _ => rfl
  · rw [compare?_of_ne_isNumber hsame, compare?_of_ne_isNumber]
    rwa [← ha.isNumber_eq, ← hb.isNumber_eq]

theorem equal_of_ne_isNumber (h : a.isNumber ≠ b.isNumber) : a.equal b = false := by
  cases ha : a.isNumber with
  | true => rw [equal_of_isNumber ha, compare?_of_ne_isNumber h]; rfl
  | false => cases a <;> cases ha <;> cases b <;> first | rfl | exact absurd rfl h

/-- What is not a number equals none. -/
theorem equal_number_congr (ha : a.isNumber = false) (ha' : a'.isNumber = false)
    (hb : b.isNumber = true) (hb' : b'.isNumber = true) : a.equal b = a'.equal b' := by
  rw [equal_of_ne_isNumber (by rw [ha, hb]; nofun), equal_of_ne_isNumber (by rw [ha', hb']; nofun)]

/-- What is neither a number nor has parts does not tell alike values apart. -/
theorem equal_leaf_congr (hnumber : a.isNumber = false) (hdepth : a.depth = 0) (hb : Alike b b') :
    a.equal b = a.equal b' := by
  cases hb with
  | number hb hb' => exact equal_number_congr hnumber hnumber hb hb'
  | array _ => cases a <;> cases hnumber <;> first | rfl | cases hdepth
  | map _ => cases a <;> cases hnumber <;> first | rfl | cases hdepth
  | _ => rfl

end

mutual

theorem equal_congr : ∀ {a a' b b' : Value}, Alike a a' → Alike b b' → a.equal b = a'.equal b'
  | _, _, _, _, .number ha ha' h, hb => by
    rw [equal_of_isNumber ha, equal_of_isNumber ha', compare?_congr (.number ha ha' h) hb]
  | _, _, _, _, .null, hb => equal_leaf_congr rfl rfl hb
  | _, _, _, _, .bool _, hb => equal_leaf_congr rfl rfl hb
  | _, _, _, _, .string _, hb => equal_leaf_congr rfl rfl hb
  | _, _, _, _, .date _, hb => equal_leaf_congr rfl rfl hb
  | _, _, _, _, .array hxs, hb => by
    cases hb with
    | number hb hb' => exact equal_number_congr rfl rfl hb hb'
    | array hys => exact equalItems_congr hxs hys
    | _ => rfl
  | _, _, _, _, .map hxs, hb => by
    cases hb with
    | number hb hb' => exact equal_number_congr rfl rfl hb hb'
    | map hys => rw [equal, equal, hxs.length_eq, hys.length_eq, equalFields_congr hxs hys]
    | _ => rfl

theorem equalItems_congr : ∀ {xs xs' ys ys' : List Value}, AlikeItems xs xs' → AlikeItems ys ys' →
    equalItems xs ys = equalItems xs' ys'
  | _, _, _, _, .nil, .nil => rfl
  | _, _, _, _, .nil, .cons _ _ => rfl
  | _, _, _, _, .cons _ _, .nil => rfl
  | _, _, _, _, .cons hx hxs, .cons hy hys => by
    rw [equalItems, equalItems, equal_congr hx hy, equalItems_congr hxs hys]

theorem equalFields_congr : ∀ {xs xs' ys ys' : List (String × Value)}, AlikeFields xs xs' →
    AlikeFields ys ys' → equalFields xs ys = equalFields xs' ys'
  | _, _, _, _, .nil, _ => rfl
  | _, _, _, _, .cons name hx hxs, hys => by
    rw [equalFields, equalFields, equalFields_congr hxs hys]
    have hlookup := hys.lookup name
    generalize List.lookup name _ = y at hlookup
    generalize List.lookup name _ = y' at hlookup
    cases hlookup with
    | none => rfl
    | some hy => simp only [equal_congr hx hy]

end

/-! ## Equal values are alike -/

/-- Of two equal mappings the one has a field of each name of the other, with an equal value. -/
theorem equalFields_iff {xs ys : List (String × Value)} : equalFields xs ys = true ↔
    ∀ field ∈ xs, ∃ y, ys.lookup field.1 = some y ∧ field.2.equal y = true := by
  induction xs with
  | nil => exact iff_of_true rfl nofun
  | cons field xs ih =>
    rw [equalFields, Bool.and_eq_true, ih, List.forall_mem_cons]
    refine and_congr_left fun _ => ?_
    cases ys.lookup field.1 <;> simp

mutual

theorem alike_of_equal {a b : Value} (ha : a.Canonical) (hb : b.Canonical) (h : a.equal b = true) :
    Alike a b := by
  cases a with
  | int i =>
    obtain ⟨hb, hplace⟩ := number?_eq_of_equal (a := int i) rfl h
    exact .number rfl hb hplace
  | float x =>
    obtain ⟨hb, hplace⟩ := number?_eq_of_equal (a := float x) rfl h
    exact .number rfl hb hplace
  | null =>
    cases b with
    | null => exact .null
    | _ => cases h
  | bool =>
    cases b with
    | bool =>
      rw [equal, beq_iff_eq] at h
      exact h ▸ .bool _
    | _ => cases h
  | string =>
    cases b with
    | string =>
      rw [equal, beq_iff_eq] at h
      exact h ▸ .string _
    | _ => cases h
  | date =>
    cases b with
    | date => exact of_decide_eq_true h ▸ .date _
    | _ => cases h
  | array xs =>
    cases b with
    | array ys => exact .array (alikeItems_of_equal ha hb h)
    | _ => cases h
  | map xs =>
    cases b with
    | map ys =>
      rw [equal, Bool.and_eq_true, beq_iff_eq] at h
      have hfound := equalFields_iff.1 h.2
      have hnames := ha.1.keys_eq hb.1 h.1 fun field hfield =>
        (hfound field hfield).imp fun _ hy => hy.1
      refine .map (alikeFields_of_equal ha.2 hb.2 hnames fun name x y hmem hmem' => ?_)
      obtain ⟨z, hlookup, hequal⟩ := hfound _ hmem
      rw [(hb.1.lookup_eq_some_iff _ _).2 hmem'] at hlookup
      exact Option.some.inj hlookup ▸ hequal
    | _ => cases h

theorem alikeItems_of_equal : ∀ {xs ys : List Value}, CanonicalItems xs → CanonicalItems ys →
    equalItems xs ys = true → AlikeItems xs ys
  | [], [], _, _, _ => .nil
  | x :: xs, y :: ys, hx, hy, h => by
    rw [equalItems, Bool.and_eq_true] at h
    exact .cons (alike_of_equal hx.1 hy.1 h.1) (alikeItems_of_equal hx.2 hy.2 h.2)

theorem alikeFields_of_equal : ∀ {xs ys : List (String × Value)}, CanonicalFields xs →
    CanonicalFields ys → xs.map Prod.fst = ys.map Prod.fst →
    (∀ name x y, (name, x) ∈ xs → (name, y) ∈ ys → x.equal y = true) → AlikeFields xs ys
  | [], [], _, _, _, _ => .nil
  | (name, x) :: xs, (other, y) :: ys, hx, hy, hnames, h => by
    obtain ⟨rfl, hrest⟩ := List.cons.inj hnames
    exact .cons name (alike_of_equal hx.1 hy.1 (h name x y List.mem_cons_self List.mem_cons_self))
      (alikeFields_of_equal hx.2 hy.2 hrest fun name x y hmem hmem' =>
        h name x y (List.mem_cons_of_mem _ hmem) (List.mem_cons_of_mem _ hmem'))

end

end DocStore.Value
