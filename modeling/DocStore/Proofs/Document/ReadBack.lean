/-
What a document keeps when it is read back: its arrays and mappings, so that the fields are in their
order, the depth is the same and a path leads to what was there, read back. Only leaves change, and
none of them to a number.
-/
import DocStore.Proofs.Document.RoundTrip

namespace DocStore.Value

/-! ## Texts and dates -/

/-- A text is read back as the date that it tags, or else as itself. -/
theorem readBack_string (codec : Codec) (inArray : Bool) (s : String) :
    (∃ t, (string s).readBack codec inArray = date t) ∨
      (string s).readBack codec inArray = string s ∧ Timestamp.untag? s = none := by
  rw [readBack, leafReadBack, reviveString]
  · cases huntag : Timestamp.untag? s with
    | some t => exact .inl ⟨t, rfl⟩
    | none => exact .inr ⟨rfl, rfl⟩
  · simp
  · simp

/-- A date is read back as itself or, where it was not tagged, as its written form. -/
theorem readBack_date (codec : Codec) (inArray : Bool) (t : Timestamp) :
    (date t).readBack codec inArray = date t ∨ (date t).readBack codec inArray = string t.text := by
  rw [readBack, leafReadBack]
  · split
    · exact .inr rfl
    · exact .inl rfl
  · simp
  · simp

/-! ## Shape -/

variable (codec : Codec)

mutual

theorem depth_readBack (inArray : Bool) (v : Value) :
    (v.readBack codec inArray).depth = v.depth := by
  match v with
  | array items => exact congrArg (· + 1) (itemsDepth_itemsReadBack items)
  | map fields => exact congrArg (· + 1) (fieldsDepth_fieldsReadBack inArray fields)
  | string s =>
    rcases readBack_string codec inArray s with ⟨t, h⟩ | ⟨h, -⟩ <;> rw [h]
    rfl
  | date t =>
    rcases readBack_date codec inArray t with h | h <;> rw [h]
    rfl
  | null => rfl
  | bool b => rfl
  | int i => rfl
  | float x => rfl

theorem itemsDepth_itemsReadBack (items : List Value) :
    itemsDepth (itemsReadBack codec items) = itemsDepth items := by
  match items with
  | [] => rfl
  | item :: rest =>
    rw [itemsReadBack, itemsDepth, itemsDepth, depth_readBack true item,
      itemsDepth_itemsReadBack rest]

theorem fieldsDepth_fieldsReadBack (inArray : Bool) (fields : List (String × Value)) :
    fieldsDepth (fieldsReadBack codec inArray fields) = fieldsDepth fields := by
  match fields with
  | [] => rfl
  | (name, value) :: rest =>
    rw [fieldsReadBack, fieldsDepth, fieldsDepth, depth_readBack inArray value,
      fieldsDepth_fieldsReadBack inArray rest]

end

mutual

theorem Canonical.readBack (inArray : Bool) : ∀ {v : Value}, v.Canonical →
    (v.readBack codec inArray).Canonical
  | array items, h => CanonicalItems.readBack h
  | map fields, h => ⟨Codec.ascending_fieldsReadBack h.1, CanonicalFields.readBack inArray h.2⟩
  | string s, _ => by
    rcases readBack_string codec inArray s with ⟨t, h⟩ | ⟨h, -⟩ <;> (rw [h]; trivial)
  | date t, _ => by rcases readBack_date codec inArray t with h | h <;> (rw [h]; trivial)
  | null, _ => trivial
  | bool b, _ => trivial
  | int i, _ => trivial
  | float x, _ => trivial

theorem CanonicalItems.readBack : ∀ {items : List Value}, CanonicalItems items →
    CanonicalItems (itemsReadBack codec items)
  | [], _ => trivial
  | _ :: _, h => ⟨Canonical.readBack true h.1, CanonicalItems.readBack h.2⟩

theorem CanonicalFields.readBack (inArray : Bool) : ∀ {fields : List (String × Value)},
    CanonicalFields fields → CanonicalFields (fieldsReadBack codec inArray fields)
  | [], _ => trivial
  | _ :: _, h => ⟨Canonical.readBack inArray h.1, CanonicalFields.readBack inArray h.2⟩

end

/-! ## Leaves -/

mutual

/-- The leaves of what is read back are the leaves as they are read back. -/
theorem leaves_readBack (inArray : Bool) (v : Value) : (v.readBack codec inArray).leaves inArray =
    (v.leaves inArray).map fun leaf => (leaf.1, leafReadBack codec leaf.1 leaf.2) := by
  match v with
  | array items => exact itemLeaves_itemsReadBack items
  | map fields => exact fieldLeaves_fieldsReadBack inArray fields
  | string s =>
    show leaves inArray ((string s).readBack codec inArray) =
      [(inArray, (string s).readBack codec inArray)]
    rcases readBack_string codec inArray s with ⟨t, h⟩ | ⟨h, -⟩ <;> (rw [h]; rfl)
  | date t =>
    show leaves inArray ((date t).readBack codec inArray) =
      [(inArray, (date t).readBack codec inArray)]
    rcases readBack_date codec inArray t with h | h <;> (rw [h]; rfl)
  | null => rfl
  | bool b => rfl
  | int i => rfl
  | float x => rfl

theorem itemLeaves_itemsReadBack (items : List Value) : itemLeaves (itemsReadBack codec items) =
    (itemLeaves items).map fun leaf => (leaf.1, leafReadBack codec leaf.1 leaf.2) := by
  match items with
  | [] => rfl
  | item :: rest =>
    rw [itemsReadBack, itemLeaves, itemLeaves, List.map_append, leaves_readBack true item,
      itemLeaves_itemsReadBack rest]

theorem fieldLeaves_fieldsReadBack (inArray : Bool) (fields : List (String × Value)) :
    fieldLeaves inArray (fieldsReadBack codec inArray fields) =
      (fieldLeaves inArray fields).map fun leaf => (leaf.1, leafReadBack codec leaf.1 leaf.2) := by
  match fields with
  | [] => rfl
  | (name, value) :: rest =>
    rw [fieldsReadBack, fieldLeaves, fieldLeaves, List.map_append, leaves_readBack inArray value,
      fieldLeaves_fieldsReadBack inArray rest]

end

theorem nonFinite?_leafReadBack (leaf : Bool × Value) :
    nonFinite? (leaf.1, leafReadBack codec leaf.1 leaf.2) = nonFinite? leaf := by
  obtain ⟨inArray, _ | _ | _ | _ | s | t | _ | _⟩ := leaf
  case string =>
    show nonFinite? (inArray, reviveString s) = none
    unfold reviveString
    split <;> rfl
  case date =>
    show nonFinite? (inArray, if inArray && !codec.tagInArrays then string t.text else date t) =
      none
    split <;> rfl
  all_goals rfl

/-- A document with a stored form is read back as one. -/
theorem firstNonFinite?_readBack (v : Value) :
    (v.readBack codec false).firstNonFinite? = v.firstNonFinite? := by
  unfold firstNonFinite?
  rw [leaves_readBack, List.findSome?_map]
  exact congrArg (List.findSome? · _) (funext (nonFinite?_leafReadBack codec))

/-! ## Paths -/

theorem get?_readBack (inArray : Bool) (v : Value) (name : String) :
    (v.readBack codec inArray).get? name = (v.get? name).map (readBack codec inArray) := by
  cases v with
  | map fields =>
    show (fieldsReadBack codec inArray fields).lookup name = _
    rw [Codec.fieldsReadBack_eq]
    exact Ranked.lookup_map Function.injective_id name fields
  | string s => rcases readBack_string codec inArray s with ⟨t, h⟩ | ⟨h, -⟩ <;> (rw [h]; rfl)
  | date t => rcases readBack_date codec inArray t with h | h <;> (rw [h]; rfl)
  | _ => rfl

/-- A path leads to what was there, read back. -/
theorem getPath?_readBack (inArray : Bool) (v : Value) (path : String) :
    (v.readBack codec inArray).getPath? path = (v.getPath? path).map (readBack codec inArray) := by
  unfold getPath?
  induction pathNames path generalizing v with
  | nil => rfl
  | cons name rest ih =>
    rw [List.foldlM_cons, List.foldlM_cons, get?_readBack]
    cases v.get? name with
    | none => rfl
    | some field => exact ih field

end DocStore.Value
