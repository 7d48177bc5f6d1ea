/-
Documents read back from their stored form. The stored form of a value is the text of a tree of
the same shape; only a double that is not finite keeps a value from having one, and only the
depth keeps the text from being read. What is read differs from the value in two kinds of leaves:
a string that is a tagged date becomes the date, and a date that was written without a tag, below
an array, becomes its written form.
-/
import DocStore.Document.Codec
import DocStore.Proofs.Json.Tree
import DocStore.Proofs.Ranked
import DocStore.Proofs.Time.Text

namespace DocStore

namespace Value

/-! ## Leaves -/

mutual

/-- What a value consists of besides arrays and mappings, in order, each with whether it lies
below an array. `inArray` says whether the value itself does. -/
def leaves (inArray : Bool) : Value → List (Bool × Value)
  | array items => itemLeaves items
  | map fields => fieldLeaves inArray fields
  | leaf => [(inArray, leaf)]

def itemLeaves : List Value → List (Bool × Value)
  | [] => []
  | item :: rest => item.leaves true ++ itemLeaves rest

def fieldLeaves (inArray : Bool) : List (String × Value) → List (Bool × Value)
  | [] => []
  | (_, value) :: rest => value.leaves inArray ++ fieldLeaves inArray rest

end

/-- The double at a leaf, if there is one and it is not finite. -/
def nonFinite? : Bool × Value → Option Double
  | (_, float x) => if x.isFinite then none else some x
  | _ => none

/-- The first double of a value that is not finite. -/
def firstNonFinite? (value : Value) : Option Double := (value.leaves false).findSome? nonFinite?

/-- A leaf as it is read back. -/
def leafReadBack (codec : Codec) (inArray : Bool) : Value → Value
  | string s => reviveString s
  | date t => if inArray && !codec.tagInArrays then string t.text else date t
  | leaf => leaf

mutual

/-- A value as it is read back. -/
def readBack (codec : Codec) (inArray : Bool) : Value → Value
  | array items => array (itemsReadBack codec items)
  | map fields => map (fieldsReadBack codec inArray fields)
  | leaf => leafReadBack codec inArray leaf

def itemsReadBack (codec : Codec) : List Value → List Value
  | [] => []
  | item :: rest => item.readBack codec true :: itemsReadBack codec rest

def fieldsReadBack (codec : Codec) (inArray : Bool) : List (String × Value) → List (String × Value)
  | [] => []
  | (name, value) :: rest => (name, value.readBack codec inArray) :: fieldsReadBack codec inArray rest

end

/-- Whether a leaf is read back as itself: it is no string that is a tagged date, and no date that
is written without a tag. -/
def Kept (codec : Codec) : Bool × Value → Prop
  | (_, string s) => Timestamp.untag? s = none
  | (inArray, date _) => inArray = true → codec.tagInArrays = true
  | _ => True

theorem leafReadBack_eq_self {codec : Codec} {leaf : Bool × Value} (h : Kept codec leaf) :
    leafReadBack codec leaf.1 leaf.2 = leaf.2 := by
  obtain ⟨inArray, _ | _ | _ | _ | s | t | _ | _⟩ := leaf
  case string => rw [leafReadBack, reviveString, (h : Timestamp.untag? s = none)]
  case date =>
    cases inArray with
    | false => rfl
    | true => rw [leafReadBack, h rfl]; rfl
  all_goals rfl

mutual

/-- A value is read back as itself if its leaves are. -/
theorem readBack_eq_self {codec : Codec} (inArray : Bool) (v : Value)
    (h : ∀ leaf ∈ v.leaves inArray, Kept codec leaf) : v.readBack codec inArray = v := by
  match v with
  | array items => exact congrArg array (itemsReadBack_eq_self items h)
  | map fields => exact congrArg map (fieldsReadBack_eq_self inArray fields h)
  | null => rfl
  | bool b => rfl
  | int i => rfl
  | float x => rfl
  | string s => exact leafReadBack_eq_self (h (inArray, string s) (List.mem_singleton.2 rfl))
  | date t => exact leafReadBack_eq_self (h (inArray, date t) (List.mem_singleton.2 rfl))

theorem itemsReadBack_eq_self {codec : Codec} (items : List Value)
    (h : ∀ leaf ∈ itemLeaves items, Kept codec leaf) : itemsReadBack codec items = items := by
  match items with
  | [] => rfl
  | item :: rest =>
    rw [itemsReadBack, readBack_eq_self true item fun leaf hl => h leaf (List.mem_append_left _ hl),
      itemsReadBack_eq_self rest fun leaf hl => h leaf (List.mem_append_right _ hl)]

theorem fieldsReadBack_eq_self {codec : Codec} (inArray : Bool) (fields : List (String × Value))
    (h : ∀ leaf ∈ fieldLeaves inArray fields, Kept codec leaf) :
    fieldsReadBack codec inArray fields = fields := by
  match fields with
  | [] => rfl
  | (name, value) :: rest =>
    rw [fieldsReadBack,
      readBack_eq_self inArray value fun leaf hl => h leaf (List.mem_append_left _ hl),
      fieldsReadBack_eq_self inArray rest fun leaf hl => h leaf (List.mem_append_right _ hl)]

end

end Value

/-! ## The tree of a value -/

namespace Codec

open Value

mutual

/-- The tree of a value, its doubles taken to be finite. -/
def tree (codec : Codec) (tagging : Bool) : Value → Json
  | .null => .null
  | .bool b => .bool b
  | .int i => .number (.int i.toInt)
  | .float x => .number (.float x)
  | .string s => .string (some s)
  | .date t => .string (some (if tagging then t.tagged else t.text))
  | .array items => .array (itemTrees codec (tagging && codec.tagInArrays) items)
  | .map fields => .object (memberTrees codec tagging fields)

def itemTrees (codec : Codec) (tagging : Bool) : List Value → List Json
  | [] => []
  | item :: rest => codec.tree tagging item :: codec.itemTrees tagging rest

def memberTrees (codec : Codec) (tagging : Bool) : List (String × Value) → List (JsonString × Json)
  | [] => []
  | (name, value) :: rest => (some name, codec.tree tagging value) :: codec.memberTrees tagging rest

end

/-- What the search for a double that is not finite makes of a tree. -/
def unlessNonFinite {α : Type} (leaves : List (Bool × Value)) (written : α) : Except CodecError α :=
  match leaves.findSome? nonFinite? with
  | some x => .error (.nonFinite x)
  | none => .ok written

theorem unlessNonFinite_append {α β γ : Type} (first rest : List (Bool × Value)) (a : α) (b : β)
    (f : α → β → γ) :
    (do return f (← unlessNonFinite first a) (← unlessNonFinite rest b)) =
      unlessNonFinite (first ++ rest) (f a b) := by
  unfold unlessNonFinite
  rw [List.findSome?_append]
  cases first.findSome? nonFinite? with
  | some x => rfl
  | none => cases rest.findSome? nonFinite? <;> rfl

theorem unlessNonFinite_map {α β : Type} (leaves : List (Bool × Value)) (a : α) (f : α → β) :
    (do return f (← unlessNonFinite leaves a)) = unlessNonFinite leaves (f a) := by
  unfold unlessNonFinite
  cases leaves.findSome? nonFinite? <;> rfl

mutual

/-- The tree of a value, or the first double that is not finite. -/
theorem toJson_eq (codec : Codec) (tagging inArray : Bool) (v : Value) :
    codec.toJson tagging v = unlessNonFinite (v.leaves inArray) (codec.tree tagging v) := by
  match v with
  | .null => rfl
  | .bool b => rfl
  | .int i => rfl
  | .float x =>
    rw [toJson, leaves, tree, unlessNonFinite, List.findSome?_singleton, nonFinite?]
    · cases x.isFinite <;> rfl
    · simp
    · simp
  | .string s => rfl
  | .date t => rfl
  | .array items =>
    rw [toJson, itemsToJson_eq codec _ items, leaves, tree]
    exact unlessNonFinite_map _ _ Json.array
  | .map fields =>
    rw [toJson, fieldsToJson_eq codec tagging inArray fields, leaves, tree]
    exact unlessNonFinite_map _ _ Json.object

theorem itemsToJson_eq (codec : Codec) (tagging : Bool) (items : List Value) :
    codec.itemsToJson tagging items =
      unlessNonFinite (itemLeaves items) (codec.itemTrees tagging items) := by
  match items with
  | [] => rfl
  | item :: rest =>
    rw [itemsToJson, toJson_eq codec tagging true item, itemsToJson_eq codec tagging rest]
    exact unlessNonFinite_append _ _ _ _ _

theorem fieldsToJson_eq (codec : Codec) (tagging inArray : Bool) (fields : List (String × Value)) :
    codec.fieldsToJson tagging fields =
      unlessNonFinite (fieldLeaves inArray fields) (codec.memberTrees tagging fields) := by
  match fields with
  | [] => rfl
  | (name, value) :: rest =>
    rw [fieldsToJson, toJson_eq codec tagging inArray value, fieldsToJson_eq codec tagging inArray rest]
    exact unlessNonFinite_append _ _ _ _ fun value rest => (some name, value) :: rest

end

/-! ## What the tree keeps -/

mutual

/-- A tree is nested as deeply as its value. -/
theorem depth_tree (codec : Codec) (tagging : Bool) (v : Value) :
    (codec.tree tagging v).depth = v.depth := by
  match v with
  | .array items => exact congrArg (· + 1) (itemsDepth_itemTrees codec _ items)
  | .map fields => exact congrArg (· + 1) (membersDepth_memberTrees codec tagging fields)
  | .null => rfl
  | .bool b => rfl
  | .int i => rfl
  | .float x => rfl
  | .string s => rfl
  | .date t => rfl

theorem itemsDepth_itemTrees (codec : Codec) (tagging : Bool) (items : List Value) :
    Json.itemsDepth (codec.itemTrees tagging items) = Value.itemsDepth items := by
  match items with
  | [] => rfl
  | item :: rest =>
    rw [itemTrees, Json.itemsDepth, Value.itemsDepth, depth_tree codec tagging item,
      itemsDepth_itemTrees codec tagging rest]

theorem membersDepth_memberTrees (codec : Codec) (tagging : Bool) (fields : List (String × Value)) :
    Json.membersDepth (codec.memberTrees tagging fields) = Value.fieldsDepth fields := by
  match fields with
  | [] => rfl
  | (name, value) :: rest =>
    rw [memberTrees, Json.membersDepth, Value.fieldsDepth, depth_tree codec tagging value,
      membersDepth_memberTrees codec tagging rest]

end

theorem readable_int (i : Int64) : (JsonNumber.int i.toInt).Readable := by
  have hlow : -2 ^ 63 ≤ i.toInt := i.le_toInt
  have hhigh : i.toInt < 2 ^ 63 := i.toInt_lt
  exact ⟨hlow, by omega⟩

theorem isFinite_of_nonFinite?_eq_none {inArray : Bool} {x : Double}
    (h : nonFinite? (inArray, float x) = none) : x.isFinite = true := by
  by_contra hx
  rw [nonFinite?, if_neg hx] at h
  cases h

mutual

/-- The numbers of a tree can be read if the doubles of its value are finite. -/
theorem readable_tree (codec : Codec) (tagging inArray : Bool) (v : Value)
    (h : ∀ leaf ∈ v.leaves inArray, nonFinite? leaf = none) :
    ∀ token ∈ (codec.tree tagging v).tokens, token.Readable := by
  match v with
  | .array items =>
    intro token ht
    rcases List.mem_cons.1 ht with rfl | ht
    · trivial
    · exact Json.readable_itemTokens (readable_itemTrees codec _ items h) token ht
  | .map fields =>
    intro token ht
    rcases List.mem_cons.1 ht with rfl | ht
    · trivial
    · exact Json.readable_memberTokens (readable_memberTrees codec tagging inArray fields h) token ht
  | .null => simp [tree, Json.tokens, JsonToken.Readable]
  | .bool b => simp [tree, Json.tokens, JsonToken.Readable]
  | .int i => simpa [tree, Json.tokens, JsonToken.Readable] using readable_int i
  | .float x =>
    have hfinite := isFinite_of_nonFinite?_eq_none (h (inArray, .float x) (List.mem_singleton.2 rfl))
    simpa [tree, Json.tokens, JsonToken.Readable, JsonNumber.Readable] using hfinite
  | .string s => simp [tree, Json.tokens, JsonToken.Readable]
  | .date t => simp [tree, Json.tokens, JsonToken.Readable]

theorem readable_itemTrees (codec : Codec) (tagging : Bool) (items : List Value)
    (h : ∀ leaf ∈ itemLeaves items, nonFinite? leaf = none) :
    ∀ item ∈ codec.itemTrees tagging items, ∀ token ∈ item.tokens, token.Readable := by
  match items with
  | [] => exact nofun
  | item :: rest =>
    intro next hnext
    rcases List.mem_cons.1 hnext with rfl | hnext
    · exact readable_tree codec tagging true item fun leaf hl => h leaf (List.mem_append_left _ hl)
    · exact readable_itemTrees codec tagging rest (fun leaf hl => h leaf (List.mem_append_right _ hl))
        next hnext

theorem readable_memberTrees (codec : Codec) (tagging inArray : Bool) (fields : List (String × Value))
    (h : ∀ leaf ∈ fieldLeaves inArray fields, nonFinite? leaf = none) :
    ∀ member ∈ codec.memberTrees tagging fields, ∀ token ∈ member.2.tokens, token.Readable := by
  match fields with
  | [] => exact nofun
  | (name, value) :: rest =>
    intro next hnext
    rcases List.mem_cons.1 hnext with rfl | hnext
    · exact readable_tree codec tagging inArray value fun leaf hl => h leaf (List.mem_append_left _ hl)
    · exact readable_memberTrees codec tagging inArray rest
        (fun leaf hl => h leaf (List.mem_append_right _ hl)) next hnext

end

/-! ## Reading the tree -/

theorem fieldsReadBack_eq (codec : Codec) (inArray : Bool) (fields : List (String × Value)) :
    fieldsReadBack codec inArray fields =
      fields.map fun field => (field.1, field.2.readBack codec inArray) := by
  induction fields with
  | nil => rfl
  | cons field rest ih =>
    rw [fieldsReadBack, ih]
    rfl

/-- What is read back has the fields in the same order. -/
theorem ascending_fieldsReadBack {codec : Codec} {inArray : Bool} {fields : List (String × Value)}
    (h : AscendingFields fields) : AscendingFields (fieldsReadBack codec inArray fields) := by
  rw [fieldsReadBack_eq]
  exact List.pairwise_map.2 h

theorem ofNumber_int (i : Int64) : ofNumber (.int i.toInt) = .int i := by
  have hlow : Int64.minValue.toInt ≤ i.toInt := i.minValue_le_toInt
  have hhigh : i.toInt ≤ Int64.maxValue.toInt := Int.le_of_lt_add_one i.toInt_lt
  rw [ofNumber, if_pos ⟨hlow, hhigh⟩, Int64.ofInt_toInt]

mutual

/-- The tree of a value is read as the value that is read back. Dates are tagged outside arrays,
and below them if the codec is set so. -/
theorem ofJson?_tree (codec : Codec) {tagging inArray : Bool}
    (htagging : tagging = (!inArray || codec.tagInArrays)) (v : Value) (hv : v.Canonical)
    (h : ∀ leaf ∈ v.leaves inArray, nonFinite? leaf = none) :
    ofJson? reviveString (codec.tree tagging v) = some (v.readBack codec inArray) := by
  match v with
  | .array items =>
    -- below an array only the setting counts, whatever was the case above it
    have hbelow : (tagging && codec.tagInArrays) = codec.tagInArrays := by
      rw [htagging]
      cases codec.tagInArrays <;> simp
    rw [tree, hbelow, ofJson?, ofJsonItems?_itemTrees codec items hv h]
    rfl
  | .map fields =>
    rw [tree, ofJson?, ofJsonMembers?_memberTrees codec htagging fields hv.2 h]
    -- the fields ascend already, so building the mapping leaves them in their order
    show some (ofFields _) = _
    rw [ofFields, (ascending_fieldsReadBack hv.1).ofList_eq]
    rfl
  | .null => rfl
  | .bool b => rfl
  | .int i => exact congrArg some (ofNumber_int i)
  | .float x =>
    have hfinite := isFinite_of_nonFinite?_eq_none (h (inArray, .float x) (List.mem_singleton.2 rfl))
    rw [tree, ofJson?, JsonNumber.isFinite, if_pos hfinite]
    rfl
  | .string s => rfl
  | .date t =>
    -- what is tagged is revived, and what is not is taken for no date
    rw [tree, htagging]
    cases inArray <;> cases hset : codec.tagInArrays <;>
      simp [ofJson?, reviveString, Timestamp.untag?_tagged, Timestamp.untag?_text, readBack,
        leafReadBack, hset]

theorem ofJsonItems?_itemTrees (codec : Codec) (items : List Value) (hitems : CanonicalItems items)
    (h : ∀ leaf ∈ itemLeaves items, nonFinite? leaf = none) :
    ofJsonItems? reviveString (codec.itemTrees codec.tagInArrays items) =
      some (itemsReadBack codec items) := by
  match items with
  | [] => rfl
  | item :: rest =>
    have hbelow : codec.tagInArrays = (!true || codec.tagInArrays) := by simp
    have hitem := ofJson?_tree codec hbelow item hitems.1
      fun leaf hl => h leaf (List.mem_append_left _ hl)
    have hrest := ofJsonItems?_itemTrees codec rest hitems.2
      fun leaf hl => h leaf (List.mem_append_right _ hl)
    simp [itemTrees, ofJsonItems?, hitem, hrest, itemsReadBack]

theorem ofJsonMembers?_memberTrees (codec : Codec) {tagging inArray : Bool}
    (htagging : tagging = (!inArray || codec.tagInArrays)) (fields : List (String × Value))
    (hfields : CanonicalFields fields)
    (h : ∀ leaf ∈ fieldLeaves inArray fields, nonFinite? leaf = none) :
    ofJsonMembers? reviveString (codec.memberTrees tagging fields) =
      some (fieldsReadBack codec inArray fields) := by
  match fields with
  | [] => rfl
  | (name, value) :: rest =>
    have hvalue := ofJson?_tree codec htagging value hfields.1
      fun leaf hl => h leaf (List.mem_append_left _ hl)
    have hrest := ofJsonMembers?_memberTrees codec htagging rest hfields.2
      fun leaf hl => h leaf (List.mem_append_right _ hl)
    simp [memberTrees, ofJsonMembers?, hvalue, hrest, fieldsReadBack]

end

/-! ## The round trip -/

/-- The stored form of a value whose doubles are finite. -/
def storedForm (codec : Codec) (v : Value) : Bytes := utf8 (String.ofList (codec.tree true v).text)

theorem encode_eq (codec : Codec) (v : Value) : codec.encode v =
    match v.firstNonFinite? with
    | some x => .error (.nonFinite x)
    | none => .ok (codec.storedForm v) := by
  rw [encode, encodeText, toJson_eq codec true false, unlessNonFinite_map]
  exact unlessNonFinite_map _ _ utf8

/-- The stored form is what a value is encoded as, if its doubles are finite. -/
theorem encode_eq_ok_iff {codec : Codec} {v : Value} {bytes : Bytes} :
    codec.encode v = .ok bytes ↔ v.firstNonFinite? = none ∧ codec.storedForm v = bytes := by
  rw [encode_eq]
  cases v.firstNonFinite? <;> simp

theorem decode_storedForm (codec : Codec) {v : Value} (hv : v.Canonical)
    (h : v.firstNonFinite? = none) : decode (codec.storedForm v) =
      if v.depth ≤ Json.maxDepth then .ok (v.readBack codec false) else .error .malformed := by
  have hfinite : ∀ leaf ∈ v.leaves false, nonFinite? leaf = none := List.findSome?_eq_none_iff.1 h
  have htext := Json.ofText?_text (readable_tree codec true false v hfinite)
  have htree := ofJson?_tree codec (by simp : true = (!false || codec.tagInArrays)) v hv hfinite
  rw [storedForm, decode, ofUtf8?_utf8, Option.bind_some, reviveText?, Json.ofDocument?, htext]
  simp only [Option.filter_some, depth_tree]
  -- the text of a tree that is too deep is that of no document
  by_cases hdepth : v.depth ≤ Json.maxDepth
  · simp [hdepth, htree]
  · simp [hdepth]

/-- A document is written unless one of its doubles is not finite, and the first of them is named
then. It is read back if it is not nested too deeply, and as itself if no string in it is a tagged
date and no date in it is written without a tag. -/
theorem decode_encode (codec : Codec) {v : Value} (hv : v.Canonical) :
    (∀ error, codec.encode v = .error error ↔
      ∃ x, v.firstNonFinite? = some x ∧ error = .nonFinite x) ∧
    (v.firstNonFinite? = none → ∃ bytes, codec.encode v = .ok bytes ∧
      decode bytes = if v.depth ≤ 127 then .ok (v.readBack codec false) else .error .malformed) ∧
    ((∀ leaf ∈ v.leaves false, Kept codec leaf) → v.readBack codec false = v) := by
  refine ⟨?_, ?_, readBack_eq_self false v⟩
  · intro error
    rw [encode_eq]
    cases v.firstNonFinite? with
    | none => simp
    | some x => simp [eq_comm]
  · intro hfinite
    refine ⟨codec.storedForm v, ?_, decode_storedForm codec hv hfinite⟩
    rw [encode_eq, hfinite]

/-- The middle of the leap second at the end of 2016. -/
def leapSecond : Timestamp :=
  ⟨1483228799, 1500000000, by decide, by decide, by decide, by decide⟩

/-- A leap second below an array, beside minus zero, and another way to write its tagged form. -/
def leapDocument : Value :=
  .map [("at", .array [.date leapSecond, .float ⟨9223372036854775808⟩]),
    ("note", .string "FLEXEL|2016-12-31T23:59:60.5Z")]

theorem leapDocument_round_trip : leapDocument.Canonical ∧
    ∃ bytes, (⟨false⟩ : Codec).encode leapDocument = .ok bytes ∧ decode bytes = .ok (.map
      [("at", .array [.string "2016-12-31T23:59:60.500Z", .float ⟨9223372036854775808⟩]),
        ("note", .date leapSecond)]) := by
  have hcanonical : leapDocument.Canonical :=
    ⟨(by decide : Ranked.Ascending utf8 _), ⟨trivial, trivial, trivial⟩, trivial, trivial⟩
  have hfinite : leapDocument.firstNonFinite? = none := by decide
  have htext : leapSecond.text = "2016-12-31T23:59:60.500Z" := by decide +kernel
  have htagged : Timestamp.untag? "FLEXEL|2016-12-31T23:59:60.5Z" = some leapSecond := by
    decide +kernel
  obtain ⟨bytes, hencode, hdecode⟩ := (decode_encode ⟨false⟩ hcanonical).2.1 hfinite
  refine ⟨hcanonical, bytes, hencode, hdecode.trans ?_⟩
  rw [if_pos (by decide)]
  simp [leapDocument, readBack, fieldsReadBack, itemsReadBack, leafReadBack, reviveString, htext,
    htagged]

end Codec

end DocStore
