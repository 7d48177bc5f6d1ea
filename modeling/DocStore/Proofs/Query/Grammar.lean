/-
The grammar of filter expressions. A value is read if and only if it is a query of the grammar, and
otherwise the error is that of the first part that breaks the grammar: a mapping comes before its
fields and an array before its items, fields come in the byte order of their names, and what lies in
a part comes before the next part.
-/
import DocStore.Proofs.Query.Parse
import DocStore.Proofs.Series

namespace DocStore

/-! ## The grammar -/

mutual

/-- The value is a query: a mapping of clauses. -/
inductive IsQuery : Value → Prop
  | mapping {fields : List (String × Value)} (h : ∀ field ∈ fields, IsClause field.1 field.2) :
    IsQuery (.map fields)

/-- The field of a query is a list of queries that are joined, or asks for a literal or sets
operators under a plain name. -/
inductive IsClause : String → Value → Prop
  | join {name : String} (hname : name = "$and" ∨ name = "$or") {items : List Value}
    (h : ∀ item ∈ items, IsQuery item) : IsClause name (.array items)
  | literal {path : String} (hpath : isOperatorName path = false) {literal : Value}
    (h : literal.isOperatorSet = false) : IsClause path literal
  | operators {path : String} (hpath : isOperatorName path = false)
    {fields : List (String × Value)} (h : IsOperatorSet fields) : IsClause path (.map fields)

/-- The fields are operators, and there are some. -/
inductive IsOperatorSet : List (String × Value) → Prop
  | operators {fields : List (String × Value)} (hne : fields ≠ [])
    (h : ∀ field ∈ fields, IsOperator field.1 field.2) : IsOperatorSet fields

/-- The field is an operator with an operand that it takes. -/
inductive IsOperator : String → Value → Prop
  | any {name : String} (hname : operandKind? name = some .any) (operand : Value) :
    IsOperator name operand
  | array {name : String} (hname : operandKind? name = some .array) (items : List Value) :
    IsOperator name (.array items)
  | pair {name : String} (hname : operandKind? name = some .pair) {operand : Value}
    (h : operand.IsPair) : IsOperator name operand
  | elementValue {name : String} (hname : operandKind? name = some .test)
    {fields : List (String × Value)} (hfields : AreElementOperators fields)
    (h : IsOperatorSet fields) : IsOperator name (.map fields)
  | elementDocument {name : String} (hname : operandKind? name = some .test)
    {fields : List (String × Value)} (hfields : ¬ AreElementOperators fields)
    (h : IsQuery (.map fields)) : IsOperator name (.map fields)

end

/-! ## Places -/

/-- A step from a value to one of its parts. -/
inductive Step where
  | field (name : String)
  | item (index : Nat)

/-- Where a part of a value is: the steps that lead to it. -/
abbrev Place := List Step

/-- Fields come in the byte order of their names, and items in the order of their array. -/
inductive Step.Before : Step → Step → Prop
  | field {a b : String} (h : utf8 a < utf8 b) : Step.Before (.field a) (.field b)
  | item {i j : Nat} (h : i < j) : Step.Before (.item i) (.item j)

/-- Depth first: a part comes before the parts in it, and these come before the next part. -/
def Place.Before : Place → Place → Prop := List.Lex Step.Before

/-! ## What breaks the grammar -/

mutual

/-- The part of the value at this place breaks the grammar, the value taken as a query. -/
inductive QueryFault : Value → Place → QueryError → Prop
  | noMapping {v : Value} (h : v.asMap? = none) : QueryFault v [] (.notMapping v.kind)
  | clause {fields : List (String × Value)} {name : String} {operand : Value} {place : Place}
    {error : QueryError} (hfield : (name, operand) ∈ fields)
    (h : ClauseFault name operand place error) :
    QueryFault (.map fields) (.field name :: place) error

/-- The same for a value that is a field of a query. -/
inductive ClauseFault : String → Value → Place → QueryError → Prop
  | unknown {name : String} (hname : isOperatorName name = true)
    (hjoins : ¬ (name = "$and" ∨ name = "$or")) (operand : Value) :
    ClauseFault name operand [] (.unknownOperator name)
  | noArray {name : String} (hname : name = "$and" ∨ name = "$or") {operand : Value}
    (h : operand.asArray? = none) :
    ClauseFault name operand [] (.invalidOperand name "an array of expressions")
  | item {name : String} (hname : name = "$and" ∨ name = "$or") {items : List Value} {index : Nat}
    {item : Value} {place : Place} {error : QueryError} (hitem : items[index]? = some item)
    (h : QueryFault item place error) :
    ClauseFault name (.array items) (.item index :: place) error
  | mixed {path : String} (hpath : isOperatorName path = false) {fields : List (String × Value)}
    (hsome : HasOperatorName fields) (hnotAll : ¬ AreOperatorNames fields) :
    ClauseFault path (.map fields) [] (.mixedOperators path)
  | operator {path : String} (hpath : isOperatorName path = false)
    {fields : List (String × Value)} {name : String} {operand : Value} {place : Place}
    {error : QueryError} (hfield : (name, operand) ∈ fields) (hname : isOperatorName name = true)
    (h : OperatorFault name operand place error) :
    ClauseFault path (.map fields) (.field name :: place) error

/-- The same for a value that is a field of a set of operators. -/
inductive OperatorFault : String → Value → Place → QueryError → Prop
  | unknown {name : String} (hname : operandKind? name = none) (operand : Value) :
    OperatorFault name operand [] (.unknownOperator name)
  | noArray {name : String} (hname : operandKind? name = some .array) {operand : Value}
    (h : operand.asArray? = none) : OperatorFault name operand [] (.invalidOperand name "an array")
  | noPair {name : String} (hname : operandKind? name = some .pair) {operand : Value}
    (h : ¬ operand.IsPair) :
    OperatorFault name operand [] (.invalidOperand name "[divisor, remainder]")
  | noMapping {name : String} (hname : operandKind? name = some .test) {operand : Value}
    (h : operand.asMap? = none) :
    OperatorFault name operand [] (.invalidOperand name "a mapping")
  | elementValue {name : String} (hname : operandKind? name = some .test)
    {fields : List (String × Value)} (hfields : AreElementOperators fields) {inner : String}
    {operand : Value} {place : Place} {error : QueryError} (hfield : (inner, operand) ∈ fields)
    (h : OperatorFault inner operand place error) :
    OperatorFault name (.map fields) (.field inner :: place) error
  | elementDocument {name : String} (hname : operandKind? name = some .test)
    {fields : List (String × Value)} (hfields : ¬ AreElementOperators fields) {place : Place}
    {error : QueryError} (h : QueryFault (.map fields) place error) :
    OperatorFault name (.map fields) place error

end

theorem isOperatorName_of_operandKind? {name : String} {kind : OperandKind}
    (h : operandKind? name = some kind) : isOperatorName name = true := by
  unfold operandKind? at h
  split at h <;> first | rfl | cases h

theorem IsOperator.isOperatorName {name : String} {operand : Value} (h : IsOperator name operand) :
    isOperatorName name = true := by
  cases h <;> exact isOperatorName_of_operandKind? ‹_›

theorem IsOperatorSet.areOperatorNames {fields : List (String × Value)}
    (h : IsOperatorSet fields) : AreOperatorNames fields := by
  obtain ⟨_, h⟩ := h
  exact fun field hfield => (h field hfield).isOperatorName

theorem isOperatorSet_iff {fields : List (String × Value)} :
    IsOperatorSet fields ↔ fields ≠ [] ∧ ∀ field ∈ fields, IsOperator field.1 field.2 :=
  ⟨fun ⟨hne, h⟩ => ⟨hne, h⟩, fun ⟨hne, h⟩ => ⟨hne, h⟩⟩

section
variable {name : String}

theorem isClause_join_iff (hname : name = "$and" ∨ name = "$or") {operand : Value} :
    IsClause name operand ↔ ∃ items, operand = .array items ∧ ∀ item ∈ items, IsQuery item := by
  have hoperator := isOperatorName_of_join hname
  constructor
  · intro h
    cases h with
    | join _ h => exact ⟨_, rfl, h⟩
    | literal hplain => simp [hoperator] at hplain
    | operators hplain => simp [hoperator] at hplain
  · rintro ⟨items, rfl, h⟩
    exact .join hname h

theorem clauseFault_join_iff (hname : name = "$and" ∨ name = "$or") {items : List Value}
    {place : Place} {error : QueryError} : ClauseFault name (.array items) place error ↔
      ∃ i item rest, items[i]? = some item ∧ place = .item i :: rest ∧
        QueryFault item rest error := by
  constructor
  · intro h
    cases h with
    | unknown _ hnot => exact absurd hname hnot
    | noArray _ hnone => cases hnone
    | item _ hitem h => exact ⟨_, _, _, hitem, rfl, h⟩
  · rintro ⟨i, item, rest, hitem, rfl, h⟩
    exact .item hname hitem h

theorem isClause_plain_iff (hname : isOperatorName name = false) {operand : Value} :
    IsClause name operand ↔ operand.isOperatorSet = false ∨
      ∃ fields, operand = .map fields ∧ IsOperatorSet fields := by
  constructor
  · intro h
    cases h with
    | join hjoin => simp [isOperatorName_of_join hjoin] at hname
    | literal _ h => exact .inl h
    | operators _ h => exact .inr ⟨_, rfl, h⟩
  · rintro (h | ⟨fields, rfl, h⟩)
    · exact .literal hname h
    · exact .operators hname h

theorem clauseFault_operators_iff (hname : isOperatorName name = false)
    {fields : List (String × Value)} (hall : AreOperatorNames fields) {place : Place}
    {error : QueryError} : ClauseFault name (.map fields) place error ↔ ∃ inner operand rest,
      (inner, operand) ∈ fields ∧ place = .field inner :: rest ∧
        OperatorFault inner operand rest error := by
  constructor
  · intro h
    cases h with
    | unknown hname' => simp [hname] at hname'
    | noArray hjoin => exact absurd hjoin (not_join_of_plain hname)
    | mixed _ _ hnotAll => exact absurd hall hnotAll
    | operator _ hfield _ h => exact ⟨_, _, _, hfield, rfl, h⟩
  · rintro ⟨inner, operand, rest, hfield, rfl, h⟩
    exact .operator hname hfield (hall _ hfield) h

section
variable (hname : operandKind? name = some .test) {fields : List (String × Value)} {place : Place}
  {error : QueryError}
include hname

theorem isOperator_elementValue_iff (hfields : AreElementOperators fields) :
    IsOperator name (.map fields) ↔ IsOperatorSet fields := by
  refine ⟨fun h => ?_, .elementValue hname hfields⟩
  cases h with
  | any hname' => simp [hname] at hname'
  | pair hname' => simp [hname] at hname'
  | elementValue _ _ h => exact h
  | elementDocument _ hnot => exact absurd hfields hnot

theorem isOperator_elementDocument_iff (hfields : ¬ AreElementOperators fields) :
    IsOperator name (.map fields) ↔ IsQuery (.map fields) := by
  refine ⟨fun h => ?_, .elementDocument hname hfields⟩
  cases h with
  | any hname' => simp [hname] at hname'
  | pair hname' => simp [hname] at hname'
  | elementValue _ hall => exact absurd hall hfields
  | elementDocument _ _ h => exact h

theorem operatorFault_elementValue_iff (hfields : AreElementOperators fields) :
    OperatorFault name (.map fields) place error ↔ ∃ inner operand rest,
      (inner, operand) ∈ fields ∧ place = .field inner :: rest ∧
        OperatorFault inner operand rest error := by
  constructor
  · intro h
    cases h with
    | unknown hname' => simp [hname] at hname'
    | noArray hname' => simp [hname] at hname'
    | noPair hname' => simp [hname] at hname'
    | noMapping _ hnone => cases hnone
    | elementValue _ _ hfield h => exact ⟨_, _, _, hfield, rfl, h⟩
    | elementDocument _ hnot => exact absurd hfields hnot
  · rintro ⟨inner, operand, rest, hfield, rfl, h⟩
    exact .elementValue hname hfields hfield h

theorem operatorFault_elementDocument_iff (hfields : ¬ AreElementOperators fields) :
    OperatorFault name (.map fields) place error ↔ QueryFault (.map fields) place error := by
  refine ⟨fun h => ?_, .elementDocument hname hfields⟩
  cases h with
  | unknown hname' => simp [hname] at hname'
  | noArray hname' => simp [hname] at hname'
  | noPair hname' => simp [hname] at hname'
  | noMapping _ hnone => cases hnone
  | elementValue _ hall => exact absurd hall hfields
  | elementDocument _ _ h => exact h

end

end

/-- The fault is at this place, and any other one comes after it. -/
def IsFirst (Fault : Place → QueryError → Prop) (place : Place) (error : QueryError) : Prop :=
  Fault place error ∧ ∀ other error', Fault other error' →
    (other = place ∧ error' = error) ∨ place.Before other

theorem isFirst_nil {Fault : Place → QueryError → Prop} {error : QueryError} (h : Fault [] error)
    (honly : ∀ error', Fault [] error' → error' = error) : IsFirst Fault [] error := by
  refine ⟨h, fun other error' hother => ?_⟩
  cases other with
  | nil => exact .inl ⟨rfl, honly _ hother⟩
  | cons step rest => exact .inr .nil

instance : Std.Asymm Step.Before where
  asymm := by
    rintro _ _ (hab | hij) (hba | hji)
    · exact List.lt_asymm hab hba
    · exact Nat.lt_asymm hij hji

instance : Std.Asymm Place.Before := inferInstanceAs (Std.Asymm (List.Lex Step.Before))

/-- There is one first fault only. -/
theorem IsFirst.unique {Fault : Place → QueryError → Prop} {place place' : Place}
    {error error' : QueryError} (h : IsFirst Fault place error)
    (h' : IsFirst Fault place' error') : place' = place ∧ error' = error := by
  rcases h.2 _ _ h'.1 with heq | hbefore
  · exact heq
  · rcases h'.2 _ _ h.1 with ⟨rfl, rfl⟩ | hafter
    · exact ⟨rfl, rfl⟩
    · exact absurd hafter (asymm hbefore)

/-! ## Judgements -/

/-- Reading judges a part of a document: it succeeds if the part is correct, where it has no fault,
and otherwise fails with the first fault. -/
structure Judges {α : Type} (result : Except QueryError α) (correct : Prop)
    (Fault : Place → QueryError → Prop) : Prop where
  of_ok : ∀ {a}, result = .ok a → correct ∧ ∀ place error, ¬ Fault place error
  of_error : ∀ {error}, result = .error error → ¬ correct ∧ ∃ place, IsFirst Fault place error

namespace Judges

variable {α β : Type} {correct correct' : Prop} {Fault Fault' : Place → QueryError → Prop}

theorem ok {a : α} (h : correct) (hnone : ∀ place error, ¬ Fault place error) :
    Judges (.ok a) correct Fault :=
  ⟨fun _ => ⟨h, hnone⟩, nofun⟩

theorem error {error : QueryError} (h : ¬ correct) {place : Place}
    (hfirst : IsFirst Fault place error) :
    Judges (.error error : Except QueryError α) correct Fault := by
  refine ⟨nofun, ?_⟩
  rintro _ ⟨⟩
  exact ⟨h, place, hfirst⟩

theorem map {result : Except QueryError α} (h : Judges result correct Fault) (f : α → β) :
    Judges (f <$> result) correct Fault := by
  cases result with
  | error error =>
    obtain ⟨hwrong, place, hfirst⟩ := h.of_error rfl
    exact .error hwrong hfirst
  | ok a =>
    obtain ⟨hcorrect, hnone⟩ := h.of_ok rfl
    exact .ok hcorrect hnone

theorem congr {result : Except QueryError α} (h : Judges result correct Fault)
    (hcorrect : correct ↔ correct')
    (hfault : ∀ place error, Fault place error ↔ Fault' place error) :
    Judges result correct' Fault' := by
  obtain rfl : correct = correct' := propext hcorrect
  obtain rfl : Fault = Fault' :=
    funext fun place => funext fun error => propext (hfault place error)
  exact h

theorem isOk_iff {result : Except QueryError α} (h : Judges result correct Fault) :
    (∃ a, result = .ok a) ↔ correct := by
  cases result with
  | error error => simpa using (h.of_error rfl).1
  | ok a => simpa using (h.of_ok rfl).1

theorem eq_error_iff {result : Except QueryError α} (h : Judges result correct Fault)
    {error : QueryError} : result = .error error ↔ ∃ place, IsFirst Fault place error := by
  refine ⟨fun herror => (h.of_error herror).2, ?_⟩
  rintro ⟨place, hfirst⟩
  cases result with
  | error error' =>
    obtain ⟨_, _, hfirst'⟩ := h.of_error rfl
    rw [(hfirst.unique hfirst').2]
  | ok a => exact absurd hfirst.1 ((h.of_ok rfl).2 place error)

/-- Parts that are judged one after another, and are reached by steps in this order. -/
theorem mapM {ι : Type} {parts : List ι} {f : ι → Except QueryError α} {Correct : ι → Prop}
    {Fault : ι → Place → QueryError → Prop} (step : Nat → ι → Step)
    (hstep : ∀ i j a b, parts[i]? = some a → parts[j]? = some b → i < j →
      (step i a).Before (step j b))
    (h : ∀ part ∈ parts, Judges (f part) (Correct part) (Fault part)) :
    Judges (parts.mapM f) (∀ part ∈ parts, Correct part) fun place error =>
      ∃ i part rest, parts[i]? = some part ∧ place = step i part :: rest ∧ Fault part rest error := by
  constructor
  · intro results hresults
    have hok : ∀ part ∈ parts, Correct part ∧ ∀ place error, ¬ Fault part place error := by
      intro part hpart
      obtain ⟨a, ha⟩ := exists_of_mapM_eq_ok hresults hpart
      exact (h part hpart).of_ok ha
    refine ⟨fun part hpart => (hok part hpart).1, ?_⟩
    rintro _ error ⟨i, part, rest, hpart, rfl, hfault⟩
    exact (hok part (List.mem_of_getElem? hpart)).2 rest error hfault
  · intro error herror
    obtain ⟨before, first, after, rfl, hbefore, hfirst⟩ := exists_first_of_mapM_eq_error herror
    obtain ⟨hwrong, place, hfault, hleast⟩ := (h first (by simp)).of_error hfirst
    have hplace : (before ++ first :: after)[before.length]? = some first := by simp
    refine ⟨fun hall => hwrong (hall first (by simp)), step before.length first :: place,
      ⟨_, _, _, hplace, rfl, hfault⟩, ?_⟩
    rintro _ error' ⟨i, part, rest, hpart, rfl, hother⟩
    rcases Nat.lt_trichotomy i before.length with hlt | rfl | hgt
    · -- the parts before the first error have no fault
      rw [List.getElem?_append_left hlt] at hpart
      have hmem := List.mem_of_getElem? hpart
      obtain ⟨a, ha⟩ := hbefore part hmem
      exact absurd hother (((h part (List.mem_append_left _ hmem)).of_ok ha).2 rest error')
    · obtain rfl : first = part := Option.some.inj (hplace.symm.trans hpart)
      rcases hleast rest error' hother with ⟨rfl, rfl⟩ | hlater
      · exact .inl ⟨rfl, rfl⟩
      · exact .inr (.cons hlater)
    · exact .inr (.rel (hstep _ _ _ _ hplace hpart hgt))

theorem fields {fields : List (String × Value)} (hascend : Value.AscendingFields fields)
    {f : String → Value → Except QueryError α} {Correct : String → Value → Prop}
    {Fault : String → Value → Place → QueryError → Prop}
    (h : ∀ field ∈ fields, Judges (f field.1 field.2) (Correct field.1 field.2)
      (Fault field.1 field.2)) :
    Judges (fields.mapM fun field => f field.1 field.2)
      (∀ field ∈ fields, Correct field.1 field.2) fun place error => ∃ name operand rest,
        (name, operand) ∈ fields ∧ place = .field name :: rest ∧ Fault name operand rest error := by
  refine (mapM (fun _ field => .field field.1) ?_ h).congr Iff.rfl fun place error => ?_
  · intro i j a b ha hb hlt
    obtain ⟨hi, rfl⟩ := List.getElem?_eq_some_iff.1 ha
    obtain ⟨hj, rfl⟩ := List.getElem?_eq_some_iff.1 hb
    exact .field (List.pairwise_iff_getElem.1 hascend i j hi hj hlt)
  · constructor
    · rintro ⟨i, ⟨name, operand⟩, rest, hfield, rfl, hfault⟩
      exact ⟨name, operand, rest, List.mem_of_getElem? hfield, rfl, hfault⟩
    · rintro ⟨name, operand, rest, hfield, rfl, hfault⟩
      obtain ⟨i, hi⟩ := List.mem_iff_getElem?.1 hfield
      exact ⟨i, _, rest, hi, rfl, hfault⟩

theorem items {items : List Value} {f : Value → Except QueryError α} {Correct : Value → Prop}
    {Fault : Value → Place → QueryError → Prop}
    (h : ∀ item ∈ items, Judges (f item) (Correct item) (Fault item)) :
    Judges (items.mapM f) (∀ item ∈ items, Correct item) fun place error => ∃ i item rest,
      items[i]? = some item ∧ place = .item i :: rest ∧ Fault item rest error :=
  mapM (fun i _ => .item i) (fun _ _ _ _ _ _ hlt => .item hlt) h

end Judges

/-! ## Reading judges -/

/-- Reading judges the value, whether as a query, a clause or an operator. -/
structure Value.IsJudged (v : Value) : Prop where
  query : Judges (Expression.parse v) (IsQuery v) (QueryFault v)
  clause : ∀ name, Judges (Expression.parseClause name v) (IsClause name v) (ClauseFault name v)
  operator : ∀ name,
    Judges (Expression.parseOperator name v) (IsOperator name v) (OperatorFault name v)

namespace Expression

/-- The items of a clause that joins them. -/
theorem judges_joined {name : String} {items : List Value}
    (hitems : ∀ item ∈ items, item.IsJudged) (hname : name = "$and" ∨ name = "$or") :
    Judges (items.mapM parse) (IsClause name (.array items)) (ClauseFault name (.array items)) := by
  refine (Judges.items fun item hitem => (hitems item hitem).query).congr ?_
    fun place error => (clauseFault_join_iff hname).symm
  constructor
  · exact .join hname
  · intro h
    obtain ⟨_, ⟨⟩, h⟩ := (isClause_join_iff hname).1 h
    exact h

section
variable {v : Value} (hv : v.Canonical)
  (hitems : ∀ items, v = .array items → ∀ item ∈ items, item.IsJudged)
  (hfields : ∀ fields, v = .map fields → ∀ field ∈ fields, field.2.IsJudged)
include hv hfields

theorem judges_parse : Judges (parse v) (IsQuery v) (QueryFault v) := by
  cases hmap : v.asMap? with
  | none =>
    rw [parse_of_asMap?_eq_none hmap]
    refine .error ?_ (isFirst_nil (.noMapping hmap) ?_)
    · rintro ⟨⟩
      cases hmap
    · rintro _ ⟨⟩
      rfl
  | some fields =>
    obtain rfl := Value.eq_map_of_asMap? hmap
    rw [parse_map]
    have hclauses := Judges.fields hv.1 fun field hfield =>
      (hfields fields rfl field hfield).clause field.1
    refine (hclauses.map ofClauses).congr ⟨.mapping, ?_⟩ fun place error => ⟨?_, ?_⟩
    · rintro ⟨h⟩
      exact h
    · rintro ⟨name, operand, rest, hfield, rfl, hfault⟩
      exact .clause hfield hfault
    · intro hfault
      cases hfault with
      | noMapping hnone => cases hnone
      | clause hfield hfault => exact ⟨_, _, _, hfield, rfl, hfault⟩

theorem judges_parseOperator (name : String) :
    Judges (parseOperator name v) (IsOperator name v) (OperatorFault name v) := by
  have hreading := operatorReading name v
  generalize parseOperator name v = result at hreading
  cases hreading with
  | comparison hmake operand =>
    have hname := operandKind?_of_comparison hmake
    refine .ok (.any hname v) fun place error hfault => ?_
    -- here and below, another fault would be that of an operator that takes something else
    cases hfault <;> simp_all
  | membership hmake members =>
    have hname := operandKind?_of_membership hmake
    refine .ok (.array hname members) fun place error hfault => ?_
    cases hfault <;> simp_all [Value.asArray?]
  | noArray hmake hoperand =>
    have hname := operandKind?_of_membership hmake
    refine .error (fun h => ?_) (isFirst_nil (.noArray hname hoperand) fun error' hfault => ?_)
    · cases h <;> simp_all [Value.asArray?]
    · cases hfault <;> simp_all
  | remainder hmod hdivisor hremainder =>
    have hname : operandKind? name = some .pair := by rw [hmod]; rfl
    refine .ok (.pair hname ⟨_, _, rfl, hdivisor, hremainder⟩) fun place error hfault => ?_
    cases hfault <;> simp_all [Value.IsPair]
  | noPair hmod hoperand =>
    have hname : operandKind? name = some .pair := by rw [hmod]; rfl
    refine .error (fun h => ?_) (isFirst_nil (.noPair hname hoperand) fun error' hfault => ?_)
    · cases h <;> simp_all
    · cases hfault <;> simp_all
  | elementValue hmatch helement =>
    have hname : operandKind? name = some .test := by rw [hmatch]; rfl
    rw [areElementOperators_iff] at helement
    have hoperators := Judges.fields hv.1 fun field hfield =>
      (hfields _ rfl field hfield).operator field.1
    refine (hoperators.map _).congr ?_ fun place error =>
      (operatorFault_elementValue_iff hname helement).symm
    rw [isOperator_elementValue_iff hname helement, isOperatorSet_iff]
    exact (and_iff_right helement.1).symm
  | elementDocument hmatch helement =>
    have hname : operandKind? name = some .test := by rw [hmatch]; rfl
    rw [areElementOperators_eq_false_iff] at helement
    exact ((judges_parse hv hfields).map _).congr
      (isOperator_elementDocument_iff hname helement).symm fun place error =>
        (operatorFault_elementDocument_iff hname helement).symm
  | noMapping hmatch hoperand =>
    have hname : operandKind? name = some .test := by rw [hmatch]; rfl
    refine .error (fun h => ?_) (isFirst_nil (.noMapping hname hoperand) fun error' hfault => ?_)
    · cases h <;> simp_all [Value.asMap?]
    · cases hfault <;> simp_all [Value.asMap?]
  | unknown hname operand =>
    refine .error (fun h => ?_) (isFirst_nil (.unknown hname v) fun error' hfault => ?_)
    · cases h <;> simp_all
    · cases hfault <;> simp_all

include hitems

theorem judges_parseClause (name : String) :
    Judges (parseClause name v) (IsClause name v) (ClauseFault name v) := by
  have hreading := clauseReading name v
  generalize parseClause name v = result at hreading
  cases hreading with
  | all hname items => exact (judges_joined (hitems _ rfl) (.inl hname)).map _
  | any hname items => exact (judges_joined (hitems _ rfl) (.inr hname)).map _
  | noArray hname hoperand =>
    refine .error (fun h => ?_) (isFirst_nil (.noArray hname hoperand) fun error' hfault => ?_)
    · obtain ⟨items, rfl, -⟩ := (isClause_join_iff hname).1 h
      cases hoperand
    · cases hfault with
      | unknown _ hnot => exact absurd hname hnot
      | noArray => rfl
      | mixed hplain => simp [isOperatorName_of_join hname] at hplain
  | unknown hname hjoins operand =>
    refine .error (fun h => ?_) (isFirst_nil (.unknown hname hjoins v) fun error' hfault => ?_)
    · cases h with
      | join hjoin => exact hjoins hjoin
      | literal hplain => simp [hname] at hplain
      | operators hplain => simp [hname] at hplain
    · cases hfault with
      | unknown => rfl
      | noArray hjoin => exact absurd hjoin hjoins
      | mixed hplain => simp [hname] at hplain
  | equals hname hliteral =>
    refine .ok (.literal hname hliteral) fun place error hfault => ?_
    cases hfault with
    | unknown hname' => simp [hname] at hname'
    | noArray hjoin => exact not_join_of_plain hname hjoin
    | item hjoin => exact not_join_of_plain hname hjoin
    | mixed _ hsome => simp [Value.isOperatorSet_map_iff.2 hsome] at hliteral
    | operator _ hfield hname' =>
      have hsome : HasOperatorName _ := ⟨_, hfield, hname'⟩
      simp [Value.isOperatorSet_map_iff.2 hsome] at hliteral
  | operators hname hne hall =>
    have hset := Value.isOperatorSet_map_iff.2 (hall.hasOperatorName hne)
    have hoperators := Judges.fields hv.1 fun field hfield =>
      (hfields _ rfl field hfield).operator field.1
    refine (hoperators.map _).congr ?_ fun place error =>
      (clauseFault_operators_iff hname hall).symm
    constructor
    · exact fun h => .operators hname (.operators hne h)
    · intro h
      rcases (isClause_plain_iff hname).1 h with h | ⟨_, ⟨⟩, ⟨_, h⟩⟩
      · simp [hset] at h
      · exact h
  | mixed hname hsome hnotAll =>
    have hset := Value.isOperatorSet_map_iff.2 hsome
    refine .error (fun h => ?_)
      (isFirst_nil (.mixed hname hsome hnotAll) fun error' hfault => ?_)
    · rcases (isClause_plain_iff hname).1 h with h | ⟨_, ⟨⟩, h⟩
      · simp [hset] at h
      · exact hnotAll h.areOperatorNames
    · cases hfault with
      | unknown hname' => simp [hname] at hname'
      | noArray hjoin => exact absurd hjoin (not_join_of_plain hname)
      | mixed => rfl

end

theorem isJudged {v : Value} (hv : v.Canonical) : v.IsJudged :=
  Value.Canonical.of_parts (fun _ hv hitems hfields =>
    ⟨judges_parse hv hfields, judges_parseClause hv hitems hfields,
      judges_parseOperator hv hfields⟩) hv

/-- The queries of the grammar are the values that are read, and the error of any other value is
that of its first part that breaks the grammar. -/
theorem parse_accepts_grammar {q : Value} (hq : q.Canonical) :
    ((∃ expression, parse q = .ok expression) ↔ IsQuery q) ∧
    ∀ error, parse q = .error error ↔ ∃ place, IsFirst (QueryFault q) place error :=
  ⟨(isJudged hq).query.isOk_iff, fun _ => (isJudged hq).query.eq_error_iff⟩

/-- An operator that is unknown, in a set that also has a field without the name of an operator. -/
def mixedSizes : Value :=
  .map [("count", .map [("$foo", .int 1), ("size", .int 2)]), ("size", .int 3)]

/-- It is no query: the mixed names are found first, before the unknown operator. -/
theorem mixedSizes_is_no_query : mixedSizes.Canonical ∧ ¬ IsQuery mixedSizes ∧
    IsFirst (QueryFault mixedSizes) [.field "count"] (.mixedOperators "count") ∧
    QueryFault mixedSizes [.field "count", .field "$foo"] (.unknownOperator "$foo") := by
  have hcanonical : mixedSizes.Canonical := by
    simp only [mixedSizes, Value.Canonical, Value.CanonicalFields, Value.AscendingFields, and_true]
    decide
  have hparse : parse mixedSizes = .error (.mixedOperators "count") := rfl
  obtain ⟨hok, herror⟩ := parse_accepts_grammar hcanonical
  refine ⟨hcanonical, fun h => ?_, ?_, ?_⟩
  · obtain ⟨expression, hok⟩ := hok.2 h
    rw [hparse] at hok
    cases hok
  · obtain ⟨place, hfirst⟩ := (herror _).1 hparse
    have hmixed : QueryFault mixedSizes [.field "count"] (.mixedOperators "count") :=
      .clause (.head _) (.mixed (by decide) ⟨_, .head _, by decide⟩ fun hall =>
        absurd (hall ("size", .int 2) (.tail _ (.head _))) (by decide))
    rcases hfirst.2 _ _ hmixed with ⟨rfl, -⟩ | hbefore
    · exact hfirst
    · -- only the first field comes before, and there is none before that of this name
      have hfault := hfirst.1
      cases hbefore with
      | nil => cases hfault
      | cons hnil => cases hnil
      | rel hstep =>
        cases hfault with
        | clause hfield =>
          obtain ⟨hlt⟩ := hstep
          simp only [List.mem_cons, Prod.mk.injEq, List.not_mem_nil, or_false] at hfield
          rcases hfield with ⟨rfl, -⟩ | ⟨rfl, -⟩ <;> exact absurd hlt (by decide)
  · exact .clause (.head _) (.operator (by decide) (.head _) (by decide) (.unknown (by decide) _))

end Expression

end DocStore
