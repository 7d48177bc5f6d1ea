/-
How filter expressions are read. A mapping is read field by field and an array item by item, so the
first part that cannot be read is the error of the whole. Every clause and every operator is read in
one of a few ways, which its name and the shape of its operand decide.
-/
import DocStore.Query.Parse
import Mathlib.Tactic

namespace DocStore

/-! ## Values by their parts -/

namespace Value

/-- The property holds of a value if it holds of its items and of the values of its fields. -/
def PassesUp (motive : Value → Prop) : Prop :=
  ∀ v, (∀ items, v = array items → ∀ item ∈ items, motive item) →
    (∀ fields, v = map fields → ∀ field ∈ fields, motive field.2) → motive v

mutual

theorem PassesUp.value {motive : Value → Prop} (h : PassesUp motive) (v : Value) : motive v := by
  match v with
  | array items =>
    refine h _ ?_ nofun
    rintro _ ⟨⟩
    exact h.items items
  | map fields =>
    refine h _ nofun ?_
    rintro _ ⟨⟩
    exact h.fields fields
  | null => exact h _ nofun nofun
  | bool b => exact h _ nofun nofun
  | int i => exact h _ nofun nofun
  | float x => exact h _ nofun nofun
  | string s => exact h _ nofun nofun
  | date t => exact h _ nofun nofun

theorem PassesUp.items {motive : Value → Prop} (h : PassesUp motive) (items : List Value) :
    ∀ item ∈ items, motive item := by
  match items with
  | [] => exact nofun
  | item :: rest => exact List.forall_mem_cons.2 ⟨h.value item, h.items rest⟩

theorem PassesUp.fields {motive : Value → Prop} (h : PassesUp motive)
    (fields : List (String × Value)) : ∀ field ∈ fields, motive field.2 := by
  match fields with
  | [] => exact nofun
  | (name, value) :: rest => exact List.forall_mem_cons.2 ⟨h.value value, h.fields rest⟩

end

/-- The same over the canonical values. -/
theorem Canonical.of_parts {motive : Value → Prop} (h : ∀ v : Value, v.Canonical →
      (∀ items, v = array items → ∀ item ∈ items, motive item) →
      (∀ fields, v = map fields → ∀ field ∈ fields, motive field.2) → motive v)
    {v : Value} (hv : v.Canonical) : motive v := by
  have hstep : PassesUp fun v => v.Canonical → motive v := by
    refine fun v hitems hfields hv => h v hv ?_ ?_
    · rintro items rfl item hitem
      exact hitems items rfl item hitem (canonicalItems_iff.1 hv item hitem)
    · rintro fields rfl field hfield
      exact hfields fields rfl field hfield (canonicalFields_iff.1 hv.2 field hfield)
  exact hstep.value v hv

theorem eq_array_of_asArray? {v : Value} {items : List Value} (h : v.asArray? = some items) :
    v = .array items := by
  cases v <;> cases h
  rfl

theorem eq_map_of_asMap? {v : Value} {fields : List (String × Value)}
    (h : v.asMap? = some fields) : v = .map fields := by
  cases v <;> cases h
  rfl

/-- The value is an array of two numbers. -/
def IsPair (v : Value) : Prop :=
  ∃ divisor remainder, v = .array [divisor, remainder] ∧ divisor.isNumber = true ∧
    remainder.isNumber = true

end Value

/-! ## Names -/

/-- Some field has the name of an operator. -/
def HasOperatorName (fields : List (String × Value)) : Prop :=
  ∃ field ∈ fields, isOperatorName field.1 = true

/-- All fields have names of operators. -/
def AreOperatorNames (fields : List (String × Value)) : Prop :=
  ∀ field ∈ fields, isOperatorName field.1 = true

theorem isOperatorName_of_join {name : String} (h : name = "$and" ∨ name = "$or") :
    isOperatorName name = true := by
  rcases h with rfl | rfl <;> decide

theorem not_join_of_plain {name : String} (h : isOperatorName name = false) :
    ¬ (name = "$and" ∨ name = "$or") := by
  intro hjoin
  rw [isOperatorName_of_join hjoin] at h
  cases h

theorem Value.isOperatorSet_map_iff {fields : List (String × Value)} :
    (Value.map fields).isOperatorSet = true ↔ HasOperatorName fields := List.any_eq_true

theorem AreOperatorNames.hasOperatorName {fields : List (String × Value)}
    (h : AreOperatorNames fields) (hne : fields ≠ []) : HasOperatorName fields := by
  obtain ⟨field, rest, rfl⟩ := List.exists_cons_of_ne_nil hne
  exact ⟨field, List.mem_cons_self, h field List.mem_cons_self⟩

/-- The fields are operators on an element: there are some, all have names of operators, and none
joins expressions. -/
def AreElementOperators (fields : List (String × Value)) : Prop :=
  fields ≠ [] ∧ AreOperatorNames fields ∧ ∀ field ∈ fields, field.1 ≠ "$and" ∧ field.1 ≠ "$or"

theorem areElementOperators_iff {fields : List (String × Value)} :
    areElementOperators fields = true ↔ AreElementOperators fields := by
  simp only [areElementOperators, AreElementOperators, AreOperatorNames, Bool.and_eq_true,
    Bool.not_eq_true', List.isEmpty_eq_false_iff, List.all_eq_true, bne_iff_ne]
  grind

theorem areElementOperators_eq_false_iff {fields : List (String × Value)} :
    areElementOperators fields = false ↔ ¬ AreElementOperators fields := by
  rw [← areElementOperators_iff, Bool.not_eq_true]

/-- What an operator takes as its operand. -/
inductive OperandKind where
  | any
  | array
  /-- An array of two numbers. -/
  | pair
  /-- A mapping, of operators on an element or of clauses. -/
  | test
  deriving DecidableEq

/-- What the operator of a name takes; `none` if there is no such operator. -/
def operandKind? : String → Option OperandKind
  | "$lt" | "$lte" | "$gt" | "$gte" | "$ne" => some .any
  | "$in" | "$nin" | "$all" => some .array
  | "$mod" => some .pair
  | "$elemMatch" => some .test
  | _ => none

namespace Expression

/-! ## Part after part -/

theorem parseClauses_eq (fields : List (String × Value)) :
    parseClauses fields = fields.mapM fun field => parseClause field.1 field.2 := by
  induction fields with
  | nil => rfl
  | cons field rest ih =>
    rw [List.mapM_cons, ← ih]
    rfl

theorem parseOperators_eq (fields : List (String × Value)) :
    parseOperators fields = fields.mapM fun field => parseOperator field.1 field.2 := by
  induction fields with
  | nil => rfl
  | cons field rest ih =>
    rw [List.mapM_cons, ← ih]
    rfl

theorem parseList_eq (items : List Value) : parseList items = items.mapM parse := by
  induction items with
  | nil => rfl
  | cons item rest ih =>
    rw [List.mapM_cons, ← ih]
    rfl

theorem parse_map (fields : List (String × Value)) : parse (.map fields) =
    ofClauses <$> fields.mapM fun field => parseClause field.1 field.2 := by
  rw [parse, parseClauses_eq]
  rfl

/-- One clause stands for itself. -/
theorem parse_single (name : String) (operand : Value) :
    parse (.map [(name, operand)]) = parseClause name operand := by
  rw [parse_map, List.mapM_cons]
  cases parseClause name operand <;> rfl

theorem parse_of_asMap?_eq_none {v : Value} (h : v.asMap? = none) :
    parse v = .error (.notMapping v.kind) := by
  cases v <;> first | rfl | cases h

/-! ## Clauses -/

/-- The ways in which a clause is read. -/
inductive ClauseReading (name : String) : Value → Except QueryError Expression → Prop
  | all (hname : name = "$and") (items : List Value) :
    ClauseReading name (.array items) (Expression.all <$> items.mapM parse)
  | any (hname : name = "$or") (items : List Value) :
    ClauseReading name (.array items) (Expression.any <$> items.mapM parse)
  | noArray (hname : name = "$and" ∨ name = "$or") {operand : Value}
    (hoperand : operand.asArray? = none) :
    ClauseReading name operand (.error (.invalidOperand name "an array of expressions"))
  | unknown (hname : isOperatorName name = true) (hjoins : ¬ (name = "$and" ∨ name = "$or"))
    (operand : Value) : ClauseReading name operand (.error (.unknownOperator name))
  | equals (hname : isOperatorName name = false) {literal : Value}
    (hliteral : literal.isOperatorSet = false) :
    ClauseReading name literal (.ok (.field name (.equals literal)))
  | operators (hname : isOperatorName name = false) {fields : List (String × Value)}
    (hne : fields ≠ []) (hfields : AreOperatorNames fields) :
    ClauseReading name (.map fields) ((fun operators => .field name (.operators operators)) <$>
      fields.mapM fun field => parseOperator field.1 field.2)
  | mixed (hname : isOperatorName name = false) {fields : List (String × Value)}
    (hsome : HasOperatorName fields) (hnotAll : ¬ AreOperatorNames fields) :
    ClauseReading name (.map fields) (.error (.mixedOperators name))

theorem parseClause_all (items : List Value) :
    parseClause "$and" (.array items) = Expression.all <$> items.mapM parse := by
  rw [← parseList_eq]
  rfl

theorem parseClause_any (items : List Value) :
    parseClause "$or" (.array items) = Expression.any <$> items.mapM parse := by
  rw [← parseList_eq]
  rfl

section
variable {name : String}

theorem parseClause_equals (hname : isOperatorName name = false) {literal : Value}
    (hliteral : literal.isOperatorSet = false) :
    parseClause name literal = .ok (.field name (.equals literal)) := by
  obtain ⟨hand, hor⟩ := not_or.1 (not_join_of_plain hname)
  cases literal with
  | map fields =>
    have hnone : ¬ (fields.any fun field => isOperatorName field.1) = true := by
      simpa [Value.isOperatorSet] using hliteral
    simp only [parseClause, if_neg hand, if_neg hor, hname, if_neg hnone]
    rfl
  | _ =>
    simp only [parseClause, if_neg hand, if_neg hor, hname]
    rfl

theorem parseClause_operators (hname : isOperatorName name = false)
    {fields : List (String × Value)} (hne : fields ≠ []) (hfields : AreOperatorNames fields) :
    parseClause name (.map fields) = (fun operators => .field name (.operators operators)) <$>
      fields.mapM fun field => parseOperator field.1 field.2 := by
  obtain ⟨hand, hor⟩ := not_or.1 (not_join_of_plain hname)
  have hsome := Value.isOperatorSet_map_iff.2 (hfields.hasOperatorName hne)
  rw [← parseOperators_eq]
  simp only [parseClause, if_neg hand, if_neg hor, hname, if_pos (List.all_eq_true.2 hfields)]
  exact if_pos hsome

theorem parseClause_mixed (hname : isOperatorName name = false) {fields : List (String × Value)}
    (hsome : HasOperatorName fields) (hnotAll : ¬ AreOperatorNames fields) :
    parseClause name (.map fields) = .error (.mixedOperators name) := by
  obtain ⟨hand, hor⟩ := not_or.1 (not_join_of_plain hname)
  simp only [parseClause, if_neg hand, if_neg hor, hname,
    if_neg (fun hall => hnotAll (List.all_eq_true.1 hall))]
  exact if_pos (Value.isOperatorSet_map_iff.2 hsome)

theorem parseClause_noArray (hname : name = "$and" ∨ name = "$or") {operand : Value}
    (h : operand.asArray? = none) :
    parseClause name operand = .error (.invalidOperand name "an array of expressions") := by
  rcases hname with rfl | rfl <;> cases operand <;> first | rfl | cases h

theorem parseClause_unknown (hname : isOperatorName name = true)
    (hjoins : ¬ (name = "$and" ∨ name = "$or")) (operand : Value) :
    parseClause name operand = .error (.unknownOperator name) := by
  obtain ⟨hand, hor⟩ := not_or.1 hjoins
  cases operand <;> simp only [parseClause, if_neg hand, if_neg hor, if_pos hname] <;> rfl

theorem clauseReading (name : String) (operand : Value) :
    ClauseReading name operand (parseClause name operand) := by
  by_cases hjoins : name = "$and" ∨ name = "$or"
  · cases hoperand : operand.asArray? with
    | none =>
      rw [parseClause_noArray hjoins hoperand]
      exact .noArray hjoins hoperand
    | some items =>
      obtain rfl := Value.eq_array_of_asArray? hoperand
      rcases hjoins with rfl | rfl
      · rw [parseClause_all]
        exact .all rfl items
      · rw [parseClause_any]
        exact .any rfl items
  · cases hname : isOperatorName name with
    | true =>
      rw [parseClause_unknown hname hjoins]
      exact .unknown hname hjoins operand
    | false =>
      cases hset : operand.isOperatorSet with
      | false =>
        rw [parseClause_equals hname hset]
        exact .equals hname hset
      | true =>
        obtain ⟨fields, rfl⟩ : ∃ fields, operand = .map fields := by
          cases operand <;> first | exact ⟨_, rfl⟩ | cases hset
        have hsome := Value.isOperatorSet_map_iff.1 hset
        by_cases hall : AreOperatorNames fields
        · have hne : fields ≠ [] := by
            rintro rfl
            cases hset
          rw [parseClause_operators hname hne hall]
          exact .operators hname hne hall
        · rw [parseClause_mixed hname hsome hall]
          exact .mixed hname hsome hall

end

/-! ## Operators -/

/-- The operators that take any operand. -/
def comparisons : List (String × (Value → Operator)) :=
  [("$lt", .less), ("$lte", .atMost), ("$gt", .greater), ("$gte", .atLeast), ("$ne", .notEqual)]

/-- The operators that take an array. -/
def memberships : List (String × (List Value → Operator)) :=
  [("$in", .oneOf), ("$nin", .noneOf), ("$all", .hasAll)]

theorem operandKind?_of_comparison {name : String} {make : Value → Operator}
    (h : (name, make) ∈ comparisons) : operandKind? name = some .any := by
  have hnames : ∀ name ∈ comparisons.map Prod.fst, operandKind? name = some .any := by decide
  exact hnames name (List.mem_map_of_mem (f := Prod.fst) h)

theorem operandKind?_of_membership {name : String} {make : List Value → Operator}
    (h : (name, make) ∈ memberships) : operandKind? name = some .array := by
  have hnames : ∀ name ∈ memberships.map Prod.fst, operandKind? name = some .array := by decide
  exact hnames name (List.mem_map_of_mem (f := Prod.fst) h)

/-- The ways in which an operator is read. -/
inductive OperatorReading (name : String) : Value → Except QueryError Operator → Prop
  | comparison {make : Value → Operator} (hname : (name, make) ∈ comparisons) (operand : Value) :
    OperatorReading name operand (.ok (make operand))
  | membership {make : List Value → Operator} (hname : (name, make) ∈ memberships)
    (members : List Value) : OperatorReading name (.array members) (.ok (make members))
  | noArray {make : List Value → Operator} (hname : (name, make) ∈ memberships) {operand : Value}
    (hoperand : operand.asArray? = none) :
    OperatorReading name operand (.error (.invalidOperand name "an array"))
  | remainder (hname : name = "$mod") {divisor remainder : Value}
    (hdivisor : divisor.isNumber = true) (hremainder : remainder.isNumber = true) :
    OperatorReading name (.array [divisor, remainder]) (.ok (.remainder divisor remainder))
  | noPair (hname : name = "$mod") {operand : Value} (hoperand : ¬ operand.IsPair) :
    OperatorReading name operand (.error (.invalidOperand name "[divisor, remainder]"))
  | elementValue (hname : name = "$elemMatch") {fields : List (String × Value)}
    (hfields : areElementOperators fields = true) :
    OperatorReading name (.map fields) ((fun operators => .element (.value operators)) <$>
      fields.mapM fun field => parseOperator field.1 field.2)
  | elementDocument (hname : name = "$elemMatch") {fields : List (String × Value)}
    (hfields : areElementOperators fields = false) :
    OperatorReading name (.map fields) ((fun expression => .element (.document expression)) <$>
      parse (.map fields))
  | noMapping (hname : name = "$elemMatch") {operand : Value} (hoperand : operand.asMap? = none) :
    OperatorReading name operand (.error (.invalidOperand name "a mapping"))
  | unknown (hname : operandKind? name = none) (operand : Value) :
    OperatorReading name operand (.error (.unknownOperator name))

theorem parseMembers_of_asArray?_eq_none {operand : Value} (h : operand.asArray? = none)
    (name : String) : parseMembers name operand = .error (.invalidOperand name "an array") := by
  cases operand <;> first | rfl | cases h

theorem parseOperator_remainder {divisor remainder : Value} (hdivisor : divisor.isNumber = true)
    (hremainder : remainder.isNumber = true) :
    parseOperator "$mod" (.array [divisor, remainder]) = .ok (.remainder divisor remainder) := by
  simp only [parseOperator, hdivisor, hremainder]
  rfl

theorem parseOperator_noPair {operand : Value} (h : ¬ operand.IsPair) :
    parseOperator "$mod" operand = .error (.invalidOperand "$mod" "[divisor, remainder]") := by
  cases operand with
  | array items =>
    rcases items with _ | ⟨divisor, _ | ⟨remainder, _ | _⟩⟩ <;> try rfl
    have hnumbers : ¬ (divisor.isNumber && remainder.isNumber) = true := fun hboth =>
      h ⟨_, _, rfl, Bool.and_eq_true_iff.1 hboth⟩
    exact if_neg hnumbers
  | _ => rfl

theorem parseOperator_elementValue {fields : List (String × Value)}
    (h : areElementOperators fields = true) : parseOperator "$elemMatch" (.map fields) =
      (fun operators => .element (.value operators)) <$>
        fields.mapM fun field => parseOperator field.1 field.2 := by
  rw [← parseOperators_eq, parseOperator, if_pos h]
  rfl

theorem parseOperator_elementDocument {fields : List (String × Value)}
    (h : areElementOperators fields = false) : parseOperator "$elemMatch" (.map fields) =
      (fun expression => .element (.document expression)) <$> parse (.map fields) := by
  rw [parseOperator, if_neg (by simp [h]), parse]
  cases parseClauses fields <;> rfl

theorem parseOperator_noMapping {operand : Value} (h : operand.asMap? = none) :
    parseOperator "$elemMatch" operand = .error (.invalidOperand "$elemMatch" "a mapping") := by
  cases operand <;> first | rfl | cases h

theorem operatorReading (name : String) (operand : Value) :
    OperatorReading name operand (parseOperator name operand) := by
  have hmembers : ∀ (name : String) (make : List Value → Operator), (name, make) ∈ memberships →
      OperatorReading name operand (do return make (← parseMembers name operand)) := by
    intro name make hname
    cases hoperand : operand.asArray? with
    | none =>
      rw [parseMembers_of_asArray?_eq_none hoperand]
      exact .noArray hname hoperand
    | some items =>
      obtain rfl := Value.eq_array_of_asArray? hoperand
      exact .membership hname items
  by_cases hmod : name = "$mod"
  · subst hmod
    by_cases hpair : operand.IsPair
    · obtain ⟨divisor, remainder, rfl, hdivisor, hremainder⟩ := hpair
      rw [parseOperator_remainder hdivisor hremainder]
      exact .remainder rfl hdivisor hremainder
    · rw [parseOperator_noPair hpair]
      exact .noPair rfl hpair
  by_cases helement : name = "$elemMatch"
  · subst helement
    cases hoperand : operand.asMap? with
    | none =>
      rw [parseOperator_noMapping hoperand]
      exact .noMapping rfl hoperand
    | some fields =>
      obtain rfl := Value.eq_map_of_asMap? hoperand
      cases hfields : areElementOperators fields with
      | true =>
        rw [parseOperator_elementValue hfields]
        exact .elementValue rfl hfields
      | false =>
        rw [parseOperator_elementDocument hfields]
        exact .elementDocument rfl hfields
  unfold parseOperator
  split
  · exact .comparison (by simp [comparisons]) operand
  · exact .comparison (by simp [comparisons]) operand
  · exact .comparison (by simp [comparisons]) operand
  · exact .comparison (by simp [comparisons]) operand
  · exact .comparison (by simp [comparisons]) operand
  · exact hmembers _ _ (by simp [memberships])
  · exact hmembers _ _ (by simp [memberships])
  · exact hmembers _ _ (by simp [memberships])
  · exact absurd rfl hmod
  · exact absurd rfl helement
  · refine .unknown ?_ operand
    unfold operandKind?
    split <;> first | contradiction | rfl

end Expression

end DocStore
