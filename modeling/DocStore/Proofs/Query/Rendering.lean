/-
Filter expressions in writing. Every expression is written as a document, a connective as a mapping
with the list of its children and a condition as a mapping with what is asked of its field. What is
read is always well-formed: its fields have plain names, no literal looks like a set of operators,
and the operators of a set are there, each once, in the order of their names. What is well-formed is
read from its writing as it was, so that the expressions that can be read are the well-formed ones.
-/
import DocStore.Proofs.Query.Parse
import DocStore.Proofs.Series

namespace DocStore

/-! ## Writing -/

mutual

/-- The document that an expression is written as. -/
def Expression.render : Expression → Value
  | .all children => .map [("$and", .array (Expression.renderAll children))]
  | .any children => .map [("$or", .array (Expression.renderAll children))]
  | .field path condition => .map [(path, condition.render)]

def Expression.renderAll : List Expression → List Value
  | [] => []
  | child :: rest => child.render :: Expression.renderAll rest

/-- What stands under the path of a condition. -/
def Condition.render : Condition → Value
  | .equals literal => literal
  | .operators operators => .map (Operator.renderAll operators)

def Operator.renderAll : List Operator → List (String × Value)
  | [] => []
  | operator :: rest => (operator.name, operator.operand) :: Operator.renderAll rest

/-- What stands under the name of an operator. -/
def Operator.operand : Operator → Value
  | .less limit | .atMost limit | .greater limit | .atLeast limit => limit
  | .notEqual other => other
  | .oneOf members | .noneOf members | .hasAll members => .array members
  | .remainder divisor remainder => .array [divisor, remainder]
  | .element test => test.render

def ElementTest.render : ElementTest → Value
  | .document expression => expression.render
  | .value operators => .map (Operator.renderAll operators)

end

/-! ## Well-formed expressions -/

/-- Each operator has a name above those before it, in the order of bytes. -/
def Operator.NamesAscend (operators : List Operator) : Prop :=
  operators.Pairwise fun a b => utf8 a.name < utf8 b.name

mutual

/-- At every level paths are no operator names, literals no sets of operators, and sets of operators
ordered and not empty, and remainders are asked of numbers. -/
inductive Expression.WellFormed : Expression → Prop
  | all {children : List Expression} (h : ∀ child ∈ children, Expression.WellFormed child) :
    Expression.WellFormed (.all children)
  | any {children : List Expression} (h : ∀ child ∈ children, Expression.WellFormed child) :
    Expression.WellFormed (.any children)
  | field {path : String} {condition : Condition} (hpath : isOperatorName path = false)
    (h : Condition.WellFormed condition) : Expression.WellFormed (.field path condition)

inductive Condition.WellFormed : Condition → Prop
  | equals {literal : Value} (h : literal.isOperatorSet = false) :
    Condition.WellFormed (.equals literal)
  | operators {operators : List Operator} (hne : operators ≠ [])
    (hnames : Operator.NamesAscend operators)
    (h : ∀ operator ∈ operators, Operator.WellFormed operator) :
    Condition.WellFormed (.operators operators)

inductive Operator.WellFormed : Operator → Prop
  | less (limit : Value) : Operator.WellFormed (.less limit)
  | atMost (limit : Value) : Operator.WellFormed (.atMost limit)
  | greater (limit : Value) : Operator.WellFormed (.greater limit)
  | atLeast (limit : Value) : Operator.WellFormed (.atLeast limit)
  | notEqual (other : Value) : Operator.WellFormed (.notEqual other)
  | oneOf (members : List Value) : Operator.WellFormed (.oneOf members)
  | noneOf (members : List Value) : Operator.WellFormed (.noneOf members)
  | hasAll (members : List Value) : Operator.WellFormed (.hasAll members)
  | remainder {divisor remainder : Value} (hdivisor : divisor.isNumber = true)
    (hremainder : remainder.isNumber = true) : Operator.WellFormed (.remainder divisor remainder)
  | element {test : ElementTest} (h : ElementTest.WellFormed test) :
    Operator.WellFormed (.element test)

inductive ElementTest.WellFormed : ElementTest → Prop
  | document {expression : Expression} (h : Expression.WellFormed expression) :
    ElementTest.WellFormed (.document expression)
  | value {operators : List Operator} (hne : operators ≠ [])
    (hnames : Operator.NamesAscend operators)
    (h : ∀ operator ∈ operators, Operator.WellFormed operator) :
    ElementTest.WellFormed (.value operators)

end

mutual

/-- The literals of the expression are canonical, at every level. -/
inductive Expression.Canonical : Expression → Prop
  | all {children : List Expression} (h : ∀ child ∈ children, Expression.Canonical child) :
    Expression.Canonical (.all children)
  | any {children : List Expression} (h : ∀ child ∈ children, Expression.Canonical child) :
    Expression.Canonical (.any children)
  | field {path : String} {condition : Condition} (h : Condition.Canonical condition) :
    Expression.Canonical (.field path condition)

inductive Condition.Canonical : Condition → Prop
  | equals {literal : Value} (h : literal.Canonical) : Condition.Canonical (.equals literal)
  | operators {operators : List Operator}
    (h : ∀ operator ∈ operators, Operator.Canonical operator) :
    Condition.Canonical (.operators operators)

inductive Operator.Canonical : Operator → Prop
  | literal {operator : Operator} (hliteral : ∀ test, operator ≠ .element test)
    (h : operator.operand.Canonical) : Operator.Canonical operator
  | element {test : ElementTest} (h : ElementTest.Canonical test) :
    Operator.Canonical (.element test)

inductive ElementTest.Canonical : ElementTest → Prop
  | document {expression : Expression} (h : Expression.Canonical expression) :
    ElementTest.Canonical (.document expression)
  | value {operators : List Operator}
    (h : ∀ operator ∈ operators, Operator.Canonical operator) :
    ElementTest.Canonical (.value operators)

end

/-! ## Reading what is written -/

namespace Operator

/-- The name of an operator is no plain name, and joins no expressions. -/
theorem name_spec (operator : Operator) : isOperatorName operator.name = true ∧
    operator.name ≠ "$and" ∧ operator.name ≠ "$or" := by
  cases operator <;> rw [name] <;> decide

theorem renderAll_eq (operators : List Operator) :
    renderAll operators = operators.map fun operator => (operator.name, operator.operand) := by
  induction operators with
  | nil => rfl
  | cons operator rest ih => rw [renderAll, ih, List.map_cons]

theorem areOperatorNames_renderAll (operators : List Operator) :
    AreOperatorNames (renderAll operators) := by
  rw [renderAll_eq, AreOperatorNames, List.forall_mem_map]
  exact fun operator _ => operator.name_spec.1

theorem renderAll_ne_nil {operators : List Operator} (h : operators ≠ []) :
    renderAll operators ≠ [] := by
  rwa [renderAll_eq, ne_eq, List.map_eq_nil_iff]

theorem areElementOperators_renderAll {operators : List Operator} (h : operators ≠ []) :
    areElementOperators (renderAll operators) = true := by
  refine areElementOperators_iff.2 ⟨renderAll_ne_nil h, areOperatorNames_renderAll _, ?_⟩
  rw [renderAll_eq, List.forall_mem_map]
  exact fun operator _ => operator.name_spec.2

theorem mapM_renderAll {operators : List Operator} (h : ∀ operator ∈ operators,
    Expression.parseOperator operator.name operator.operand = .ok operator) :
    (renderAll operators).mapM (fun field => Expression.parseOperator field.1 field.2) =
      .ok operators := by
  rw [mapM_eq_ok_iff, renderAll_eq, List.map_map]
  exact List.map_congr_left h

theorem canonicalFields_renderAll {operators : List Operator}
    (h : ∀ operator ∈ operators, operator.operand.Canonical) :
    Value.CanonicalFields (renderAll operators) := by
  rw [Value.canonicalFields_iff, renderAll_eq, List.forall_mem_map]
  exact h

theorem NamesAscend.ascendingFields_renderAll {operators : List Operator}
    (h : NamesAscend operators) : Value.AscendingFields (renderAll operators) := by
  rw [renderAll_eq]
  exact List.pairwise_map.2 h

end Operator

namespace Expression

theorem renderAll_eq (children : List Expression) : renderAll children = children.map render := by
  induction children with
  | nil => rfl
  | cons child rest ih => rw [renderAll, ih, List.map_cons]

theorem mapM_renderAll {children : List Expression}
    (h : ∀ child ∈ children, parse child.render = .ok child) :
    (renderAll children).mapM parse = .ok children := by
  rw [mapM_eq_ok_iff, renderAll_eq, List.map_map]
  exact List.map_congr_left h

theorem canonicalItems_renderAll {children : List Expression}
    (h : ∀ child ∈ children, child.render.Canonical) :
    Value.CanonicalItems (renderAll children) := by
  rw [Value.canonicalItems_iff, renderAll_eq, List.forall_mem_map]
  exact h

/-- An expression is not written as a set of operators on an element. -/
theorem WellFormed.render_eq {expression : Expression} (h : expression.WellFormed) :
    ∃ fields, expression.render = .map fields ∧ areElementOperators fields = false := by
  cases h with
  | all => exact ⟨_, by rw [render], by simp [areElementOperators]⟩
  | any => exact ⟨_, by rw [render], by simp [areElementOperators]⟩
  | field hpath => exact ⟨_, by rw [render], by simp [areElementOperators, hpath]⟩

end Expression

mutual

theorem Expression.WellFormed.parse_render : ∀ {expression : Expression}, expression.WellFormed →
    Expression.parse expression.render = .ok expression
  | .all children, .all h => by
    have hchildren := Expression.mapM_renderAll fun child hchild => (h child hchild).parse_render
    rw [Expression.render, Expression.parse_single, Expression.parseClause_all, hchildren]
    rfl
  | .any children, .any h => by
    have hchildren := Expression.mapM_renderAll fun child hchild => (h child hchild).parse_render
    rw [Expression.render, Expression.parse_single, Expression.parseClause_any, hchildren]
    rfl
  | .field path condition, .field hpath h => by
    rw [Expression.render, Expression.parse_single]
    exact h.parse_render hpath

theorem Condition.WellFormed.parse_render : ∀ {condition : Condition}, condition.WellFormed →
    ∀ {path : String}, isOperatorName path = false →
      Expression.parseClause path condition.render = .ok (.field path condition)
  | .equals literal, .equals h, path, hpath => by
    rw [Condition.render, Expression.parseClause_equals hpath h]
  | .operators operators, .operators hne _ h, path, hpath => by
    have hoperators := Operator.mapM_renderAll fun operator hoperator =>
      (h operator hoperator).parse_operand
    rw [Condition.render, Expression.parseClause_operators hpath (Operator.renderAll_ne_nil hne)
      (Operator.areOperatorNames_renderAll operators), hoperators]
    rfl

theorem Operator.WellFormed.parse_operand {operator : Operator} (h : operator.WellFormed) :
    Expression.parseOperator operator.name operator.operand = .ok operator := by
  cases h with
  | remainder hdivisor hremainder =>
    rw [Operator.name, Operator.operand]
    exact Expression.parseOperator_remainder hdivisor hremainder
  | element h =>
    rw [Operator.name, Operator.operand]
    exact h.parse_render
  | _ =>
    rw [Operator.name, Operator.operand, Expression.parseOperator]
    rfl

theorem ElementTest.WellFormed.parse_render : ∀ {test : ElementTest}, test.WellFormed →
    Expression.parseOperator "$elemMatch" test.render = .ok (.element test)
  | .document expression, .document h => by
    obtain ⟨fields, hfields, hnot⟩ := h.render_eq
    have hparse := h.parse_render
    rw [hfields] at hparse
    rw [ElementTest.render, hfields, Expression.parseOperator_elementDocument hnot, hparse]
    rfl
  | .value operators, .value hne _ h => by
    have hoperators := Operator.mapM_renderAll fun operator hoperator =>
      (h operator hoperator).parse_operand
    rw [ElementTest.render, Expression.parseOperator_elementValue
      (Operator.areElementOperators_renderAll hne), hoperators]
    rfl

end

/-! ## The writing of canonical expressions -/

theorem Value.canonical_single {name : String} {value : Value} (h : value.Canonical) :
    (Value.map [(name, value)]).Canonical :=
  ⟨List.pairwise_singleton _ _, h, trivial⟩

mutual

theorem Expression.Canonical.render : ∀ {expression : Expression}, expression.Canonical →
    expression.WellFormed → expression.render.Canonical
  | .all children, .all h, .all hwf => by
    rw [Expression.render]
    exact Value.canonical_single (Expression.canonicalItems_renderAll fun child hchild =>
      (h child hchild).render (hwf child hchild))
  | .any children, .any h, .any hwf => by
    rw [Expression.render]
    exact Value.canonical_single (Expression.canonicalItems_renderAll fun child hchild =>
      (h child hchild).render (hwf child hchild))
  | .field path condition, .field h, .field _ hwf => by
    rw [Expression.render]
    exact Value.canonical_single (h.render hwf)

theorem Condition.Canonical.render : ∀ {condition : Condition}, condition.Canonical →
    condition.WellFormed → condition.render.Canonical
  | .equals literal, .equals h, _ => by rwa [Condition.render]
  | .operators operators, .operators h, .operators _ hnames hwf => by
    rw [Condition.render]
    exact ⟨hnames.ascendingFields_renderAll, Operator.canonicalFields_renderAll
      fun operator hoperator => (h operator hoperator).operand (hwf operator hoperator)⟩

theorem Operator.Canonical.operand : ∀ {operator : Operator}, operator.Canonical →
    operator.WellFormed → operator.operand.Canonical
  | _, .literal _ h, _ => h
  | .element test, .element h, .element hwf => by
    rw [Operator.operand]
    exact h.render hwf

theorem ElementTest.Canonical.render : ∀ {test : ElementTest}, test.Canonical →
    test.WellFormed → test.render.Canonical
  | .document expression, .document h, .document hwf => by
    rw [ElementTest.render]
    exact h.render hwf
  | .value operators, .value h, .value _ hnames hwf => by
    rw [ElementTest.render]
    exact ⟨hnames.ascendingFields_renderAll, Operator.canonicalFields_renderAll
      fun operator hoperator => (h operator hoperator).operand (hwf operator hoperator)⟩

end

/-! ## What is read -/

/-- What is read of the value, whether as an expression, a clause or an operator, is well-formed and
has canonical literals. -/
structure Value.ReadsWell (v : Value) : Prop where
  expression : ∀ {expression}, Expression.parse v = .ok expression →
    expression.WellFormed ∧ expression.Canonical
  clause : ∀ {name expression}, Expression.parseClause name v = .ok expression →
    expression.WellFormed ∧ expression.Canonical
  operator : ∀ {name operator}, Expression.parseOperator name v = .ok operator →
    operator.WellFormed ∧ operator.Canonical ∧ operator.name = name

namespace Expression

theorem ofClauses_spec {clauses : List Expression}
    (h : ∀ clause ∈ clauses, clause.WellFormed ∧ clause.Canonical) :
    (ofClauses clauses).WellFormed ∧ (ofClauses clauses).Canonical := by
  unfold ofClauses
  split
  · exact h _ (List.mem_singleton.2 rfl)
  · exact ⟨.all fun clause hclause => (h clause hclause).1,
      .all fun clause hclause => (h clause hclause).2⟩

/-- Operators that were read have the names of their fields. -/
theorem names_of_mapM {fields : List (String × Value)} {operators : List Operator}
    (h : fields.mapM (fun field => parseOperator field.1 field.2) = .ok operators)
    (hfields : ∀ field ∈ fields, field.2.ReadsWell) :
    operators.map Operator.name = fields.map Prod.fst := by
  have hall := forall₂_of_mapM_eq_ok h
  clear h
  induction hall with
  | nil => rfl
  | cons hhead _ ih =>
    obtain ⟨hfirst, hrest⟩ := List.forall_mem_cons.1 hfields
    rw [List.map_cons, List.map_cons, (hfirst.operator hhead).2.2, ih hrest]

/-- The operators of a mapping are well-formed and in the order of the fields. -/
theorem operators_of_mapM {fields : List (String × Value)} {operators : List Operator}
    (h : fields.mapM (fun field => parseOperator field.1 field.2) = .ok operators)
    (hne : fields ≠ []) (hascend : Value.AscendingFields fields)
    (hfields : ∀ field ∈ fields, field.2.ReadsWell) :
    (operators ≠ [] ∧ Operator.NamesAscend operators) ∧
      ∀ operator ∈ operators, operator.WellFormed ∧ operator.Canonical := by
  have hnames := names_of_mapM h hfields
  refine ⟨⟨?_, ?_⟩, forall_of_mapM_eq_ok h fun field hfield operator hoperator => ?_⟩
  · rintro rfl
    exact hne (List.map_eq_nil_iff.1 hnames.symm)
  · have hbelow : (fields.map Prod.fst).Pairwise fun a b => utf8 a < utf8 b :=
      List.pairwise_map.2 hascend
    rw [← hnames, List.pairwise_map] at hbelow
    exact hbelow
  · obtain ⟨hwf, hcanonical, -⟩ := (hfields field hfield).operator hoperator
    exact ⟨hwf, hcanonical⟩

section
variable {v : Value} (hv : v.Canonical)
  (hitems : ∀ items, v = .array items → ∀ item ∈ items, item.ReadsWell)
  (hfields : ∀ fields, v = .map fields → ∀ field ∈ fields, field.2.ReadsWell)
include hv hfields

theorem parse_spec {expression : Expression} (h : parse v = .ok expression) :
    expression.WellFormed ∧ expression.Canonical := by
  cases hmap : v.asMap? with
  | none =>
    rw [parse_of_asMap?_eq_none hmap] at h
    cases h
  | some fields =>
    obtain rfl := Value.eq_map_of_asMap? hmap
    rw [parse_map] at h
    obtain ⟨clauses, hclauses, rfl⟩ := map_eq_ok_iff.1 h
    exact ofClauses_spec (forall_of_mapM_eq_ok hclauses fun field hfield _ hclause =>
      (hfields fields rfl field hfield).clause hclause)

theorem parseOperator_spec {name : String} {operator : Operator}
    (h : parseOperator name v = .ok operator) :
    operator.WellFormed ∧ operator.Canonical ∧ operator.name = name := by
  have hreading := operatorReading name v
  generalize parseOperator name v = result at h hreading
  cases hreading with
  | comparison hname operand =>
    cases h
    simp only [comparisons, List.mem_cons, Prod.mk.injEq, List.not_mem_nil, or_false] at hname
    rcases hname with ⟨rfl, rfl⟩ | ⟨rfl, rfl⟩ | ⟨rfl, rfl⟩ | ⟨rfl, rfl⟩ | ⟨rfl, rfl⟩
    all_goals exact ⟨by constructor, .literal (by rintro _ ⟨⟩) hv, rfl⟩
  | membership hname members =>
    cases h
    simp only [memberships, List.mem_cons, Prod.mk.injEq, List.not_mem_nil, or_false] at hname
    rcases hname with ⟨rfl, rfl⟩ | ⟨rfl, rfl⟩ | ⟨rfl, rfl⟩
    all_goals exact ⟨by constructor, .literal (by rintro _ ⟨⟩) hv, rfl⟩
  | remainder hname hdivisor hremainder =>
    cases h
    exact ⟨.remainder hdivisor hremainder, .literal (by rintro _ ⟨⟩) hv, hname.symm⟩
  | elementValue hname helement =>
    obtain ⟨operators, hoperators, rfl⟩ := map_eq_ok_iff.1 h
    obtain ⟨⟨hne, hnames⟩, hall⟩ := operators_of_mapM hoperators
      (areElementOperators_iff.1 helement).1 hv.1 (hfields _ rfl)
    exact ⟨.element (.value hne hnames fun operator hoperator => (hall operator hoperator).1),
      .element (.value fun operator hoperator => (hall operator hoperator).2), hname.symm⟩
  | elementDocument hname _ =>
    obtain ⟨expression, hexpression, rfl⟩ := map_eq_ok_iff.1 h
    obtain ⟨hwf, hcanonical⟩ := parse_spec hv hfields hexpression
    exact ⟨.element (.document hwf), .element (.document hcanonical), hname.symm⟩
  | _ => cases h

include hitems

theorem parseClause_spec {name : String} {expression : Expression}
    (h : parseClause name v = .ok expression) :
    expression.WellFormed ∧ expression.Canonical := by
  have hreading := clauseReading name v
  generalize parseClause name v = result at h hreading
  cases hreading with
  | all _ items =>
    obtain ⟨children, hchildren, rfl⟩ := map_eq_ok_iff.1 h
    have hall := forall_of_mapM_eq_ok hchildren fun item hitem _ =>
      (hitems items rfl item hitem).expression
    exact ⟨.all fun child hchild => (hall child hchild).1,
      .all fun child hchild => (hall child hchild).2⟩
  | any _ items =>
    obtain ⟨children, hchildren, rfl⟩ := map_eq_ok_iff.1 h
    have hall := forall_of_mapM_eq_ok hchildren fun item hitem _ =>
      (hitems items rfl item hitem).expression
    exact ⟨.any fun child hchild => (hall child hchild).1,
      .any fun child hchild => (hall child hchild).2⟩
  | equals hname hliteral =>
    cases h
    exact ⟨.field hname (.equals hliteral), .field (.equals hv)⟩
  | operators hname hne _ =>
    obtain ⟨operators, hoperators, rfl⟩ := map_eq_ok_iff.1 h
    obtain ⟨⟨hne, hnames⟩, hall⟩ := operators_of_mapM hoperators hne hv.1 (hfields _ rfl)
    exact ⟨.field hname (.operators hne hnames fun operator hoperator =>
      (hall operator hoperator).1), .field (.operators fun operator hoperator =>
      (hall operator hoperator).2)⟩
  | _ => cases h

end

/-- Whatever is read of a canonical value is well-formed. -/
theorem readsWell {v : Value} (hv : v.Canonical) : v.ReadsWell :=
  Value.Canonical.of_parts (fun _ hv hitems hfields =>
    ⟨parse_spec hv hfields, parseClause_spec hv hitems hfields, parseOperator_spec hv hfields⟩) hv

/-- What is read is well-formed, and its writing is a document from which it is read again: the
expressions that can be read are the well-formed ones. -/
theorem parse_inverts_render :
    (∀ q expression, q.Canonical → parse q = .ok expression →
      expression.WellFormed ∧ expression.Canonical) ∧
    (∀ expression : Expression, expression.WellFormed → parse expression.render = .ok expression) ∧
    ∀ expression : Expression, expression.WellFormed → expression.Canonical →
      expression.render.Canonical :=
  ⟨fun _ _ hq => (readsWell hq).expression, fun _ h => h.parse_render,
    fun _ hwf h => h.render hwf⟩

/-- Asks for elements of both forms, and for a literal with an operator name further down. -/
def bothElements : Value :=
  .map [("$or", .array
    [.map [("items", .map [("$elemMatch", .map [("$and", .array [])]), ("$ne", .int 3)])],
      .map [("scores", .map [("$elemMatch", .map [("$gte", .int 80), ("$mod", .array [.int 2, .int 1])])])],
      .map [("note", .map [("text", .map [("$gt", .int 1)])])]])]

/-- It is written as it was. -/
theorem bothElements_is_read_again : ∃ expression, parse bothElements = .ok expression ∧
    expression.WellFormed ∧ expression.Canonical ∧ expression.render = bothElements ∧
    parse expression.render = .ok expression ∧ expression.render.Canonical := by
  have hcanonical : bothElements.Canonical := by
    simp only [bothElements, Value.Canonical, Value.CanonicalFields, Value.CanonicalItems,
      Value.AscendingFields, and_true]
    decide
  have hparse : parse bothElements = .ok (.any
      [.field "items" (.operators [.element (.document (.all [])), .notEqual (.int 3)]),
        .field "scores" (.operators
          [.element (.value [.atLeast (.int 80), .remainder (.int 2) (.int 1)])]),
        .field "note" (.equals (.map [("text", .map [("$gt", .int 1)])]))]) := by
    rfl
  obtain ⟨hwf, hliterals⟩ := parse_inverts_render.1 _ _ hcanonical hparse
  exact ⟨_, hparse, hwf, hliterals, by rfl, parse_inverts_render.2.1 _ hwf,
    parse_inverts_render.2.2 _ hwf hliterals⟩

end Expression

end DocStore
