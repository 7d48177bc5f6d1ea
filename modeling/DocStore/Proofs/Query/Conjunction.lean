/-
The ways of writing a conjunction: several fields of one query, several operators on one field, and
a list of queries that are joined. Writing it in another way changes neither the error of a query
nor the documents that it matches, be it the query itself or a part of it at any depth.
-/
import DocStore.Proofs.Query.Parse
import DocStore.Proofs.Query.Operator
import DocStore.Proofs.Series

namespace DocStore

/-- The query that joins queries. -/
def conjunction (queries : List Value) : Value := .map [("$and", .array queries)]

/-- The query is written as a list of queries, each with a field of it or with an operator. -/
inductive Rewriting : Value → Value → Prop
  | fields (fields : List (String × Value)) :
    Rewriting (.map fields) (conjunction (fields.map fun field => .map [field]))
  | operators {path : String} (hpath : isOperatorName path = false)
    {fields : List (String × Value)} (hne : fields ≠ []) (hnames : AreOperatorNames fields) :
    Rewriting (.map [(path, .map fields)])
      (conjunction (fields.map fun field => .map [(path, .map [field])]))

mutual

/-- One query is written in another way, this query or one in it: an item of a list of queries that
are joined, or the test of an element as a document. -/
inductive Rewritten : Value → Value → Prop
  | whole {q q' : Value} (h : Rewriting q q') : Rewritten q q'
  | clause (before after : List (String × Value)) {name : String} {operand operand' : Value}
    (h : RewrittenClause name operand operand') :
    Rewritten (.map (before ++ (name, operand) :: after))
      (.map (before ++ (name, operand') :: after))

/-- The same in the field of a query. -/
inductive RewrittenClause : String → Value → Value → Prop
  | item {name : String} (hname : name = "$and" ∨ name = "$or") (before after : List Value)
    {item item' : Value} (h : Rewritten item item') :
    RewrittenClause name (.array (before ++ item :: after)) (.array (before ++ item' :: after))
  | operator {path : String} (hpath : isOperatorName path = false)
    (before after : List (String × Value)) {name : String} {operand operand' : Value}
    (h : RewrittenOperator name operand operand') :
    RewrittenClause path (.map (before ++ (name, operand) :: after))
      (.map (before ++ (name, operand') :: after))

/-- The same in the operand of an operator. -/
inductive RewrittenOperator : String → Value → Value → Prop
  | document {fields fields' : List (String × Value)} (hfields : ¬ AreElementOperators fields)
    (h : Rewritten (.map fields) (.map fields')) :
    RewrittenOperator "$elemMatch" (.map fields) (.map fields')
  | value (before after : List (String × Value)) {name : String} {operand operand' : Value}
    (hfields : AreElementOperators (before ++ (name, operand) :: after))
    (h : RewrittenOperator name operand operand') :
    RewrittenOperator "$elemMatch" (.map (before ++ (name, operand) :: after))
      (.map (before ++ (name, operand') :: after))

end

/-! ## Matching alike -/

/-- The expressions match the same documents. -/
def Expression.MatchesAlike (e f : Expression) : Prop := ∀ doc, e.matches doc = f.matches doc

/-- The operators hold of the same fields. -/
def Operator.HoldsAlike (o p : Operator) : Prop := ∀ field, o.holds field = p.holds field

namespace Operator

theorem HoldsAlike.allHold {os ps : List Operator} (h : List.Forall₂ HoldsAlike os ps)
    (field : Option Value) : Operator.allHold field os = Operator.allHold field ps := by
  induction h with
  | nil => rfl
  | cons h _ ih => rw [Operator.allHold, Operator.allHold, h field, ih]

theorem HoldsAlike.operators {os ps : List Operator} (h : List.Forall₂ HoldsAlike os ps)
    (path : String) :
    Expression.MatchesAlike (.field path (.operators os)) (.field path (.operators ps)) := by
  intro doc
  rw [Expression.matches, Expression.matches, Condition.holds, Condition.holds, allHold h]

theorem HoldsAlike.element {s t : ElementTest} (h : ∀ item, s.holds item = t.holds item) :
    HoldsAlike (.element s) (.element t) := by
  intro field
  rw [holds, holds, funext h]

theorem HoldsAlike.value {os ps : List Operator} (h : List.Forall₂ HoldsAlike os ps) :
    HoldsAlike (.element (.value os)) (.element (.value ps)) :=
  .element fun item => by rw [ElementTest.holds, ElementTest.holds, allHold h]

end Operator

namespace Expression

theorem MatchesAlike.document {e f : Expression} (h : MatchesAlike e f) :
    Operator.HoldsAlike (.element (.document e)) (.element (.document f)) :=
  .element fun item => by rw [ElementTest.holds, ElementTest.holds, h item]

section
variable {es fs : List Expression}

theorem MatchesAlike.allMatch (h : List.Forall₂ MatchesAlike es fs) (doc : Value) :
    Expression.allMatch doc es = Expression.allMatch doc fs := by
  induction h with
  | nil => rfl
  | cons h _ ih => rw [Expression.allMatch, Expression.allMatch, h doc, ih]

theorem MatchesAlike.someMatch (h : List.Forall₂ MatchesAlike es fs) (doc : Value) :
    Expression.someMatch doc es = Expression.someMatch doc fs := by
  induction h with
  | nil => rfl
  | cons h _ ih => rw [Expression.someMatch, Expression.someMatch, h doc, ih]

theorem MatchesAlike.all (h : List.Forall₂ MatchesAlike es fs) : MatchesAlike (.all es) (.all fs) :=
  fun doc => by rw [Expression.matches, Expression.matches, allMatch h]

theorem MatchesAlike.any (h : List.Forall₂ MatchesAlike es fs) : MatchesAlike (.any es) (.any fs) :=
  fun doc => by rw [Expression.matches, Expression.matches, someMatch h]

/-- One clause that stands for itself matches as the list of this clause does. -/
theorem matchesAlike_ofClauses (clauses : List Expression) :
    MatchesAlike (ofClauses clauses) (.all clauses) := by
  intro doc
  unfold ofClauses
  split
  · rw [Expression.matches, Expression.allMatch, Expression.allMatch, Bool.and_true]
  · rfl

theorem MatchesAlike.ofClauses (h : List.Forall₂ MatchesAlike es fs) :
    MatchesAlike (Expression.ofClauses es) (Expression.ofClauses fs) :=
  fun doc => by rw [matchesAlike_ofClauses es doc, matchesAlike_ofClauses fs doc, all h doc]

/-- Operators on a field match as the list of the conditions with one of them each does. -/
theorem matchesAlike_operators (path : String) (operators : List Operator) :
    MatchesAlike (.field path (.operators operators))
      (.all (operators.map fun operator => .field path (.operators [operator]))) := by
  intro doc
  rw [Expression.matches, Expression.matches, Condition.holds]
  induction operators with
  | nil => rfl
  | cons operator rest ih =>
    rw [List.map_cons, Operator.allHold, Expression.allMatch, matches_operator, ih]

end

/-! ## The query itself -/

theorem parse_conjunction (queries : List Value) :
    parse (conjunction queries) = Expression.all <$> queries.mapM parse := by
  rw [conjunction, parse_single, parseClause_all]

/-- The list of the fields is read as they are. -/
theorem parse_conjunction_fields (fields : List (String × Value)) :
    parse (conjunction (fields.map fun field => .map [field])) =
      Expression.all <$> fields.mapM fun field => parseClause field.1 field.2 := by
  have hparse : (fun field : String × Value => parse (.map [field])) =
      fun field => parseClause field.1 field.2 := funext fun field => parse_single field.1 field.2
  rw [parse_conjunction, List.mapM_map, ← hparse]
  rfl

/-- The list of the operators on a field is read as they are. -/
theorem parse_conjunction_operators {path : String} (hpath : isOperatorName path = false)
    {fields : List (String × Value)} (hnames : AreOperatorNames fields) :
    parse (conjunction (fields.map fun field => .map [(path, .map [field])])) =
      (fun operators => Expression.all (operators.map fun operator =>
        .field path (.operators [operator]))) <$>
          fields.mapM fun field => parseOperator field.1 field.2 := by
  have hparse : ∀ field ∈ fields, parse (.map [(path, .map [field])]) =
      (fun operator => .field path (.operators [operator])) <$>
        parseOperator field.1 field.2 := by
    intro field hfield
    have hname : AreOperatorNames [field] := List.forall_mem_singleton.2 (hnames field hfield)
    rw [parse_single, parseClause_operators hpath (List.cons_ne_nil _ _) hname, List.mapM_cons]
    cases parseOperator field.1 field.2 <;> rfl
  rw [parse_conjunction, List.mapM_map]
  exact (congrArg _ (mapM_eq_map_mapM hparse)).trans (Functor.map_map _ _ _)

theorem agree_of_rewriting {q q' : Value} (h : Rewriting q q') :
    Agree MatchesAlike (parse q) (parse q') := by
  have hrefl : ∀ {α : Type} (x : Except QueryError α), Agree Eq x x := .refl fun _ => rfl
  cases h with
  | fields fields =>
    rw [parse_map, parse_conjunction_fields]
    refine (hrefl _).map ?_
    rintro clauses _ rfl
    exact matchesAlike_ofClauses clauses
  | operators hpath hne hnames =>
    rw [parse_single, parseClause_operators hpath hne hnames,
      parse_conjunction_operators hpath hnames]
    refine (hrefl _).map ?_
    rintro operators _ rfl
    exact matchesAlike_operators _ operators

/-- All but a single field is read as the list is. -/
theorem parse_eq_parse_conjunction {fields : List (String × Value)} (h : fields.length ≠ 1) :
    parse (.map fields) = parse (conjunction (fields.map fun field => .map [field])) := by
  rw [parse_map, parse_conjunction_fields]
  cases hclauses : fields.mapM fun field => parseClause field.1 field.2 with
  | error error => rfl
  | ok clauses =>
    have hlength : clauses.length ≠ 1 := (forall₂_of_mapM_eq_ok hclauses).length_eq ▸ h
    have hof : Expression.ofClauses clauses = .all clauses := by
      unfold Expression.ofClauses
      split
      · exact absurd rfl hlength
      · rfl
    exact congrArg Except.ok hof

end Expression

/-! ## The queries in a query -/

section
variable {fields fields' : List (String × Value)}
  (hnames : fields.map Prod.fst = fields'.map Prod.fst)
include hnames

theorem AreOperatorNames.of_names (h : AreOperatorNames fields) : AreOperatorNames fields' := by
  have hall := (List.forall_mem_map (P := fun name => isOperatorName name = true)).2 h
  exact List.forall_mem_map.1 (hnames ▸ hall)

theorem AreElementOperators.of_names (h : AreElementOperators fields) :
    AreElementOperators fields' := by
  obtain ⟨hne, hall, hjoins⟩ := h
  have hjoins' := (List.forall_mem_map (P := fun name => name ≠ "$and" ∧ name ≠ "$or")).2 hjoins
  refine ⟨?_, hall.of_names hnames, List.forall_mem_map.1 (hnames ▸ hjoins')⟩
  rintro rfl
  exact hne (List.map_eq_nil_iff.1 hnames)

end

theorem names_middle (before after : List (String × Value)) (name : String)
    (operand operand' : Value) : (before ++ (name, operand) :: after).map Prod.fst =
      (before ++ (name, operand') :: after).map Prod.fst := by
  rw [List.map_append, List.map_append, List.map_cons, List.map_cons]

/-- What is written in another way remains a mapping, and none of operators on an element. -/
theorem Rewritten.document {q q' : Value} (h : Rewritten q q') :
    ∃ fields fields', q = .map fields ∧ q' = .map fields' ∧
      (¬ AreElementOperators fields → ¬ AreElementOperators fields') := by
  have hjoin : ∀ queries, ¬ AreElementOperators [("$and", .array queries)] :=
    fun queries h => (h.2.2 _ (.head _)).1 rfl
  rcases h with ⟨_ | _⟩ | ⟨before, after, h⟩
  · exact ⟨_, _, rfl, rfl, fun _ => hjoin _⟩
  · exact ⟨_, _, rfl, rfl, fun _ => hjoin _⟩
  · exact ⟨_, _, rfl, rfl, mt (AreElementOperators.of_names (names_middle _ _ _ _ _))⟩

theorem RewrittenOperator.isOperatorName {name : String} {operand operand' : Value}
    (h : RewrittenOperator name operand operand') : isOperatorName name = true := by
  cases h <;> rfl

namespace Expression

/-- Only one field has another operand. -/
theorem agree_fields {β : Type} {Same : β → β → Prop} (hrefl : ∀ b, Same b b)
    {f : String → Value → Except QueryError β} {name : String} {operand operand' : Value}
    (h : Agree Same (f name operand) (f name operand')) (before after : List (String × Value)) :
    Agree (List.Forall₂ Same)
      ((before ++ (name, operand) :: after).mapM fun field => f field.1 field.2)
      ((before ++ (name, operand') :: after).mapM fun field => f field.1 field.2) :=
  Agree.mapM_middle (f := fun field : String × Value => f field.1 field.2)
    (x := (name, operand)) (y := (name, operand')) hrefl h before after

/-- Only one operator on a field has another operand. -/
theorem agree_parseClause_operator {path : String} (hpath : isOperatorName path = false)
    (before after : List (String × Value)) {name : String} {operand operand' : Value}
    (hname : isOperatorName name = true)
    (h : Agree Operator.HoldsAlike (parseOperator name operand) (parseOperator name operand')) :
    Agree MatchesAlike (parseClause path (.map (before ++ (name, operand) :: after)))
      (parseClause path (.map (before ++ (name, operand') :: after))) := by
  have hnames := names_middle before after name operand operand'
  have hsome : ∀ operand, HasOperatorName (before ++ (name, operand) :: after) :=
    fun operand => ⟨(name, operand), List.mem_append_right _ List.mem_cons_self, hname⟩
  by_cases hall : AreOperatorNames (before ++ (name, operand) :: after)
  · rw [parseClause_operators hpath (by simp) hall,
      parseClause_operators hpath (by simp) (hall.of_names hnames)]
    exact (agree_fields (fun _ _ => rfl) h before after).map
      fun _ _ hoperators => Operator.HoldsAlike.operators hoperators path
  · have hall' : ¬ AreOperatorNames (before ++ (name, operand') :: after) :=
      fun h => hall (h.of_names hnames.symm)
    rw [parseClause_mixed hpath (hsome _) hall, parseClause_mixed hpath (hsome _) hall']
    exact .error _

mutual

theorem agree_of_rewritten {q q' : Value} (h : Rewritten q q') :
    Agree MatchesAlike (parse q) (parse q') := by
  match h with
  | .whole h => exact agree_of_rewriting h
  | .clause before after h =>
    rw [parse_map, parse_map]
    exact (agree_fields (fun _ _ => rfl) (agree_of_rewrittenClause h) before after).map
      fun _ _ => MatchesAlike.ofClauses

theorem agree_of_rewrittenClause {name : String} {operand operand' : Value}
    (h : RewrittenClause name operand operand') :
    Agree MatchesAlike (parseClause name operand) (parseClause name operand') := by
  match h with
  | .item hname before after h =>
    have hitems := Agree.mapM_middle (fun _ _ => rfl) (agree_of_rewritten h) before after
    rcases hname with rfl | rfl
    · rw [parseClause_all, parseClause_all]
      exact hitems.map fun _ _ => MatchesAlike.all
    · rw [parseClause_any, parseClause_any]
      exact hitems.map fun _ _ => MatchesAlike.any
  | .operator hpath before after h =>
    exact agree_parseClause_operator hpath before after h.isOperatorName
      (agree_of_rewrittenOperator h)

theorem agree_of_rewrittenOperator {name : String} {operand operand' : Value}
    (h : RewrittenOperator name operand operand') :
    Agree Operator.HoldsAlike (parseOperator name operand) (parseOperator name operand') := by
  match h with
  | .document hfields h =>
    obtain ⟨_, _, ⟨⟩, ⟨⟩, hdocument⟩ := h.document
    rw [parseOperator_elementDocument (areElementOperators_eq_false_iff.2 hfields),
      parseOperator_elementDocument (areElementOperators_eq_false_iff.2 (hdocument hfields))]
    exact (agree_of_rewritten h).map fun _ _ => MatchesAlike.document
  | .value before after hfields h =>
    rw [parseOperator_elementValue (areElementOperators_iff.2 hfields),
      parseOperator_elementValue (areElementOperators_iff.2
        (hfields.of_names (names_middle _ _ _ _ _)))]
    exact (agree_fields (fun _ _ => rfl) (agree_of_rewrittenOperator h) before after).map
      fun _ _ => Operator.HoldsAlike.value

end

/-- Several fields, several operators on one field and a list that is joined are ways of writing
the same: they fail alike or match the same documents, whether they are the query or in it. -/
theorem conjunctions_are_interchangeable :
    (∀ fields : List (String × Value),
      Agree MatchesAlike (parse (.map fields))
        (parse (conjunction (fields.map fun field => .map [field]))) ∧
      (fields.length ≠ 1 →
        parse (.map fields) = parse (conjunction (fields.map fun field => .map [field])))) ∧
    (∀ (path : String) (fields : List (String × Value)), isOperatorName path = false →
      fields ≠ [] → AreOperatorNames fields →
      Agree MatchesAlike (parse (.map [(path, .map fields)]))
        (parse (conjunction (fields.map fun field => .map [(path, .map [field])])))) ∧
    ∀ q q', Rewritten q q' → Agree MatchesAlike (parse q) (parse q') :=
  ⟨fun fields => ⟨agree_of_rewriting (.fields fields), parse_eq_parse_conjunction⟩,
    fun _ _ hpath hne hnames => agree_of_rewriting (.operators hpath hne hnames),
    fun _ _ => agree_of_rewritten⟩

/-- Asks for a count of more than 7 and at most 14. -/
def smallCount : Value := .map [("count", .map [("$gt", .int 7), ("$lte", .int 14)])]

/-- The same with a list. -/
def smallCountList : Value :=
  conjunction [.map [("count", .map [("$gt", .int 7)])], .map [("count", .map [("$lte", .int 14)])]]

/-- Asks for a line that matches, or for no lines. -/
def hasLineOrNone (line : Value) : Value :=
  .map [("$or", .array [.map [("lines", .array [])], .map [("lines", .map [("$elemMatch", line)])]])]

theorem smallCount_is_written_in_two_ways :
    parse (.map [("count", .int 7), ("open", .bool true)]) =
      parse (conjunction [.map [("count", .int 7)], .map [("open", .bool true)]]) ∧
    Agree MatchesAlike (parse smallCount) (parse smallCountList) ∧
    ∃ e f, parse (hasLineOrNone smallCount) = .ok e ∧
      parse (hasLineOrNone smallCountList) = .ok f ∧ e.MatchesAlike f := by
  obtain ⟨hfields, hoperators, hparts⟩ := conjunctions_are_interchangeable
  have hnames : AreOperatorNames [("$gt", .int 7), ("$lte", .int 14)] := by
    unfold AreOperatorNames
    decide
  have hcount : Rewriting smallCount smallCountList :=
    .operators (by decide) (List.cons_ne_nil _ _) hnames
  have hline : RewrittenOperator "$elemMatch" smallCount smallCountList :=
    .document (fun h => absurd (h.2.1 _ (.head _)) (by decide)) (.whole hcount)
  have hlines : RewrittenClause "lines" (.map [("$elemMatch", smallCount)])
      (.map [("$elemMatch", smallCountList)]) := .operator (by decide) [] [] hline
  have hany : Rewritten (hasLineOrNone smallCount) (hasLineOrNone smallCountList) :=
    .clause [] [] (.item (.inr rfl) [.map [("lines", .array [])]] [] (.clause [] [] hlines))
  refine ⟨(hfields [("count", .int 7), ("open", .bool true)]).2 (by decide),
    hoperators "count" _ (by decide) (List.cons_ne_nil _ _) hnames, ?_⟩
  have hagree := hparts _ _ hany
  have hparse : parse (hasLineOrNone smallCount) = .ok (.any [.field "lines" (.equals (.array [])),
      .field "lines" (.operators [.element (.document
        (.field "count" (.operators [.greater (.int 7), .atMost (.int 14)])))])]) := rfl
  rw [hparse] at hagree ⊢
  generalize parse (hasLineOrNone smallCountList) = result at hagree ⊢
  cases hagree with
  | ok h => exact ⟨_, _, rfl, rfl, h⟩

end Expression

end DocStore
