/-
Filter expressions do not see how numbers are represented. Two expressions correspond if they have
the same shape, ask for no remainder at any depth, and differ only in literals that may stand for
each other: equal ones, or ones that are the same but for integers and doubles of the same value.
Corresponding expressions match the same documents, and a document is matched as soon as one that
may stand for it is.
-/
import DocStore.Proofs.Document.Alike
import DocStore.Proofs.Query.Operator

namespace DocStore

/-! ## Correspondence -/

/-- The one value may stand for the other. -/
inductive Value.Interchangeable : Value → Value → Prop
  | same (a : Value) : Interchangeable a a
  | equal {a b : Value} (ha : a.Canonical) (hb : b.Canonical) (h : a.equal b = true) :
    Interchangeable a b
  /-- They differ in nothing but integers and doubles of the same value, at any depth. -/
  | renumbered {a b : Value} (h : Alike a b) : Interchangeable a b

mutual

/-- The expressions have the same shape without remainders, and interchangeable literals. -/
inductive Expression.Corresponds : Expression → Expression → Prop
  | all {xs ys : List Expression} (h : Expression.AllCorrespond xs ys) :
    Expression.Corresponds (.all xs) (.all ys)
  | any {xs ys : List Expression} (h : Expression.AllCorrespond xs ys) :
    Expression.Corresponds (.any xs) (.any ys)
  | field (path : String) {c d : Condition} (h : Condition.Corresponds c d) :
    Expression.Corresponds (.field path c) (.field path d)

inductive Expression.AllCorrespond : List Expression → List Expression → Prop
  | nil : Expression.AllCorrespond [] []
  | cons {x y : Expression} {xs ys : List Expression} (h : Expression.Corresponds x y)
    (hs : Expression.AllCorrespond xs ys) : Expression.AllCorrespond (x :: xs) (y :: ys)

inductive Condition.Corresponds : Condition → Condition → Prop
  | equals {a b : Value} (h : a.Interchangeable b) : Condition.Corresponds (.equals a) (.equals b)
  | operators {xs ys : List Operator} (h : Operator.AllCorrespond xs ys) :
    Condition.Corresponds (.operators xs) (.operators ys)

inductive Operator.AllCorrespond : List Operator → List Operator → Prop
  | nil : Operator.AllCorrespond [] []
  | cons {x y : Operator} {xs ys : List Operator} (h : Operator.Corresponds x y)
    (hs : Operator.AllCorrespond xs ys) : Operator.AllCorrespond (x :: xs) (y :: ys)

inductive Operator.Corresponds : Operator → Operator → Prop
  | less {a b : Value} (h : a.Interchangeable b) : Operator.Corresponds (.less a) (.less b)
  | atMost {a b : Value} (h : a.Interchangeable b) : Operator.Corresponds (.atMost a) (.atMost b)
  | greater {a b : Value} (h : a.Interchangeable b) : Operator.Corresponds (.greater a) (.greater b)
  | atLeast {a b : Value} (h : a.Interchangeable b) : Operator.Corresponds (.atLeast a) (.atLeast b)
  | notEqual {a b : Value} (h : a.Interchangeable b) :
    Operator.Corresponds (.notEqual a) (.notEqual b)
  | oneOf {xs ys : List Value} (h : List.Forall₂ Value.Interchangeable xs ys) :
    Operator.Corresponds (.oneOf xs) (.oneOf ys)
  | noneOf {xs ys : List Value} (h : List.Forall₂ Value.Interchangeable xs ys) :
    Operator.Corresponds (.noneOf xs) (.noneOf ys)
  | hasAll {xs ys : List Value} (h : List.Forall₂ Value.Interchangeable xs ys) :
    Operator.Corresponds (.hasAll xs) (.hasAll ys)
  | element {s t : ElementTest} (h : ElementTest.Corresponds s t) :
    Operator.Corresponds (.element s) (.element t)

inductive ElementTest.Corresponds : ElementTest → ElementTest → Prop
  | document {e f : Expression} (h : Expression.Corresponds e f) :
    ElementTest.Corresponds (.document e) (.document f)
  | value {xs ys : List Operator} (h : Operator.AllCorrespond xs ys) :
    ElementTest.Corresponds (.value xs) (.value ys)

end

namespace Value

theorem Interchangeable.alike {a b : Value} (h : a.Interchangeable b) : Alike a b := by
  cases h with
  | same => exact .refl a
  | equal ha hb h => exact alike_of_equal ha hb h
  | renumbered h => exact h

theorem alikeItems_of_interchangeable {xs ys : List Value} (h : List.Forall₂ Interchangeable xs ys) :
    AlikeItems xs ys := by
  induction h with
  | nil => exact .nil
  | cons h _ ih => exact .cons h.alike ih

/-! ## What is asked of a field -/

section
variable {field field' : Option Value} {a b : Value} {xs ys : List Value}

theorem itemsOf?_number (h : a.isNumber = true) : itemsOf? (some a) = none := by
  cases a <;> cases h <;> rfl

theorem isMember_congr (hs : AlikeItems xs ys) (h : Alike a b) : isMember xs a = isMember ys b :=
  hs.any_eq fun hmember => equal_congr h hmember

variable (hfield : Option.Rel Alike field field')
include hfield

theorem getD_null_alike : Alike (field.getD .null) (field'.getD .null) := by
  cases hfield with
  | some h => exact h
  | none => exact .null

theorem bind_compare?_congr (h : Alike a b) :
    field.bind (·.compare? a) = field'.bind (·.compare? b) := by
  cases hfield with
  | some hvalue => exact compare?_congr hvalue h
  | none => rfl

theorem itemsOf?_alike : Option.Rel AlikeItems (itemsOf? field) (itemsOf? field') := by
  cases hfield with
  | none => exact .none
  | some h =>
    cases h with
    | array hitems => exact .some hitems
    | number ha hb =>
      rw [itemsOf?_number ha, itemsOf?_number hb]
      exact .none
    | _ => exact .none

theorem isIn_congr (hs : AlikeItems xs ys) : isIn xs field = isIn ys field' := by
  have hitems := itemsOf?_alike hfield
  rw [isIn_eq, isIn_eq]
  generalize itemsOf? field = items at hitems
  generalize itemsOf? field' = items' at hitems
  cases hitems with
  | none => exact isMember_congr hs (getD_null_alike hfield)
  | some hitems => exact hitems.any_eq fun hitem => isMember_congr hs hitem

end

end Value

/-! ## Matching -/

mutual

theorem Expression.matches_congr : ∀ {e f : Expression} {doc doc' : Value}, e.Corresponds f →
    doc.Alike doc' → e.matches doc = f.matches doc'
  | _, _, _, _, .all hs, hdoc => by
    rw [Expression.matches, Expression.matches, Expression.allMatch_congr hs hdoc]
  | _, _, _, _, .any hs, hdoc => by
    rw [Expression.matches, Expression.matches, Expression.someMatch_congr hs hdoc]
  | _, _, _, _, .field path h, hdoc => by
    rw [Expression.matches, Expression.matches, Condition.holds_congr h (hdoc.getPath? path)]

theorem Expression.allMatch_congr : ∀ {es fs : List Expression} {doc doc' : Value},
    Expression.AllCorrespond es fs → doc.Alike doc' →
      Expression.allMatch doc es = Expression.allMatch doc' fs
  | _, _, _, _, .nil, _ => rfl
  | _, _, _, _, .cons h hs, hdoc => by
    rw [Expression.allMatch, Expression.allMatch, Expression.matches_congr h hdoc,
      Expression.allMatch_congr hs hdoc]

theorem Expression.someMatch_congr : ∀ {es fs : List Expression} {doc doc' : Value},
    Expression.AllCorrespond es fs → doc.Alike doc' →
      Expression.someMatch doc es = Expression.someMatch doc' fs
  | _, _, _, _, .nil, _ => rfl
  | _, _, _, _, .cons h hs, hdoc => by
    rw [Expression.someMatch, Expression.someMatch, Expression.matches_congr h hdoc,
      Expression.someMatch_congr hs hdoc]

theorem Condition.holds_congr : ∀ {c d : Condition} {field field' : Option Value},
    c.Corresponds d → Option.Rel Value.Alike field field' → c.holds field = d.holds field'
  | _, _, _, _, .equals h, hfield => by
    rw [Condition.holds, Condition.holds,
      Value.equal_congr (Value.getD_null_alike hfield) h.alike]
  | _, _, _, _, .operators hs, hfield => by
    rw [Condition.holds, Condition.holds, Operator.allHold_congr hs hfield]

theorem Operator.allHold_congr : ∀ {os ps : List Operator} {field field' : Option Value},
    Operator.AllCorrespond os ps → Option.Rel Value.Alike field field' →
      Operator.allHold field os = Operator.allHold field' ps
  | _, _, _, _, .nil, _ => rfl
  | _, _, _, _, .cons h hs, hfield => by
    rw [Operator.allHold, Operator.allHold, Operator.holds_congr h hfield,
      Operator.allHold_congr hs hfield]

theorem Operator.holds_congr : ∀ {o p : Operator} {field field' : Option Value},
    o.Corresponds p → Option.Rel Value.Alike field field' → o.holds field = p.holds field'
  | _, _, _, _, .less h, hfield => by
    rw [Operator.holds, Operator.holds, Value.bind_compare?_congr hfield h.alike]
  | _, _, _, _, .atMost h, hfield => by
    rw [Operator.holds, Operator.holds, Value.bind_compare?_congr hfield h.alike]
  | _, _, _, _, .greater h, hfield => by
    rw [Operator.holds, Operator.holds, Value.bind_compare?_congr hfield h.alike]
  | _, _, _, _, .atLeast h, hfield => by
    rw [Operator.holds, Operator.holds, Value.bind_compare?_congr hfield h.alike]
  | _, _, _, _, .notEqual h, hfield => by
    rw [Operator.holds, Operator.holds, Value.equal_congr (Value.getD_null_alike hfield) h.alike]
  | _, _, _, _, .oneOf hs, hfield => by
    rw [Operator.holds, Operator.holds,
      Value.isIn_congr hfield (Value.alikeItems_of_interchangeable hs)]
  | _, _, _, _, .noneOf hs, hfield => by
    rw [Operator.holds, Operator.holds,
      Value.isIn_congr hfield (Value.alikeItems_of_interchangeable hs)]
  | _, _, _, _, .hasAll hs, hfield => by
    have hmembers := Value.alikeItems_of_interchangeable hs
    rw [Operator.holds, Operator.holds]
    have hitems := Value.itemsOf?_alike hfield
    generalize Value.itemsOf? _ = items at hitems
    generalize Value.itemsOf? _ = items' at hitems
    cases hitems with
    | none => rfl
    | some hitems =>
      exact hmembers.all_eq fun hwanted => hitems.any_eq fun hitem =>
        Value.equal_congr hitem hwanted
  | _, _, _, _, .element h, hfield => by
    rw [Operator.holds, Operator.holds]
    have hitems := Value.itemsOf?_alike hfield
    generalize Value.itemsOf? _ = items at hitems
    generalize Value.itemsOf? _ = items' at hitems
    cases hitems with
    | none => rfl
    | some hitems => exact hitems.any_eq fun hitem => ElementTest.holds_congr h hitem

theorem ElementTest.holds_congr : ∀ {s t : ElementTest} {item item' : Value}, s.Corresponds t →
    item.Alike item' → s.holds item = t.holds item'
  | _, _, _, _, .document h, hitem => by
    rw [ElementTest.holds, ElementTest.holds, Expression.matches_congr h hitem]
  | _, _, _, _, .value hs, hitem => by
    rw [ElementTest.holds, ElementTest.holds, Operator.allHold_congr hs (.some hitem)]

end

/-- Corresponding expressions match interchangeable documents alike, and of two lists of such
documents select those at the same places. -/
theorem Expression.matches_eq_of_corresponds {e f : Expression} (h : e.Corresponds f) :
    (∀ doc doc', Value.Interchangeable doc doc' → e.matches doc = f.matches doc') ∧
    ∀ docs docs', List.Forall₂ Value.Interchangeable docs docs' →
      List.Forall₂ Value.Interchangeable (e.select docs) (f.select docs') := by
  have hmatches : ∀ doc doc', Value.Interchangeable doc doc' → e.matches doc = f.matches doc' :=
    fun doc doc' hdoc => Expression.matches_congr h hdoc.alike
  refine ⟨hmatches, fun docs docs' hdocs => ?_⟩
  refine List.rel_filter ?_ hdocs
  intro doc doc' hdoc
  show e.matches doc = true ↔ f.matches doc' = true
  rw [hmatches doc doc' hdoc]

/-- The double 1. -/
def one : Double := ⟨0x3FF0000000000000⟩

/-- A double that is not a number. -/
def notANumber : Double := ⟨0x7FF8000000000000⟩

/-- Asks for an element of the array `a` in which `n` is `first` or not a number. -/
def hasLine (first : Value) : Expression :=
  .field "a" (.operators [.element (.document
    (.field "n" (.operators [.oneOf [first, .float notANumber]])))])

/-- A document with an array `a` of one line, in which `n` is some value. -/
def lineOf (n : Value) : Value := .map [("a", .array [.map [("n", n)]])]

theorem hasLine_one_congr : (hasLine (.int 1)).Corresponds (hasLine (.float one)) ∧
    (hasLine (.int 1)).matches (lineOf (.float one)) =
      (hasLine (.float one)).matches (lineOf (.int 1)) ∧
    (hasLine (.int 1)).matches (lineOf (.float one)) = true := by
  have hone : (Value.int 1).equal (.float one) = true := by decide +kernel
  have hasks : (hasLine (.int 1)).Corresponds (hasLine (.float one)) :=
    .field _ (.operators (.cons (.element (.document (.field _ (.operators
      (.cons (.oneOf (.cons (.equal trivial trivial hone) (.cons (.same _) .nil))) .nil))))) .nil))
  have hcanonical : ∀ n : Value, n.Canonical → (lineOf n).Canonical := fun n hn =>
    ⟨List.pairwise_singleton _ _, ⟨⟨List.pairwise_singleton _ _, hn, trivial⟩, trivial⟩, trivial⟩
  have hdocs : (lineOf (.float one)).Interchangeable (lineOf (.int 1)) :=
    .equal (hcanonical _ trivial) (hcanonical _ trivial) (by decide +kernel)
  exact ⟨hasks, (Expression.matches_eq_of_corresponds hasks).1 _ _ hdocs, by decide +kernel⟩

end DocStore
