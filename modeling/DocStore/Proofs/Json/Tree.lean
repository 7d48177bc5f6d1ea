/-
The reader of trees undoes the writing of trees: the tokens of a tree bring it from expecting a
value to having that tree complete, with the same arrays and objects open around it. So a tree
whose numbers can be read is read back from its text.
-/
import DocStore.Json.Tree
import DocStore.Proofs.Json.Token

namespace DocStore.Json

/-! ## Literals are apart -/

open JsonToken (Separated)

/-- The tokens do not begin with a literal. -/
def NoWordFirst (tokens : List JsonToken) : Prop := ∀ token ∈ tokens.head?, token.isWord = false

theorem separated_punctuation {token : JsonToken} {rest : List JsonToken}
    (hword : token.isWord = false) (h : Separated rest) :
    Separated (token :: rest) ∧ NoWordFirst (token :: rest) := by
  refine ⟨h.cons fun hw => ?_, ?_⟩
  · rw [hword] at hw
    cases hw
  · rintro _ ⟨⟩
    exact hword

mutual

/-- The tokens of a tree in front of something that begins with no literal. -/
theorem separated_tokens (json : Json) {rest : List JsonToken} (h : Separated rest)
    (hrest : NoWordFirst rest) : Separated (json.tokens ++ rest) := by
  -- only the last token of a tree has a neighbour outside it, and brackets are no literals
  match json with
  | null => exact h.cons fun _ => hrest
  | bool b => exact h.cons fun _ => hrest
  | number n => exact h.cons fun _ => hrest
  | string s => exact h.cons fun _ => hrest
  | array items => exact (separated_punctuation rfl (separated_itemTokens items h)).1
  | object members => exact (separated_punctuation rfl (separated_memberTokens members h)).1

theorem separated_itemTokens (items : List Json) {rest : List JsonToken} (h : Separated rest) :
    Separated (itemTokens items ++ rest) := by
  match items with
  | [] => exact (separated_punctuation rfl h).1
  | [item] =>
    obtain ⟨hend, hfirst⟩ := separated_punctuation (rfl : JsonToken.endArray.isWord = false) h
    rw [itemTokens, List.append_assoc]
    exact separated_tokens item hend hfirst
  | item :: next :: items =>
    obtain ⟨hcomma, hfirst⟩ := separated_punctuation (rfl : JsonToken.comma.isWord = false)
      (separated_itemTokens (next :: items) h)
    rw [itemTokens, List.append_assoc]
    · exact separated_tokens item hcomma hfirst
    · simp

theorem separated_memberTokens (members : List (JsonString × Json)) {rest : List JsonToken}
    (h : Separated rest) : Separated (memberTokens members ++ rest) := by
  match members with
  | [] => exact (separated_punctuation rfl h).1
  | [(name, value)] =>
    obtain ⟨hend, hfirst⟩ := separated_punctuation (rfl : JsonToken.endObject.isWord = false) h
    have hvalue := separated_tokens value hend hfirst
    rw [memberTokens, List.cons_append, List.cons_append, List.append_assoc]
    exact (separated_punctuation rfl (separated_punctuation rfl hvalue).1).1
  | (name, value) :: next :: members =>
    obtain ⟨hcomma, hfirst⟩ := separated_punctuation (rfl : JsonToken.comma.isWord = false)
      (separated_memberTokens (next :: members) h)
    have hvalue := separated_tokens value hcomma hfirst
    rw [memberTokens, List.cons_append, List.cons_append, List.append_assoc]
    · exact (separated_punctuation rfl (separated_punctuation rfl hvalue).1).1
    · simp

end

/-! ## Reading tokens -/

theorem tokens_eq_cons (json : Json) : ∃ token rest, json.tokens = token :: rest ∧ token ≠ .endArray := by
  cases json <;> exact ⟨_, _, rfl, nofun⟩

/-- Before its first item an array is read like before any other. -/
theorem foldlM_itemOrEnd {items : List Json} (h : items ≠ []) (stack : List Frame) :
    (itemTokens items).foldlM Reader.step (.itemOrEnd, stack) =
      (itemTokens items).foldlM Reader.step (.value, .array [] :: stack) := by
  -- only the end of the array is read otherwise, and no item begins with it
  obtain ⟨token, rest, hrest, hne⟩ : ∃ token rest, itemTokens items = token :: rest ∧
      token ≠ .endArray := by
    obtain ⟨item, items, rfl⟩ := List.exists_cons_of_ne_nil h
    obtain ⟨token, rest, htokens, hne⟩ := tokens_eq_cons item
    cases items with
    | nil => exact ⟨token, _, by rw [itemTokens, htokens, List.cons_append], hne⟩
    | cons next items =>
      refine ⟨token, rest ++ .comma :: itemTokens (next :: items), ?_, hne⟩
      rw [itemTokens, htokens, List.cons_append]
      simp
  rw [hrest, List.foldlM_cons, List.foldlM_cons]
  simp [Reader.step, hne]

theorem foldlM_nameOrEnd {members : List (JsonString × Json)} (h : members ≠ []) (stack : List Frame) :
    (memberTokens members).foldlM Reader.step (.nameOrEnd, stack) =
      (memberTokens members).foldlM Reader.step (.name [], stack) := by
  obtain ⟨⟨name, value⟩, members, rfl⟩ := List.exists_cons_of_ne_nil h
  cases members with
  | nil => rfl
  | cons next members =>
    rw [memberTokens]
    · rfl
    · simp

mutual

/-- The tokens of a tree complete it. -/
theorem foldlM_tokens (json : Json) (stack : List Frame) :
    json.tokens.foldlM Reader.step (.value, stack) = some (.separator json, stack) := by
  match json with
  | null => rfl
  | bool b => rfl
  | number n => rfl
  | string s => rfl
  | array items =>
    show (itemTokens items).foldlM Reader.step (.itemOrEnd, stack) = _
    by_cases h : items = []
    · subst h
      rfl
    · rw [foldlM_itemOrEnd h]
      exact foldlM_itemTokens items h [] stack
  | object members =>
    show (memberTokens members).foldlM Reader.step (.nameOrEnd, stack) = _
    by_cases h : members = []
    · subst h
      rfl
    · rw [foldlM_nameOrEnd h]
      exact foldlM_memberTokens members h [] stack

/-- The tokens of items complete the array that already holds `done`. -/
theorem foldlM_itemTokens (items : List Json) (h : items ≠ []) (done : List Json)
    (stack : List Frame) :
    (itemTokens items).foldlM Reader.step (.value, .array done :: stack) =
      some (.separator (array (done.reverse ++ items)), stack) := by
  match items with
  | [] => exact absurd rfl h
  | [item] =>
    rw [itemTokens, List.foldlM_append, foldlM_tokens item]
    simp [Reader.step]
  | item :: next :: items =>
    rw [itemTokens, List.foldlM_append, foldlM_tokens item]
    · show (itemTokens (next :: items)).foldlM Reader.step (.value, .array (item :: done) :: stack) = _
      rw [foldlM_itemTokens (next :: items) (by simp) (item :: done) stack]
      simp
    · simp

/-- The tokens of members complete the object that already holds `done`. -/
theorem foldlM_memberTokens (members : List (JsonString × Json)) (h : members ≠ [])
    (done : List (JsonString × Json)) (stack : List Frame) :
    (memberTokens members).foldlM Reader.step (.name done, stack) =
      some (.separator (object (done.reverse ++ members)), stack) := by
  match members with
  | [] => exact absurd rfl h
  | [(name, value)] =>
    rw [memberTokens]
    show (value.tokens ++ [JsonToken.endObject]).foldlM Reader.step
      (.value, .object done name :: stack) = _
    rw [List.foldlM_append, foldlM_tokens value]
    simp [Reader.step]
  | (name, value) :: next :: members =>
    rw [memberTokens]
    · show (value.tokens ++ JsonToken.comma :: memberTokens (next :: members)).foldlM Reader.step
        (.value, .object done name :: stack) = _
      rw [List.foldlM_append, foldlM_tokens value]
      show (memberTokens (next :: members)).foldlM Reader.step (.name ((name, value) :: done), stack) = _
      rw [foldlM_memberTokens (next :: members) (by simp) ((name, value) :: done) stack]
      simp
    · simp

end

/-! ## Reading texts -/

theorem readable_itemTokens {items : List Json}
    (h : ∀ item ∈ items, ∀ token ∈ item.tokens, token.Readable) :
    ∀ token ∈ itemTokens items, token.Readable := by
  induction items with
  | nil => simp [itemTokens, JsonToken.Readable]
  | cons item items ih =>
    have hitem := h item List.mem_cons_self
    have hitems := ih fun next hnext => h next (List.mem_cons_of_mem _ hnext)
    cases items with
    | nil =>
      intro token ht
      rcases List.mem_append.1 ht with ht | ht
      · exact hitem token ht
      · rw [List.mem_singleton.1 ht]
        trivial
    | cons next items =>
      rw [itemTokens]
      · intro token ht
        rcases List.mem_append.1 ht with ht | ht
        · exact hitem token ht
        · rcases List.mem_cons.1 ht with rfl | ht
          · trivial
          · exact hitems token ht
      · simp

theorem readable_memberTokens {members : List (JsonString × Json)}
    (h : ∀ member ∈ members, ∀ token ∈ member.2.tokens, token.Readable) :
    ∀ token ∈ memberTokens members, token.Readable := by
  induction members with
  | nil => simp [memberTokens, JsonToken.Readable]
  | cons member members ih =>
    obtain ⟨name, value⟩ := member
    have hvalue := h (name, value) List.mem_cons_self
    have hmembers := ih fun next hnext => h next (List.mem_cons_of_mem _ hnext)
    cases members with
    | nil =>
      rw [memberTokens]
      intro token ht
      rcases List.mem_cons.1 ht with rfl | ht
      · trivial
      rcases List.mem_cons.1 ht with rfl | ht
      · trivial
      rcases List.mem_append.1 ht with ht | ht
      · exact hvalue token ht
      · rw [List.mem_singleton.1 ht]
        trivial
    | cons next members =>
      rw [memberTokens]
      · intro token ht
        rcases List.mem_cons.1 ht with rfl | ht
        · trivial
        rcases List.mem_cons.1 ht with rfl | ht
        · trivial
        rcases List.mem_append.1 ht with ht | ht
        · exact hvalue token ht
        · rcases List.mem_cons.1 ht with rfl | ht
          · trivial
          · exact hmembers token ht
      · simp

/-- A tree is read back from its text if its numbers can be read. -/
theorem ofText?_text {json : Json} (h : ∀ token ∈ json.tokens, token.Readable) :
    ofText? (String.ofList json.text) = some json := by
  have hseparated : Separated json.tokens := by
    have := separated_tokens json (List.isChain_nil : Separated []) nofun
    rwa [List.append_nil] at this
  have hlex : JsonToken.lex? (String.ofList json.text).toList = some json.tokens := by
    rw [String.toList_ofList]
    exact JsonToken.lex?_flatMap_text h hseparated
  rw [ofText?, hlex]
  show ofTokens? json.tokens = some json
  rw [ofTokens?, foldlM_tokens]

end DocStore.Json
