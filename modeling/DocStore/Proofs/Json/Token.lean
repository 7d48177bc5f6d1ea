/-
The lexer undoes the writing of tokens. A literal ends where the next token begins, so a token
list is read back when no two literals in it are neighbours and its numbers can be read.
-/
import DocStore.Json.Token
import DocStore.Proofs.Json.Number

namespace DocStore

theorem Hex.digit?_digitChar : ∀ n < 16, Hex.digit? (Nat.digitChar n) = some n := by decide

namespace JsonToken

/-! ## Strings -/

theorem feed_string {done : List JsonToken} {begun : Begun} {c : Char} (hquote : c ≠ '"')
    (hescape : c ≠ '\\') (hlow : ¬ c.toNat < 32) :
    Lexer.feed (done, .string begun) c = some (done, .string (begun.push c)) := by
  simp [Lexer.feed, step, stepString, hquote, hescape, hlow]

/-- A control character is written as a code unit of four digits. -/
theorem feed_control {done : List JsonToken} {begun : Begun} {c : Char} (hlow : c.toNat < 32) :
    ['\\', 'u', '0', '0', hexDigit (c.toNat / 16), hexDigit (c.toNat % 16)].foldlM Lexer.feed
      (done, .string begun) = some (done, .string (begun.push c)) := by
  have hhigh := Hex.digit?_digitChar (c.toNat / 16) (by omega)
  have hrest := Hex.digit?_digitChar (c.toNat % 16) (by omega)
  have hunit : ((0 * 16 + 0) * 16 + 0) * 16 + c.toNat / 16 = c.toNat / 16 := by omega
  have hchar : c.toNat / 16 * 16 + c.toNat % 16 = c.toNat := by omega
  -- a unit so low is no half of a pair
  have hclose : closeUnit begun none c.toNat = .string (begun.push c) := by
    rw [closeUnit]
    simp only [show ¬ (0xD800 ≤ c.toNat ∧ c.toNat < 0xDC00) by omega,
      show ¬ (0xDC00 ≤ c.toNat ∧ c.toNat < 0xE000) by omega, if_false, decide_false,
      Bool.false_eq_true, Char.ofNat_toNat]
  have hzero : Hex.digit? '0' = some 0 := by decide
  simp [Lexer.feed, step, stepString, hexDigit, hhigh, hrest, hzero, hchar, hclose]

theorem feed_escaped (done : List JsonToken) (begun : Begun) (c : Char) :
    (escaped c).foldlM Lexer.feed (done, .string begun) = some (done, .string (begun.push c)) := by
  unfold escaped
  split_ifs with h₁ h₂ h₃ h₄ h₅ h₆ h₇ hlow
  · subst h₁; rfl
  · subst h₂; rfl
  · subst h₃; rfl
  · subst h₄; rfl
  · subst h₅; rfl
  · subst h₆; rfl
  · subst h₇; rfl
  · exact feed_control hlow
  · simpa using feed_string h₁ h₂ hlow

theorem feed_flatMap_escaped (done : List JsonToken) (cs begun : List Char) :
    (cs.flatMap escaped).foldlM Lexer.feed (done, .string (some begun)) =
      some (done, .string (some (cs.reverse ++ begun))) := by
  induction cs generalizing begun with
  | nil => rfl
  | cons c cs ih =>
    rw [List.flatMap_cons, List.foldlM_append, feed_escaped]
    show (cs.flatMap escaped).foldlM Lexer.feed (done, .string (some (c :: begun))) = _
    rw [ih, List.reverse_cons, List.append_assoc, List.singleton_append]

/-! ## What the lexer has read -/

/-- The lexer has read `tokens` if the text may end here. -/
def Lexer.Read (lexer : Lexer) (tokens : List JsonToken) : Prop :=
  ∃ last, finish? lexer.2 = some last ∧ lexer.1.reverse ++ last = tokens

theorem lex?_eq_some {cs : List Char} {lexer : Lexer} {tokens : List JsonToken}
    (hfold : cs.foldlM Lexer.feed (([], .between) : Lexer) = some lexer)
    (hread : lexer.Read tokens) : lex? cs = some tokens := by
  obtain ⟨last, hfinish, rfl⟩ := hread
  obtain ⟨done, mode⟩ := lexer
  simp [lex?, hfold, hfinish]

theorem Lexer.Read.between {lexer : Lexer} {tokens : List JsonToken} (h : lexer.Read tokens)
    (hmode : lexer.2 = .between) : lexer = (tokens.reverse, .between) := by
  obtain ⟨last, hfinish, rfl⟩ := h
  obtain ⟨done, mode⟩ := lexer
  subst hmode
  cases hfinish
  simp

/-- A character that belongs to no literal ends the literal before it. -/
theorem Lexer.Read.feed {lexer : Lexer} {tokens ended : List JsonToken} {mode : Mode} {c : Char}
    (h : lexer.Read tokens) (hword : isWordChar c = false)
    (hstep : stepBetween c = some (ended, mode)) :
    lexer.feed c = some (ended.reverse ++ tokens.reverse, mode) := by
  obtain ⟨last, hfinish, rfl⟩ := h
  obtain ⟨done, _ | begun | _ | _ | _ | _ | _⟩ := lexer
  · cases hfinish
    simp [Lexer.feed, step, hstep]
  · obtain ⟨token, htoken, rfl⟩ := Option.map_eq_some_iff.1 hfinish
    simp [Lexer.feed, step, hword, htoken, hstep]
  all_goals cases hfinish

/-! ## Literals -/

/-- Whether the token is written as a literal. -/
def isWord : JsonToken → Bool
  | null => true
  | bool _ => true
  | number _ => true
  | _ => false

/-- A token that is read back. -/
def Readable : JsonToken → Prop
  | number n => n.Readable
  | _ => True

theorem isWordChar_of_isDigit {c : Char} (h : c.isDigit) : isWordChar c := by
  simp [isWordChar, Char.isAlphanum, h]

theorem isWordChar_of_mem_replicate {c : Char} {count : Nat} (h : c ∈ List.replicate count '0') :
    isWordChar c := by
  rw [List.eq_of_mem_replicate h]
  decide

section
variable {digits : List Char} (hdigits : ∀ c ∈ digits, isWordChar c)
include hdigits

theorem isWordChar_of_mem_positional {places : Int} :
    ∀ c ∈ JsonNumber.positional digits places, isWordChar c := by
  intro c hc
  unfold JsonNumber.positional at hc
  split at hc
  · simp only [List.cons_append, List.mem_cons, List.mem_append] at hc
    rcases hc with rfl | rfl | hc | hc
    · decide
    · decide
    · exact isWordChar_of_mem_replicate hc
    · exact hdigits c hc
  · simp only [List.append_assoc, List.mem_append, List.mem_cons] at hc
    rcases hc with hc | hc | rfl | hc
    · exact hdigits c (List.mem_of_mem_take hc)
    · exact isWordChar_of_mem_replicate hc
    · decide
    · split at hc
      · rw [List.mem_singleton.1 hc]
        decide
      · exact hdigits c (List.mem_of_mem_drop hc)

theorem isWordChar_of_mem_scientific {exponent : Int} :
    ∀ c ∈ JsonNumber.scientific digits exponent, isWordChar c := by
  intro c hc
  unfold JsonNumber.scientific at hc
  simp only [List.mem_append, List.mem_cons] at hc
  rcases hc with hc | rfl | rfl | hc
  · split at hc
    · rcases List.mem_cons.1 hc with rfl | hc
      · exact hdigits _ List.mem_cons_self
      · rcases List.mem_cons.1 hc with rfl | hc
        · decide
        · exact hdigits c (List.mem_cons_of_mem _ hc)
    · exact hdigits c hc
  · decide
  · split <;> decide
  · exact isWordChar_of_isDigit (Decimal.isDigit_of_mem_digits hc)

end

theorem isWordChar_of_mem_numberText {n : JsonNumber} : ∀ c ∈ n.text, isWordChar c := by
  have hdigits : ∀ k, ∀ c ∈ Decimal.digits k, isWordChar c := fun k c hc =>
    isWordChar_of_isDigit (Decimal.isDigit_of_mem_digits hc)
  have hsigned : ∀ (negative : Prop) [Decidable negative] cs, (∀ c ∈ cs, isWordChar c) →
      ∀ c ∈ (if negative then '-' :: cs else cs), isWordChar c := by
    intro negative _ cs hcs c hc
    split at hc
    · rcases List.mem_cons.1 hc with rfl | hc
      · decide
      · exact hcs c hc
    · exact hcs c hc
  cases n with
  | int n => exact hsigned _ _ (hdigits _)
  | float x =>
    refine hsigned _ _ fun c hc => ?_
    split at hc
    · exact isWordChar_of_mem_positional (hdigits _) c hc
    · exact isWordChar_of_mem_scientific (hdigits _) c hc

theorem isWordChar_of_mem_text {token : JsonToken} (hword : token.isWord) :
    ∀ c ∈ token.text, isWordChar c := by
  cases token with
  | null => exact List.all_eq_true.1 rfl
  | bool b => cases b <;> exact List.all_eq_true.1 rfl
  | number n => exact isWordChar_of_mem_numberText
  | _ => cases hword

theorem ofWord?_text {token : JsonToken} (hword : token.isWord) (hreadable : token.Readable) :
    ofWord? token.text = some token := by
  cases token with
  | null => rfl
  | bool b => cases b <;> rfl
  | number n =>
    have h := JsonNumber.ofLiteral?_text hreadable
    show ofWord? n.text = _
    unfold ofWord?
    split
    · rename_i heq
      rw [heq] at h
      cases h
    · rename_i heq
      rw [heq] at h
      cases h
    · rename_i heq
      rw [heq] at h
      cases h
    · rw [h]
      rfl
  | _ => cases hword

theorem feed_word (done : List JsonToken) {cs : List Char} (begun : List Char)
    (h : ∀ c ∈ cs, isWordChar c) :
    cs.foldlM Lexer.feed (done, .word begun) = some (done, .word (cs.reverse ++ begun)) := by
  induction cs generalizing begun with
  | nil => rfl
  | cons c cs ih =>
    have hc := h c List.mem_cons_self
    rw [List.foldlM_cons]
    have hfeed : Lexer.feed (done, .word begun) c = some (done, .word (c :: begun)) := by
      simp [Lexer.feed, step, hc]
    rw [hfeed]
    show cs.foldlM Lexer.feed (done, .word (c :: begun)) = _
    rw [ih _ fun d hd => h d (List.mem_cons_of_mem _ hd), List.reverse_cons, List.append_assoc,
      List.singleton_append]

theorem stepBetween_word {c : Char} (h : isWordChar c) : stepBetween c = some ([], .word [c]) := by
  have hblank : isBlank c = false := by
    by_contra hblank
    simp only [isBlank, Bool.not_eq_false, Bool.or_eq_true, beq_iff_eq] at hblank
    rcases hblank with ((rfl | rfl) | rfl) | rfl <;> exact absurd h (by decide)
  have hquote : c ≠ '"' := by
    rintro rfl
    exact absurd h (by decide)
  simp [stepBetween, hblank, hquote, h]

/-! ## Token lists -/

section
variable {lexer : Lexer} {before : List JsonToken} {token : JsonToken} (hread : lexer.Read before)

include hread

/-- The text of a literal leaves the lexer within the literal. -/
theorem read_word (hreadable : token.Readable) (hword : token.isWord)
    (hbetween : lexer.2 = .between) :
    ∃ after, token.text.foldlM Lexer.feed lexer = some after ∧ after.Read (before ++ [token]) := by
  have hchars := isWordChar_of_mem_text hword
  have htoken := ofWord?_text hword hreadable
  have hne : token.text ≠ [] := by
    intro hnil
    rw [hnil] at htoken
    cases htoken
  obtain ⟨c, cs, hcs⟩ := List.exists_cons_of_ne_nil hne
  rw [hread.between hbetween]
  rw [hcs] at hchars htoken ⊢
  have hfirst : Lexer.feed (before.reverse, .between) c = some (before.reverse, .word [c]) := by
    simp [Lexer.feed, step, stepBetween_word (hchars c List.mem_cons_self)]
  refine ⟨(before.reverse, .word (cs.reverse ++ [c])), ?_, [token], ?_, ?_⟩
  · rw [List.foldlM_cons, hfirst]
    exact feed_word _ _ fun d hd => hchars d (List.mem_cons_of_mem _ hd)
  · simp [finish?, htoken]
  · simp

/-- The text of any other token ends with the token. -/
theorem foldlM_text_of_not_word (hword : token.isWord = false) :
    token.text.foldlM Lexer.feed lexer = some (token :: before.reverse, .between) := by
  have hpunctuation : ∀ c, isWordChar c = false → stepBetween c = some ([token], .between) →
      [c].foldlM Lexer.feed lexer = some (token :: before.reverse, .between) := by
    intro c hc hstep
    simp [hread.feed hc hstep]
  have hopen : lexer.feed '"' = some (before.reverse, .string (some [])) :=
    hread.feed (by decide) (rfl : stepBetween '"' = some ([], .string (some [])))
  cases token with
  | null => cases hword
  | bool b => cases hword
  | number n => cases hword
  | string s =>
    cases s with
    | none =>
      show ('"' :: _ : List Char).foldlM Lexer.feed lexer = _
      rw [List.foldlM_cons, hopen]
      rfl
    | some s =>
      show ('"' :: (s.toList.flatMap escaped ++ ['"']) : List Char).foldlM Lexer.feed lexer = _
      rw [List.foldlM_cons, hopen]
      show (s.toList.flatMap escaped ++ ['"']).foldlM Lexer.feed
        (before.reverse, .string (some [])) = _
      rw [List.foldlM_append, feed_flatMap_escaped]
      simp [Lexer.feed, step, stepString]
  | beginArray => exact hpunctuation '[' (by decide) rfl
  | endArray => exact hpunctuation ']' (by decide) rfl
  | beginObject => exact hpunctuation '\x7b' (by decide) rfl
  | endObject => exact hpunctuation '\x7d' (by decide) rfl
  | comma => exact hpunctuation ',' (by decide) rfl
  | colon => exact hpunctuation ':' (by decide) rfl

/-- After the text of a token the lexer has read the token too. Only a literal leaves it within
a literal. -/
theorem read_text (hreadable : token.Readable) (hbetween : token.isWord → lexer.2 = .between) :
    ∃ after, token.text.foldlM Lexer.feed lexer = some after ∧ after.Read (before ++ [token]) ∧
      (token.isWord = false → after.2 = .between) := by
  cases hword : token.isWord with
  | true =>
    obtain ⟨after, hfold, hafter⟩ := read_word hread hreadable hword (hbetween hword)
    exact ⟨after, hfold, hafter, nofun⟩
  | false =>
    exact ⟨_, foldlM_text_of_not_word hread hword, ⟨[], rfl, by simp⟩, fun _ => rfl⟩

end

/-- No two literals are neighbours. -/
def Separated (tokens : List JsonToken) : Prop :=
  tokens.IsChain fun a b => ¬ (a.isWord ∧ b.isWord)

theorem Separated.cons {token : JsonToken} {rest : List JsonToken} (h : Separated rest)
    (hnext : token.isWord → ∀ next ∈ rest.head?, next.isWord = false) :
    Separated (token :: rest) := by
  cases rest with
  | nil => exact List.isChain_singleton _
  | cons next rest =>
    refine List.isChain_cons_cons.2 ⟨?_, h⟩
    rintro ⟨hword, hword'⟩
    simp [hnext hword next rfl] at hword'

theorem read_flatMap_text {tokens : List JsonToken} {lexer : Lexer} {before : List JsonToken}
    (hread : lexer.Read before) (hreadable : ∀ token ∈ tokens, token.Readable)
    (hseparated : Separated tokens)
    (hbetween : ∀ token ∈ tokens.head?, token.isWord → lexer.2 = .between) :
    ∃ after, (tokens.flatMap text).foldlM Lexer.feed lexer = some after ∧
      after.Read (before ++ tokens) := by
  induction tokens generalizing lexer before with
  | nil => exact ⟨lexer, rfl, by rwa [List.append_nil]⟩
  | cons token tokens ih =>
    obtain ⟨after, hfold, hafter, hmode⟩ := read_text hread (hreadable token List.mem_cons_self)
      (hbetween token rfl)
    -- if the next token is a literal this one is none, and the lexer is between tokens
    have hnext : ∀ next ∈ tokens.head?, next.isWord → after.2 = .between := by
      intro next hnext hword
      apply hmode
      obtain ⟨rest, rfl⟩ := List.head?_eq_some_iff.1 hnext
      simpa [hword] using (List.isChain_cons_cons.1 hseparated).1
    obtain ⟨last, hrest, hlast⟩ := ih hafter
      (fun next hnext => hreadable next (List.mem_cons_of_mem _ hnext)) hseparated.tail hnext
    refine ⟨last, ?_, ?_⟩
    · rw [List.flatMap_cons, List.foldlM_append, hfold]
      exact hrest
    · rwa [List.append_assoc, List.singleton_append] at hlast

/-- The tokens of a text are those it was written from. -/
theorem lex?_flatMap_text {tokens : List JsonToken} (hreadable : ∀ token ∈ tokens, token.Readable)
    (hseparated : Separated tokens) : lex? (tokens.flatMap text) = some tokens := by
  have hstart : Lexer.Read ([], .between) [] := ⟨[], rfl, rfl⟩
  obtain ⟨lexer, hfold, hread⟩ := read_flatMap_text hstart hreadable hseparated fun _ _ _ => rfl
  exact lex?_eq_some hfold hread

end JsonToken

end DocStore
