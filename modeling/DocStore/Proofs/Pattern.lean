/-
The texts of patterns. A pattern accepts exactly the texts that it matches: what is left of it after
a character matches what may follow that character. For the kinds of patterns that are counted
characters of one class, matching is a matter of the length of the text and of the class.
-/
import DocStore.Pattern
import Mathlib.Tactic

namespace DocStore.Pattern

/-- The text is one of the pattern. -/
inductive Matches : Pattern → List Char → Prop
  | nothing : Matches nothing []
  | one {allowed : Char → Bool} {c : Char} (h : allowed c = true) : Matches (one allowed) [c]
  | next {p q : Pattern} {s t : List Char} (hp : Matches p s) (hq : Matches q t) :
    Matches (next p q) (s ++ t)
  | left {p q : Pattern} {s : List Char} (h : Matches p s) : Matches (either p q) s
  | right {p q : Pattern} {s : List Char} (h : Matches q s) : Matches (either p q) s
  | stop {p : Pattern} : Matches (many p) []
  | again {p : Pattern} {s t : List Char} (h : Matches p s) (hrest : Matches (many p) t) :
    Matches (many p) (s ++ t)

variable {p q : Pattern} {s : List Char} {c : Char}

/-! ## Matching, pattern by pattern -/

@[simp] theorem not_matches_never : ¬ never.Matches s := by
  intro h
  cases h

@[simp] theorem matches_nothing_iff : nothing.Matches s ↔ s = [] := by
  constructor
  · intro h
    cases h
    rfl
  · rintro rfl
    exact .nothing

@[simp] theorem matches_one_iff {allowed : Char → Bool} :
    (one allowed).Matches s ↔ ∃ c, allowed c = true ∧ s = [c] := by
  constructor
  · intro h
    cases h with
    | one h => exact ⟨_, h, rfl⟩
  · rintro ⟨c, h, rfl⟩
    exact .one h

@[simp] theorem matches_next_iff :
    (next p q).Matches s ↔ ∃ a b, p.Matches a ∧ s = a ++ b ∧ q.Matches b := by
  constructor
  · intro h
    cases h with
    | next hp hq => exact ⟨_, _, hp, rfl, hq⟩
  · rintro ⟨a, b, hp, rfl, hq⟩
    exact .next hp hq

@[simp] theorem matches_either_iff : (either p q).Matches s ↔ p.Matches s ∨ q.Matches s := by
  constructor
  · intro h
    cases h with
    | left h => exact .inl h
    | right h => exact .inr h
  · rintro (h | h)
    · exact .left h
    · exact .right h

/-- The first character of a repetition belongs to a first item that is not empty. -/
theorem matches_many_cons_iff :
    (many p).Matches (c :: s) ↔ ∃ a b, p.Matches (c :: a) ∧ s = a ++ b ∧ (many p).Matches b := by
  constructor
  · intro h
    generalize hp : many p = r at h
    generalize hs : c :: s = t at h
    induction h with
    | @again _ a b hitem hrest _ ih =>
      cases hp
      -- an empty item leaves the whole text to the items behind it
      cases a with
      | nil => exact ih rfl hs
      | cons d a =>
        cases hs
        exact ⟨a, b, hitem, rfl, hrest⟩
    | _ => cases hp <;> cases hs
  · rintro ⟨a, b, hitem, rfl, hrest⟩
    exact .again hitem hrest

theorem next_matches_cons_iff : (next p q).Matches (c :: s) ↔
    (∃ a b, p.Matches (c :: a) ∧ s = a ++ b ∧ q.Matches b) ∨ p.Matches [] ∧ q.Matches (c :: s) := by
  rw [matches_next_iff]
  constructor
  · rintro ⟨a, b, hp, hs, hq⟩
    cases a with
    | nil => exact .inr ⟨hp, hs ▸ hq⟩
    | cons d a =>
      cases hs
      exact .inl ⟨a, b, hp, rfl, hq⟩
  · rintro (⟨a, b, hp, rfl, hq⟩ | ⟨hp, hq⟩)
    · exact ⟨c :: a, b, hp, rfl, hq⟩
    · exact ⟨[], c :: s, hp, rfl, hq⟩

/-! ## Following a text -/

theorem takesNothing_iff : p.takesNothing = true ↔ p.Matches [] := by
  induction p with
  | never => simp [takesNothing]
  | nothing => simp [takesNothing]
  | one allowed => simp [takesNothing]
  | next p q ihp ihq => simp [takesNothing, ihp, ihq]
  | either p q ihp ihq => simp [takesNothing, ihp, ihq]
  | many p => simp [takesNothing, Matches.stop]

@[simp] theorem matches_andThen_iff : (andThen p q).Matches s ↔ (next p q).Matches s := by
  unfold andThen
  split
  · simp
  · simp
  · rfl

@[simp] theorem matches_orElse_iff : (orElse p q).Matches s ↔ (either p q).Matches s := by
  unfold orElse
  split
  · simp
  · simp
  · rfl

/-- What is left of a pattern after a character matches what may follow that character. -/
theorem matches_after_iff : (p.after c).Matches s ↔ p.Matches (c :: s) := by
  induction p generalizing s with
  | never => simp [after]
  | nothing => simp [after]
  | one allowed =>
    rw [matches_one_iff, after]
    split
    · rename_i hallowed
      rw [matches_nothing_iff]
      constructor
      · rintro rfl
        exact ⟨c, hallowed, rfl⟩
      · rintro ⟨d, -, heq⟩
        exact (List.cons.inj heq).2
    · rename_i hrefused
      constructor
      · intro h
        exact absurd h not_matches_never
      · rintro ⟨d, hallowed, heq⟩
        obtain ⟨rfl, -⟩ := List.cons.inj heq
        exact absurd hallowed hrefused
  | next p q ihp ihq =>
    have hfirst : (andThen (p.after c) q).Matches s ↔
        ∃ a b, p.Matches (c :: a) ∧ s = a ++ b ∧ q.Matches b := by
      simp [ihp]
    rw [next_matches_cons_iff, ← takesNothing_iff, after]
    split
    · -- the character belongs to the first pattern, or this one takes nothing
      rename_i hnothing
      rw [matches_orElse_iff, matches_either_iff, hfirst, ihq]
      exact or_congr_right (iff_and_self.2 fun _ => hnothing)
    · rename_i hsomething
      rw [hfirst]
      exact (or_iff_left fun h => hsomething h.1).symm
  | either p q ihp ihq =>
    rw [after, matches_orElse_iff, matches_either_iff, ihp, ihq, matches_either_iff]
  | many p ih => simp [after, matches_many_cons_iff, ih]

/-- A pattern accepts exactly the texts that it matches. -/
theorem accepts_iff : p.accepts s = true ↔ p.Matches s := by
  induction s generalizing p with
  | nil => exact takesNothing_iff
  | cons c s ih => exact ih.trans matches_after_iff

/-! ## Kinds of patterns -/

@[simp] theorem matches_literal_iff : (literal c).Matches s ↔ s = [c] := by
  simp [literal]

@[simp] theorem matches_word_iff {cs : List Char} : (word cs).Matches s ↔ s = cs := by
  induction cs generalizing s with
  | nil => exact matches_nothing_iff
  | cons c cs ih => simp [word, ih]

@[simp] theorem matches_sequence_nil_iff : (sequence []).Matches s ↔ s = [] := matches_nothing_iff

@[simp] theorem matches_sequence_cons_iff {ps : List Pattern} : (sequence (p :: ps)).Matches s ↔
    ∃ a b, p.Matches a ∧ s = a ++ b ∧ (sequence ps).Matches b := matches_next_iff

@[simp] theorem matches_optional_iff : (optional p).Matches s ↔ p.Matches s ∨ s = [] := by
  rw [optional, matches_either_iff, matches_nothing_iff]

section
variable {allowed : Char → Bool}

@[simp] theorem matches_times_one_iff {count : Nat} : (times count (one allowed)).Matches s ↔
    s.length = count ∧ ∀ c ∈ s, allowed c = true := by
  induction count generalizing s with
  | zero => simp +contextual [times]
  | succ count ih =>
    simp only [times, matches_next_iff, matches_one_iff, ih]
    constructor
    · rintro ⟨_, rest, ⟨c, hc, rfl⟩, rfl, rfl, hrest⟩
      exact ⟨rfl, List.forall_mem_cons.2 ⟨hc, hrest⟩⟩
    · rintro ⟨hlength, hs⟩
      obtain ⟨c, rest, rfl⟩ := List.exists_cons_of_length_eq_add_one hlength
      obtain ⟨hc, hrest⟩ := List.forall_mem_cons.1 hs
      exact ⟨[c], rest, ⟨c, hc, rfl⟩, rfl, Nat.succ.inj hlength, hrest⟩

@[simp] theorem matches_many_one_iff :
    (many (one allowed)).Matches s ↔ ∀ c ∈ s, allowed c = true := by
  induction s with
  | nil => simp [Matches.stop]
  | cons c s ih =>
    rw [matches_many_cons_iff, List.forall_mem_cons, ← ih]
    simp

@[simp] theorem matches_atLeast_one_iff {least : Nat} : (atLeast least (one allowed)).Matches s ↔
    least ≤ s.length ∧ ∀ c ∈ s, allowed c = true := by
  simp only [atLeast, matches_next_iff, matches_times_one_iff, matches_many_one_iff]
  constructor
  · rintro ⟨a, b, ⟨rfl, ha⟩, rfl, hb⟩
    exact ⟨by simp, List.forall_mem_append.2 ⟨ha, hb⟩⟩
  · rintro ⟨hlength, hs⟩
    exact ⟨s.take least, s.drop least, ⟨List.length_take_of_le hlength,
      fun c hc => hs c (List.mem_of_mem_take hc)⟩, (List.take_append_drop ..).symm,
      fun c hc => hs c (List.mem_of_mem_drop hc)⟩

@[simp] theorem matches_atMost_one_iff {most : Nat} : (atMost most (one allowed)).Matches s ↔
    s.length ≤ most ∧ ∀ c ∈ s, allowed c = true := by
  induction most generalizing s with
  | zero => simp +contextual [atMost]
  | succ most ih =>
    simp only [atMost, matches_optional_iff, matches_next_iff, matches_one_iff, ih]
    cases s with
    | nil => simp
    | cons c s => simp [and_left_comm]

end

end DocStore.Pattern
