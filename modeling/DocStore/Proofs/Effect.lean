/-
Computations on a state, how they end and what they keep. What relates the states around a
computation, one way if it succeeds and another if it fails, is put together from its calls. A
relation that holds of every state to itself, and passes through two steps in a row, is kept by a
computation if each of its calls keeps it, whether the computation succeeds or fails.
-/
import Mathlib.Order.Defs.Unbundled

namespace DocStore

variable {ε σ α β : Type}

/-! ## Steps in a row -/

section
variable {x : EStateM ε σ α} {before after : σ}

theorem bind_ok {a : α} (h : x before = .ok a after) (f : α → EStateM ε σ β) :
    (x >>= f) before = f a after := by
  simp [bind, EStateM.bind, h]

theorem bind_error {error : ε} (h : x before = .error error after) (f : α → EStateM ε σ β) :
    (x >>= f) before = .error error after := by
  simp [bind, EStateM.bind, h]

end

/-! ## How computations end -/

/-- The states before and after the computation are related by `Good` where it succeeds, and by
`Bad`, along with the error, where it fails. -/
structure Ends (Good : σ → σ → Prop) (Bad : σ → ε → σ → Prop) (x : EStateM ε σ α) : Prop where
  of_ok : ∀ {before a after}, x before = .ok a after → Good before after
  of_error : ∀ {before error after}, x before = .error error after → Bad before error after

namespace Ends

variable {Good Good' Good'' : σ → σ → Prop} {Bad Bad' Bad'' : σ → ε → σ → Prop}

theorem mono {x : EStateM ε σ α} (h : Ends Good Bad x) (hgood : ∀ a b, Good a b → Good' a b)
    (hbad : ∀ a error b, Bad a error b → Bad' a error b) : Ends Good' Bad' x :=
  ⟨fun hx => hgood _ _ (h.of_ok hx), fun hx => hbad _ _ _ (h.of_error hx)⟩

protected theorem pure (hrefl : ∀ state, Good state state) (a : α) :
    Ends Good Bad (pure a : EStateM ε σ α) := by
  constructor
  · rintro before _ _ ⟨⟩
    exact hrefl before
  · rintro before _ _ ⟨⟩

/-- A computation in two parts ends well if both do, and badly if the first does, or the second
after the first has ended well. -/
protected theorem bind {x : EStateM ε σ α} {f : α → EStateM ε σ β} (hx : Ends Good Bad x)
    (hf : ∀ a, Ends Good' Bad' (f a)) (hgood : ∀ a b c, Good a b → Good' b c → Good'' a c)
    (hfirst : ∀ a error b, Bad a error b → Bad'' a error b)
    (hsecond : ∀ a b error c, Good a b → Bad' b error c → Bad'' a error c) :
    Ends Good'' Bad'' (x >>= f) := by
  constructor
  · intro before b after h
    cases hrun : x before with
    | ok a middle =>
      rw [bind_ok hrun] at h
      exact hgood _ _ _ (hx.of_ok hrun) ((hf a).of_ok h)
    | error error middle =>
      rw [bind_error hrun] at h
      cases h
  · intro before error after h
    cases hrun : x before with
    | ok a middle =>
      rw [bind_ok hrun] at h
      exact hsecond _ _ _ _ (hx.of_ok hrun) ((hf a).of_error h)
    | error error middle =>
      rw [bind_error hrun] at h
      cases h
      exact hfirst _ _ _ (hx.of_error hrun)

/-- Making an answer of what a computation returns does not change how it ends. -/
theorem bind_pure {x : EStateM ε σ α} {f : α → EStateM ε σ β} (hx : Ends Good Bad x)
    (hf : ∀ a, ∃ b, f a = pure b) : Ends Good Bad (x >>= f) := by
  have hsame : ∀ a, Ends Eq (fun _ _ _ => False) (f a) := by
    intro a
    obtain ⟨b, hb⟩ := hf a
    rw [hb]
    exact .pure (fun _ => rfl) b
  exact .bind hx hsame (fun _ _ _ hab hbc => hbc ▸ hab) (fun _ _ _ h => h) fun _ _ _ _ _ h => h.elim

end Ends

/-! ## What is kept -/

/-- The relation holds between the states before and after the computation, also if it fails. -/
structure Keeps (R : σ → σ → Prop) (x : EStateM ε σ α) : Prop where
  of_ok : ∀ {before a after}, x before = .ok a after → R before after
  of_error : ∀ {before error after}, x before = .error error after → R before after

namespace Keeps

variable {R S : σ → σ → Prop}

theorem iff_ends {x : EStateM ε σ α} : Keeps R x ↔ Ends R (fun before _ after => R before after) x :=
  ⟨fun h => ⟨h.of_ok, h.of_error⟩, fun h => ⟨h.of_ok, h.of_error⟩⟩

theorem mono {x : EStateM ε σ α} (h : Keeps R x) (hRS : ∀ a b, R a b → S a b) : Keeps S x :=
  iff_ends.2 ((iff_ends.1 h).mono hRS fun _ _ _ => hRS _ _)

protected theorem pure [Std.Refl R] (a : α) : Keeps R (pure a : EStateM ε σ α) := by
  constructor
  · intro before b after h
    cases h
    exact refl_of R before
  · intro before error after h
    cases h

protected theorem throw [Std.Refl R] (error : ε) : Keeps R (throw error : EStateM ε σ α) := by
  constructor
  · intro before a after h
    cases h
  · intro before error after h
    cases h
    exact refl_of R before

protected theorem bind [IsTrans σ R] {x : EStateM ε σ α} {f : α → EStateM ε σ β} (hx : Keeps R x)
    (hf : ∀ a, Keeps R (f a)) : Keeps R (x >>= f) :=
  iff_ends.2 <| Ends.bind (iff_ends.1 hx) (fun a => iff_ends.1 (hf a)) (fun _ _ _ => trans_of R)
    (fun _ _ _ h => h) fun _ _ _ _ => trans_of R

/-- What a computation does to the state it does along with one after it that leaves the state
alone. -/
theorem bind_same {x : EStateM ε σ α} {f : α → EStateM ε σ β} (hx : Keeps R x)
    (hf : ∀ a, Keeps Eq (f a)) : Keeps R (x >>= f) :=
  iff_ends.2 <| Ends.bind (iff_ends.1 hx) (fun a => iff_ends.1 (hf a))
    (fun _ _ _ hab hbc => hbc ▸ hab) (fun _ _ _ h => h) fun _ _ _ _ hab (hbc : _ = _) => hbc ▸ hab

end Keeps

end DocStore
