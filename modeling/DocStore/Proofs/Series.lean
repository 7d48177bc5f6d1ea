/-
A computation that may fail, made for one item of a list after another. It gives a result for the
whole list if it does for each item, and otherwise fails as it does for the first item for which it
gives none. So two lists are computed alike, their errors included, if their items are.
-/
import Mathlib.Tactic

namespace DocStore

variable {ε α β : Type} {f : α → Except ε β}

theorem map_eq_ok_iff {x : Except ε α} {g : α → β} {b : β} :
    g <$> x = .ok b ↔ ∃ a, x = .ok a ∧ g a = b := by
  cases x <;> simp [Functor.map, Except.map]

theorem mapM_eq_ok_iff (f : α → Except ε β) (list : List α) (result : List β) :
    list.mapM f = .ok result ↔ list.map f = result.map .ok := by
  induction list generalizing result with
  | nil => cases result <;> simp [pure, Except.pure]
  | cons a rest ih =>
    rw [List.mapM_cons, List.map_cons]
    cases f a with
    | error error => cases result <;> simp [bind, Except.bind]
    | ok b =>
      cases result with
      | nil => cases rest.mapM f <;> simp [bind, Except.bind, pure, Except.pure]
      | cons c result =>
        have := ih result
        cases hrest : rest.mapM f <;> simp_all [bind, Except.bind, pure, Except.pure]

theorem mapM_eq_map_mapM {γ : Type} {f' : α → Except ε γ} {g : β → γ} {list : List α}
    (h : ∀ a ∈ list, f' a = g <$> f a) : list.mapM f' = List.map g <$> list.mapM f := by
  induction list with
  | nil => rfl
  | cons a rest ih =>
    rw [List.forall_mem_cons] at h
    rw [List.mapM_cons, List.mapM_cons, h.1, ih h.2]
    cases f a with
    | error error => rfl
    | ok b => cases rest.mapM f <;> rfl

/-- Each result is that of the item in its place. -/
theorem forall₂_of_mapM_eq_ok {list : List α} {result : List β} (h : list.mapM f = .ok result) :
    List.Forall₂ (fun a b => f a = .ok b) list result := by
  have hmap := (mapM_eq_ok_iff f list result).1 h
  rw [← List.forall₂_eq_eq_eq, List.forall₂_map_left_iff, List.forall₂_map_right_iff] at hmap
  exact hmap

theorem exists_of_mapM_eq_ok {list : List α} {result : List β} (h : list.mapM f = .ok result)
    {a : α} (ha : a ∈ list) : ∃ b, f a = .ok b := by
  have hmap := (mapM_eq_ok_iff f list result).1 h
  obtain ⟨b, -, hb⟩ := List.mem_map.1 (hmap ▸ List.mem_map_of_mem ha)
  exact ⟨b, hb.symm⟩

/-- The results have what the result of each item has. -/
theorem forall_of_mapM_eq_ok {P : β → Prop} {list : List α} {result : List β}
    (h : list.mapM f = .ok result) (hf : ∀ a ∈ list, ∀ b, f a = .ok b → P b) :
    ∀ b ∈ result, P b := by
  have hmap := (mapM_eq_ok_iff f list result).1 h
  intro b hb
  obtain ⟨a, ha, hab⟩ := List.mem_map.1 (hmap ▸ List.mem_map_of_mem hb)
  exact hf a ha b hab

/-- The error is that of the first item that has one. -/
theorem exists_first_of_mapM_eq_error {list : List α} {error : ε} (h : list.mapM f = .error error) :
    ∃ before a after, list = before ++ a :: after ∧ (∀ b ∈ before, ∃ c, f b = .ok c) ∧
      f a = .error error := by
  induction list with
  | nil => cases h
  | cons a rest ih =>
    rw [List.mapM_cons] at h
    cases ha : f a with
    | error first =>
      rw [ha] at h
      cases h
      exact ⟨[], a, rest, rfl, nofun, ha⟩
    | ok c =>
      rw [ha] at h
      cases hrest : rest.mapM f with
      | ok result =>
        rw [hrest] at h
        cases h
      | error first =>
        rw [hrest] at h
        cases h
        obtain ⟨before, b, after, rfl, hbefore, hb⟩ := ih hrest
        exact ⟨a :: before, b, after, rfl, List.forall_mem_cons.2 ⟨⟨c, ha⟩, hbefore⟩, hb⟩

/-! ## Agreement -/

/-- The computations fail with the same error, or give results that are the same in some sense. -/
inductive Agree (Same : α → α → Prop) : Except ε α → Except ε α → Prop
  | error (error : ε) : Agree Same (.error error) (.error error)
  | ok {a b : α} (h : Same a b) : Agree Same (.ok a) (.ok b)

namespace Agree

theorem refl {Same : α → α → Prop} (h : ∀ a, Same a a) (x : Except ε α) : Agree Same x x := by
  cases x with
  | error error => exact .error error
  | ok a => exact .ok (h a)

theorem map {Same : α → α → Prop} {Same' : β → β → Prop} {x y : Except ε α} (h : Agree Same x y)
    {f g : α → β} (hsame : ∀ a b, Same a b → Same' (f a) (g b)) :
    Agree Same' (f <$> x) (g <$> y) := by
  cases h with
  | error error => exact .error error
  | ok h => exact .ok (hsame _ _ h)

theorem mapM {Same : β → β → Prop} {xs ys : List α}
    (h : List.Forall₂ (fun x y => Agree Same (f x) (f y)) xs ys) :
    Agree (List.Forall₂ Same) (xs.mapM f) (ys.mapM f) := by
  induction h with
  | nil => exact .ok .nil
  | @cons x y xs ys h _ ih =>
    rw [List.mapM_cons, List.mapM_cons]
    generalize f x = first at h
    generalize f y = first' at h
    cases h with
    | error error => exact .error error
    | ok h => exact ih.map fun _ _ hrest => .cons h hrest

/-- Only one item of a list is another one. -/
theorem mapM_middle {Same : β → β → Prop} (hrefl : ∀ b, Same b b) {x y : α}
    (h : Agree Same (f x) (f y)) (before after : List α) :
    Agree (List.Forall₂ Same) ((before ++ x :: after).mapM f) ((before ++ y :: after).mapM f) := by
  have hself : ∀ list : List α, List.Forall₂ (fun x y => Agree Same (f x) (f y)) list list :=
    fun list => List.forall₂_same.2 fun a _ => .refl hrefl (f a)
  exact .mapM (List.rel_append (hself before) (.cons h (hself after)))

end Agree

end DocStore
