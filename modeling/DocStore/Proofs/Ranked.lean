/-
Ascending association lists as they are built and searched, whatever their entries are ranked by.
-/
import DocStore.Ranked
import Mathlib.Tactic

namespace DocStore.Ranked

variable {κ α : Type} {rank : κ → Bytes}

/-! ## Building -/

/-- A key that ranks above all others goes to the end. -/
theorem insert_of_forall_lt {entries : List (κ × α)} {key : κ} (value : α)
    (h : ∀ e ∈ entries, rank e.1 < rank key) :
    insert rank key value entries = entries ++ [(key, value)] := by
  induction entries with
  | nil => rfl
  | cons entry rest ih =>
    have hlt := h entry List.mem_cons_self
    have hnot : ¬ rank key < rank entry.1 := fun hgt => List.lt_irrefl _ (List.lt_trans hlt hgt)
    have hne : rank key ≠ rank entry.1 := fun heq => List.lt_irrefl _ (heq ▸ hlt)
    rw [insert, if_neg hnot, if_neg hne, ih fun e he => h e (List.mem_cons_of_mem _ he),
      List.cons_append]

/-- Building a list from ascending entries changes nothing. -/
theorem Ascending.ofList_eq {entries : List (κ × α)} (h : Ascending rank entries) :
    ofList rank entries = entries := by
  suffices hfold : ∀ built, (∀ e ∈ built, ∀ f ∈ entries, rank e.1 < rank f.1) →
      entries.foldl (fun built e => Ranked.insert rank e.1 e.2 built) built = built ++ entries from
    hfold [] nofun
  induction entries with
  | nil => simp
  | cons entry rest ih =>
    obtain ⟨above, tail⟩ := List.pairwise_cons.1 h
    intro built hbuilt
    have hentry : ∀ e ∈ built, rank e.1 < rank entry.1 := fun e he =>
      hbuilt e he entry List.mem_cons_self
    rw [List.foldl_cons, insert_of_forall_lt entry.2 hentry, ih tail]
    · simp
    · intro e he f hf
      rcases List.mem_append.1 he with he | he
      · exact hbuilt e he f (List.mem_cons_of_mem _ hf)
      · rw [List.mem_singleton.1 he]
        exact above f hf

/-- Replacing an entry leaves the keys as they were. -/
theorem Ascending.keys_insert_of_mem {entries : List (κ × α)} (h : Ascending rank entries) {key : κ}
    (hkey : key ∈ entries.map Prod.fst) (value : α) :
    (Ranked.insert rank key value entries).map Prod.fst = entries.map Prod.fst := by
  induction entries with
  | nil => cases hkey
  | cons entry rest ih =>
    obtain ⟨above, tail⟩ := List.pairwise_cons.1 h
    rw [Ranked.insert]
    rcases List.mem_cons.1 hkey with rfl | hrest
    · rw [if_neg (List.lt_irrefl _), if_pos rfl]
      rfl
    · obtain ⟨e, he, rfl⟩ := List.mem_map.1 hrest
      have hlt := above e he
      have hnot : ¬ rank e.1 < rank entry.1 := fun hgt => List.lt_irrefl _ (List.lt_trans hlt hgt)
      have hne : rank e.1 ≠ rank entry.1 := fun heq => List.lt_irrefl _ (heq ▸ hlt)
      rw [if_neg hnot, if_neg hne, List.map_cons, List.map_cons, ih tail hrest]

/-! ## Searching -/

section
variable [DecidableEq κ] [BEq κ] [LawfulBEq κ]

theorem lookup_cons (k key : κ) (value : α) (entries : List (κ × α)) :
    ((k, value) :: entries).lookup key = if key = k then some value else entries.lookup key := by
  rw [List.lookup_cons]
  by_cases h : key = k
  · rw [if_pos h, beq_iff_eq.2 h]
  · rw [if_neg h, beq_false_of_ne h]

/-- An ascending list has one value at most under each key. -/
theorem Ascending.lookup_eq_some_iff {entries : List (κ × α)} (h : Ascending rank entries) (key : κ)
    (value : α) : entries.lookup key = some value ↔ (key, value) ∈ entries := by
  induction entries with
  | nil => simp
  | cons entry rest ih =>
    obtain ⟨above, tail⟩ := List.pairwise_cons.1 h
    obtain ⟨k, v⟩ := entry
    rw [List.lookup_cons, List.mem_cons, Prod.mk.injEq]
    by_cases hk : key = k
    · subst hk
      have hrest : (key, value) ∉ rest := fun hmem => List.lt_irrefl _ (above (key, value) hmem)
      simp [hrest, eq_comm]
    · rw [beq_eq_false_iff_ne.2 hk]
      simp only [ih tail, hk, false_and, false_or]

/-- An ascending list whose keys are all found in another one that is as long has its keys. -/
theorem Ascending.keys_eq {xs ys : List (κ × α)} (hx : Ascending rank xs) (hy : Ascending rank ys)
    (hlength : xs.length = ys.length) (hfound : ∀ e ∈ xs, ∃ value, ys.lookup e.1 = some value) :
    xs.map Prod.fst = ys.map Prod.fst := by
  have hxs : (xs.map Prod.fst).Pairwise fun a b => rank a < rank b := List.pairwise_map.2 hx
  have hys : (ys.map Prod.fst).Pairwise fun a b => rank a < rank b := List.pairwise_map.2 hy
  have hnodup : (xs.map Prod.fst).Nodup := hxs.imp fun {a b} hlt => by
    rintro rfl
    exact List.lt_irrefl _ hlt
  have hsub : xs.map Prod.fst ⊆ ys.map Prod.fst := by
    intro key hkey
    obtain ⟨e, he, rfl⟩ := List.mem_map.1 hkey
    obtain ⟨value, hvalue⟩ := hfound e he
    exact List.mem_map.2 ⟨_, (hy.lookup_eq_some_iff _ _).1 hvalue, rfl⟩
  have hperm : List.Perm (xs.map Prod.fst) (ys.map Prod.fst) :=
    (List.subperm_of_subset hnodup hsub).perm_of_length_le (by simp [hlength])
  exact hperm.eq_of_pairwise
    (fun _ _ _ _ hab hba => absurd (List.lt_trans hab hba) (List.lt_irrefl _)) hxs hys

theorem lookup_insert (hrank : Function.Injective rank) (key other : κ) (value : α)
    (entries : List (κ × α)) :
    (insert rank key value entries).lookup other =
      if other = key then some value else entries.lookup other := by
  induction entries with
  | nil => rw [insert, lookup_cons]
  | cons entry rest ih =>
    obtain ⟨k, v⟩ := entry
    rw [insert]
    split
    · rw [lookup_cons]
    · split
      · rename_i heq
        obtain rfl := hrank heq
        rw [lookup_cons, lookup_cons]
        split <;> rfl
      · rename_i hne
        have hkey : key ≠ k := fun heq => hne (congrArg rank heq)
        rw [lookup_cons, lookup_cons, ih]
        by_cases h : other = k
        · rw [if_pos h, if_pos h, if_neg fun heq => hkey (heq.symm.trans h)]
        · rw [if_neg h, if_neg h]

theorem lookup_filter_ne (key other : κ) (entries : List (κ × α)) :
    (entries.filter fun e => e.1 != key).lookup other =
      if other = key then none else entries.lookup other := by
  induction entries with
  | nil => rw [List.filter_nil, List.lookup_nil, ite_self]
  | cons entry rest ih =>
    obtain ⟨k, v⟩ := entry
    by_cases h : k = key
    · rw [List.filter_cons_of_neg (by simp [h]), ih, lookup_cons, h]
      split <;> rfl
    · rw [List.filter_cons_of_pos (by simp [h]), lookup_cons, ih, lookup_cons]
      by_cases hother : other = k
      · rw [if_pos hother, if_pos hother, if_neg fun heq => h (hother.symm.trans heq)]
      · rw [if_neg hother, if_neg hother]

end

/-! ## Mapping -/

section
variable {κ' β : Type} {rank' : κ' → Bytes} {f : κ → κ'} {g : α → β}

/-- What keeps the ranks of keys keeps the place of an insertion. -/
theorem map_insert (hrank : ∀ key, rank' (f key) = rank key) (key : κ) (value : α)
    (entries : List (κ × α)) :
    (insert rank key value entries).map (Prod.map f g) =
      insert rank' (f key) (g value) (entries.map (Prod.map f g)) := by
  induction entries with
  | nil => rfl
  | cons entry rest ih =>
    simp only [insert, List.map_cons, Prod.map_fst, hrank]
    split
    · rfl
    · split
      · rfl
      · rw [List.map_cons, ih]

theorem map_ofList (hrank : ∀ key, rank' (f key) = rank key) (entries : List (κ × α)) :
    (ofList rank entries).map (Prod.map f g) = ofList rank' (entries.map (Prod.map f g)) := by
  suffices hfold : ∀ built : List (κ × α),
      (entries.foldl (fun built e => insert rank e.1 e.2 built) built).map (Prod.map f g) =
        (entries.map (Prod.map f g)).foldl (fun built e => insert rank' e.1 e.2 built)
          (built.map (Prod.map f g)) from hfold []
  induction entries with
  | nil => exact fun _ => rfl
  | cons entry rest ih =>
    intro built
    rw [List.foldl_cons, ih, map_insert hrank]
    rfl

theorem lookup_map [DecidableEq κ] [BEq κ] [LawfulBEq κ] [DecidableEq κ'] [BEq κ'] [LawfulBEq κ']
    (hf : Function.Injective f) (key : κ) (entries : List (κ × α)) :
    (entries.map (Prod.map f g)).lookup (f key) = (entries.lookup key).map g := by
  induction entries with
  | nil => rfl
  | cons entry rest ih =>
    obtain ⟨k, v⟩ := entry
    rw [List.map_cons, Prod.map_apply, lookup_cons, lookup_cons, ih]
    by_cases h : key = k
    · rw [if_pos h, if_pos (congrArg f h)]
      rfl
    · rw [if_neg h, if_neg fun heq => h (hf heq)]

end

end DocStore.Ranked
