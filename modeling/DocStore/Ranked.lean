/-
Association lists kept in ascending order of a byte rank: the members of a mapping, ranked by
the UTF-8 bytes of their names, and the entries of a store, ranked by their keys. Inserting
keeps the order and replaces an entry of the same rank, so an ascending list holds each rank
at most once.
-/
import DocStore.Bytes

namespace DocStore.Ranked

variable {κ α : Type}

/-- Every entry ranks strictly below the entries after it. -/
def Ascending (rank : κ → Bytes) (entries : List (κ × α)) : Prop :=
  entries.Pairwise fun a b => rank a.1 < rank b.1

instance (rank : κ → Bytes) (entries : List (κ × α)) : Decidable (Ascending rank entries) :=
  inferInstanceAs (Decidable (entries.Pairwise _))

/-- Puts `value` under `key`, replacing the entry of the same rank if there is one. -/
def insert (rank : κ → Bytes) (key : κ) (value : α) : List (κ × α) → List (κ × α)
  | [] => [(key, value)]
  | entry :: rest =>
    if rank key < rank entry.1 then (key, value) :: entry :: rest
    else if rank key = rank entry.1 then (key, value) :: rest
    else entry :: insert rank key value rest

/-- The list that inserting all of `entries`, from first to last, builds: of entries with one
rank the last stays. -/
def ofList (rank : κ → Bytes) (entries : List (κ × α)) : List (κ × α) :=
  entries.foldl (fun built entry => insert rank entry.1 entry.2 built) []

/-- An entry after an insertion is the inserted one or was there before. -/
theorem mem_insert {rank : κ → Bytes} {key : κ} {value : α} {entries : List (κ × α)}
    {e : κ × α} (h : e ∈ insert rank key value entries) : e = (key, value) ∨ e ∈ entries := by
  induction entries with
  | nil => simpa [insert] using h
  | cons entry rest ih =>
    rw [insert] at h
    split at h
    · simpa using h
    · split at h
      · rcases List.mem_cons.1 h with h | h
        · exact .inl h
        · exact .inr (List.mem_cons_of_mem _ h)
      · rcases List.mem_cons.1 h with h | h
        · exact .inr (h ▸ List.mem_cons_self)
        · exact (ih h).imp_right (List.mem_cons_of_mem _)

/-- Of two byte strings that differ one is the smaller. -/
theorem lt_of_not_lt_of_ne {a b : Bytes} (hlt : ¬ a < b) (hne : a ≠ b) : b < a := by
  rcases Decidable.em (b < a) with h | h
  · exact h
  · exact absurd (List.le_antisymm (List.not_lt.1 h) (List.not_lt.1 hlt)) hne

theorem Ascending.insert {rank : κ → Bytes} {entries : List (κ × α)}
    (h : Ascending rank entries) (key : κ) (value : α) :
    Ascending rank (Ranked.insert rank key value entries) := by
  induction entries with
  | nil => simp [Ascending, Ranked.insert]
  | cons entry rest ih =>
    obtain ⟨above, tail⟩ := List.pairwise_cons.1 h
    rw [Ranked.insert]
    split
    · next lt =>
      refine List.pairwise_cons.2 ⟨?_, h⟩
      intro e he
      rcases List.mem_cons.1 he with rfl | he
      · exact lt
      · exact List.lt_trans lt (above e he)
    · next nlt =>
      split
      · next eq => exact List.pairwise_cons.2 ⟨fun e he => by simpa [eq] using above e he, tail⟩
      · next ne =>
        refine List.pairwise_cons.2 ⟨?_, ih tail⟩
        intro e he
        rcases mem_insert he with rfl | he
        · exact lt_of_not_lt_of_ne nlt ne
        · exact above e he

/-- Removing entries keeps the rest in order. -/
theorem Ascending.filter {rank : κ → Bytes} {entries : List (κ × α)}
    (h : Ascending rank entries) (keep : κ × α → Bool) :
    Ascending rank (entries.filter keep) :=
  List.Pairwise.filter keep h

theorem ascending_ofList (rank : κ → Bytes) (entries : List (κ × α)) :
    Ascending rank (ofList rank entries) := by
  have step : ∀ (es : List (κ × α)) (built : List (κ × α)), Ascending rank built →
      Ascending rank (es.foldl (fun built e => insert rank e.1 e.2 built) built) := by
    intro es
    induction es with
    | nil => exact fun _ h => h
    | cons e es ih => exact fun _ h => ih _ (h.insert e.1 e.2)
  exact step entries [] List.Pairwise.nil

end DocStore.Ranked
