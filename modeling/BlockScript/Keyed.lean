/-
  Tables as lists of keys and values. A key that comes again keeps its first place and takes its
  last value.
-/

namespace BlockScript.Keyed

variable {κ α : Type} [DecidableEq κ]

/-- Sets the value under a key: in place if the key is there, at the end if it is new. -/
def assign (table : List (κ × α)) (key : κ) (value : α) : List (κ × α) :=
  match table with
  | [] => [(key, value)]
  | (k, v) :: rest => if k = key then (k, value) :: rest else (k, v) :: assign rest key value

/-- The table that a sequence of entries leaves behind. -/
def settle (entries : List (κ × α)) : List (κ × α) :=
  entries.foldl (fun table entry => assign table entry.1 entry.2) []

theorem lookup_cons_of_ne {k key : κ} (h : k ≠ key) (value : α) (rest : List (κ × α)) :
    ((key, value) :: rest).lookup k = rest.lookup k := by
  rw [List.lookup_cons, beq_false_of_ne h]

/-- Setting a key changes what is found under it and nothing else. -/
theorem lookup_assign (table : List (κ × α)) (key k : κ) (value : α) :
    (assign table key value).lookup k = if k = key then some value else table.lookup k := by
  induction table with
  | nil => by_cases h : k = key <;> simp [assign, h, lookup_cons_of_ne]
  | cons entry rest ih =>
    obtain ⟨first, v⟩ := entry
    by_cases hf : first = key
    · subst hf
      by_cases hk : k = first <;> simp [assign, hk, lookup_cons_of_ne]
    · by_cases hk : k = first
      · subst hk
        simp [assign, hf]
      · simp [assign, hf, ih, lookup_cons_of_ne hk]

theorem mem_keys_assign (table : List (κ × α)) (key k : κ) (value : α) :
    k ∈ (assign table key value).map Prod.fst ↔ k = key ∨ k ∈ table.map Prod.fst := by
  induction table with
  | nil => simp [assign]
  | cons entry rest ih =>
    obtain ⟨first, v⟩ := entry
    by_cases hf : first = key
    · subst hf
      simp [assign]
    · simp only [assign, hf, if_false, List.map_cons, List.mem_cons, ih]
      exact or_left_comm

theorem nodup_keys_assign (table : List (κ × α)) (key : κ) (value : α)
    (h : (table.map Prod.fst).Nodup) : ((assign table key value).map Prod.fst).Nodup := by
  induction table with
  | nil => simp [assign]
  | cons entry rest ih =>
    obtain ⟨first, v⟩ := entry
    rw [List.map_cons, List.nodup_cons] at h
    by_cases hf : first = key
    · subst hf
      simp only [assign, if_true, List.map_cons, List.nodup_cons]
      exact h
    · rw [assign, if_neg hf, List.map_cons, List.nodup_cons, mem_keys_assign]
      exact ⟨fun hm => hm.elim hf h.1, ih h.2⟩

/-- No key comes twice in a settled table. -/
theorem nodup_keys_settle (entries : List (κ × α)) : ((settle entries).map Prod.fst).Nodup := by
  suffices h : ∀ table : List (κ × α), (table.map Prod.fst).Nodup →
      ((entries.foldl (fun t e => assign t e.1 e.2) table).map Prod.fst).Nodup from
    h [] List.nodup_nil
  induction entries with
  | nil => exact fun table h => h
  | cons entry rest ih => exact fun table h => ih _ (nodup_keys_assign table entry.1 entry.2 h)

theorem mem_assign {table : List (κ × α)} {key : κ} {value : α} {entry : κ × α}
    (h : entry ∈ assign table key value) : entry = (key, value) ∨ entry ∈ table := by
  induction table with
  | nil => exact .inl (List.mem_singleton.mp h)
  | cons first rest ih =>
    obtain ⟨k, v⟩ := first
    by_cases hk : k = key
    · subst hk
      rw [assign, if_pos rfl, List.mem_cons] at h
      exact h.imp id (List.mem_cons_of_mem _)
    · rw [assign, if_neg hk, List.mem_cons] at h
      rcases h with rfl | h
      · exact .inr (List.mem_cons_self ..)
      · exact (ih h).imp id (List.mem_cons_of_mem _)

/-- What a settled table holds was among the entries. -/
theorem mem_settle {entries : List (κ × α)} {entry : κ × α} (h : entry ∈ settle entries) :
    entry ∈ entries := by
  suffices hfold : ∀ table : List (κ × α),
      entry ∈ entries.foldl (fun t e => assign t e.1 e.2) table → entry ∈ table ∨ entry ∈ entries from
    (hfold [] h).resolve_left List.not_mem_nil
  clear h
  induction entries with
  | nil => exact fun table h => .inl h
  | cons first rest ih =>
    intro table h
    rcases ih _ h with h | h
    · rcases mem_assign h with rfl | h
      · exact .inr (List.mem_cons_self ..)
      · exact .inl h
    · exact .inr (List.mem_cons_of_mem _ h)

theorem assign_of_not_mem {table : List (κ × α)} {key : κ} (h : key ∉ table.map Prod.fst)
    (value : α) : assign table key value = table ++ [(key, value)] := by
  induction table with
  | nil => rfl
  | cons entry rest ih =>
    obtain ⟨first, v⟩ := entry
    rw [List.map_cons, List.mem_cons, not_or] at h
    rw [assign, if_neg (Ne.symm h.1), ih h.2, List.cons_append]

/-- Entries with distinct keys stay as they are. -/
theorem settle_of_nodup {entries : List (κ × α)} (h : (entries.map Prod.fst).Nodup) :
    settle entries = entries := by
  suffices hfold : ∀ table : List (κ × α), ((table ++ entries).map Prod.fst).Nodup →
      entries.foldl (fun t e => assign t e.1 e.2) table = table ++ entries from
    hfold [] h
  clear h
  induction entries with
  | nil => exact fun table _ => (List.append_nil table).symm
  | cons entry rest ih =>
    intro table h
    have hnew : entry.1 ∉ table.map Prod.fst := by
      rw [List.map_append, List.nodup_append] at h
      exact fun hmem => h.2.2 _ hmem _ (List.mem_cons_self ..) rfl
    have hsame : table ++ [(entry.1, entry.2)] ++ rest = table ++ entry :: rest :=
      List.append_assoc ..
    rw [List.foldl_cons, assign_of_not_mem hnew, ih _ (by rw [hsame]; exact h), hsame]

end BlockScript.Keyed
