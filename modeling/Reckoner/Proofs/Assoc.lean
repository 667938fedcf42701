import Mathlib.Data.List.Basic
import Mathlib.Data.List.Nodup
import Reckoner.Assoc

/-!
Finite maps and what setting, erasing and filtering do to the values of their keys. When the keys
are distinct, the entries of a map say what its values are, in any order.
-/
namespace Reckoner.Assoc

variable {κ α : Type} [DecidableEq κ] {m m' : Assoc κ α} {k l : κ} {v : α}

theorem get?_cons (k : κ) (v : α) (m : Assoc κ α) (l : κ) :
    get? ((k, v) :: m) l = if k = l then some v else get? m l := rfl

theorem mem_of_get? (h : get? m k = some v) : (k, v) ∈ m := by
  induction m with
  | nil => exact absurd h (by simp [get?])
  | cons first rest ih =>
    obtain ⟨k', v'⟩ := first
    rw [get?_cons] at h
    split at h
    · rename_i hk
      rw [hk, Option.some.inj h]
      exact List.mem_cons_self
    · exact List.mem_cons_of_mem _ (ih h)

theorem get?_eq_none : get? m k = none ↔ k ∉ keys m := by
  induction m with
  | nil => exact ⟨fun _ h => absurd h List.not_mem_nil, fun _ => rfl⟩
  | cons e rest ih =>
    obtain ⟨k', v⟩ := e
    unfold keys at ih ⊢
    rw [get?_cons, List.map_cons, List.mem_cons]
    split
    · rename_i h
      exact ⟨fun h' => absurd h' (by simp), fun h' => absurd (Or.inl h.symm) h'⟩
    · rename_i h
      rw [ih]
      exact ⟨fun h' hor => hor.elim (fun heq => h heq.symm) h', fun h' hmem => h' (Or.inr hmem)⟩

theorem isSome_get? : (get? m k).isSome = true ↔ k ∈ keys m := by
  rw [Option.isSome_iff_ne_none, ne_eq, get?_eq_none, not_not]

section Set

theorem mem_set {e : κ × α} (h : e ∈ set m k v) : e ∈ m ∨ e = (k, v) := by
  induction m with
  | nil => exact Or.inr (List.mem_singleton.mp h)
  | cons first rest ih =>
    obtain ⟨k', v'⟩ := first
    unfold set at h
    split at h
    · rcases List.mem_cons.mp h with rfl | h
      · exact Or.inr rfl
      · exact Or.inl (List.mem_cons_of_mem _ h)
    · rcases List.mem_cons.mp h with rfl | h
      · exact Or.inl List.mem_cons_self
      · exact (ih h).imp_left (List.mem_cons_of_mem _)

theorem mem_update {entries : List (κ × α)} {e : κ × α} (h : e ∈ update m entries) :
    e ∈ m ∨ e ∈ entries := by
  induction entries generalizing m with
  | nil => exact Or.inl h
  | cons first rest ih =>
    rcases ih h with h | h
    · refine (mem_set h).imp_right ?_
      rintro rfl
      exact List.mem_cons_self
    · exact Or.inr (List.mem_cons_of_mem _ h)

theorem mem_ofList {entries : List (κ × α)} {e : κ × α} (h : e ∈ ofList entries) : e ∈ entries :=
  (mem_update h).resolve_left List.not_mem_nil

/-- Setting a key changes its value only. -/
theorem get?_set (m : Assoc κ α) (k : κ) (v : α) (l : κ) :
    get? (set m k v) l = if k = l then some v else get? m l := by
  induction m with
  | nil => rfl
  | cons first rest ih =>
    obtain ⟨k', v'⟩ := first
    unfold set
    by_cases hk : k' = k
    · rw [if_pos hk, get?_cons, get?_cons, hk]
      split <;> rfl
    · rw [if_neg hk, get?_cons, get?_cons, ih]
      by_cases hl : k' = l
      · rw [if_pos hl, if_pos hl, if_neg fun h => hk (hl.trans h.symm)]
      · rw [if_neg hl, if_neg hl]

/-- A key that is new comes last. -/
theorem set_of_not_mem (h : k ∉ keys m) : set m k v = m ++ [(k, v)] := by
  induction m with
  | nil => rfl
  | cons first rest ih =>
    obtain ⟨k', v'⟩ := first
    obtain ⟨hne, hnot⟩ := not_or.mp (List.mem_cons.not.mp h)
    rw [set, if_neg fun heq => hne heq.symm, ih hnot, List.cons_append]

theorem mem_keys_set : l ∈ keys (set m k v) ↔ l = k ∨ l ∈ keys m := by
  rw [← isSome_get?, ← isSome_get?, get?_set]
  by_cases h : k = l
  · rw [if_pos h]
    exact ⟨fun _ => Or.inl h.symm, fun _ => rfl⟩
  · rw [if_neg h]
    exact ⟨Or.inr, fun h' => h'.resolve_left fun h' => h h'.symm⟩

theorem nodup_set (h : (keys m).Nodup) : (keys (set m k v)).Nodup := by
  induction m with
  | nil => exact List.nodup_singleton k
  | cons first rest ih =>
    obtain ⟨k', v'⟩ := first
    obtain ⟨hnot, hrest⟩ := List.nodup_cons.mp h
    unfold set
    by_cases hk : k' = k
    · rw [if_pos hk]
      exact List.nodup_cons.mpr ⟨hk ▸ hnot, hrest⟩
    · rw [if_neg hk]
      refine List.nodup_cons.mpr ⟨fun hmem => ?_, ih hrest⟩
      exact (mem_keys_set.mp hmem).elim hk hnot

theorem nodup_update (h : (keys m).Nodup) (entries : List (κ × α)) :
    (keys (update m entries)).Nodup := by
  induction entries generalizing m with
  | nil => exact h
  | cons e entries ih => exact ih (nodup_set h)

/-- Of entries with distinct keys each sets the value of its key. -/
theorem get?_update {entries : List (κ × α)} (h : (keys entries).Nodup) (m : Assoc κ α) (l : κ) :
    get? (update m entries) l = (get? entries l).or (get? m l) := by
  induction entries generalizing m with
  | nil => rfl
  | cons e entries ih =>
    obtain ⟨k, v⟩ := e
    obtain ⟨hnot, hrest⟩ := List.nodup_cons.mp h
    have hstep : update m ((k, v) :: entries) = update (set m k v) entries := rfl
    rw [hstep, ih hrest, get?_set, get?_cons]
    by_cases hk : k = l
    · have hnone : get? entries l = none := get?_eq_none.mpr (hk ▸ hnot)
      rw [if_pos hk, if_pos hk, hnone]
      rfl
    · rw [if_neg hk, if_neg hk]

end Set

section Filter

/-- Keeping some keys leaves their values. -/
theorem get?_filter (m : Assoc κ α) (p : κ → Bool) (l : κ) :
    get? (m.filter fun e => p e.1) l = if p l then get? m l else none := by
  induction m with
  | nil => exact (ite_self _).symm
  | cons first rest ih =>
    obtain ⟨k', v'⟩ := first
    by_cases hk : p k' = true
    · have hkeep : ((k', v') :: rest).filter (fun e => p e.1) =
          (k', v') :: rest.filter fun e => p e.1 := List.filter_cons_of_pos hk
      rw [hkeep, get?_cons, get?_cons, ih]
      by_cases hl : k' = l
      · rw [if_pos hl, if_pos hl, if_pos (hl ▸ hk)]
      · rw [if_neg hl, if_neg hl]
    · have hdrop : ((k', v') :: rest).filter (fun e => p e.1) = rest.filter fun e => p e.1 :=
        List.filter_cons_of_neg hk
      rw [hdrop, get?_cons, ih]
      by_cases hl : k' = l
      · rw [if_pos hl, if_neg (hl ▸ hk), if_neg (hl ▸ hk)]
      · rw [if_neg hl]

theorem get?_erase (m : Assoc κ α) (k l : κ) :
    get? (erase m k) l = if l = k then none else get? m l := by
  unfold erase
  rw [get?_filter m (fun k' => decide (k' ≠ k)) l]
  by_cases h : l = k
  · rw [if_pos h, if_neg (by simp [h])]
  · rw [if_neg h, if_pos (by simp [h])]

theorem nodup_filter {κ α : Type} {m : Assoc κ α} (h : (keys m).Nodup) (p : κ × α → Bool) :
    (keys (m.filter p)).Nodup :=
  h.sublist (List.filter_sublist.map _)

theorem keys_filter_subset {κ α : Type} {m : Assoc κ α} (p : κ × α → Bool) :
    keys (m.filter p) ⊆ keys m :=
  (List.filter_sublist.map _).subset

end Filter

section Entries

theorem get?_of_mem (h : (keys m).Nodup) (hmem : (k, v) ∈ m) : get? m k = some v := by
  induction m with
  | nil => exact absurd hmem List.not_mem_nil
  | cons first rest ih =>
    obtain ⟨k', v'⟩ := first
    obtain ⟨hnot, hrest⟩ := List.nodup_cons.mp h
    rw [get?_cons]
    rcases List.mem_cons.mp hmem with heq | hmem
    · rw [if_pos (Prod.mk.inj heq).1.symm, (Prod.mk.inj heq).2]
    · rw [if_neg, ih hrest hmem]
      rintro rfl
      exact hnot (List.mem_map.mpr ⟨(k', v), hmem, rfl⟩)

/-- The order of the entries does not matter. -/
theorem get?_perm (h : (keys m).Nodup) (hperm : m.Perm m') (k : κ) : get? m k = get? m' k := by
  have h' : (keys m').Nodup := (hperm.map _).nodup_iff.mp h
  cases hk : get? m k with
  | some v => exact (get?_of_mem h' (hperm.mem_iff.mp (mem_of_get? hk))).symm
  | none =>
    rw [get?_eq_none] at hk
    exact (get?_eq_none.mpr fun hmem => hk ((hperm.map _).mem_iff.mpr hmem)).symm

/-- Changing the values leaves the keys. -/
theorem get?_mapValues {β : Type} (f : α → β) (m : Assoc κ α) (k : κ) :
    get? (m.map fun e => (e.1, f e.2)) k = (get? m k).map f := by
  induction m with
  | nil => rfl
  | cons first rest ih =>
    obtain ⟨k', v'⟩ := first
    rw [List.map_cons, get?_cons, get?_cons, ih]
    split <;> rfl

/-- Renaming the keys one to one. -/
theorem get?_map {κ' : Type} [DecidableEq κ'] {f : κ → κ'} (hf : Function.Injective f)
    (m : Assoc κ α) (k : κ) : get? (m.map fun e => (f e.1, e.2)) (f k) = get? m k := by
  induction m with
  | nil => rfl
  | cons first rest ih =>
    obtain ⟨k', v'⟩ := first
    rw [List.map_cons, get?_cons, get?_cons, ih]
    by_cases hk : k' = k
    · rw [if_pos hk, if_pos (congrArg f hk)]
    · rw [if_neg hk, if_neg fun h => hk (hf h)]

end Entries

end Reckoner.Assoc
