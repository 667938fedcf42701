import Mathlib.Data.List.DropRight
import Reckoner.Proofs.Document.Passes

/-!
The lines of a text. They are numbered one after the other, and the names that they assign are
identifiers.
-/
namespace Reckoner.Document

open Text Formula

section Numbering

theorem index_ge {k : Nat} {raws : List (List Char)} {line : Line} (h : line ∈ number k raws) :
    k ≤ line.index := by
  induction raws generalizing k with
  | nil => exact absurd h List.not_mem_nil
  | cons raw raws ih =>
    rcases List.mem_cons.mp h with rfl | h
    · exact Nat.le_refl k
    · exact Nat.le_of_succ_le (ih h)

theorem nodup_indices (k : Nat) (raws : List (List Char)) :
    ((number k raws).map (·.index)).Nodup := by
  induction raws generalizing k with
  | nil => exact List.nodup_nil
  | cons raw raws ih =>
    refine List.nodup_cons.mpr ⟨fun hmem => ?_, ih (k + 1)⟩
    obtain ⟨line, hline, hindex⟩ := List.mem_map.mp hmem
    have hge := index_ge hline
    dsimp only at hindex
    omega

theorem raw_mem_of_mem {k : Nat} {raws : List (List Char)} {line : Line}
    (h : line ∈ number k raws) : line.raw ∈ raws := by
  induction raws generalizing k with
  | nil => exact absurd h List.not_mem_nil
  | cons raw raws ih =>
    rcases List.mem_cons.mp h with rfl | h
    · exact List.mem_cons_self
    · exact List.mem_cons_of_mem _ (ih h)

theorem form_of_mem {k : Nat} {raws : List (List Char)} {line : Line} (h : line ∈ number k raws) :
    line.form = classify line.raw := by
  induction raws generalizing k with
  | nil => exact absurd h List.not_mem_nil
  | cons raw raws ih =>
    rcases List.mem_cons.mp h with rfl | h
    · rfl
    · exact ih h

/-- A document that assigns no name twice has distinct lines. -/
theorem distinct_ofText {s : List Char} (h : (declared (ofText s)).Nodup) :
    Distinct (ofText s) := ⟨nodup_indices 1 (splitLines s), h⟩

end Numbering

section Texts

theorem dropCarriageReturns_sublist (s : List Char) : (dropCarriageReturns s).Sublist s :=
  (List.rdropWhile_prefix (· == '\r') s).sublist

theorem not_mem_splitAt {p : Char → Bool} {s piece : List Char} (h : piece ∈ splitAt p s) {c : Char}
    (hc : c ∈ piece) : p c = false := by
  induction s generalizing piece with
  | nil =>
    rw [List.mem_singleton.mp h] at hc
    exact absurd hc List.not_mem_nil
  | cons d r ih =>
    rw [splitAt] at h
    split at h
    · rcases List.mem_cons.mp h with rfl | h
      · exact absurd hc List.not_mem_nil
      · exact ih h hc
    · rename_i hd
      split at h
      · rename_i first rest hsplit
        rcases List.mem_cons.mp h with rfl | h
        · rcases List.mem_cons.mp hc with rfl | hc
          · exact Bool.eq_false_iff.mpr hd
          · exact ih (hsplit ▸ List.mem_cons_self) hc
        · exact ih (hsplit ▸ List.mem_cons_of_mem _ h) hc
      · rw [List.mem_singleton.mp h] at hc
        rw [List.mem_singleton.mp hc]
        exact Bool.eq_false_iff.mpr hd

/-- The lines of a text hold no line end. -/
theorem not_mem_raw {s : List Char} {line : Line} (h : line ∈ ofText s) : '\n' ∉ line.raw := by
  obtain ⟨piece, hpiece, hraw⟩ := List.mem_map.mp (raw_mem_of_mem h)
  intro hmem
  rw [← hraw] at hmem
  have hline := not_mem_splitAt hpiece ((dropCarriageReturns_sublist piece).subset hmem)
  exact absurd hline (by decide)

end Texts

section Names

theorem name?_labeled {s : List Char} {form : Form} (h : labeled? s = some form) :
    form.name? = none := by
  unfold labeled? at h
  dsimp only at h
  split at h
  · split at h
    · exact absurd h (by simp)
    · obtain ⟨e, _, rfl⟩ := Option.map_eq_some_iff.mp h
      rfl
  · exact absurd h (by simp)

theorem name?_leadingEquals {s : List Char} {form : Form} (h : leadingEquals? s = some form) :
    form.name? = none := by
  unfold leadingEquals? at h
  split at h
  · obtain rfl := Option.some.inj h
    split <;> rfl
  · exact absurd h (by simp)

theorem name?_trailingEquals {s : List Char} {form : Form} (h : trailingEquals? s = some form) :
    form.name? = none := by
  unfold trailingEquals? at h
  dsimp only at h
  split at h
  · split at h
    · exact absurd h (by simp)
    · obtain rfl := Option.some.inj h
      rfl
  · exact absurd h (by simp)

theorem isIdentifier_assignment {s : List Char} {form : Form} {n : List Char}
    (h : assignment? s = some form) (hn : form.name? = some n) : isIdentifier n = true := by
  unfold assignment? at h
  dsimp only at h
  split at h
  · split at h
    · rename_i hid
      obtain ⟨e, _, rfl⟩ := Option.map_eq_some_iff.mp h
      obtain rfl := Option.some.inj hn
      exact hid
    · exact absurd h (by simp)
  · exact absurd h (by simp)

/-- A line assigns an identifier. -/
theorem isIdentifier_classify {raw n : List Char} (h : (classify raw).name? = some n) :
    isIdentifier n = true := by
  have hnone : ∀ {form : Form}, form.name? = none → form.name? = some n → isIdentifier n = true :=
    fun hform hn => absurd (hform.symm.trans hn) (by simp)
  unfold classify at h
  dsimp only at h
  split at h
  · exact absurd h (by simp [Form.name?])
  split at h
  · rename_i heq
    exact isIdentifier_assignment heq h
  split at h
  · rename_i heq
    exact hnone (name?_labeled heq) h
  split at h
  · rename_i heq
    exact hnone (name?_leadingEquals heq) h
  split at h
  · rename_i heq
    exact hnone (name?_trailingEquals heq) h
  split at h <;> exact absurd h (by simp [Form.name?])

theorem isIdentifier_declared {s n : List Char} (h : n ∈ declared (ofText s)) :
    isIdentifier n = true := by
  obtain ⟨line, hline, hn⟩ := mem_declared.mp h
  rw [form_of_mem hline] at hn
  exact isIdentifier_classify hn

end Names

end Reckoner.Document
