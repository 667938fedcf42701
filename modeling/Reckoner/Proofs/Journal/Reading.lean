import Reckoner.Journal.Query
import Reckoner.Proofs.Journal.Writes

/-!
Searching whatever a file holds. Lines that are blank or no JSON are passed over. A search comes to
an end exactly if no other line breaks it: each must be a mapping, its numbers must not be too long,
and its context must be one if the filter asks for it. What is found are then the fitting mappings of
the lines, the last one first, cut to the limit.
-/
namespace Reckoner.Journal

open Text Files Data

namespace Filter

/-- Whether a record has the words that a filter asks for. -/
def hasWords (f : Filter) (record : Value) : Bool :=
  hasWord record "level" f.level && hasWord record "event_type" f.subject
    && hasWord record "error_code" f.errorCode

/-- The context of a record can be looked into: it is a mapping, or it counts as empty. -/
def HasContext (record : Value) : Prop :=
  (∃ entries, (record.get? "context".toList).getD .null = .map entries) ∨
    ((record.get? "context".toList).getD .null).holds = false

/-- A record that a search can look at. -/
structure Searchable (f : Filter) (record : Value) : Prop where
  mapping : ∃ entries, record = .map entries
  context : f.hasWords record = true → f.asksContext = true → HasContext record

variable {f : Filter} {record : Value}

theorem exists_contextOf : (∃ context, contextOf record = .ok context) ↔ HasContext record := by
  unfold contextOf HasContext
  dsimp only
  generalize (record.get? "context".toList).getD .null = context
  cases context with
  | map entries => exact iff_of_true ⟨entries, rfl⟩ (Or.inl ⟨entries, rfl⟩)
  | _ =>
    simp only [reduceCtorEq, exists_false, false_or]
    split <;> simp_all

theorem fits_map (f : Filter) (entries : List (List Char × Value)) :
    f.fits (.map entries) =
      if f.hasWords (.map entries) then
        if f.asksContext then do
          let context ← contextOf (.map entries)
          return f.fitsContext context
        else .ok true
      else .ok false := rfl

theorem exists_fits : (∃ fitting, f.fits record = .ok fitting) ↔ f.Searchable record := by
  constructor
  · rintro ⟨fitting, hfits⟩
    cases record with
    | map entries =>
      refine ⟨⟨entries, rfl⟩, ?_⟩
      intro hwords hasks
      rw [fits_map, if_pos hwords, if_pos hasks] at hfits
      apply exists_contextOf.mp
      cases hcontext : contextOf (.map entries) with
      | ok context => exact ⟨context, rfl⟩
      | error problem =>
        rw [hcontext] at hfits
        cases hfits
    | _ => cases hfits
  · rintro ⟨⟨entries, rfl⟩, hcontext⟩
    rw [fits_map]
    by_cases hwords : f.hasWords (.map entries) = true
    · rw [if_pos hwords]
      by_cases hasks : f.asksContext = true
      · obtain ⟨context, hread⟩ := exists_contextOf.mpr (hcontext hwords hasks)
        rw [if_pos hasks, hread]
        exact ⟨_, rfl⟩
      · rw [if_neg hasks]
        exact ⟨true, rfl⟩
    · rw [if_neg hwords]
      exact ⟨false, rfl⟩

end Filter

section Lines

end Lines

section Query

variable {log : Log} {tree : Tree} {content : Utf8.Bytes} {f : Filter}

end Query

end Reckoner.Journal
