import Mathlib.Data.List.Perm.Subperm
import Reckoner.Proofs.Document.Breakdowns
import Reckoner.Proofs.Document.Budget

/-!
The numbers of an outcome. No line is listed twice among the errors, and there are no more results,
values of names and lines in an outcome than the document has lines. The results and errors are as
many as the lines that have one.
-/
namespace Reckoner.Document

open Text Formula Data

variable {text : List Char} {precision : Value} {limit depth : Nat} {o : Outcome}
variable {doc ls : List Line} {names : List (List Char)} {p q : Progress}

theorem length_number (k : Nat) (raws : List (List Char)) :
    (number k raws).length = raws.length := by
  induction raws generalizing k with
  | nil => rfl
  | cons raw raws ih => rw [number, List.length_cons, List.length_cons, ih]

theorem index_le {k : Nat} {raws : List (List Char)} {line : Line} (h : line ∈ number k raws) :
    line.index < k + raws.length := by
  induction raws generalizing k with
  | nil => exact absurd h List.not_mem_nil
  | cons raw raws ih =>
    rw [List.length_cons]
    rcases List.mem_cons.mp h with rfl | h
    · dsimp only
      omega
    · have := ih h
      omega

/-- A pass lists no line twice among its errors. -/
theorem nodup_errors_run (hp : (Assoc.keys p.errors).Nodup)
    (h : Progress.run names depth p ls = .ok q) : (Assoc.keys q.errors).Nodup := by
  induction ls generalizing p with
  | nil =>
    obtain rfl := Except.ok.inj h
    exact hp
  | cons line ls ih =>
    obtain ⟨p', hstep, hrest⟩ := run_cons h
    refine ih ?_ hrest
    rcases step_cases hstep with ⟨_, rfl⟩ | ⟨_, r, _, rfl⟩
    · exact hp
    · cases r with
      | ok x =>
        unfold Progress.record Progress.succeed
        cases line.form.name? <;> exact hp
      | error f => exact Assoc.nodup_set hp

/-- An outcome of a document with a number of lines. -/
structure Outcome.Counted (o : Outcome) (count : Nat) : Prop where
  errors_nodup : (Assoc.keys o.errors).Nodup
  errors_le : ∀ e ∈ o.errors, e.1 ≤ count
  named_le : o.named.length ≤ count
  results_le : o.results.length ≤ count
  lines_le : o.lineCount ≤ count

theorem lineCount_of_run (h : run text precision limit = .ok o) :
    o.lineCount ≤ (ofText text).length := by
  obtain ⟨settled, _, h⟩ := bind_eq_ok h
  obtain ⟨_, _, h⟩ := bind_eq_ok h
  obtain rfl := Except.ok.inj h
  exact List.countP_le_length

theorem settle_passes_le {made left : Nat} {previous : PassResult} {settled : Settled}
    (h : settle doc depth made previous left = .ok settled) : settled.passes ≤ made + left := by
  induction left generalizing made previous with
  | zero =>
    obtain rfl := Except.ok.inj h
    exact Nat.le_refl made
  | succ left ih =>
    rw [settle] at h
    obtain ⟨next, _, h⟩ := bind_eq_ok h
    split at h
    · obtain rfl := Except.ok.inj h
      dsimp only
      omega
    · have := ih h
      omega

theorem passes_of_run (h : run text precision limit = .ok o) : o.passes ≤ limit := by
  obtain ⟨settled, hsettled, hpasses, _⟩ := settled_of_run h
  have := settle_passes_le hsettled
  omega

/-- Distinct keys that all come from a list are no more than its items. -/
theorem length_le_of_keys {κ α : Type} {m : Assoc κ α} {items : List κ}
    (hm : (Assoc.keys m).Nodup) (h : Assoc.keys m ⊆ items) : m.length ≤ items.length := by
  rw [← List.length_map (·.1)]
  exact (hm.subperm h).length_le

theorem counted_of_run (h : run text precision (limit + 1) = .ok o) :
    o.Counted (ofText text).length := by
  obtain ⟨settled, hsettled, hnamed, hresults, herrors, _⟩ := run_eq_ok h
  obtain ⟨rest, before, hcomes, hpass, _⟩ := settle_eq_ok hsettled
  have hbefore := of_comes hcomes (of_empty _)
  have hafter := of_pass hbefore hpass
  have hindices : ∀ i, (∀ line ∈ ofText text, line.form ≠ .blank → line.index ≠ i) ∨
      i ∈ (ofText text).map (·.index) := by
    intro i
    by_cases hi : i ∈ (ofText text).map (·.index)
    · exact Or.inr hi
    · exact Or.inl fun line hline _ heq => hi (List.mem_map.mpr ⟨line, hline, heq⟩)
  refine ⟨?_, fun e he => ?_, ?_, ?_, lineCount_of_run h⟩
  · obtain ⟨q, hrun, hresult⟩ := pass_eq_ok hpass
    rw [herrors, hresult]
    exact nodup_errors_run (p := ⟨before, [], []⟩) List.nodup_nil hrun
  · rw [herrors] at he
    rcases hindices e.1 with hnot | hmem
    · have hnone := (results_pass_of_no_line hpass hnot).2
      exact absurd (List.mem_map.mpr ⟨e, he, rfl⟩) (Assoc.get?_eq_none.mp hnone)
    · obtain ⟨line, hline, hindex⟩ := List.mem_map.mp hmem
      have hle := index_le hline
      unfold ofText
      rw [length_number]
      omega
  · rw [hnamed, ← (perm_sortByKey _).length_eq]
    refine Nat.le_trans (length_le_of_keys hafter.proper.named_nodup hafter.proper.declared) ?_
    exact List.length_filterMap_le _ _
  · rw [hresults, ← (perm_sortByIndex _).length_eq,
      ← List.length_map fun line : Line => line.index]
    refine length_le_of_keys hafter.proper.results_nodup fun i hi => ?_
    refine (hindices i).resolve_left fun hnot => ?_
    exact Assoc.get?_eq_none.mp (hafter.lines i hnot) hi

/-- Entries by lines of a document are as many as the lines that have one. -/
theorem countP_get? {α : Type} {m : Assoc Nat α} (hm : (Assoc.keys m).Nodup)
    (hdoc : (doc.map (·.index)).Nodup)
    (hkeys : ∀ i ∈ Assoc.keys m, ∃ line ∈ doc, line.index = i) :
    doc.countP (fun line => (Assoc.get? m line.index).isSome) = m.length := by
  have hfilter : ((doc.filter fun line => (Assoc.get? m line.index).isSome).map (·.index)).Nodup :=
    hdoc.sublist (List.filter_sublist.map _)
  have hperm : ((doc.filter fun line => (Assoc.get? m line.index).isSome).map (·.index)).Perm
      (Assoc.keys m) := by
    refine (List.perm_ext_iff_of_nodup hfilter hm).mpr fun i => ?_
    rw [List.mem_map]
    constructor
    · rintro ⟨line, hline, rfl⟩
      exact Assoc.isSome_get?.mp (List.mem_filter.mp hline).2
    · intro hi
      obtain ⟨line, hline, rfl⟩ := hkeys i hi
      exact ⟨line, List.mem_filter.mpr ⟨hline, Assoc.isSome_get?.mpr hi⟩, rfl⟩
  have hlength := hperm.length_eq
  rwa [List.length_map, ← List.countP_eq_length_filter, Assoc.keys, List.length_map] at hlength

theorem nodup_results_of_run (h : run text precision (limit + 1) = .ok o) :
    (Assoc.keys o.results).Nodup := by
  obtain ⟨settled, hsettled, _, hresults, _⟩ := run_eq_ok h
  obtain ⟨rest, before, hcomes, hpass, _⟩ := settle_eq_ok hsettled
  have hafter := of_pass (of_comes hcomes (of_empty _)) hpass
  rw [hresults]
  exact ((perm_sortByIndex _).map _).nodup_iff.mp hafter.proper.results_nodup

/-- The results and errors of an outcome are as many as the lines that have one. -/
theorem counts_of_run {places : Int} (h : run text (.int places) (limit + 1) = .ok o) :
    (ofText text).countP (fun line => (Assoc.get? o.results line.index).isSome) =
        o.results.length ∧
      (ofText text).countP (fun line => (Assoc.get? o.errors line.index).isSome) =
        o.errors.length := by
  have hdoc : ((ofText text).map (·.index)).Nodup := nodup_indices 1 (splitLines text)
  obtain ⟨_, hothers, _⟩ := run_reports h
  have hline : ∀ i, (Assoc.get? o.results i ≠ none ∨ Assoc.get? o.errors i ≠ none) →
      ∃ line ∈ ofText text, line.index = i := by
    intro i hi
    by_contra hno
    obtain ⟨hresult, herror⟩ := hothers i fun line hmem _ hindex => hno ⟨line, hmem, hindex⟩
    exact hi.elim (fun h => h hresult) fun h => h herror
  refine ⟨countP_get? (nodup_results_of_run h) hdoc fun i hi => hline i (Or.inl ?_),
    countP_get? (counted_of_run h).errors_nodup hdoc fun i hi => hline i (Or.inr ?_)⟩
  · exact fun hnone => Assoc.get?_eq_none.mp hnone hi
  · exact fun hnone => Assoc.get?_eq_none.mp hnone hi

/-- The errors of an outcome by line: each line comes once, in ascending order. -/
theorem sorted_errors (h : (Assoc.keys o.errors).Nodup) :
    (Outcome.sortByIndex o.errors).Pairwise fun a b => a.1 < b.1 := by
  have hsorted : (Outcome.sortByIndex o.errors).Pairwise
      fun a b => decide (a.1 ≤ b.1) = true :=
    List.pairwise_mergeSort (fun a b c hab hbc => by
        rw [decide_eq_true_iff] at *
        omega)
      (fun a b => by
        rw [Bool.or_eq_true, decide_eq_true_iff, decide_eq_true_iff]
        omega) _
  have hnodup : ((Outcome.sortByIndex o.errors).map (·.1)).Nodup :=
    ((perm_sortByIndex o.errors).map _).nodup_iff.mp h
  refine (hsorted.and (List.pairwise_map.mp hnodup)).imp fun {a b} hab => ?_
  rw [decide_eq_true_iff] at hab
  exact Nat.lt_of_le_of_ne hab.1 hab.2

end Reckoner.Document
