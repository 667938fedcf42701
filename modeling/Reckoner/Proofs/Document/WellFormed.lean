import Reckoner.Proofs.Document.Breakdowns

/-!
What holds after every pass from empty standing, also in documents that assign a name more than
once. Each line that asks for something is listed once, with its result or among the errors. A name
has a value exactly when one of the lines that assign it has a result, and then it has the result of
the last of them.
-/
namespace Reckoner.Document

open Formula

variable {doc ls : List Line} {depth : Nat} {names : List (List Char)}

/-- What the last of `k` passes leaves, of which the first starts from empty standing. -/
def afterPasses (doc : List Line) (depth : Nat) : Nat → Except Breakdown PassResult
  | 0 => .ok ⟨.empty, []⟩
  | k + 1 => do
    let previous ← afterPasses doc depth k
    pass doc depth previous.standing

/-- The results of the lines that assign a name, in the order of the lines. -/
def assignedValues (results : Assoc Nat Float) (n : List Char) (doc : List Line) : List Float :=
  doc.filterMap fun line =>
    if line.form.name? = some n then Assoc.get? results line.index else none

/-- The maps after a pass agree with each other and with the lines of the document. -/
structure WellFormed (doc : List Line) (after : PassResult) : Prop where
  disjoint : ∀ i ∈ Assoc.keys after.standing.results, i ∉ Assoc.keys after.errors
  listed : ∀ i, i ∈ Assoc.keys after.standing.results ∨ i ∈ Assoc.keys after.errors ↔
    ∃ line ∈ doc, line.form ≠ .blank ∧ line.index = i
  named : ∀ n, n ∈ Assoc.keys after.standing.named ↔ ∃ line ∈ doc,
    (∃ e, line.form = .assignment n e) ∧ line.index ∈ Assoc.keys after.standing.results
  last : ∀ n, Assoc.get? after.standing.named n =
    (assignedValues after.standing.results n doc).getLast?
  named_finite : ∀ e ∈ after.standing.named, e.2.isFinite = true
  results_finite : ∀ e ∈ after.standing.results, e.2.isFinite = true

theorem name?_eq_some {form : Form} {n : List Char} :
    form.name? = some n ↔ ∃ e, form = .assignment n e := by
  cases form <;> simp [Form.name?]

section Values

variable {results results' : Assoc Nat Float} {n : List Char}

theorem assignedValues_congr
    (h : ∀ line ∈ doc, Assoc.get? results line.index = Assoc.get? results' line.index) :
    assignedValues results n doc = assignedValues results' n doc := by
  refine List.filterMap_congr fun line hline => ?_
  rw [h line hline]

theorem assignedValues_concat (line : Line) :
    assignedValues results n (ls ++ [line]) = assignedValues results n ls ++
      (if line.form.name? = some n then Assoc.get? results line.index else none).toList := by
  unfold assignedValues
  rw [List.filterMap_append]
  split <;> rename_i h
  · cases hvalue : Assoc.get? results line.index <;> simp [h, hvalue]
  · simp [h]

/-- A name has values from the lines that assign it and have a result. -/
theorem getLast?_assignedValues_isSome :
    (assignedValues results n doc).getLast?.isSome = true ↔ ∃ line ∈ doc,
      (∃ e, line.form = .assignment n e) ∧ line.index ∈ Assoc.keys results := by
  rw [List.getLast?_isSome]
  constructor
  · intro hne
    obtain ⟨x, hx⟩ := List.exists_mem_of_ne_nil _ hne
    obtain ⟨line, hline, h⟩ := List.mem_filterMap.mp hx
    split at h
    · rename_i hname
      exact ⟨line, hline, name?_eq_some.mp hname, Assoc.isSome_get?.mp (h ▸ rfl)⟩
    · exact absurd h (by simp)
  · rintro ⟨line, hline, hform, hkey⟩
    obtain ⟨x, hx⟩ := Option.isSome_iff_exists.mp (Assoc.isSome_get?.mpr hkey)
    have hmem : x ∈ assignedValues results n doc := by
      refine List.mem_filterMap.mpr ⟨line, hline, ?_⟩
      rw [if_pos (name?_eq_some.mpr hform), hx]
    exact List.ne_nil_of_mem hmem

end Values

section Run

variable {before : Standing} {q : Progress}

/-- In the middle of a pass, the value of a name that has been assigned in it is the result of the
last line that assigned it. -/
theorem named_run_last (hindices : (ls.map (·.index)).Nodup)
    (hrun : Progress.run names depth ⟨before, [], []⟩ ls = .ok q) (n : List Char) :
    (if n ∈ q.assigned then Assoc.get? q.standing.named n else none) =
      (assignedValues q.standing.results n ls).getLast? := by
  induction ls using List.reverseRecOn generalizing q with
  | nil =>
    obtain rfl := Except.ok.inj hrun
    exact if_neg List.not_mem_nil
  | append_singleton ls line ih =>
    obtain ⟨p, hls, hrest⟩ := run_append hrun
    rw [List.map_append] at hindices
    have hih := ih (List.nodup_append.mp hindices).1 hls
    obtain ⟨q', hstep, hnil⟩ := run_cons hrest
    obtain rfl := Except.ok.inj hnil
    rw [assignedValues_concat, List.getLast?_append]
    rcases step_cases hstep with ⟨hblank, rfl⟩ | ⟨hform, r, _, rfl⟩
    · have hname : line.form.name? ≠ some n := fun h => form_ne_blank h hblank
      rw [if_neg hname, hih]
      rfl
    · have hfresh : ∀ l ∈ ls, line.index ≠ l.index := fun l hl h =>
        (List.nodup_append.mp hindices).2.2 l.index (List.mem_map_of_mem hl) line.index
          (List.mem_singleton_self _) h.symm
      have hsame : assignedValues (p.record line r).standing.results n ls =
          assignedValues p.standing.results n ls :=
        assignedValues_congr fun l hl => by rw [results_record, if_neg (hfresh l hl)]
      rw [hsame, ← hih, results_record, if_pos rfl, named_record]
      simp only [mem_assigned_record]
      by_cases hname : line.form.name? = some n
      · cases r with
        | ok x => simp [hname, Except.toOption]
        | error f => simp [hname, Except.toOption]
      · simp [hname]

end Run

section Passes

variable {before : Standing} {after : PassResult} {k : Nat}

/-- What a pass leaves is well formed when it starts from a standing of the document. -/
theorem wellFormed_pass (hindices : (doc.map (·.index)).Nodup) (hb : before.Of doc)
    (hpass : pass doc depth before = .ok after) : WellFormed doc after := by
  have hafter := of_pass hb hpass
  have houtcome : ∀ i, (∃ line ∈ doc, line.form ≠ .blank ∧ line.index = i) →
      (i ∈ Assoc.keys after.standing.results ↔ i ∉ Assoc.keys after.errors) := by
    rintro i ⟨line, hline, hform, rfl⟩
    obtain ⟨_, r, _, _, hresult, herror⟩ := pass_reports hindices hpass hline hform
    rw [← Assoc.isSome_get?, ← Assoc.get?_eq_none, hresult, herror]
    cases r <;> simp [Except.toOption, faultKind?]
  have hnone : ∀ i, (¬ ∃ line ∈ doc, line.form ≠ .blank ∧ line.index = i) →
      i ∉ Assoc.keys after.standing.results ∧ i ∉ Assoc.keys after.errors := by
    intro i hi
    have hno : ∀ line ∈ doc, line.form ≠ .blank → line.index ≠ i :=
      fun line hline hform hindex => hi ⟨line, hline, hform, hindex⟩
    rw [← Assoc.get?_eq_none, ← Assoc.get?_eq_none]
    exact ⟨hafter.lines i hno, (results_pass_of_no_line hpass hno).2⟩
  have hlast : ∀ n, Assoc.get? after.standing.named n =
      (assignedValues after.standing.results n doc).getLast? := by
    intro n
    obtain ⟨q, hrun, rfl⟩ := pass_eq_ok hpass
    rw [named_kept]
    exact named_run_last hindices hrun n
  refine ⟨fun i hi => ?_, fun i => ?_, fun n => ?_, hlast, hafter.proper.named_finite,
    hafter.proper.results_finite⟩
  · by_cases hline : ∃ line ∈ doc, line.form ≠ .blank ∧ line.index = i
    · exact (houtcome i hline).mp hi
    · exact absurd hi (hnone i hline).1
  · by_cases hline : ∃ line ∈ doc, line.form ≠ .blank ∧ line.index = i
    · refine ⟨fun _ => hline, fun _ => ?_⟩
      rw [houtcome i hline]
      exact (Classical.em _).symm
    · exact ⟨fun h => absurd h (not_or.mpr (hnone i hline)), fun h => absurd h hline⟩
  · rw [← Assoc.isSome_get?, hlast]
    exact getLast?_assignedValues_isSome

theorem afterPasses_succ (h : afterPasses doc depth (k + 1) = .ok after) :
    ∃ previous, afterPasses doc depth k = .ok previous ∧
      pass doc depth previous.standing = .ok after := bind_eq_ok h

theorem of_afterPasses (h : afterPasses doc depth k = .ok after) : after.standing.Of doc := by
  induction k generalizing after with
  | zero =>
    obtain rfl := Except.ok.inj h
    exact of_empty doc
  | succ k ih =>
    obtain ⟨previous, hprevious, hpass⟩ := afterPasses_succ h
    exact of_pass (ih hprevious) hpass

/-- A line that is no assignment changes no name. -/
theorem named_step_of_no_name {p q : Progress} {line : Line} (hname : line.form.name? = none)
    (hstep : p.step names depth line = .ok q) :
    q.standing.named = p.standing.named ∧ q.assigned = p.assigned := by
  rcases step_cases hstep with ⟨_, rfl⟩ | ⟨_, r, _, rfl⟩
  · exact ⟨rfl, rfl⟩
  · cases r with
    | ok x =>
      change (p.succeed line x).standing.named = _ ∧ (p.succeed line x).assigned = _
      unfold Progress.succeed
      rw [hname]
      exact ⟨rfl, rfl⟩
    | error f => exact ⟨rfl, rfl⟩

end Passes

/-- After any number of passes over a text the maps are well formed, and in no pass does a line that
is no assignment define a name. -/
theorem afterPasses_wellFormed (s : List Char) (depth k : Nat) (after : PassResult)
    (h : afterPasses (ofText s) depth (k + 1) = .ok after) :
    WellFormed (ofText s) after ∧
      ∀ (p q : Progress) (line : Line), (∀ n e, line.form ≠ .assignment n e) →
        p.step (declared (ofText s)) depth line = .ok q →
          q.standing.named = p.standing.named ∧ q.assigned = p.assigned := by
  obtain ⟨previous, hprevious, hpass⟩ := afterPasses_succ h
  refine ⟨wellFormed_pass (nodup_indices 1 (splitLines s)) (of_afterPasses hprevious) hpass,
    fun p q line hform hstep => named_step_of_no_name ?_ hstep⟩
  rw [Option.eq_none_iff_forall_ne_some]
  intro n hn
  obtain ⟨e, he⟩ := name?_eq_some.mp hn
  exact hform n e he

/-- A name that is used before the line that assigns it, and a line that fails. -/
def usedEarlier : List Char := "= 2 * a\na = 3\nTotal: 1 / 0".toList

theorem usedEarlier_wellFormed :
    ∃ after, afterPasses (ofText usedEarlier) 5 (1 + 1) = .ok after ∧
      WellFormed (ofText usedEarlier) after ∧ Assoc.get? after.standing.results 1 = some 6 ∧
      Assoc.get? after.errors 3 = some .divisionByZero := by
  have hcheck : (match afterPasses (ofText usedEarlier) 5 (1 + 1) with
      | .ok after => decide (Assoc.get? after.standing.results 1 = some 6) &&
        decide (Assoc.get? after.errors 3 = some .divisionByZero)
      | .error _ => false) = true := by decide +kernel
  cases hpasses : afterPasses (ofText usedEarlier) 5 (1 + 1) with
  | error b =>
    rw [hpasses] at hcheck
    exact absurd hcheck Bool.false_ne_true
  | ok after =>
    rw [hpasses] at hcheck
    simp only [Bool.and_eq_true, decide_eq_true_iff] at hcheck
    exact ⟨after, rfl, (afterPasses_wellFormed usedEarlier 5 1 after hpasses).1, hcheck⟩

end Reckoner.Document
