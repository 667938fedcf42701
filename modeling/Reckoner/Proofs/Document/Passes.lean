import Reckoner.Proofs.Document.Standings

/-!
What a pass does to each line of a document in which no two lines have an index or a name in common.
Each line is evaluated against a standing that has, for every line and name, the value from before
the pass or the value from after it.
-/
namespace Reckoner.Document

open Formula

/-- No two lines have the same index, and no name is assigned on two lines. -/
structure Distinct (doc : List Line) : Prop where
  indices : (doc.map (·.index)).Nodup
  names : (declared doc).Nodup

variable {names : List (List Char)} {depth : Nat} {doc ls ms : List Line} {line : Line}

theorem mem_declared {n : List Char} : n ∈ declared doc ↔ ∃ line ∈ doc, line.form.name? = some n :=
  List.mem_filterMap

theorem form_ne_blank {n : List Char} (h : line.form.name? = some n) : line.form ≠ .blank := by
  intro hblank
  rw [hblank] at h
  exact absurd h (by simp [Form.name?])

theorem index_cases (doc : List Line) (i : Nat) :
    (∃ line ∈ doc, line.form ≠ .blank ∧ line.index = i) ∨
      ∀ line ∈ doc, line.form ≠ .blank → line.index ≠ i := by
  by_cases h : ∃ line ∈ doc, line.form ≠ .blank ∧ line.index = i
  · exact Or.inl h
  · exact Or.inr fun line hline hform hindex => h ⟨line, hline, hform, hindex⟩

/-- Every value of a standing is one of the values of two others. -/
structure Between (before s after : Standing) : Prop where
  named : ∀ n, Assoc.get? s.named n = Assoc.get? before.named n ∨
    Assoc.get? s.named n = Assoc.get? after.named n
  results : ∀ i, Assoc.get? s.results i = Assoc.get? before.results i ∨
    Assoc.get? s.results i = Assoc.get? after.results i

theorem index_ne (h : ((ls ++ ms).map (·.index)).Nodup) {l m : Line} (hl : l ∈ ls) (hm : m ∈ ms) :
    m.index ≠ l.index := by
  intro heq
  rw [List.map_append] at h
  exact (List.nodup_append.mp h).2.2 l.index (List.mem_map_of_mem hl) m.index
    (List.mem_map_of_mem hm) heq.symm

theorem Distinct.name_ne (h : Distinct (ls ++ ms)) {l m : Line} {n : List Char} (hl : l ∈ ls)
    (hm : m ∈ ms) (hn : l.form.name? = some n) : m.form.name? ≠ some n := by
  intro heq
  have hnodup := h.names
  unfold declared at hnodup
  rw [List.filterMap_append] at hnodup
  exact (List.nodup_append.mp hnodup).2.2 n (mem_declared.mpr ⟨l, hl, hn⟩) n
    (mem_declared.mpr ⟨m, hm, heq⟩) rfl

/-- What lies between two alike standings is alike to both. -/
theorem Between.alike {before s after : Standing} (h : Between before s after)
    (halike : after.Alike before) : s.Alike after := by
  refine ⟨fun n => ?_, fun i => ?_⟩
  · rcases h.named n with hn | hn
    · rw [hn]
      exact sameOutcome_symm (halike.named n)
    · rw [hn]
      exact sameOutcome_refl _
  · rcases h.results i with hi | hi
    · rw [hi]
      exact sameOutcome_symm (halike.results i)
    · rw [hi]
      exact sameOutcome_refl _

/-- In the middle of a run every value is the one from before or the one from after. -/
theorem between_run {p p' q : Progress} (hd : Distinct (ls ++ ms))
    (hls : Progress.run names depth p ls = .ok p')
    (hms : Progress.run names depth p' ms = .ok q) :
    Between p.standing p'.standing q.standing := by
  refine ⟨fun n => ?_, fun i => ?_⟩
  · by_cases hn : ∃ l ∈ ls, l.form.name? = some n
    · obtain ⟨l, hl, hname⟩ := hn
      exact Or.inr (named_run hms fun m hm => hd.name_ne hl hm hname).1.symm
    · exact Or.inl (named_run hls fun l hl hname => hn ⟨l, hl, hname⟩).1
  · by_cases hi : ∃ l ∈ ls, l.index = i
    · obtain ⟨l, hl, rfl⟩ := hi
      exact Or.inr (results_run hms fun m hm _ => index_ne hd.indices hl hm).1.symm
    · exact Or.inl (results_run hls fun l hl _ hindex => hi ⟨l, hl, hindex⟩).1

/-- In a run each line is evaluated against what the lines before it leave, and its outcome is the
one that is listed at the end. -/
theorem line_run {p₀ p q : Progress} (hindices : ((ls ++ line :: ms).map (·.index)).Nodup)
    (hls : Progress.run names depth p₀ ls = .ok p)
    (hrest : Progress.run names depth p (line :: ms) = .ok q) (hform : line.form ≠ .blank) :
    ∃ r, evaluate Builtin.table depth (p.standing.scope names) line.form.expression = asFailure r ∧
      Progress.run names depth (p.record line r) ms = .ok q ∧
      Assoc.get? q.standing.results line.index = r.toOption ∧
      Assoc.get? q.errors line.index = (faultKind? r).or (Assoc.get? p₀.errors line.index) := by
  obtain ⟨p', hstep, hms⟩ := run_cons hrest
  rcases step_cases hstep with ⟨hblank, _⟩ | ⟨_, r, hvalue, rfl⟩
  · exact absurd hblank hform
  have hsplit : (((ls ++ [line]) ++ ms).map (·.index)).Nodup := by
    rw [List.append_assoc]
    exact hindices
  have hmem : line ∈ ls ++ [line] := List.mem_append_right _ List.mem_cons_self
  have hafter := results_run hms fun m hm _ => index_ne hsplit hmem hm
  have hbefore := results_run hls fun l hl _ => (index_ne hindices hl List.mem_cons_self).symm
  refine ⟨r, hvalue, hms, ?_, ?_⟩
  · rw [hafter.1, results_record, if_pos rfl]
  · rw [hafter.2, errors_record, if_pos rfl, hbefore.2]

/-- That a pass has recorded the outcome of a line. -/
structure Recorded (after : PassResult) (line : Line) (r : Except Fault Float) : Prop where
  result : Assoc.get? after.standing.results line.index = r.toOption
  error : Assoc.get? after.errors line.index = faultKind? r
  value : ∀ n, line.form.name? = some n → Assoc.get? after.standing.named n = r.toOption

section Pass

variable {before : Standing} {after : PassResult}

theorem pass_eq_ok (h : pass doc depth before = .ok after) :
    ∃ q, Progress.run (declared doc) depth ⟨before, [], []⟩ doc = .ok q ∧
      after = ⟨⟨q.standing.named.filter fun e => q.assigned.contains e.1, q.standing.results⟩,
        q.errors⟩ := by
  unfold pass at h
  cases hrun : Progress.run (declared doc) depth ⟨before, [], []⟩ doc with
  | error b => rw [hrun] at h; exact absurd h (by simp [bind, Except.bind])
  | ok q =>
    rw [hrun] at h
    exact ⟨q, rfl, (Except.ok.inj h).symm⟩

theorem named_kept (q : Progress) (n : List Char) :
    Assoc.get? (q.standing.named.filter fun e => q.assigned.contains e.1) n =
      if n ∈ q.assigned then Assoc.get? q.standing.named n else none := by
  rw [Assoc.get?_filter q.standing.named (fun n => q.assigned.contains n) n]
  simp only [List.contains_iff_mem]

/-- A pass leads from proper standings to proper standings. -/
theorem proper_pass (h : before.Proper (declared doc))
    (hpass : pass doc depth before = .ok after) : after.standing.Proper (declared doc) := by
  obtain ⟨q, hrun, rfl⟩ := pass_eq_ok hpass
  have hq : q.standing.Proper (declared doc) :=
    proper_run h (fun line hline n hn => mem_declared.mpr ⟨line, hline, hn⟩) hrun
  exact ⟨Assoc.nodup_filter hq.named_nodup _, hq.results_nodup,
    List.Subset.trans (Assoc.keys_filter_subset _) hq.declared,
    fun e he => hq.named_finite e (List.mem_of_mem_filter he), hq.results_finite⟩

/-- Each line is evaluated between the standings before and after the pass, and its outcome is
recorded. -/
theorem pass_line (hd : Distinct doc) (hb : before.Proper (declared doc))
    (hpass : pass doc depth before = .ok after) (hline : line ∈ doc) (hform : line.form ≠ .blank) :
    ∃ s r, s.Proper (declared doc) ∧ Between before s after.standing ∧
      evaluate Builtin.table depth (s.scope (declared doc)) line.form.expression = asFailure r ∧
      Recorded after line r := by
  obtain ⟨q, hrun, rfl⟩ := pass_eq_ok hpass
  obtain ⟨ls, ms, rfl⟩ := List.append_of_mem hline
  obtain ⟨p, hls, hrest⟩ := run_append hrun
  obtain ⟨r, hvalue, hms, hresult, herror⟩ := line_run hd.indices hls hrest hform
  have hbetween := between_run hd hls hrest
  have hd' : Distinct ((ls ++ [line]) ++ ms) := by
    rw [List.append_assoc]
    exact hd
  have hmem : line ∈ ls ++ [line] := List.mem_append_right _ List.mem_cons_self
  have hproper : p.standing.Proper (declared (ls ++ line :: ms)) :=
    proper_run hb (fun l hl n hn => mem_declared.mpr ⟨l, List.mem_append_left _ hl, hn⟩) hls
  refine ⟨p.standing, r, hproper, ⟨fun n => ?_, hbetween.results⟩, hvalue, hresult, ?_,
    fun n hn => ?_⟩
  · dsimp only
    rw [named_kept]
    split
    · exact hbetween.named n
    · rename_i hnot
      have hsame := (named_run_of_not_assigned hrest hnot).1
      exact Or.inl (named_run_of_not_assigned hls hsame).2
  · exact herror.trans Option.or_none
  · have hname := named_run hms fun m hm => hd'.name_ne hmem hm hn
    have hearlier := named_run hls fun l hl hl' =>
      hd.name_ne hl List.mem_cons_self hl' hn
    rw [named_kept]
    simp only [hname.2, hname.1, mem_assigned_record, named_record, if_pos hn]
    cases r with
    | ok x => exact if_pos (Or.inl ⟨hn, rfl⟩)
    | error f =>
      refine if_neg fun h => ?_
      rcases h with h | h
      · exact absurd h.2 Bool.false_ne_true
      · exact absurd (hearlier.2.mp h) List.not_mem_nil

/-- Only names that the document assigns have values after a pass. -/
theorem named_pass_of_not_declared (hpass : pass doc depth before = .ok after) {n : List Char}
    (hn : n ∉ declared doc) : Assoc.get? after.standing.named n = none := by
  obtain ⟨q, hrun, rfl⟩ := pass_eq_ok hpass
  have hassigned := (named_run hrun fun line hline hname =>
    hn (mem_declared.mpr ⟨line, hline, hname⟩)).2
  rw [named_kept, if_neg fun h => absurd (hassigned.mp h) List.not_mem_nil]

/-- A pass leaves the results of other lines as they are. -/
theorem results_pass_of_no_line (hpass : pass doc depth before = .ok after) {i : Nat}
    (hi : ∀ line ∈ doc, line.form ≠ .blank → line.index ≠ i) :
    Assoc.get? after.standing.results i = Assoc.get? before.results i ∧
      Assoc.get? after.errors i = none := by
  obtain ⟨q, hrun, rfl⟩ := pass_eq_ok hpass
  exact results_run hrun hi

/-- Proper standings of a document: they have results for lines that are not blank only. -/
structure Standing.Of (doc : List Line) (s : Standing) : Prop where
  proper : s.Proper (declared doc)
  lines : ∀ i, (∀ line ∈ doc, line.form ≠ .blank → line.index ≠ i) → Assoc.get? s.results i = none

theorem of_empty (doc : List Line) : Standing.empty.Of doc := ⟨proper_empty, fun _ _ => rfl⟩

theorem of_pass (h : before.Of doc) (hpass : pass doc depth before = .ok after) :
    after.standing.Of doc := by
  refine ⟨proper_pass h.proper hpass, fun i hi => ?_⟩
  rw [(results_pass_of_no_line hpass hi).1]
  exact h.lines i hi

end Pass

end Reckoner.Document
