import Reckoner.Document.Pass
import Reckoner.Proofs.Assoc
import Reckoner.Proofs.Formula.Mentions

/-!
Steps of a pass and the standings they lead to. A line records its value or its fault: its result,
the value of its name and its entry among the faults may change, and nothing else. The standings of
a run are proper: they have each key once, only declared names and only finite values. Two proper
standings with alike values give scopes that agree, and the comparison that ends a run says that the
values are alike.
-/
namespace Reckoner.Document

open Formula Text Number

section Steps

variable {names : List (List Char)} {depth : Nat} {p q : Progress} {line : Line} {ls ms : List Line}
variable {r : Except Fault Float} {i : Nat} {n : List Char}

/-- The kind of the fault of an outcome. -/
def faultKind? : Except Fault Float → Option FaultKind
  | .ok _ => none
  | .error f => some f.kind

/-- A pass under way after the outcome of a line. -/
def Progress.record (p : Progress) (line : Line) : Except Fault Float → Progress
  | .ok x => p.succeed line x
  | .error f => p.fail line.index f.kind

section Record

theorem results_record (p : Progress) (line : Line) (r : Except Fault Float) (i : Nat) :
    Assoc.get? (p.record line r).standing.results i =
      if line.index = i then r.toOption else Assoc.get? p.standing.results i := by
  cases r with
  | ok x =>
    have hset : Assoc.get? (p.succeed line x).standing.results i =
        Assoc.get? (Assoc.set p.standing.results line.index x) i := by
      unfold Progress.succeed
      cases line.form.name? <;> rfl
    exact hset.trans (Assoc.get?_set _ _ _ _)
  | error f =>
    refine (Assoc.get?_erase _ _ _).trans ?_
    simp only [eq_comm]
    rfl

theorem errors_record (p : Progress) (line : Line) (r : Except Fault Float) (i : Nat) :
    Assoc.get? (p.record line r).errors i =
      if line.index = i then (faultKind? r).or (Assoc.get? p.errors i)
      else Assoc.get? p.errors i := by
  cases r with
  | ok x =>
    have hsame : (p.succeed line x).errors = p.errors := by
      unfold Progress.succeed
      cases line.form.name? <;> rfl
    refine (congrArg (Assoc.get? · i) hsame).trans ?_
    split <;> rfl
  | error f => exact Assoc.get?_set _ _ _ _

theorem named_record (p : Progress) (line : Line) (r : Except Fault Float) (n : List Char) :
    Assoc.get? (p.record line r).standing.named n =
      if line.form.name? = some n then r.toOption.or (Assoc.get? p.standing.named n)
      else Assoc.get? p.standing.named n := by
  cases r with
  | ok x =>
    change Assoc.get? (p.succeed line x).standing.named n = _
    unfold Progress.succeed
    cases line.form.name? with
    | none => rfl
    | some m =>
      refine (Assoc.get?_set _ _ _ _).trans ?_
      simp only [Option.some.injEq]
      rfl
  | error f => exact (ite_self _).symm

theorem mem_assigned_record (p : Progress) (line : Line) (r : Except Fault Float) (n : List Char) :
    n ∈ (p.record line r).assigned ↔
      (line.form.name? = some n ∧ r.toOption.isSome = true) ∨ n ∈ p.assigned := by
  cases r with
  | ok x =>
    change n ∈ (p.succeed line x).assigned ↔ _
    unfold Progress.succeed
    cases line.form.name? with
    | none => simp
    | some m =>
      dsimp only
      rw [List.mem_cons, Option.some.injEq]
      exact or_congr_left ⟨fun h => ⟨h.symm, rfl⟩, fun h => h.1.symm⟩
  | error f =>
    exact ⟨Or.inr, fun h => h.resolve_left fun h => absurd h.2 Bool.false_ne_true⟩

end Record

section Step

/-- What a step does: nothing for a blank line, otherwise it records the outcome of the line. -/
theorem step_cases (h : p.step names depth line = .ok q) :
    (line.form = .blank ∧ q = p) ∨
      (line.form ≠ .blank ∧ ∃ r,
        evaluate Builtin.table depth (p.standing.scope names) line.form.expression = asFailure r ∧
          q = p.record line r) := by
  unfold Progress.step at h
  split at h
  · rename_i hblank
    exact Or.inl ⟨hblank, (Except.ok.inj h).symm⟩
  · rename_i hform
    refine Or.inr ⟨hform, ?_⟩
    split at h
    · rename_i x heq
      exact ⟨.ok x, heq, (Except.ok.inj h).symm⟩
    · rename_i f heq
      exact ⟨.error f, heq, (Except.ok.inj h).symm⟩
    · exact absurd h (by simp)

theorem results_step (h : p.step names depth line = .ok q)
    (hi : line.form ≠ .blank → line.index ≠ i) :
    Assoc.get? q.standing.results i = Assoc.get? p.standing.results i ∧
      Assoc.get? q.errors i = Assoc.get? p.errors i := by
  rcases step_cases h with ⟨_, rfl⟩ | ⟨hform, r, _, rfl⟩
  · exact ⟨rfl, rfl⟩
  · rw [results_record, errors_record, if_neg (hi hform), if_neg (hi hform)]
    exact ⟨rfl, rfl⟩

theorem named_step (h : p.step names depth line = .ok q) (hn : line.form.name? ≠ some n) :
    Assoc.get? q.standing.named n = Assoc.get? p.standing.named n ∧
      (n ∈ q.assigned ↔ n ∈ p.assigned) := by
  rcases step_cases h with ⟨_, rfl⟩ | ⟨_, r, _, rfl⟩
  · exact ⟨rfl, Iff.rfl⟩
  · rw [named_record, mem_assigned_record, if_neg hn]
    exact ⟨rfl, fun h' => h'.resolve_left fun h'' => hn h''.1, Or.inr⟩

/-- A name that has not been assigned has kept its value. -/
theorem named_step_of_not_assigned (h : p.step names depth line = .ok q) (hn : n ∉ q.assigned) :
    n ∉ p.assigned ∧ Assoc.get? q.standing.named n = Assoc.get? p.standing.named n := by
  rcases step_cases h with ⟨_, rfl⟩ | ⟨_, r, _, rfl⟩
  · exact ⟨hn, rfl⟩
  · rw [mem_assigned_record, not_or] at hn
    refine ⟨hn.2, ?_⟩
    rw [named_record]
    split
    · rename_i hname
      cases r with
      | ok x => exact absurd ⟨hname, rfl⟩ hn.1
      | error f => rfl
    · rfl

end Step

section Run

theorem run_cons (h : Progress.run names depth p (line :: ls) = .ok q) :
    ∃ p', p.step names depth line = .ok p' ∧ Progress.run names depth p' ls = .ok q := by
  rw [Progress.run] at h
  cases hstep : p.step names depth line with
  | error b => rw [hstep] at h; exact absurd h (by simp [bind, Except.bind])
  | ok p' =>
    rw [hstep] at h
    exact ⟨p', rfl, h⟩

theorem run_append (h : Progress.run names depth p (ls ++ ms) = .ok q) :
    ∃ p', Progress.run names depth p ls = .ok p' ∧ Progress.run names depth p' ms = .ok q := by
  induction ls generalizing p with
  | nil => exact ⟨p, rfl, h⟩
  | cons line ls ih =>
    obtain ⟨p₁, hstep, hrest⟩ := run_cons h
    obtain ⟨p', hls, hms⟩ := ih hrest
    refine ⟨p', ?_, hms⟩
    rw [Progress.run, hstep]
    exact hls

theorem run_concat (h : Progress.run names depth p ls = .ok q) (line : Line) :
    Progress.run names depth p (ls ++ [line]) = q.step names depth line := by
  induction ls generalizing p with
  | nil =>
    obtain rfl := Except.ok.inj h
    rw [List.nil_append, Progress.run]
    cases p.step names depth line <;> rfl
  | cons first rest ih =>
    obtain ⟨p', hstep, hrest⟩ := run_cons h
    rw [List.cons_append, Progress.run, hstep]
    exact ih hrest

theorem results_run (h : Progress.run names depth p ls = .ok q)
    (hi : ∀ line ∈ ls, line.form ≠ .blank → line.index ≠ i) :
    Assoc.get? q.standing.results i = Assoc.get? p.standing.results i ∧
      Assoc.get? q.errors i = Assoc.get? p.errors i := by
  induction ls generalizing p with
  | nil =>
    obtain rfl := Except.ok.inj h
    exact ⟨rfl, rfl⟩
  | cons line ls ih =>
    obtain ⟨p₁, hstep, hrest⟩ := run_cons h
    obtain ⟨hresults, herrors⟩ := results_step hstep (hi line List.mem_cons_self)
    obtain ⟨hresults', herrors'⟩ := ih hrest fun l hl => hi l (List.mem_cons_of_mem line hl)
    exact ⟨hresults'.trans hresults, herrors'.trans herrors⟩

theorem named_run (h : Progress.run names depth p ls = .ok q)
    (hn : ∀ line ∈ ls, line.form.name? ≠ some n) :
    Assoc.get? q.standing.named n = Assoc.get? p.standing.named n ∧
      (n ∈ q.assigned ↔ n ∈ p.assigned) := by
  induction ls generalizing p with
  | nil =>
    obtain rfl := Except.ok.inj h
    exact ⟨rfl, Iff.rfl⟩
  | cons line ls ih =>
    obtain ⟨p₁, hstep, hrest⟩ := run_cons h
    obtain ⟨hnamed, hassigned⟩ := named_step hstep (hn line List.mem_cons_self)
    obtain ⟨hnamed', hassigned'⟩ := ih hrest fun l hl => hn l (List.mem_cons_of_mem line hl)
    exact ⟨hnamed'.trans hnamed, hassigned'.trans hassigned⟩

theorem named_run_of_not_assigned (h : Progress.run names depth p ls = .ok q)
    (hn : n ∉ q.assigned) :
    n ∉ p.assigned ∧ Assoc.get? q.standing.named n = Assoc.get? p.standing.named n := by
  induction ls generalizing p with
  | nil =>
    obtain rfl := Except.ok.inj h
    exact ⟨hn, rfl⟩
  | cons line ls ih =>
    obtain ⟨p₁, hstep, hrest⟩ := run_cons h
    obtain ⟨hn', hnamed'⟩ := ih hrest
    obtain ⟨hn'', hnamed⟩ := named_step_of_not_assigned hstep hn'
    exact ⟨hn'', hnamed'.trans hnamed⟩

end Run

end Steps

section Standings

variable {names : List (List Char)} {depth : Nat} {ls : List Line} {line : Line}
variable {s t : Standing}

/-- Standings with distinct keys, declared names and finite values. -/
structure Standing.Proper (names : List (List Char)) (s : Standing) : Prop where
  named_nodup : (Assoc.keys s.named).Nodup
  results_nodup : (Assoc.keys s.results).Nodup
  declared : Assoc.keys s.named ⊆ names
  named_finite : ∀ e ∈ s.named, e.2.isFinite = true
  results_finite : ∀ e ∈ s.results, e.2.isFinite = true

theorem proper_empty : Standing.empty.Proper names :=
  ⟨List.nodup_nil, List.nodup_nil, List.nil_subset names, fun _ h => absurd h List.not_mem_nil,
    fun _ h => absurd h List.not_mem_nil⟩

section Preservation

variable {p q : Progress}

theorem proper_succeed (h : p.standing.Proper names) {x : Float} (hx : x.isFinite = true)
    (hname : ∀ n, line.form.name? = some n → n ∈ names) :
    (p.succeed line x).standing.Proper names := by
  have hresults : ∀ e ∈ Assoc.set p.standing.results line.index x, e.2.isFinite = true := by
    intro e he
    rcases Assoc.mem_set he with he | rfl
    · exact h.results_finite e he
    · exact hx
  unfold Progress.succeed
  cases hn : line.form.name? with
  | none =>
    exact ⟨h.named_nodup, Assoc.nodup_set h.results_nodup, h.declared, h.named_finite, hresults⟩
  | some n =>
    refine ⟨Assoc.nodup_set h.named_nodup, Assoc.nodup_set h.results_nodup, fun m hm => ?_,
      fun e he => ?_, hresults⟩
    · rcases Assoc.mem_keys_set.mp hm with rfl | hm
      · exact hname m hn
      · exact h.declared hm
    · rcases Assoc.mem_set he with he | rfl
      · exact h.named_finite e he
      · exact hx

theorem proper_fail (h : p.standing.Proper names) (index : Nat) (kind : FaultKind) :
    (p.fail index kind).standing.Proper names :=
  ⟨h.named_nodup, Assoc.nodup_filter h.results_nodup _, h.declared, h.named_finite,
    fun e he => h.results_finite e (List.mem_of_mem_filter he)⟩

theorem proper_step (h : p.standing.Proper names)
    (hname : ∀ n, line.form.name? = some n → n ∈ names)
    (hstep : p.step names depth line = .ok q) : q.standing.Proper names := by
  rcases step_cases hstep with ⟨_, rfl⟩ | ⟨_, r, hvalue, rfl⟩
  · exact h
  · cases r with
    | ok x => exact proper_succeed h (isFinite_of_evaluate hvalue) hname
    | error f => exact proper_fail h line.index f.kind

theorem proper_run (h : p.standing.Proper names)
    (hname : ∀ line ∈ ls, ∀ n, line.form.name? = some n → n ∈ names)
    (hrun : Progress.run names depth p ls = .ok q) : q.standing.Proper names := by
  induction ls generalizing p with
  | nil =>
    obtain rfl := Except.ok.inj hrun
    exact h
  | cons line ls ih =>
    obtain ⟨p', hstep, hrest⟩ := run_cons hrun
    exact ih (proper_step h (hname line List.mem_cons_self) hstep)
      (fun l hl => hname l (List.mem_cons_of_mem line hl)) hrest

end Preservation

section Comparison

/-- Standings with alike values. -/
structure Standing.Alike (s t : Standing) : Prop where
  named : ∀ n, SameOutcome (Assoc.get? s.named n) (Assoc.get? t.named n)
  results : ∀ i, SameOutcome (Assoc.get? s.results i) (Assoc.get? t.results i)

theorem Standing.Alike.refl (s : Standing) : s.Alike s :=
  ⟨fun _ => sameOutcome_refl _, fun _ => sameOutcome_refl _⟩

theorem sameOutcome_symm {a b : Option Float} (h : SameOutcome a b) : SameOutcome b a := by
  cases h with
  | none => exact .none
  | some hx => exact .some hx.symm

/-- Maps that are found to have the same numbers have alike values. -/
theorem sameOutcome_of_sameNumbers {κ : Type} [DecidableEq κ] {a b : Assoc κ Float}
    (ha : (Assoc.keys a).Nodup) (h : sameNumbers a b = true) (k : κ) :
    SameOutcome (Assoc.get? a k) (Assoc.get? b k) := by
  unfold sameNumbers at h
  obtain ⟨hlength, hall⟩ := Bool.and_eq_true_iff.mp h
  have hentry : ∀ k x, Assoc.get? a k = some x →
      ∃ y, Assoc.get? b k = some y ∧ (x == y) = true := by
    intro k x hx
    have hequal := List.all_eq_true.mp hall (k, x) (Assoc.mem_of_get? hx)
    dsimp only at hequal
    split at hequal
    · rename_i y hy
      exact ⟨y, hy, hequal⟩
    · exact absurd hequal Bool.false_ne_true
  have hsubset : Assoc.keys a ⊆ Assoc.keys b := by
    intro k hk
    obtain ⟨x, hx⟩ := Option.isSome_iff_exists.mp (Assoc.isSome_get?.mpr hk)
    obtain ⟨y, hy, _⟩ := hentry k x hx
    exact Assoc.isSome_get?.mp (by rw [hy]; rfl)
  have hperm : (Assoc.keys a).Perm (Assoc.keys b) := by
    refine (ha.subperm hsubset).perm_of_length_le ?_
    unfold Assoc.keys
    rw [List.length_map, List.length_map, eq_of_beq hlength]
  cases hx : Assoc.get? a k with
  | some x =>
    obtain ⟨y, hy, hequal⟩ := hentry k x hx
    rw [hy]
    exact .some (alike_of_beq hequal)
  | none =>
    have hnot : k ∉ Assoc.keys b := fun hk => Assoc.get?_eq_none.mp hx (hperm.mem_iff.mpr hk)
    rw [Assoc.get?_eq_none.mpr hnot]
    exact .none

/-- What the comparison of two standings says. -/
theorem alike_of_agrees (hs : s.Proper names) (h : s.agrees t = true) : s.Alike t := by
  obtain ⟨hnamed, hresults⟩ := Bool.and_eq_true_iff.mp h
  exact ⟨sameOutcome_of_sameNumbers hs.named_nodup hnamed,
    sameOutcome_of_sameNumbers hs.results_nodup hresults⟩

end Comparison

section Scopes

/-- The names of a scope are the declared names. -/
theorem mem_names_scope (hs : s.Proper names) {n : List Char} :
    n ∈ (s.scope names).names ↔ n ∈ names := by
  rw [Scope.mem_names]
  unfold Standing.scope
  dsimp only
  rw [List.mem_append, List.mem_filter]
  constructor
  · rintro (h | h)
    · exact hs.declared h
    · exact h.1
  · intro h
    by_cases hn : n ∈ Assoc.keys s.named
    · exact Or.inl hn
    · refine Or.inr ⟨h, ?_⟩
      unfold Assoc.has
      rw [Assoc.get?_eq_none.mpr hn]
      rfl

theorem get?_lines (s : Standing) (names : List (List Char)) (i : Nat) :
    Assoc.get? (s.scope names).lines (Int.ofNat i) = Assoc.get? s.results i :=
  Assoc.get?_map (fun _ _ h => Int.ofNat.inj h) s.results i

/-- Proper standings with alike values give scopes that agree, in whatever order the declared names
are listed. -/
theorem Standing.Alike.scope {names' : List (List Char)} (h : s.Alike t) (hs : s.Proper names)
    (ht : t.Proper names') (hsame : ∀ n, n ∈ names ↔ n ∈ names')
    (hnames : ∀ n ∈ names, isIdentifier n = true) : (s.scope names).Agrees (t.scope names') := by
  refine ⟨fun n hn => hnames n ((mem_names_scope hs).mp hn), fun n => ?_, h.named, fun i => ?_⟩
  · rw [mem_names_scope hs, mem_names_scope ht, hsame]
  · cases i with
    | ofNat i =>
      rw [get?_lines, get?_lines]
      exact h.results i
    | negSucc i =>
      have hnone : ∀ (s : Standing) (names : List (List Char)),
          Assoc.get? (s.scope names).lines (Int.negSucc i) = none := by
        intro s names
        rw [Assoc.get?_eq_none]
        intro hmem
        obtain ⟨e, he, hkey⟩ := List.mem_map.mp hmem
        obtain ⟨f, _, rfl⟩ := List.mem_map.mp he
        exact absurd hkey (by simp)
      rw [hnone, hnone]
      exact .none

theorem regular_scope (hs : s.Proper names) (hnames : ∀ n ∈ names, isIdentifier n = true) :
    (s.scope names).Regular := by
  refine ⟨fun n hn => hnames n ?_, hs.named_finite, fun e he => ?_⟩
  · exact (mem_names_scope hs).mp (Scope.mem_names.mpr hn)
  · obtain ⟨f, hf, rfl⟩ := List.mem_map.mp he
    exact hs.results_finite f hf

end Scopes

end Standings

end Reckoner.Document
