import Reckoner.Session.Calculation
import Reckoner.Proofs.Document.Converged
import Reckoner.Proofs.Formula.Breakdowns

/-!
Runs without an outcome. A breakdown of a line ends the run; there is no other way in which a run
can fail. An outcome lists every line that is not blank either with its result or with the kind of
its fault, as the last pass has found it, and every result can be displayed.
-/
namespace Reckoner.Document

open Text Number Data Formula

section Pass

variable {names : List (List Char)} {depth : Nat} {doc : List Line} {line : Line} {p : Progress}
variable {before : Standing} {after : PassResult} {b : Breakdown}

theorem step_eq_error :
    p.step names depth line = .error b ↔ line.form ≠ .blank ∧
      evaluate Builtin.table depth (p.standing.scope names) line.form.expression =
        .error (.breakdown b) := by
  unfold Progress.step
  split
  · rename_i hblank
    exact ⟨fun h => absurd h (by simp), fun h => absurd hblank h.1⟩
  · rename_i hform
    split
    · rename_i heq
      rw [heq]
      simp
    · rename_i heq
      rw [heq]
      simp
    · rename_i heq
      rw [heq]
      simp [hform]

/-- A run over some lines breaks down at the first one that does. -/
theorem run_eq_error :
    Progress.run names depth p doc = .error b ↔
      ∃ ls line ms q, doc = ls ++ line :: ms ∧ Progress.run names depth p ls = .ok q ∧
        q.step names depth line = .error b := by
  induction doc generalizing p with
  | nil =>
    refine ⟨fun h => absurd h (by simp [Progress.run]), ?_⟩
    rintro ⟨ls, line, ms, _, h, _⟩
    exact absurd h (by simp)
  | cons first rest ih =>
    refine bind_eq_error.trans ⟨?_, ?_⟩
    · rintro (h | ⟨p', hstep, h⟩)
      · exact ⟨[], first, rest, p, rfl, rfl, h⟩
      · obtain ⟨ls, line, ms, q, rfl, hls, hq⟩ := ih.mp h
        refine ⟨first :: ls, line, ms, q, rfl, ?_, hq⟩
        rw [Progress.run, hstep]
        exact hls
    · rintro ⟨ls, line, ms, q, h, hls, hq⟩
      cases ls with
      | nil =>
        obtain ⟨rfl, rfl⟩ := List.cons.inj h
        obtain rfl := Except.ok.inj hls
        exact Or.inl hq
      | cons first' ls =>
        obtain ⟨rfl, rfl⟩ := List.cons.inj h
        obtain ⟨p', hstep, hls⟩ := run_cons hls
        exact Or.inr ⟨p', hstep, ih.mpr ⟨ls, line, ms, q, rfl, hls, hq⟩⟩

/-- That the pass from a standing evaluates a line in a scope. -/
def InPass (doc : List Line) (depth : Nat) (before : Standing) (line : Line) (scope : Scope) :
    Prop :=
  line.form ≠ .blank ∧ ∃ ls ms p, doc = ls ++ line :: ms ∧
    Progress.run (declared doc) depth ⟨before, [], []⟩ ls = .ok p ∧
    scope = p.standing.scope (declared doc)

theorem pass_eq_error :
    pass doc depth before = .error b ↔ ∃ line scope, InPass doc depth before line scope ∧
      evaluate Builtin.table depth scope line.form.expression = .error (.breakdown b) := by
  refine bind_ok_eq_error.trans (run_eq_error.trans ⟨?_, ?_⟩)
  · rintro ⟨ls, line, ms, q, hdoc, hls, hq⟩
    obtain ⟨hform, hvalue⟩ := step_eq_error.mp hq
    exact ⟨line, _, ⟨hform, ls, ms, q, hdoc, hls, rfl⟩, hvalue⟩
  · rintro ⟨line, _, ⟨hform, ls, ms, q, hdoc, hls, rfl⟩, hvalue⟩
    exact ⟨ls, line, ms, q, hdoc, hls, step_eq_error.mpr ⟨hform, hvalue⟩⟩

/-- A pass lists the outcome that each line has in its scope. -/
theorem pass_reports (hindices : (doc.map (·.index)).Nodup)
    (hpass : pass doc depth before = .ok after) (hline : line ∈ doc) (hform : line.form ≠ .blank) :
    ∃ scope r, InPass doc depth before line scope ∧
      evaluate Builtin.table depth scope line.form.expression = asFailure r ∧
      Assoc.get? after.standing.results line.index = r.toOption ∧
      Assoc.get? after.errors line.index = faultKind? r := by
  obtain ⟨q, hrun, rfl⟩ := pass_eq_ok hpass
  obtain ⟨ls, ms, hdoc⟩ := List.append_of_mem hline
  have hsplit : Progress.run (declared doc) depth ⟨before, [], []⟩ (ls ++ line :: ms) = .ok q := by
    rw [← hdoc]
    exact hrun
  obtain ⟨p, hls, hrest⟩ := run_append hsplit
  obtain ⟨r, hvalue, _, hresult, herror⟩ := line_run (hdoc ▸ hindices) hls hrest hform
  exact ⟨_, r, ⟨hform, ls, ms, p, hdoc, hls, rfl⟩, hvalue, hresult, herror.trans Option.or_none⟩

theorem regular_inPass (hb : before.Proper (declared doc))
    (hnames : ∀ n ∈ declared doc, isIdentifier n = true) {scope : Scope}
    (h : InPass doc depth before line scope) : scope.Regular := by
  obtain ⟨_, ls, ms, p, hdoc, hls, rfl⟩ := h
  refine regular_scope (proper_run hb (fun l hl n hn => ?_) hls) hnames
  exact mem_declared.mpr ⟨l, hdoc ▸ List.mem_append_left _ hl, hn⟩

end Pass

section Settle

variable {doc : List Line} {depth left rest made : Nat} {start before : Standing} {b : Breakdown}
variable {previous : PassResult} {settled : Settled}

/-- That a run from a standing with a number of passes left comes to a standing with a number of
passes left: no pass in between has changed nothing. -/
inductive Comes (doc : List Line) (depth : Nat) : Nat → Standing → Nat → Standing → Prop
  | here {left : Nat} {s : Standing} : Comes doc depth left s left s
  | later {left rest : Nat} {s t : Standing} {next : PassResult}
      (passed : pass doc depth s = .ok next) (changed : next.standing.agrees s = false)
      (comes : Comes doc depth left next.standing rest t) : Comes doc depth (left + 1) s rest t

theorem of_comes (h : Comes doc depth left start rest before) (hstart : start.Of doc) :
    before.Of doc := by
  induction h with
  | here => exact hstart
  | later hpass _ _ ih => exact ih (of_pass hstart hpass)

/-- A run breaks down when a pass that it comes to does. -/
theorem settle_eq_error :
    settle doc depth made previous left = .error b ↔
      ∃ rest before, Comes doc depth left previous.standing (rest + 1) before ∧
        pass doc depth before = .error b := by
  induction left generalizing made previous with
  | zero =>
    refine ⟨fun h => absurd h (by simp [settle]), ?_⟩
    rintro ⟨rest, before, h, _⟩
    cases h
  | succ left ih =>
    refine bind_eq_error.trans ⟨?_, ?_⟩
    · rintro (h | ⟨next, hpass, h⟩)
      · exact ⟨left, previous.standing, .here, h⟩
      · split at h
        · exact absurd h (by simp [pure, Except.pure])
        · rename_i hagrees
          obtain ⟨rest, before, hcomes, hb⟩ := ih.mp h
          exact ⟨rest, before, .later hpass (Bool.eq_false_iff.mpr hagrees) hcomes, hb⟩
    · rintro ⟨rest, before, hcomes, hb⟩
      cases hcomes with
      | here => exact Or.inl hb
      | @later _ _ _ _ next hpass hchanged hcomes =>
        refine Or.inr ⟨next, hpass, ?_⟩
        rw [if_neg (Bool.eq_false_iff.mp hchanged)]
        exact ih.mpr ⟨rest, before, hcomes, hb⟩

/-- A run that has come to an end has the result of its last pass. -/
theorem settle_eq_ok (h : settle doc depth made previous (left + 1) = .ok settled) :
    ∃ rest before, Comes doc depth (left + 1) previous.standing (rest + 1) before ∧
      pass doc depth before = .ok settled.result ∧
      (settled.result.standing.agrees before = true ∨ rest = 0) := by
  induction left generalizing made previous with
  | zero =>
    obtain ⟨next, hpass, h⟩ := bind_eq_ok h
    split at h
    · obtain rfl := Except.ok.inj h
      exact ⟨0, previous.standing, .here, hpass, Or.inr rfl⟩
    · obtain rfl := Except.ok.inj h
      exact ⟨0, previous.standing, .here, hpass, Or.inr rfl⟩
  | succ left ih =>
    obtain ⟨next, hpass, h⟩ := bind_eq_ok h
    split at h
    · rename_i hagrees
      obtain rfl := Except.ok.inj h
      exact ⟨left + 1, previous.standing, .here, hpass, Or.inl hagrees⟩
    · rename_i hagrees
      obtain ⟨rest, before, hcomes, hlast⟩ := ih h
      exact ⟨rest, before, .later hpass (Bool.eq_false_iff.mpr hagrees) hcomes, hlast⟩

end Settle

section Process

variable {s : Session} {text : List Char} {precision limit : Int} {b : Breakdown} {o : Outcome}

/-- That a line is evaluated in a scope in the course of a run. -/
def Evaluated (text : List Char) (limit : Nat) (line : Line) (scope : Scope) : Prop :=
  ∃ rest before, Comes (ofText text) limit limit .empty (rest + 1) before ∧
    InPass (ofText text) limit before line scope

/-- That the last pass of a run is the one from a standing: the pass changes nothing, or no pass is
left after it. -/
def IsLast (text : List Char) (limit : Nat) (before : Standing) : Prop :=
  ∃ rest after, Comes (ofText text) limit limit .empty (rest + 1) before ∧
    pass (ofText text) limit before = .ok after ∧ (after.standing.agrees before = true ∨ rest = 0)

theorem process_eq (s : Session) (text : List Char) (precision limit : Int) :
    (s.process text (.int precision) (.int limit)).1 =
      Document.run text (.int precision) (max 1 limit).toNat := by
  unfold Session.process
  dsimp only [Value.toInt]
  split <;> (rename_i heq; exact heq.symm)

theorem regular_evaluated {limit : Nat} {line : Line} {scope : Scope}
    (h : Evaluated text limit line scope) : scope.Regular := by
  obtain ⟨rest, before, hcomes, hline⟩ := h
  exact regular_inPass (of_comes hcomes (of_empty _)).proper (fun _ => isIdentifier_declared) hline

/-- A run has no outcome exactly when it evaluates a line that breaks down. -/
theorem run_eq_breakdown {limit : Nat} :
    Document.run text (.int precision) limit = .error b ↔
      ∃ line scope, Evaluated text limit line scope ∧
        Breaks limit scope line.form.expression b := by
  have hrun : Document.run text (.int precision) limit = .error b ↔
      settle (ofText text) limit 0 ⟨.empty, []⟩ limit = .error b := bind_ok_eq_error
  rw [hrun, settle_eq_error]
  refine ⟨?_, ?_⟩
  · rintro ⟨rest, before, hcomes, hpass⟩
    obtain ⟨line, scope, hline, hb⟩ := pass_eq_error.mp hpass
    have hevaluated : Evaluated text limit line scope := ⟨rest, before, hcomes, hline⟩
    exact ⟨line, scope, hevaluated, (evaluate_breaks (regular_evaluated hevaluated).finite).mp hb⟩
  · rintro ⟨line, scope, hevaluated, hb⟩
    have hb := (evaluate_breaks (regular_evaluated hevaluated).finite).mpr hb
    obtain ⟨rest, before, hcomes, hline⟩ := hevaluated
    exact ⟨rest, before, hcomes, pass_eq_error.mpr ⟨line, scope, hline, hb⟩⟩

/-- An outcome lists the lines as the last pass has found them, and its results are finite. -/
theorem run_reports {limit : Nat}
    (h : Document.run text (.int precision) (limit + 1) = .ok o) :
    (∃ before, IsLast text (limit + 1) before ∧
      ∀ line ∈ ofText text, line.form ≠ .blank → ∃ scope r,
        InPass (ofText text) (limit + 1) before line scope ∧
        evaluate Builtin.table (limit + 1 : Nat) scope line.form.expression = asFailure r ∧
        Assoc.get? o.results line.index = r.toOption ∧
        Assoc.get? o.errors line.index = faultKind? r) ∧
    (∀ i, (∀ line ∈ ofText text, line.form ≠ .blank → line.index ≠ i) →
      Assoc.get? o.results i = none ∧ Assoc.get? o.errors i = none) ∧
    ∀ e ∈ o.results, e.2.isFinite = true := by
  obtain ⟨settled, hsettled, _, hresults, herrors, _⟩ := run_eq_ok h
  obtain ⟨rest, before, hcomes, hpass, hlast⟩ := settle_eq_ok hsettled
  have hbefore := of_comes hcomes (of_empty _)
  have hafter := of_pass hbefore hpass
  have hperm : settled.result.standing.results.Perm o.results :=
    hresults ▸ perm_sortByIndex settled.result.standing.results
  have hget : ∀ i, Assoc.get? settled.result.standing.results i = Assoc.get? o.results i :=
    Assoc.get?_perm hafter.proper.results_nodup hperm
  refine ⟨⟨before, ⟨rest, _, hcomes, hpass, hlast⟩, fun line hline hform => ?_⟩, fun i hi => ?_,
    fun e he => hafter.proper.results_finite e (hperm.mem_iff.mpr he)⟩
  · obtain ⟨scope, r, hin, hvalue, hresult, herror⟩ :=
      pass_reports (nodup_indices 1 (splitLines text)) hpass hline hform
    exact ⟨scope, r, hin, hvalue, hget line.index ▸ hresult, herrors ▸ herror⟩
  · rw [← hget, herrors]
    exact ⟨hafter.lines i hi, (results_pass_of_no_line hpass hi).2⟩

/-- Processing a document gives no outcome exactly when the run evaluates a line that breaks down.
An outcome lists each line that is not blank as the last pass has found it: a line that fails has no
result and the kind of its fault among the errors. Blank lines are not listed, and every result has
a display. -/
theorem process_outcome (s : Session) (text : List Char) (precision limit : Int) :
    (∀ b, (s.process text (.int precision) (.int limit)).1 = .error b ↔
      ∃ line scope, Evaluated text (max 1 limit).toNat line scope ∧
        Breaks (max 1 limit) scope line.form.expression b) ∧
    ∀ o, (s.process text (.int precision) (.int limit)).1 = .ok o →
      (∃ before, IsLast text (max 1 limit).toNat before ∧
        ∀ line ∈ ofText text, line.form ≠ .blank → ∃ scope r,
          InPass (ofText text) (max 1 limit).toNat before line scope ∧
          evaluate Builtin.table (max 1 limit) scope line.form.expression = asFailure r ∧
          Assoc.get? o.results line.index = r.toOption ∧
          Assoc.get? o.errors line.index = faultKind? r) ∧
      (∀ i, (∀ line ∈ ofText text, line.form ≠ .blank → line.index ≠ i) →
        Assoc.get? o.results i = none ∧ Assoc.get? o.errors i = none) ∧
      ∀ e ∈ o.results, ∃ shown, display e.2 o.precision = some shown := by
  obtain ⟨n, hn⟩ : ∃ n : Nat, (max 1 limit).toNat = n + 1 := ⟨(max 1 limit).toNat - 1, by omega⟩
  have hlimit : max 1 limit = ((n + 1 : Nat) : Int) := by omega
  rw [process_eq, hn, hlimit]
  refine ⟨fun b => run_eq_breakdown, fun o ho => ?_⟩
  obtain ⟨hlines, hothers, hfinite⟩ := run_reports ho
  refine ⟨hlines, hothers, fun e he => ?_⟩
  obtain ⟨parts, hparts⟩ := exists_binary (hfinite e he)
  unfold display
  rw [hparts]
  exact ⟨_, rfl⟩

end Process

section Overlong

variable {digits : List Char}

theorem splitAt_eq {p : Char → Bool} {s : List Char} (h : ∀ c ∈ s, p c = false) :
    splitAt p s = [s] := by
  induction s with
  | nil => rfl
  | cons c r ih =>
    rw [splitAt, ih fun d hd => h d (List.mem_cons_of_mem c hd), h c List.mem_cons_self]
    rfl

theorem mem_overlongLine (hd : AllDigits digits) {c : Char} (h : c ∈ '=' :: '@' :: digits) :
    isBlank c = false ∧ c ≠ '<' := by
  rcases List.mem_cons.mp h with rfl | h
  · decide
  rcases List.mem_cons.mp h with rfl | h
  · decide
  · refine ⟨isBlank_of_isWord (isWord_of_isDigit (hd c h)), ?_⟩
    rintro rfl
    exact absurd (hd '<' h) (by decide)

theorem trim_overlongLine (hd : AllDigits digits) {s : List Char}
    (hs : s.Sublist ('=' :: '@' :: digits)) : trim s = s := by
  have hblank : ∀ c ∈ s, isBlank c = false := fun c hc => (mem_overlongLine hd (hs.subset hc)).1
  exact trim_eq (fun c hc => hblank c (List.mem_of_mem_head? hc))
    (fun c hc => hblank c (List.mem_of_getLast? hc))

theorem classify_overlongLine (hd : AllDigits digits) :
    classify ('=' :: '@' :: digits) = .plain ('@' :: digits) := by
  have htags : '<' ∉ '=' :: '@' :: digits := fun h => (mem_overlongLine hd h).2 rfl
  have htrim : trim (dropTags ('=' :: '@' :: digits)) = '=' :: '@' :: digits := by
    rw [dropTags_eq htags]
    exact trim_overlongLine hd (List.Sublist.refl _)
  have hleading : leadingEquals? ('=' :: '@' :: digits) = some (.plain ('@' :: digits)) := by
    change some (if (trim ('@' :: digits)).isEmpty = true then _ else _) = _
    rw [trim_overlongLine hd (List.sublist_cons_self _ _)]
    rfl
  unfold classify
  dsimp only
  rw [htrim, hleading]
  rfl

theorem ofText_overlongLine (hd : AllDigits digits) :
    ofText ('=' :: '@' :: digits) = [⟨1, '=' :: '@' :: digits, .plain ('@' :: digits)⟩] := by
  have hblank : ∀ c ∈ '=' :: '@' :: digits, isBlank c = false :=
    fun c hc => (mem_overlongLine hd hc).1
  have hbreak : ∀ c ∈ '=' :: '@' :: digits, (c == '\n') = false := by
    intro c hc
    rw [beq_eq_false_iff_ne]
    rintro rfl
    exact absurd (hblank '\n' hc) (by decide)
  have hreturn : ∀ c ∈ ('=' :: '@' :: digits).reverse.head?, (c == '\r') = false := by
    intro c hc
    rw [beq_eq_false_iff_ne]
    rintro rfl
    exact absurd (hblank '\r' (List.mem_reverse.mp (List.mem_of_mem_head? hc))) (by decide)
  unfold ofText splitLines
  rw [splitAt_eq hbreak, List.map_singleton, dropCarriageReturns, dropWhile_of_head hreturn,
    List.reverse_reverse, number, number, classify_overlongLine hd]

/-- A document whose only line refers to a line by a number with too many digits has no outcome. -/
theorem process_overlong (hd : AllDigits digits) (hlong : digitLimit < digits.length) (s : Session)
    (precision limit : Int) :
    (s.process ('=' :: '@' :: digits) (.int precision) (.int limit)).1 =
      .error (.tooManyDigits digits.length) := by
  obtain ⟨n, hn⟩ : ∃ n : Nat, (max 1 limit).toNat = n + 1 := ⟨(max 1 limit).toNat - 1, by omega⟩
  have hreferences : overlong? ('@' :: digits) = some digits := by
    have htake : digits.takeWhile isDigit = digits := List.takeWhile_eq_self_iff.mpr hd
    have hne : digits ≠ [] := List.ne_nil_of_length_pos (Nat.zero_lt_of_lt hlong)
    unfold overlong? references
    dsimp only
    rw [htake, if_pos ⟨rfl, hne⟩, List.find?_cons, decide_eq_true hlong]
  have hin : InPass (ofText ('=' :: '@' :: digits)) (n + 1) .empty
      ⟨1, '=' :: '@' :: digits, .plain ('@' :: digits)⟩ (Standing.empty.scope []) := by
    rw [ofText_overlongLine hd]
    exact ⟨by simp, [], [], _, rfl, rfl, rfl⟩
  rw [process_eq, hn]
  exact run_eq_breakdown.mpr ⟨_, _, ⟨n, .empty, .here, hin⟩, .reference hreferences⟩

end Overlong

end Reckoner.Document
