import Reckoner.Proofs.Document.Breakdowns
import Reckoner.Proofs.Formula.Unreferenced
import Reckoner.Proofs.Session.Failures

/-!
A document of one line that asks for the value of an expression. The line has no name, and an
expression without references does not see its own result, so every pass finds what the expression
has on its own. Processing the document and evaluating the expression come to the same.
-/
namespace Reckoner.Document

open Text Number Data Formula

section Line

variable {e : List Char}

/-- A text after an equals sign is an expression. -/
theorem classify_equals (hvisible : trim e ≠ []) (htags : '<' ∉ e) :
    classify ('=' :: e) = .plain (trim e) := by
  have hequals : isBlank '=' = false := by decide
  have htrim : trim (dropTags ('=' :: e)) = '=' :: trimRight e := by
    rw [dropTags_eq (List.not_mem_cons_of_ne_of_not_mem (by decide) htags)]
    unfold trim
    rw [trimLeft_cons hequals, trimRight_cons hequals]
  have hleading : leadingEquals? ('=' :: trimRight e) = some (.plain (trim e)) := by
    change some (if (trim (trimRight e)).isEmpty = true then _ else _) = _
    rw [trim_trimRight, if_neg fun h => hvisible (List.isEmpty_iff.mp h)]
  unfold classify
  dsimp only
  rw [htrim, hleading]
  rfl

theorem dropCarriageReturns_equals (e : List Char) :
    dropCarriageReturns ('=' :: e) = '=' :: dropCarriageReturns e := by
  unfold dropCarriageReturns
  rw [List.reverse_cons, List.dropWhile_append]
  split
  · rename_i hnil
    rw [List.isEmpty_iff.mp hnil]
    rfl
  · rw [List.reverse_append]
    rfl

theorem trim_dropCarriageReturns (e : List Char) : trim (dropCarriageReturns e) = trim e := by
  have hblank : ∀ s : List Char,
      (s.dropWhile (· == '\r')).dropWhile isBlank = s.dropWhile isBlank := by
    intro s
    induction s with
    | nil => rfl
    | cons c r ih =>
      by_cases hc : c = '\r'
      · subst hc
        exact ih
      · rw [List.dropWhile_cons_of_neg (by simpa using hc)]
  have hright : trimRight (dropCarriageReturns e) = trimRight e := by
    unfold trimRight dropCarriageReturns
    rw [List.reverse_reverse, hblank]
  rw [← trim_trimRight, hright, trim_trimRight]

/-- A text without line ends after an equals sign is a document of one line. -/
theorem ofText_equals (hvisible : trim e ≠ []) (htags : '<' ∉ e) (hbreak : '\n' ∉ e) :
    ofText ('=' :: e) = [⟨1, '=' :: dropCarriageReturns e, .plain (trim e)⟩] := by
  have hsub : (dropCarriageReturns e).Sublist e := dropCarriageReturns_sublist e
  have hclassify : classify ('=' :: dropCarriageReturns e) = .plain (trim e) := by
    rw [classify_equals _ fun hmem => htags (hsub.subset hmem), trim_dropCarriageReturns]
    rwa [trim_dropCarriageReturns]
  have hwhole : splitAt (· == '\n') ('=' :: e) = ['=' :: e] := by
    refine splitAt_eq fun c hc => beq_eq_false_iff_ne.mpr ?_
    rintro rfl
    exact hbreak ((List.mem_cons.mp hc).resolve_left (by decide))
  unfold ofText splitLines
  rw [hwhole, List.map_singleton, dropCarriageReturns_equals, number, number, hclassify]

end Line

section Passes

variable {doc : List Line} {depth made left : Nat} {start final : PassResult}
variable {raw expression : List Char} {results : Assoc Nat Float} {x : Float} {f : Fault}
variable {b : Breakdown}

/-- Passes that leave the same wherever they start come to this, however many there are. -/
theorem settle_of_constant (hstart : pass doc depth start.standing = .ok final)
    (hfinal : pass doc depth final.standing = .ok final) :
    ∃ settled, settle doc depth made start (left + 1) = .ok settled ∧ settled.result = final := by
  induction left generalizing made start with
  | zero =>
    rw [settle, hstart]
    dsimp only [bind, Except.bind]
    split
    · exact ⟨_, rfl, rfl⟩
    · exact ⟨_, rfl, rfl⟩
  | succ left ih =>
    rw [settle, hstart]
    dsimp only [bind, Except.bind]
    split
    · exact ⟨_, rfl, rfl⟩
    · exact ih hfinal

theorem step_plain (hat : '@' ∉ expression) :
    Progress.step [] depth ⟨⟨[], results⟩, [], []⟩ ⟨1, raw, .plain expression⟩ =
      match evaluate Builtin.table depth Scope.empty expression with
      | .ok x => .ok ⟨⟨[], Assoc.set results 1 x⟩, [], []⟩
      | .error (.fault f) => .ok ⟨⟨[], Assoc.erase results 1⟩, [], [(1, f.kind)]⟩
      | .error (.breakdown b) => .error b := by
  have hlines : evaluate Builtin.table depth ((Standing.mk [] results).scope []) expression =
      evaluate Builtin.table depth Scope.empty expression :=
    evaluate_lines Builtin.table depth Scope.empty _ hat
  unfold Progress.step
  rw [if_neg (by simp)]
  dsimp only [Form.expression]
  rw [hlines]
  rfl

/-- A pass over a line without a name finds what its expression has on its own. -/
theorem pass_plain (hat : '@' ∉ expression) :
    pass [⟨1, raw, .plain expression⟩] depth ⟨[], results⟩ =
      match evaluate Builtin.table depth Scope.empty expression with
      | .ok x => .ok ⟨⟨[], Assoc.set results 1 x⟩, []⟩
      | .error (.fault f) => .ok ⟨⟨[], Assoc.erase results 1⟩, [(1, f.kind)]⟩
      | .error (.breakdown b) => .error b := by
  unfold pass declared
  rw [Progress.run]
  change ((Progress.step [] depth _ _).bind _).bind _ = _
  rw [step_plain hat]
  cases evaluate Builtin.table depth Scope.empty expression with
  | ok x => rfl
  | error why => cases why <;> rfl

end Passes

section Outcome

variable {e : List Char} {limit : Nat} (precision : Int)
variable (hvisible : trim e ≠ []) (hplain : ∀ c ∈ ['@', '<', '\n'], c ∉ e)
include hvisible hplain

theorem pass_equals (depth : Nat) (results : Assoc Nat Float) :
    pass (ofText ('=' :: e)) depth ⟨[], results⟩ =
      match evaluate Builtin.table depth Scope.empty e with
      | .ok x => .ok ⟨⟨[], Assoc.set results 1 x⟩, []⟩
      | .error (.fault f) => .ok ⟨⟨[], Assoc.erase results 1⟩, [(1, f.kind)]⟩
      | .error (.breakdown b) => .error b := by
  have hat : '@' ∉ e := hplain '@' (by decide)
  have htags : '<' ∉ e := hplain '<' (by decide)
  rw [ofText_equals hvisible htags (hplain '\n' (by decide)),
    pass_plain fun hmem => hat ((trim_sublist e).subset hmem),
    evaluate_trim Builtin.table depth names_empty hat htags]

/-- The outcome lists what the expression has on its own. -/
theorem run_equals {r : Except Fault Float}
    (h : evaluate Builtin.table (limit + 1 : Nat) Scope.empty e = asFailure r) :
    ∃ o, Document.run ('=' :: e) (.int precision) (limit + 1) = .ok o ∧
      o.results = (r.toOption.map fun x => (1, x)).toList ∧
      o.errors = ((faultKind? r).map fun k => (1, k)).toList ∧
      o.precision = clampPrecision precision := by
  have hpass := pass_equals hvisible hplain (limit + 1)
  rw [h] at hpass
  obtain ⟨settled, hsettled, hresult⟩ : ∃ settled,
      settle (ofText ('=' :: e)) (limit + 1) 0 ⟨.empty, []⟩ (limit + 1) = .ok settled ∧
        settled.result = ⟨⟨[], (r.toOption.map fun x => (1, x)).toList⟩,
          ((faultKind? r).map fun k => (1, k)).toList⟩ := by
    cases r with
    | ok x => exact settle_of_constant (hpass []) (hpass [(1, x)])
    | error f => exact settle_of_constant (hpass []) (hpass [])
  unfold Document.run
  dsimp only
  rw [hsettled]
  refine ⟨_, rfl, ?_, ?_, rfl⟩
  · dsimp only
    rw [hresult]
    cases r with
    | ok x => exact List.mergeSort_singleton (1, x)
    | error f => exact List.mergeSort_nil
  · dsimp only
    rw [hresult]

theorem run_equals_breakdown {b : Breakdown}
    (h : evaluate Builtin.table (limit + 1 : Nat) Scope.empty e = .error (.breakdown b)) :
    Document.run ('=' :: e) (.int precision) (limit + 1) = .error b := by
  have hpass := pass_equals hvisible hplain (limit + 1) []
  rw [h] at hpass
  unfold Document.run
  dsimp only
  rw [settle]
  change ((pass _ _ ⟨[], []⟩).bind _).bind _ = _
  rw [hpass]
  rfl

end Outcome

section Entry

variable {e : List Char} {limit : Int}

/-- Processing an equals sign with an expression after it and evaluating the expression come to the
same: the document has one result, shown as it is, exactly when the expression has a value that is
shown so, and one error without a result exactly when the expression has a fault of that kind. -/
theorem process_equals (s s' : Session) (precision : Int) (hvisible : trim e ≠ [])
    (hplain : ∀ c ∈ ['@', '<', '\n'], c ∉ e) (hlimit : 1 ≤ limit) :
    (∀ shown, (∃ o x, (s.process ('=' :: e) (.int precision) (.int limit)).1 = .ok o ∧
        o.results = [(1, x)] ∧ o.displays = [(1, shown)]) ↔
      (s'.evaluate e .null (.int precision) limit).1 = .ok shown) ∧
    ∀ kind, (∃ o, (s.process ('=' :: e) (.int precision) (.int limit)).1 = .ok o ∧
        o.errors = [(1, kind)] ∧ o.results = []) ↔
      ∃ f, (s'.evaluate e .null (.int precision) limit).1 = .error (.fault f) ∧ f.kind = kind := by
  obtain ⟨n, hn⟩ : ∃ n : Nat, (max 1 limit).toNat = n + 1 := ⟨(max 1 limit).toNat - 1, by omega⟩
  have hlimit' : limit = ((n + 1 : Nat) : Int) := by omega
  have hvalue : valueIn .null limit e = evaluate Builtin.table (n + 1 : Nat) Scope.empty e := by
    rw [hlimit']
    rfl
  rw [process_eq, hn]
  cases hresult : evaluate Builtin.table (n + 1 : Nat) Scope.empty e with
  | ok x =>
    obtain ⟨o, ho, hresults, herrors, hprecision⟩ :=
      run_equals precision hvisible hplain (r := .ok x) hresult
    obtain ⟨shown, hdisplay, hanswer⟩ :=
      s'.evaluate_of_value (hvalue.trans hresult) precision
    have hdisplays : o.displays = [(1, shown)] := by
      unfold Outcome.displays
      rw [hresults, hprecision]
      exact congrArg (fun d => [(1, Option.getD d [])]) hdisplay
    rw [ho, hanswer]
    refine ⟨fun text => ⟨?_, ?_⟩, fun kind => ⟨?_, ?_⟩⟩
    · rintro ⟨_, _, ⟨⟩, _, htext⟩
      rw [hdisplays] at htext
      rw [(Prod.mk.inj (List.singleton_inj.mp htext)).2]
    · rintro ⟨⟩
      exact ⟨o, x, rfl, hresults, hdisplays⟩
    · rintro ⟨_, ⟨⟩, _, hnone⟩
      exact absurd (hresults.symm.trans hnone) (List.cons_ne_nil _ _)
    · rintro ⟨_, hfault, _⟩
      exact absurd hfault nofun
  | error why =>
    rw [s'.evaluate_of_failure (hvalue.trans hresult)]
    cases why with
    | breakdown b =>
      rw [run_equals_breakdown precision hvisible hplain hresult]
      refine ⟨fun text => ⟨?_, nofun⟩, fun kind => ⟨?_, ?_⟩⟩
      · rintro ⟨_, _, hnone, _⟩
        exact absurd hnone nofun
      · rintro ⟨_, hnone, _⟩
        exact absurd hnone nofun
      · rintro ⟨_, hfault, _⟩
        exact absurd (Except.error.inj hfault) nofun
    | fault f =>
      obtain ⟨o, ho, hresults, herrors, _⟩ :=
        run_equals precision hvisible hplain (r := .error f) hresult
      rw [ho]
      refine ⟨fun text => ⟨?_, nofun⟩, fun kind => ⟨?_, ?_⟩⟩
      · rintro ⟨_, _, ⟨⟩, hone, _⟩
        exact absurd (hresults.symm.trans hone).symm (List.cons_ne_nil _ _)
      · rintro ⟨_, ⟨⟩, hkind, _⟩
        rw [herrors] at hkind
        exact ⟨f, rfl, (Prod.mk.inj (List.singleton_inj.mp hkind)).2⟩
      · rintro ⟨_, ⟨⟩, rfl⟩
        exact ⟨o, rfl, herrors, hresults⟩

/-- A text with further signs that separate parts of a line. -/
def separated : List Char := " 2 = 3: 4 ".toList

theorem process_separated :
    trim separated ≠ [] ∧ (∀ c ∈ ['@', '<', '\n'], c ∉ separated) ∧ (1 : Int) ≤ 10 ∧
    (∀ shown, (∃ o x, (Session.unlogged.process ('=' :: separated) (.int 2) (.int 10)).1 = .ok o ∧
        o.results = [(1, x)] ∧ o.displays = [(1, shown)]) ↔
      (Session.unlogged.evaluate separated .null (.int 2) 10).1 = .ok shown) ∧
    ∀ kind, (∃ o, (Session.unlogged.process ('=' :: separated) (.int 2) (.int 10)).1 = .ok o ∧
        o.errors = [(1, kind)] ∧ o.results = []) ↔
      ∃ f, (Session.unlogged.evaluate separated .null (.int 2) 10).1 = .error (.fault f) ∧
        f.kind = kind := by
  have hvisible : trim separated ≠ [] := by decide
  have hplain : ∀ c ∈ ['@', '<', '\n'], c ∉ separated :=
    List.all_iff_forall_prop.mp (by decide)
  exact ⟨hvisible, hplain, by decide,
    process_equals Session.unlogged Session.unlogged 2 hvisible hplain (by decide)⟩

end Entry

end Reckoner.Document
