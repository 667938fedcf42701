import Reckoner.Proofs.Formula.Breakdowns

/-!
How the bound on the nesting of calls bears on a value. An evaluation that meets calls nested deeper
than the bound fails with that fault, wherever it meets them. Every other evaluation has the same
outcome under any greater bound, and so under any two bounds that it does not meet.
-/
namespace Reckoner.Formula

open Text Number Arith

variable {α β : Type} {table : FunctionTable} {scope : Scope} {resolve resolve' : Resolver}

/-- That an evaluation has failed because calls nest deeper than the bound. -/
def TooDeep (r : Except Failure α) : Prop :=
  ∃ bound expression, r = .error (.fault ⟨.tooDeep bound, expression⟩)

theorem TooDeep.bind {r : Except Failure α} (h : TooDeep r) (f : α → Except Failure β) :
    TooDeep (r.bind f) := by
  obtain ⟨bound, expression, rfl⟩ := h
  exact ⟨bound, expression, rfl⟩

/-- A step that agrees as long as the bound is not met, and a rest that does so too. -/
theorem bind_agrees {r r' : Except Failure α} {f f' : α → Except Failure β}
    (h : ¬ TooDeep (r.bind f)) (hr : ¬ TooDeep r → r' = r)
    (hf : ∀ a, r = .ok a → ¬ TooDeep (f a) → f' a = f a) : r'.bind f' = r.bind f := by
  rw [hr fun hdeep => h (hdeep.bind f)]
  cases r with
  | error _ => rfl
  | ok a => exact hf a rfl h

/-- That a resolver gives what another one gives unless that one meets the bound. -/
def Resolver.Extends (resolve' resolve : Resolver) : Prop :=
  ∀ argument, ¬ TooDeep (resolve argument) → resolve' argument = resolve argument

section Calls

variable (hresolve : resolve'.Extends resolve)
include hresolve

theorem resolveArgument_extends (f : List Char) {argument : List Char}
    (h : ¬ TooDeep (resolveArgument f resolve argument)) :
    resolveArgument f resolve' argument = resolveArgument f resolve argument := by
  by_cases hdeep : TooDeep (resolve (trim argument))
  · -- the argument is empty or a plain number, or else the bound would have been met
    obtain ⟨bound, expression, hargument⟩ := hdeep
    unfold resolveArgument at h ⊢
    dsimp only at h ⊢
    split
    · rfl
    · rename_i hempty
      rw [if_neg hempty] at h
      split
      · rfl
      · rename_i hplain
        rw [hplain, hargument] at h
        exact absurd ⟨bound, expression, rfl⟩ h
  · unfold resolveArgument
    dsimp only
    rw [hresolve _ hdeep]

theorem resolveArguments_extends (f : List Char) {arguments : List (List Char)}
    (h : ¬ TooDeep (resolveArguments f resolve arguments)) :
    resolveArguments f resolve' arguments = resolveArguments f resolve arguments := by
  induction arguments with
  | nil => rfl
  | cons argument rest ih =>
    refine bind_agrees h (resolveArgument_extends hresolve f) fun x _ hrest => ?_
    exact bind_agrees hrest ih fun _ _ _ => rfl

theorem call_extends (name : List Char) {arguments : List (List Char)}
    (h : ¬ TooDeep (call table resolve name arguments)) :
    call table resolve' name arguments = call table resolve name arguments :=
  bind_agrees h (fun _ => rfl) fun f _ hf =>
    bind_agrees hf (fun _ => rfl) fun _ _ hvalues =>
      bind_agrees hvalues (resolveArguments_extends hresolve f.name) fun _ _ _ => rfl

theorem replaceCalls_extends {s : List Char} {calls : List Call}
    (h : ¬ TooDeep (replaceCalls table resolve s calls)) :
    replaceCalls table resolve' s calls = replaceCalls table resolve s calls := by
  induction calls with
  | nil => rfl
  | cons c later ih =>
    refine bind_agrees h ih fun u _ hcall => ?_
    exact bind_agrees hcall (call_extends hresolve c.name) fun _ _ _ => rfl

/-- Rounds that end before the bound is met end in the same way when more rounds are left. -/
theorem replaceRounds_extends {bound bound' : Int} {left left' : Nat} (hle : left ≤ left')
    {s : List Char} (h : ¬ TooDeep (replaceRounds table resolve bound left s)) :
    replaceRounds table resolve' bound' left' s = replaceRounds table resolve bound left s := by
  induction left generalizing left' s with
  | zero =>
    unfold replaceRounds at h ⊢
    refine bind_agrees h (fun _ => rfl) fun calls _ hrest => ?_
    split
    · rfl
    · rename_i hcalls
      rw [if_neg hcalls] at hrest
      exact absurd ⟨bound, some s, rfl⟩ hrest
  | succ left ih =>
    obtain ⟨more, rfl⟩ : ∃ more, left' = more + 1 := ⟨left' - 1, by omega⟩
    unfold replaceRounds at h ⊢
    refine bind_agrees h (fun _ => rfl) fun calls _ hrest => ?_
    split
    · rfl
    · rename_i hcalls
      rw [if_neg hcalls] at hrest
      exact bind_agrees hrest (replaceCalls_extends hresolve) fun u _ hround =>
        ih (Nat.le_of_succ_le_succ hle) hround

end Calls

section Plain

variable {bound : Int} {s : List Char}

theorem finite_ne_tooDeep (step : Step) (x : Float) : finite step x ≠ .error (.tooDeep bound) := by
  unfold finite
  split <;> simp

theorem apply_ne_tooDeep (op : Op) (x y : Float) : op.apply x y ≠ .error (.tooDeep bound) := by
  cases op with
  | add | sub | mul => exact finite_ne_tooDeep _ _
  | div | mod =>
    dsimp only [Op.apply]
    split
    · simp
    · exact finite_ne_tooDeep _ _
  | pow =>
    dsimp only [Op.apply, power]
    split
    · simp
    · split <;> simp

theorem value_ne_tooDeep (t : Tree) : t.value ≠ .error (.tooDeep bound) := by
  induction t with
  | number literal => exact finite_ne_tooDeep _ _
  | neg t ih => exact fun h => ih (bind_ok_eq_error.mp h)
  | binary op l r ihl ihr =>
    intro h
    rcases bind_eq_error.mp h with h | ⟨x, _, h⟩
    · exact ihl h
    rcases bind_eq_error.mp h with h | ⟨y, _, h⟩
    · exact ihr h
    · exact apply_ne_tooDeep op x y h

/-- A text without calls has no bound to meet. -/
theorem settleText_not_tooDeep (s : List Char) : ¬ TooDeep (settleText s) := by
  rintro ⟨bound, expression, h⟩
  unfold settleText at h
  split at h
  · exact absurd h (by simp [Failure.within])
  rw [evaluate_eq_mapError] at h
  cases hparse : parse s with
  | error f =>
    have hcause : ∃ problem position, f.cause = .parse problem position := by
      unfold parse at hparse
      split at hparse
      · exact absurd hparse (by simp)
      · rw [← Except.error.inj hparse]
        exact ⟨_, _, rfl⟩
    obtain ⟨problem, position, hcause⟩ := hcause
    rw [hparse] at h
    rw [Failure.fault.inj (Except.error.inj h)] at hcause
    exact absurd hcause (by simp)
  | ok t =>
    rw [hparse] at h
    change asFailure (t.value.mapError _) = _ at h
    cases hvalue : t.value with
    | ok x => rw [hvalue] at h; exact absurd h (by simp [asFailure, Except.mapError])
    | error cause =>
      rw [hvalue] at h
      have hfault := Failure.fault.inj (Except.error.inj h)
      exact value_ne_tooDeep t (hvalue.trans (congrArg Except.error (Fault.mk.inj hfault).1))

theorem callStarts_eq_nil (h : letterCount s = 0) : callStarts s = [] := by
  refine List.eq_nil_iff_forall_not_mem.mpr fun call hcall => ?_
  exact absurd (mem_callStartsFrom hcall).2 (by omega)

theorem not_tooDeep_of_letterCount {depth : Int} (h : letterCount s = 0) :
    ¬ TooDeep (evaluate table depth scope s) := by
  rw [evaluate_eq]
  rintro ⟨bound, expression, hdeep⟩
  rcases bind_eq_error.mp hdeep with hdeep | ⟨text, htext, hdeep⟩
  · rcases bind_eq_error.mp hdeep with hdeep | ⟨_, _, hdeep⟩
    · cases hs : scope.substitute s <;> rw [hs] at hdeep <;> simp [asBreakdown] at hdeep
    · exact absurd hdeep (by simp [pure, Except.pure])
  have hnone : letterCount text = 0 := Nat.le_zero.mp (h ▸ letterCount_prepare htext)
  rw [resolveCalls, replaceRounds_flat (callStarts_eq_nil hnone)] at hdeep
  exact settleText_not_tooDeep text ⟨bound, expression, hdeep⟩

end Plain

/-- A greater bound changes nothing unless the smaller one is met. -/
theorem evaluate_of_le {depth depth' : Int} (hle : depth ≤ depth') {s : List Char}
    (h : ¬ TooDeep (evaluate table depth scope s)) :
    evaluate table depth' scope s = evaluate table depth scope s := by
  induction hn : letterCount s using Nat.strongRecOn generalizing s with
  | ind n ih =>
    have hresolver : (resolverFor table depth' scope s).Extends (resolverFor table depth scope s) := by
      intro argument hargument
      unfold resolverFor at hargument ⊢
      split
      · rename_i hlt
        rw [if_pos hlt] at hargument
        exact ih _ (hn ▸ hlt) hargument rfl
      · rfl
    rw [evaluate_eq] at h
    rw [evaluate_eq, evaluate_eq]
    refine bind_agrees h (fun _ => rfl) fun text _ hcalls => ?_
    exact bind_agrees hcalls
      (replaceRounds_extends hresolver (Int.toNat_le_toNat hle)) fun _ _ _ => rfl

/-- The outcome is the same under any two bounds that the evaluation does not meet. -/
theorem evaluate_of_not_tooDeep {depth depth' : Int} {s : List Char}
    (h : ¬ TooDeep (evaluate table depth scope s))
    (h' : ¬ TooDeep (evaluate table depth' scope s)) :
    evaluate table depth' scope s = evaluate table depth scope s := by
  rcases Int.le_total depth depth' with hle | hle
  · exact evaluate_of_le hle h
  · exact (evaluate_of_le hle h').symm

end Reckoner.Formula
