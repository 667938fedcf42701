import Reckoner.Formula.Evaluate
import Reckoner.Proofs.Assoc
import Reckoner.Proofs.Except
import Reckoner.Proofs.Number.Insensitive

/-!
Operators and functions do not see the sign of zero. For alike operands or arguments both
applications fail, or both succeed with alike results. The functions of the table are gone through
one by one; registering a function keeps the property.
-/
namespace Reckoner.Formula

open Text Number Arith

variable {x x' y y' : Float}

section Outcome

theorem sameOutcome_refl (a : Option Float) : SameOutcome a a := by
  cases a with
  | none => exact .none
  | some x => exact .some (Alike.refl x)

theorem sameOutcome_trans {a b c : Option Float} (h : SameOutcome a b) (h' : SameOutcome b c) :
    SameOutcome a c := by
  cases h with
  | none => exact h'
  | some hxy =>
    cases h' with
    | some hyz => exact .some (hxy.trans hyz)

theorem sameOutcome_bind {a b : Option Float} {f g : Float → Option Float} (h : SameOutcome a b)
    (hfg : ∀ x y, Alike x y → SameOutcome (f x) (g y)) : SameOutcome (a.bind f) (b.bind g) := by
  cases h with
  | none => exact .none
  | some hxy => exact hfg _ _ hxy

end Outcome

private theorem finite_sameOutcome (step : Step) (h : Alike x x') :
    SameOutcome (finite step x).toOption (finite step x').toOption := by
  unfold finite
  rw [h.isFinite]
  split
  · exact .some h
  · exact .none

/-- The power of alike operands, where it counts as a failure when it is not finite. -/
private theorem raised_sameOutcome {ε : Type} {f : Float → Float → Except ε Float}
    (hf : ∀ x y, (f x y).toOption = if (raised x y).isFinite then some (raised x y) else none)
    (h : Alike x x') (h' : Alike y y') : SameOutcome (f x y).toOption (f x' y').toOption := by
  rw [hf, hf]
  rcases h.raised h' with halike | ⟨hx, hx', _⟩
  · rw [halike.isFinite]
    split
    · exact .some halike
    · exact .none
  · rw [hx, hx']
    exact .none

private theorem toOption_power (x y : Float) :
    (power x y).toOption = if (raised x y).isFinite then some (raised x y) else none := by
  unfold power
  dsimp only
  split
  · rfl
  · split <;> rfl

/-- Operators do not see the signs of zeros. -/
theorem sameOutcome_apply (op : Op) (h : Alike x x') (h' : Alike y y') :
    SameOutcome (op.apply x y).toOption (op.apply x' y').toOption := by
  cases op with
  | add => exact finite_sameOutcome .addition (h.add h')
  | sub => exact finite_sameOutcome .subtraction (h.sub h')
  | mul => exact finite_sameOutcome .multiplication (h.mul h')
  | div =>
    change SameOutcome (if (y == 0) = true then Except.error Cause.zeroDivisor
        else finite .division (x / y)).toOption
      (if (y' == 0) = true then Except.error Cause.zeroDivisor
        else finite .division (x' / y')).toOption
    rw [h'.beq_zero]
    split
    · exact .none
    · rename_i hy
      rw [h'.eq_of_ne_zero (by rwa [h'.beq_zero])]
      exact finite_sameOutcome .division (h.div y')
  | mod =>
    change SameOutcome (if (y == 0) = true then Except.error Cause.zeroModulus
        else finite .modulo ((remainder x y).getD undefinedNumber)).toOption
      (if (y' == 0) = true then Except.error Cause.zeroModulus
        else finite .modulo ((remainder x' y').getD undefinedNumber)).toOption
    rw [h'.beq_zero]
    split
    · exact .none
    · rename_i hy
      rw [h'.eq_of_ne_zero (by rwa [h'.beq_zero])]
      have hremainder := h.remainder y'
      revert hremainder
      generalize remainder x y' = r
      generalize remainder x' y' = r'
      intro hremainder
      cases hremainder with
      | none => exact sameOutcome_refl _
      | some hr => exact finite_sameOutcome .modulo hr
  | pow => exact raised_sameOutcome toOption_power h h'

/-- A function gives alike results for alike arguments, or fails for both. -/
def Insensitive (f : List Float → Builtin.Result) : Prop :=
  ∀ xs xs', List.Forall₂ Alike xs xs' → SameOutcome (f xs).toOption (f xs').toOption

namespace Builtin

private theorem insensitive_unary {f : Float → Result}
    (hf : ∀ x x', Alike x x' → SameOutcome (f x).toOption (f x').toOption) :
    Insensitive (unary f) := by
  intro xs xs' h
  cases h with
  | nil => exact .none
  | cons hx hrest =>
    cases hrest with
    | nil => exact hf _ _ hx
    | cons _ _ => exact .none

private theorem toOption_ofOption (a : Option Float) (mishap : Mishap) :
    (ofOption a mishap).toOption = a := by
  cases a <;> rfl

theorem insensitive_total : Insensitive total := by
  intro xs xs' h
  unfold total
  rw [toOption_ofOption, toOption_ofOption]
  exact alike_exactSum h

theorem insensitive_average : Insensitive average := by
  intro xs xs' h
  unfold average
  rw [toOption_bind, toOption_bind, h.length_eq]
  exact sameOutcome_bind (insensitive_total xs xs' h) fun x y hxy => .some (hxy.div _)

private theorem foldl_alike {pick : Float → Float → Float}
    (hpick : ∀ x x' y y', Alike x x' → Alike y y' → Alike (pick x y) (pick x' y'))
    (h : Alike x x') {ys ys' : List Float} (hys : List.Forall₂ Alike ys ys') :
    Alike (ys.foldl pick x) (ys'.foldl pick x') := by
  induction hys generalizing x x' with
  | nil => exact h
  | cons hy _ ih => exact ih (hpick _ _ _ _ h hy)

private theorem insensitive_choose {pick : Float → Float → Float}
    (hpick : ∀ x x' y y', Alike x x' → Alike y y' → Alike (pick x y) (pick x' y')) :
    Insensitive (choose pick) := by
  intro xs xs' h
  cases h with
  | nil => exact .none
  | cons hx hrest => exact .some (foldl_alike hpick hx hrest)

theorem insensitive_min : Insensitive (choose smaller) := by
  refine insensitive_choose fun x x' y y' hx hy => ?_
  unfold smaller
  simp only [Alike.lt hy hx]
  split
  · exact hy
  · exact hx

theorem insensitive_max : Insensitive (choose larger) := by
  refine insensitive_choose fun x x' y y' hx hy => ?_
  unfold larger
  simp only [Alike.lt hx hy]
  split
  · exact hy
  · exact hx

private theorem roundTo_eq (h : Alike x x') (h' : Alike y y') : roundTo x y = roundTo x' y' := by
  unfold roundTo
  rw [h'.whole _ truncation_zero]
  congr 1
  funext places
  congr 1
  funext factor
  rw [((h.mul (Alike.refl factor)).add (Alike.refl 0.5)).whole _ floor_zero]

theorem insensitive_round : Insensitive round := by
  intro xs xs' h
  cases h with
  | nil => exact .none
  | cons hx hrest =>
    cases hrest with
    | nil =>
      change SameOutcome (roundTo _ 0).toOption (roundTo _ 0).toOption
      rw [roundTo_eq hx (Alike.refl 0)]
      exact sameOutcome_refl _
    | cons hy hrest =>
      cases hrest with
      | nil =>
        change SameOutcome (roundTo _ _).toOption (roundTo _ _).toOption
        rw [roundTo_eq hx hy]
        exact sameOutcome_refl _
      | cons _ _ => exact .none

private theorem toOption_raise (x y : Float) :
    (raise x y).toOption = if (raised x y).isFinite then some (raised x y) else none := by
  unfold raise
  dsimp only
  split <;> rfl

theorem insensitive_pow : Insensitive pow := by
  intro xs xs' h
  cases h with
  | nil => exact .none
  | cons hx hrest =>
    cases hrest with
    | nil => exact raised_sameOutcome toOption_raise hx (Alike.refl 2)
    | cons hy hrest =>
      cases hrest with
      | nil => exact raised_sameOutcome toOption_raise hx hy
      | cons _ _ => exact .none

private theorem squareRoot_sameOutcome (h : Alike x x') :
    SameOutcome (squareRoot x).toOption (squareRoot x').toOption := by
  unfold squareRoot
  simp only [Alike.lt h (Alike.refl 0)]
  split
  · exact .none
  · exact .some h.sqrt

private theorem logarithm_sameOutcome (f : Float → Float) (h : Alike x x') :
    SameOutcome (logarithm f x).toOption (logarithm f x').toOption := by
  have hzero : ¬ (0 : Float) < 0 := by
    rw [lt_iff]
    decide
  unfold logarithm
  rcases h with rfl | ⟨hx, hx'⟩
  · exact sameOutcome_refl _
  · have hpositive : ∀ z, IsZero z → ¬ 0 < z := fun z hz => by
      rwa [Alike.lt (Alike.refl 0) (Or.inr ⟨hz, isZero_zero⟩)]
    rw [if_neg (hpositive x hx), if_neg (hpositive x' hx')]
    exact .none

private theorem floor_eq (h : Alike x x') : floor x = floor x' := by
  unfold floor
  rw [h.whole _ floor_zero]

private theorem ceiling_eq (h : Alike x x') : ceiling x = ceiling x' := by
  unfold ceiling
  rw [h.whole _ ceiling_zero]

end Builtin

section Table

theorem FunctionTable.forall_register {P : Function → Prop} {table : FunctionTable}
    (h : ∀ e ∈ table, P e.2) {names : List (List Char)} {least : Nat} {most : Option Nat}
    {description : List Char} {apply : List Float → Builtin.Result}
    (hf : ∀ name ∈ names, P ⟨lower name, least, most, firstLine description, apply⟩) :
    ∀ e ∈ table.register names least most description apply, P e.2 := by
  unfold FunctionTable.register
  induction names generalizing table with
  | nil => exact h
  | cons name rest ih =>
    refine ih (fun e he => ?_) fun n hn => hf n (List.mem_cons_of_mem name hn)
    rcases Assoc.mem_set he with he | rfl
    · exact h e he
    · exact hf name List.mem_cons_self

theorem FunctionTable.forall_registerUnary {P : Function → Prop} {table : FunctionTable}
    (h : ∀ e ∈ table, P e.2) {functions : List (String × String × (Float → Builtin.Result))}
    (hf : ∀ f ∈ functions,
      P ⟨lower f.1.toList, 1, some 1, firstLine f.2.1.toList, Builtin.unary f.2.2⟩) :
    ∀ e ∈ Builtin.registerUnary table functions, P e.2 := by
  unfold Builtin.registerUnary
  induction functions generalizing table with
  | nil => exact h
  | cons f rest ih =>
    refine ih (forall_register h fun name hname => ?_) fun g hg => hf g (List.mem_cons_of_mem f hg)
    rw [List.mem_singleton.mp hname]
    exact hf f List.mem_cons_self

/-- A property of the functions that every expression may call, shown of each in turn. -/
theorem FunctionTable.forall_builtin {P : Function → Prop}
    (several : ∀ (name : List Char) (least : Nat) (most : Option Nat) (summary : List Char),
      name ≠ "round".toList → ∀ apply ∈ [Builtin.total, Builtin.average,
        Builtin.choose Builtin.smaller, Builtin.choose Builtin.larger, Builtin.pow],
      P ⟨name, least, most, summary, apply⟩)
    (round : ∀ (least : Nat) (most : Option Nat) (summary : List Char),
      P ⟨"round".toList, least, most, summary, Builtin.round⟩)
    (unary : ∀ (name : List Char) (least : Nat) (most : Option Nat) (summary : List Char),
      name ≠ "round".toList → ∀ f ∈ [Builtin.squareRoot, fun x => .ok x.abs, Builtin.floor,
        Builtin.ceiling, fun x => .ok (sine x), fun x => .ok (cosine x), fun x => .ok (tangent x),
        Builtin.logarithm Float.log10, Builtin.logarithm Float.log],
      P ⟨name, least, most, summary, Builtin.unary f⟩) :
    ∀ e ∈ Builtin.table, P e.2 := by
  have hnone : ∀ e ∈ ([] : FunctionTable), P e.2 := fun _ h => absurd h List.not_mem_nil
  have hseveral : ∀ e ∈ Builtin.several, P e.2 := by
    unfold Builtin.several
    refine forall_register (forall_register (forall_register (forall_register (forall_register
      (forall_register hnone ?_) ?_) ?_) ?_) ?_) ?_
    all_goals
      intro name hname
      simp only [Builtin.names, List.map_cons, List.map_nil, List.mem_cons, List.not_mem_nil,
        or_false] at hname
    · exact several _ _ _ _ (hname ▸ by decide) _ (by simp)
    · rcases hname with rfl | rfl
      · exact several _ _ _ _ (by decide) _ (by simp)
      · exact several _ _ _ _ (by decide) _ (by simp)
    · exact several _ _ _ _ (hname ▸ by decide) _ (by simp)
    · exact several _ _ _ _ (hname ▸ by decide) _ (by simp)
    · rw [hname]
      exact round _ _ _
    · exact several _ _ _ _ (hname ▸ by decide) _ (by simp)
  refine forall_registerUnary hseveral ?_
  simp only [List.forall_mem_cons, List.not_mem_nil, false_imp_iff, implies_true, and_true]
  refine ⟨?_, ?_, ?_, ?_, ?_, ?_, ?_, ?_, ?_⟩
  all_goals exact unary _ _ _ _ (by decide) _ (by simp)

/-- Every function of the table is insensitive to the signs of zeros. -/
def FunctionTable.Insensitive (table : FunctionTable) : Prop :=
  ∀ e ∈ table, Formula.Insensitive e.2.apply

/-- The functions that every expression may call do not see the signs of zeros. -/
theorem insensitive_table : Builtin.table.Insensitive := by
  refine FunctionTable.forall_builtin (P := fun f => Formula.Insensitive f.apply) ?_ ?_ ?_
  · intro name least most summary _ apply happly
    simp only [List.mem_cons, List.not_mem_nil, or_false] at happly
    rcases happly with rfl | rfl | rfl | rfl | rfl
    · exact Builtin.insensitive_total
    · exact Builtin.insensitive_average
    · exact Builtin.insensitive_min
    · exact Builtin.insensitive_max
    · exact Builtin.insensitive_pow
  · intro least most summary
    exact Builtin.insensitive_round
  · intro name least most summary _ f hf
    simp only [List.mem_cons, List.not_mem_nil, or_false] at hf
    rcases hf with rfl | rfl | rfl | rfl | rfl | rfl | rfl | rfl | rfl
    · exact Builtin.insensitive_unary fun _ _ h => Builtin.squareRoot_sameOutcome h
    · exact Builtin.insensitive_unary fun _ _ h => .some h.abs
    · exact Builtin.insensitive_unary fun _ _ h => Builtin.floor_eq h ▸ sameOutcome_refl _
    · exact Builtin.insensitive_unary fun _ _ h => Builtin.ceiling_eq h ▸ sameOutcome_refl _
    · exact Builtin.insensitive_unary fun _ _ h => .some h.sine
    · exact Builtin.insensitive_unary fun _ _ h => .some h.cosine
    · exact Builtin.insensitive_unary fun _ _ h => .some h.tangent
    · exact Builtin.insensitive_unary fun _ _ h => Builtin.logarithm_sameOutcome _ h
    · exact Builtin.insensitive_unary fun _ _ h => Builtin.logarithm_sameOutcome _ h

/-- The check that a result is finite does not see the sign of zero either. -/
theorem sameOutcome_settleResult (name : List Char) {r r' : Builtin.Result}
    (h : SameOutcome r.toOption r'.toOption) :
    SameOutcome (settleResult name r).toOption (settleResult name r').toOption := by
  have hfail : ∀ mishap, (settleResult name (.error mishap)).toOption = none := by
    intro mishap
    cases mishap <;> rfl
  cases r with
  | error mishap =>
    cases r' with
    | error mishap' =>
      rw [hfail, hfail]
      exact .none
    | ok y => cases h
  | ok x =>
    cases r' with
    | error mishap' => cases h
    | ok y =>
      cases h with
      | some hxy =>
        unfold settleResult
        dsimp only
        rw [hxy.isFinite]
        split
        · exact .some hxy
        · exact .none

end Table

end Reckoner.Formula
