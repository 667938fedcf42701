import Mathlib.Data.List.Forall2
import Reckoner.Formula.Builtin
import Reckoner.Proofs.Number.Parts

/-!
What does not see the sign of zero. Whole parts, remainders, exact sums, powers and the operators
give alike results for alike arguments, and so does every function of the table: an argument may
lose the sign of its zero without any other change of the result.
-/
namespace Reckoner.Number

/-- Both calculations fail, or both succeed with alike results. -/
abbrev SameOutcome (a b : Option Float) : Prop := Option.Rel Alike a b

variable {x x' y y' : Float}

/-- The parts of alike doubles are the same or those of two zeros. -/
theorem Alike.binary (h : Alike x x') :
    Binary.ofFloat? x = Binary.ofFloat? x' ∨
      ∃ s t, Binary.ofFloat? x = some ⟨s, 0, -1074⟩ ∧ Binary.ofFloat? x' = some ⟨t, 0, -1074⟩ := by
  rcases h with rfl | ⟨hx, hx'⟩
  · exact Or.inl rfl
  · obtain ⟨s, hs⟩ := ofFloat?_of_isZero hx
    obtain ⟨t, ht⟩ := ofFloat?_of_isZero hx'
    exact Or.inr ⟨s, t, hs, ht⟩

/-- Only the zeros are alike without being the same. -/
theorem Alike.eq_of_ne_zero (h : Alike x x') (hx : ¬ (x == 0) = true) : x = x' := by
  rcases h with rfl | ⟨hz, _⟩
  · rfl
  · exact absurd ((isZero_iff_beq_zero x).mp hz) hx

theorem isZero_nearest (negative : Bool) (den : Nat) : IsZero (nearest negative 0 den) := by
  have h : nearest negative 0 den =
      Float.ofBits (UInt64.ofNat (if negative then twoTo 63 else 0)) := by
    unfold nearest
    dsimp only
    rw [if_pos rfl]
  rw [h]
  cases negative
  · exact ⟨.positive, rfl⟩
  · exact ⟨.negative, rfl⟩

theorem Alike.remainder (h : Alike x x') (y : Float) :
    SameOutcome (remainder x y) (remainder x' y) := by
  unfold Number.remainder
  rcases h.binary with heq | ⟨s, t, hs, ht⟩
  · rw [heq]
    cases Binary.ofFloat? x' with
    | none => exact .none
    | some a =>
      cases Binary.ofFloat? y with
      | none => exact .none
      | some b => exact .some (Alike.refl _)
  · rw [hs, ht]
    cases Binary.ofFloat? y with
    | none => exact .none
    | some b =>
      refine .some (Or.inr ⟨?_, ?_⟩) <;>
      · unfold ofBinary
        dsimp only
        rw [Nat.zero_mul, Nat.zero_mod, Nat.zero_mul]
        exact isZero_nearest _ _

/-- Whole parts are the same for alike doubles. -/
theorem Alike.whole (h : Alike x x') (rule : Binary → Int)
    (hrule : ∀ s, rule ⟨s, 0, -1074⟩ = 0) :
    Formula.Builtin.whole rule x = Formula.Builtin.whole rule x' := by
  unfold Formula.Builtin.whole
  rcases h.binary with heq | ⟨s, t, hs, ht⟩
  · rw [heq, h.isNaN]
  · rw [hs, ht]
    dsimp only
    rw [hrule s, hrule t]

theorem signed_zero (s : Bool) : Binary.signed ⟨s, 0, -1074⟩ = 0 := by
  cases s <;> rfl

theorem floor_zero (s : Bool) : Binary.floor ⟨s, 0, -1074⟩ = 0 := by
  rw [Binary.floor, signed_zero, Int.zero_mul, Int.zero_ediv]

theorem ceiling_zero (s : Bool) : Binary.ceiling ⟨s, 0, -1074⟩ = 0 := by
  rw [Binary.ceiling, signed_zero, Int.neg_zero, Int.zero_mul, Int.zero_ediv, Int.neg_zero]

theorem truncation_zero (s : Bool) : Binary.truncation ⟨s, 0, -1074⟩ = 0 := by
  cases s
  · exact floor_zero false
  · exact ceiling_zero true

section Sum

theorem Alike.addWithLoss (h : Alike x x') (h' : Alike y y') :
    Alike (addWithLoss x y).1 (addWithLoss x' y').1 ∧
      Alike (addWithLoss x y).2 (addWithLoss x' y').2 := by
  have horder : (x.abs < y.abs) = (x'.abs < y'.abs) := Alike.lt h.abs h'.abs
  unfold Number.addWithLoss
  dsimp only
  by_cases hlt : x'.abs < y'.abs
  · rw [if_pos (horder ▸ hlt), if_pos hlt]
    exact ⟨h'.add h, h.sub ((h'.add h).sub h')⟩
  · rw [if_neg (horder ▸ hlt), if_neg hlt]
    exact ⟨h.add h', h'.sub ((h.add h').sub h)⟩

theorem Alike.beq_zero (h : Alike x x') : (x == 0) = (x' == 0) := h.beq (Alike.refl 0)

theorem Alike.carry (h : Alike x x') {ps ps' : List Float} (hps : List.Forall₂ Alike ps ps') :
    Alike (carry x ps).1 (carry x' ps').1 ∧
      List.Forall₂ Alike (carry x ps).2 (carry x' ps').2 := by
  induction hps generalizing x x' with
  | nil => exact ⟨h, .nil⟩
  | cons hp _ ih =>
    obtain ⟨hhigh, hlow⟩ := h.addWithLoss hp
    obtain ⟨hlast, hkept⟩ := ih hhigh
    unfold Number.carry
    dsimp only
    rw [hlow.beq_zero]
    refine ⟨hlast, ?_⟩
    split
    · exact hkept
    · exact .cons hlow hkept

theorem alike_partialSums {ps ps' xs xs' : List Float} (hps : List.Forall₂ Alike ps ps')
    (h : List.Forall₂ Alike xs xs') :
    Option.Rel (List.Forall₂ Alike) (partialSums ps xs) (partialSums ps' xs') := by
  induction h generalizing ps ps' with
  | nil => exact .some hps
  | cons hx _ ih =>
    obtain ⟨hlast, hkept⟩ := hx.carry hps
    unfold partialSums
    dsimp only
    rw [hlast.beq_zero, hlast.isFinite]
    split
    · exact ih hkept
    · split
      · exact ih (List.rel_append hkept (.cons hlast .nil))
      · exact .none

theorem Alike.collapse (h : Alike x x') {ps ps' : List Float} (hps : List.Forall₂ Alike ps ps') :
    Alike (collapse x ps) (collapse x' ps') := by
  induction hps generalizing x x' with
  | nil => exact h
  | @cons p p' rest rest' hp hrest ih =>
    have hsum := h.add hp
    have hlow := hp.sub (hsum.sub h)
    unfold Number.collapse
    dsimp only
    rw [hlow.beq_zero]
    split
    · exact ih hsum
    · cases hrest with
      | nil => exact hsum
      | @cons next next' _ _ hnext _ =>
        have hdoubled := hlow.mul (Alike.refl 2)
        have hother := hsum.add hdoubled
        have htie := hdoubled.beq (hother.sub hsum)
        simp only [Alike.lt hlow (Alike.refl 0), Alike.lt hnext (Alike.refl 0),
          Alike.lt (Alike.refl 0) hlow, Alike.lt (Alike.refl 0) hnext, htie]
        split
        · split
          · exact hother
          · exact hsum
        · exact hsum

/-- A sum does not see the signs of zeros. -/
theorem alike_exactSum {xs xs' : List Float} (h : List.Forall₂ Alike xs xs') :
    SameOutcome (exactSum xs) (exactSum xs') := by
  have hsums := alike_partialSums .nil h
  unfold exactSum
  revert hsums
  generalize partialSums [] xs = sums
  generalize partialSums [] xs' = sums'
  intro hsums
  cases hsums with
  | none => exact .none
  | @some ps ps' hps =>
    have hreverse := List.rel_reverse hps
    refine .some ?_
    dsimp only
    revert hreverse
    generalize ps.reverse = rs
    generalize ps'.reverse = rs'
    intro hreverse
    cases hreverse with
    | nil => exact Alike.refl 0
    | cons hhigh hrest => exact hhigh.collapse hrest

/-- The sum of one number is the number, but for the sign of zero. -/
theorem exactSum_single (x : Float) :
    exactSum [x] = if x == 0 then some 0 else if x.isFinite then some x else none := by
  unfold exactSum
  rw [partialSums, carry]
  dsimp only
  split
  · rfl
  · split <;> rfl

end Sum

section Elementary

/-- A power of a zero keeps at most the sign of the zero, and a negative power is not finite. -/
private theorem zeroPower_alike (hx : IsZero x) (hx' : IsZero x') (y : Float) :
    Alike (zeroPower x y) (zeroPower x' y) ∨
      ((zeroPower x y).isFinite = false ∧ (zeroPower x' y).isFinite = false ∧
        (zeroPower x y).isNaN = (zeroPower x' y).isNaN) := by
  have hzero : IsZero (if isOdd y then x else 0) ∧ IsZero (if isOdd y then x' else 0) := by
    split
    · exact ⟨hx, hx'⟩
    · exact ⟨isZero_zero, isZero_zero⟩
  have hinverse : ∀ z, IsZero z → (1 / z).isFinite = false ∧ (1 / z).isNaN = false := by
    intro z hz
    obtain ⟨s, hs⟩ := hz
    rw [div_eq, hs]
    cases s <;> exact ⟨rfl, rfl⟩
  unfold zeroPower
  dsimp only
  split
  · exact Or.inl (Or.inr hzero)
  · split
    · obtain ⟨hf, hn⟩ := hinverse _ hzero.1
      obtain ⟨hf', hn'⟩ := hinverse _ hzero.2
      exact Or.inr ⟨hf, hf', hn.trans hn'.symm⟩
    · exact Or.inl (Alike.refl y)

/-- Powers of alike doubles are alike, or they are both not finite. -/
theorem Alike.raised (h : Alike x x') (h' : Alike y y') :
    Alike (raised x y) (raised x' y') ∨
      ((raised x y).isFinite = false ∧ (raised x' y').isFinite = false ∧
        (raised x y).isNaN = (raised x' y').isNaN) := by
  unfold Number.raised
  rw [h'.beq_zero, h.beq_zero]
  by_cases hy : (y' == 0) = true
  · rw [if_pos hy, if_pos hy]
    exact Or.inl (Alike.refl 1)
  · have hyy : y = y' := h'.eq_of_ne_zero (by rwa [h'.beq_zero])
    rw [if_neg hy, if_neg hy, hyy]
    by_cases hx : (x' == 0) = true
    · rw [if_pos hx, if_pos hx]
      exact zeroPower_alike ((isZero_iff_beq_zero x).mpr (by rwa [h.beq_zero]))
        ((isZero_iff_beq_zero x').mpr hx) y'
    · rw [if_neg hx, if_neg hx, h.eq_of_ne_zero (by rwa [h.beq_zero])]
      exact Or.inl (Alike.refl _)

theorem Alike.sine (h : Alike x x') : Alike (sine x) (sine x') := by
  unfold Number.sine
  rw [h.beq_zero]
  split
  · exact h
  · rename_i hx
    rw [h.eq_of_ne_zero (by rwa [h.beq_zero])]
    exact Alike.refl _

theorem Alike.cosine (h : Alike x x') : Alike (cosine x) (cosine x') := by
  unfold Number.cosine
  rw [h.beq_zero]
  split
  · exact Alike.refl 1
  · rename_i hx
    rw [h.eq_of_ne_zero (by rwa [h.beq_zero])]
    exact Alike.refl _

theorem Alike.tangent (h : Alike x x') : Alike (tangent x) (tangent x') := by
  unfold Number.tangent
  rw [h.beq_zero]
  split
  · exact h
  · rename_i hx
    rw [h.eq_of_ne_zero (by rwa [h.beq_zero])]
    exact Alike.refl _

end Elementary

end Reckoner.Number
