import Mathlib.Data.Rat.Floor
import Reckoner.Proofs.Number.Decimal

/-!
The exact values of doubles. A finite double denotes a rational number; of two finite doubles the
one that denotes the smaller number is smaller, and the whole part of a double is that of its value.
Every whole number of at most 53 bits times a power of two in range is the value of a double.
-/
namespace Reckoner.Number

open Float.Model
open Float.Model.UnpackedFloat

/-- A magnitude with a sign. -/
def oriented (negative : Bool) (v : ℚ) : ℚ := if negative then -v else v

/-- The number that a sign, a mantissa and an exponent stand for. -/
def fieldValue (negative : Bool) (m : Nat) (q : Int) : ℚ := oriented negative (m * 2 ^ q)

def Binary.value (b : Binary) : ℚ := fieldValue b.negative b.mantissa b.exponent

/-- The double is finite, and this is its exact value. -/
def Denotes (x : Float) (v : ℚ) : Prop := ∃ b, Binary.ofFloat? x = some b ∧ b.value = v

variable {x y : Float} {v w : ℚ} {m n : Nat} {q k : Int} {negative : Bool}

theorem Denotes.unique (h : Denotes x v) (h' : Denotes x w) : v = w := by
  obtain ⟨b, hb, rfl⟩ := h
  obtain ⟨c, hc, rfl⟩ := h'
  rw [Option.some.inj (hb.symm.trans hc)]

theorem exists_denotes (h : x.isFinite = true) : ∃ v, Denotes x v := by
  obtain ⟨b, hb⟩ := exists_binary h
  exact ⟨b.value, b, hb, rfl⟩

theorem Denotes.isFinite (h : Denotes x v) : x.isFinite = true := by
  obtain ⟨b, hb, _⟩ := h
  exact isFinite_of_ofFloat? hb

theorem denotes_ofFields (negative : Bool) (hf : Fits m q) :
    Denotes (ofFields negative m q) (fieldValue negative m q) :=
  ⟨_, ofFloat?_ofFields negative hf, rfl⟩

theorem abs_fieldValue (negative : Bool) (m : Nat) (q : Int) :
    |fieldValue negative m q| = (m : ℚ) * 2 ^ q := by
  have hpos : (0 : ℚ) ≤ m * 2 ^ q := by positivity
  unfold fieldValue oriented
  split
  · rw [abs_neg, abs_of_nonneg hpos]
  · exact abs_of_nonneg hpos

theorem Binary.abs_value (b : Binary) : |b.value| = b.mantissa * 2 ^ b.exponent :=
  abs_fieldValue _ _ _

theorem Binary.value_eq_oriented (b : Binary) : b.value = oriented b.negative |b.value| := by
  rw [b.abs_value]
  rfl

theorem abs_oriented_sub (negative : Bool) (v w : ℚ) :
    |oriented negative v - oriented negative w| = |v - w| := by
  unfold oriented
  split
  · rw [neg_sub_neg, abs_sub_comm]
  · rfl

theorem oriented_not (negative : Bool) (v : ℚ) : oriented (!negative) v = -oriented negative v := by
  cases negative with
  | false => rfl
  | true => exact (neg_neg v).symm

theorem fieldValue_not (negative : Bool) (m : Nat) (q : Int) :
    fieldValue (!negative) m q = -fieldValue negative m q := oriented_not _ _

theorem fieldValue_zero (negative : Bool) (q : Int) : fieldValue negative 0 q = 0 := by
  simp [fieldValue, oriented]

theorem denotes_zero (s : Sign) : Denotes (ofParts (.zero s)) 0 := by
  refine ⟨⟨isNegativeSign s, 0, -1074⟩, ?_, fieldValue_zero _ _⟩
  rw [ofFloat?_eq, parts_ofParts_zero]
  rfl

/-- A whole number times a power of two as a quotient of whole numbers. -/
theorem twoScaled_eq (n : Int) (k : Int) :
    ((n * twoTo k.toNat : Int) : ℚ) / (twoTo (-k).toNat : Nat) = (n : ℚ) * 2 ^ k := by
  rw [twoTo_eq, twoTo_eq]
  push_cast
  rw [mul_div_assoc, pow_toNat_div_pow_toNat two_ne_zero]

theorem Binary.value_eq (b : Binary) : b.value = b.signed * 2 ^ b.exponent := by
  unfold Binary.value fieldValue oriented Binary.signed
  split
  · push_cast
    ring
  · push_cast
    rfl

/-- The whole part of a double is that of its value. -/
theorem Binary.floor_eq (b : Binary) : b.floor = ⌊b.value⌋ := by
  rw [Binary.value_eq, ← twoScaled_eq, Rat.floor_intCast_div_natCast]
  rfl

section Order

theorem Fits.lt_two_zpow (h : Fits m q) : (m : ℚ) * 2 ^ q < 2 ^ (53 + q) := by
  have hm : (m : ℚ) < 2 ^ (53 : Int) := by exact_mod_cast h.bits
  rw [zpow_add₀ (by norm_num)]
  exact mul_lt_mul_of_pos_right hm (by positivity)

/-- The mantissa of a double above the least exponent is full. -/
theorem Fits.two_zpow_le (h : Fits m q) (hq : q ≠ -1074) : (2 : ℚ) ^ (52 + q) ≤ m * 2 ^ q := by
  have hm : (2 : ℚ) ^ (52 : Int) ≤ m := by exact_mod_cast h.full.resolve_right hq
  rw [zpow_add₀ (by norm_num)]
  exact mul_le_mul_of_nonneg_right hm (by positivity)

theorem Fits.lt_of_exponent_lt {m' : Nat} {q' : Int} (h : Fits m q) (h' : Fits m' q')
    (hlt : q < q') : (m : ℚ) * 2 ^ q < m' * 2 ^ q' := by
  have hleast := h.least
  calc (m : ℚ) * 2 ^ q < 2 ^ (53 + q) := h.lt_two_zpow
    _ ≤ 2 ^ (52 + q') := zpow_le_zpow_right₀ (by norm_num) (by omega)
    _ ≤ m' * 2 ^ q' := h'.two_zpow_le (by omega)

/-- Doubles of one sign are ordered by their exponents, then by their mantissas. -/
theorem Fits.compare_eq_lt {m' : Nat} {q' : Int} (h : Fits m q) (h' : Fits m' q') :
    (compare q q').then (compare m m') = .lt ↔ (m : ℚ) * 2 ^ q < m' * 2 ^ q' := by
  rw [Ordering.then_eq_lt, compare_lt_iff_lt, compare_lt_iff_lt, compare_eq_iff_eq]
  constructor
  · rintro (hlt | ⟨rfl, hlt⟩)
    · exact h.lt_of_exponent_lt h' hlt
    · exact mul_lt_mul_of_pos_right (by exact_mod_cast hlt) (by positivity)
  · intro hvalue
    rcases lt_trichotomy q q' with hlt | rfl | hgt
    · exact Or.inl hlt
    · have hm := lt_of_mul_lt_mul_right hvalue (by positivity)
      exact Or.inr ⟨rfl, by exact_mod_cast hm⟩
    · exact absurd hvalue (h'.lt_of_exponent_lt h hgt).le.not_gt

/-- A finite double is a zero or has a positive mantissa. -/
theorem Denotes.cases (h : Denotes x v) :
    (∃ s, parts x = .zero s ∧ v = 0) ∨
      ∃ s m q, ∃ hm : 0 < m, Fits m q ∧ parts x = .finite s m q hm ∧
        v = fieldValue (isNegativeSign s) m q := by
  obtain ⟨b, hb, rfl⟩ := h
  have hf := fits_of_ofFloat? hb
  rw [ofFloat?_eq] at hb
  cases hx : parts x with
  | zero s =>
    rw [hx] at hb
    obtain rfl := Option.some.inj hb
    exact Or.inl ⟨s, rfl, fieldValue_zero _ _⟩
  | finite s m q hm =>
    rw [hx] at hb
    obtain rfl := Option.some.inj hb
    exact Or.inr ⟨s, m, q, hm, hf, rfl, rfl⟩
  | infinity s => rw [hx] at hb; exact absurd hb nofun
  | notANumber => rw [hx] at hb; exact absurd hb nofun

/-- Finite doubles are ordered as their values. -/
theorem Denotes.lt_iff (hx : Denotes x v) (hy : Denotes y w) : x < y ↔ v < w := by
  have hpos : ∀ {m : Nat}, 0 < m → ∀ q : Int, (0 : ℚ) < m * 2 ^ q := fun hm q =>
    mul_pos (Nat.cast_pos.mpr hm) (by positivity)
  rw [Number.lt_iff]
  unfold UnpackedFloat.lt
  rw [beq_iff_eq]
  rcases hx.cases with ⟨s, hs, rfl⟩ | ⟨s, m, q, hm, hf, hs, rfl⟩ <;>
    rcases hy.cases with ⟨t, ht, rfl⟩ | ⟨t, m', q', hm', hf', ht, rfl⟩ <;> rw [hs, ht]
  · exact iff_of_false nofun (lt_irrefl _)
  · have h' := hpos hm' q'
    cases t with
    | positive => exact iff_of_true rfl h'
    | negative => exact iff_of_false nofun (neg_neg_of_pos h').le.not_gt
  · have h := hpos hm q
    cases s with
    | positive => exact iff_of_false nofun h.le.not_gt
    | negative => exact iff_of_true rfl (neg_neg_of_pos h)
  · have h := hpos hm q
    have h' := hpos hm' q'
    cases s <;> cases t
    · have hswap : ((compare q q').then (compare m m')).swap =
          (compare q' q).then (compare m' m) := by
        rw [Ordering.swap_then, Int.compare_swap, Nat.compare_swap]
      change some ((compare q q').then (compare m m')).swap = some .lt ↔
        -((m : ℚ) * 2 ^ q) < -(m' * 2 ^ q')
      rw [hswap, Option.some_inj, hf'.compare_eq_lt hf, neg_lt_neg_iff]
    · exact iff_of_true rfl ((neg_neg_of_pos h).trans h')
    · exact iff_of_false nofun ((neg_neg_of_pos h').trans h).le.not_gt
    · change some ((compare q q').then (compare m m')) = some .lt ↔ (m : ℚ) * 2 ^ q < m' * 2 ^ q'
      rw [Option.some_inj, hf.compare_eq_lt hf']

end Order

section Existence

theorem exists_fields (h : Denotes x v) :
    ∃ negative m q, Fits m q ∧ v = fieldValue negative m q ∧ x = ofFields negative m q := by
  obtain ⟨b, hb, rfl⟩ := h
  exact ⟨b.negative, b.mantissa, b.exponent, fits_of_ofFloat? hb, rfl, eq_ofFields hb⟩

theorem ofParts_finite (s : Sign) (hm : 0 < m) (hf : Fits m q) :
    ofParts (.finite s m q hm) = ofFields (isNegativeSign s) m q := by
  rw [← parts_ofFields s hm hf, ofParts_parts]

theorem Denotes.abs (h : Denotes x v) : Denotes x.abs |v| := by
  rw [abs_eq]
  rcases h.cases with ⟨s, hs, rfl⟩ | ⟨s, m, q, hm, hf, hs, rfl⟩
  · rw [hs, abs_zero]
    exact denotes_zero .positive
  · rw [hs, abs_fieldValue]
    change Denotes (ofParts (.finite .positive m q hm)) (fieldValue false m q)
    rw [ofParts_finite .positive hm hf]
    exact denotes_ofFields false hf

/-- The power of two that is one bit too long is the least full mantissa of the next exponent. -/
theorem carried_value (q : Int) :
    ((2 ^ 52 : Nat) : ℚ) * 2 ^ (q + 1) = ((2 ^ 53 : Nat) : ℚ) * 2 ^ q := by
  rw [zpow_add_one₀ (by norm_num)]
  push_cast
  ring

/-- A whole number of at most 53 bits times a power of two in range is a double. -/
theorem exists_fits (hm : m ≤ 2 ^ 53) (hleast : -1074 ≤ q) (hmost : q ≤ 970) :
    ∃ m' q', Fits m' q' ∧ (m' : ℚ) * 2 ^ q' = m * 2 ^ q := by
  -- a mantissa that is not full is doubled until it is, or the exponent is the least
  generalize hj : (q + 1074).toNat = j
  induction j generalizing m q with
  | zero =>
    rcases hm.lt_or_eq with hlt | rfl
    · exact ⟨m, q, ⟨hlt, hleast, by omega, Or.inr (by omega)⟩, rfl⟩
    · exact ⟨2 ^ 52, q + 1, ⟨by decide, by omega, by omega, Or.inl le_rfl⟩, carried_value q⟩
  | succ j ih =>
    rcases hm.lt_or_eq with hlt | rfl
    · by_cases hfull : 2 ^ 52 ≤ m
      · exact ⟨m, q, ⟨hlt, hleast, by omega, Or.inl hfull⟩, rfl⟩
      · obtain ⟨m', q', hf, hvalue⟩ := ih (m := 2 * m) (q := q - 1) (by omega) (by omega) (by omega)
          (by omega)
        refine ⟨m', q', hf, hvalue.trans ?_⟩
        rw [zpow_sub_one₀ (by norm_num)]
        push_cast
        ring
    · exact ⟨2 ^ 52, q + 1, ⟨by decide, by omega, by omega, Or.inl le_rfl⟩, carried_value q⟩

theorem exists_double (hm : m ≤ 2 ^ 53) (hleast : -1074 ≤ q) (hmost : q ≤ 970) (negative : Bool) :
    ∃ x, Denotes x (fieldValue negative m q) := by
  obtain ⟨m', q', hf, hvalue⟩ := exists_fits hm hleast hmost
  refine ⟨ofFields negative m' q', ?_⟩
  have h := denotes_ofFields negative hf
  unfold fieldValue at h ⊢
  rwa [hvalue] at h

/-- A quotient that is the value of a double is rounded to it. -/
theorem denotes_nearest {num den : Nat} (negative : Bool) (hden : 0 < den) (hf : Fits m q)
    (h : (num : ℚ) / den = m * 2 ^ q) :
    Denotes (nearest negative num den) (fieldValue negative m q) := by
  rcases Nat.eq_zero_or_pos m with rfl | hm
  · have hden' : (den : ℚ) ≠ 0 := by exact_mod_cast hden.ne'
    have hnum : num = 0 := by
      rw [Nat.cast_zero, zero_mul, div_eq_zero_iff] at h
      exact_mod_cast h.resolve_right hden'
    subst hnum
    have hzero : nearest negative 0 den = ofFields negative 0 (-1074) := by
      unfold nearest
      rw [if_pos rfl]
      cases negative <;> rfl
    rw [hzero, fieldValue_zero, ← fieldValue_zero negative (-1074)]
    exact denotes_ofFields negative ⟨by decide, le_rfl, by decide, Or.inr rfl⟩
  · have hwithin : Within m q ((num : ℚ) / den) := h ▸ within_self m q
    rw [nearest_of_within negative hden hm hf hwithin]
    exact denotes_ofFields negative hf

theorem fieldValue_natAbs (n : Int) (q : Int) : fieldValue (n < 0) n.natAbs q = n * 2 ^ q := by
  unfold fieldValue oriented
  rw [Nat.cast_natAbs]
  by_cases hneg : n < 0
  · rw [if_pos (decide_eq_true hneg), abs_of_neg hneg]
    push_cast
    ring
  · rw [if_neg (by simpa using hneg), abs_of_nonneg (not_lt.mp hneg)]

theorem exists_double_int {n : Int} (hn : n.natAbs ≤ 2 ^ 53) (hleast : -1074 ≤ q)
    (hmost : q ≤ 970) : ∃ x, Denotes x (n * 2 ^ q) := by
  rw [← fieldValue_natAbs]
  exact exists_double hn hleast hmost _

/-- Whole numbers of at most 53 bits are doubles. -/
theorem denotes_ofInt {n : Int} (h : n.natAbs ≤ 2 ^ 53) : Denotes (ofInt n) n := by
  obtain ⟨m, q, hf, hvalue⟩ := exists_fits (q := 0) h (by decide) (by decide)
  have hn : (n : ℚ) = fieldValue (n < 0) m q := by
    have hsame := fieldValue_natAbs n 0
    unfold fieldValue at hsame ⊢
    rw [hvalue, hsame, zpow_zero, mul_one]
  rw [zpow_zero, mul_one] at hvalue
  rw [hn]
  exact denotes_nearest _ Nat.one_pos hf (by rw [Nat.cast_one, div_one, hvalue])

end Existence

end Reckoner.Number
