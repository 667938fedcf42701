import Reckoner.Proofs.Number.Value

/-!
How doubles round. A magnitude is rounded to a whole number of units of its last place; no double
lies between the magnitude and what it is rounded to. Shifting bits out of a mantissa, with one bit
for what was shifted out last and one for everything before it, rounds in this way, so a sum of
doubles is the rounded sum of their values.
-/
namespace Reckoner.Number

open Float.Model
open Float.Model.UnpackedFloat

/-- A magnitude is rounded to `r` units of its last place, each `2 ^ q`. -/
structure Rounds (v : ℚ) (r : Nat) (q : Int) : Prop where
  least : -1074 ≤ q
  full : q = -1074 ∨ (2 : ℚ) ^ (52 + q) ≤ v
  below : v < 2 ^ (53 + q)
  low : (r : ℚ) - 1 / 2 ≤ v / 2 ^ q
  high : v / 2 ^ q ≤ r + 1 / 2
  tie : r % 2 = 0 ∨ ((r : ℚ) - 1 / 2 < v / 2 ^ q ∧ v / 2 ^ q < r + 1 / 2)

namespace Rounds

variable {v : ℚ} {r m : Nat} {q k : Int}

private theorem div_lt (h : Rounds v r q) : v / 2 ^ q < 2 ^ 53 := by
  have hbelow := h.below
  rw [zpow_add₀ (by norm_num)] at hbelow
  rw [div_lt_iff₀ (by positivity)]
  exact_mod_cast hbelow

theorem le_two_pow (h : Rounds v r q) : r ≤ 2 ^ 53 := by
  have hhigh := h.div_lt
  have hlow := h.low
  have hlt : (r : ℚ) < ((2 ^ 53 + 1 : Nat) : ℚ) := by
    push_cast
    linarith
  have hlt' : r < 2 ^ 53 + 1 := by exact_mod_cast hlt
  omega

/-- A magnitude with all of its bits is rounded to at least as many. -/
theorem full_mantissa (h : Rounds v r q) : q = -1074 ∨ 2 ^ 52 ≤ r := by
  refine h.full.imp_right fun hfull => ?_
  rw [zpow_add₀ (by norm_num), ← le_div_iff₀ (by positivity)] at hfull
  have hhigh := h.high
  have hlt : ((2 ^ 52 : Nat) : ℚ) < ((r + 1 : Nat) : ℚ) := by
    have hpower : ((2 ^ 52 : Nat) : ℚ) = 2 ^ (52 : Int) := by norm_num
    rw [hpower]
    push_cast
    linarith
  have hlt' : 2 ^ 52 < r + 1 := by exact_mod_cast hlt
  omega

/-- Doubles of a larger exponent are whole numbers of units. -/
theorem exists_units (h : q ≤ k) : ∃ n : Nat, (m : ℚ) * 2 ^ k = n * 2 ^ q := by
  obtain ⟨j, hj⟩ := Int.eq_ofNat_of_zero_le (Int.sub_nonneg_of_le h)
  refine ⟨m * 2 ^ j, ?_⟩
  have hk : k = (j : Int) + q := by omega
  rw [hk, zpow_add₀ (by norm_num), zpow_natCast]
  push_cast
  ring

/-- No double lies between a magnitude and what it is rounded to, from below. -/
theorem le_of_fits (h : Rounds v r q) (hf : Fits m k) (hle : (m : ℚ) * 2 ^ k ≤ v) :
    (m : ℚ) * 2 ^ k ≤ r * 2 ^ q := by
  have hpos : (0 : ℚ) < 2 ^ q := by positivity
  have hunits : ∀ n : Nat, (n : ℚ) * 2 ^ q ≤ v → n ≤ r := by
    intro n hn
    have hn' : (n : ℚ) ≤ r + 1 / 2 := ((le_div_iff₀ hpos).mpr hn).trans h.high
    have hlt : (n : ℚ) < ((r + 1 : Nat) : ℚ) := by
      push_cast
      linarith
    have hlt' : n < r + 1 := by exact_mod_cast hlt
    omega
  rcases le_or_gt q k with hk | hk
  · obtain ⟨n, hn⟩ := exists_units (m := m) hk
    rw [hn] at hle ⊢
    have hr := hunits n hle
    exact mul_le_mul_of_nonneg_right (by exact_mod_cast hr) hpos.le
  · -- the double is below the least full mantissa, which the magnitude reaches
    have hleast := hf.least
    have hfull := h.full.resolve_left (by omega)
    rw [zpow_add₀ (by norm_num)] at hfull
    have hr := hunits (2 ^ 52) (by exact_mod_cast hfull)
    calc (m : ℚ) * 2 ^ k ≤ 2 ^ (53 + k) := hf.lt_two_zpow.le
      _ ≤ 2 ^ (52 + q) := zpow_le_zpow_right₀ (by norm_num) (by omega)
      _ = ((2 ^ 52 : Nat) : ℚ) * 2 ^ q := by
          rw [zpow_add₀ (by norm_num)]
          norm_num
      _ ≤ r * 2 ^ q := mul_le_mul_of_nonneg_right (by exact_mod_cast hr) hpos.le

/-- No double lies between a magnitude and what it is rounded to, from above. -/
theorem ge_of_fits (h : Rounds v r q) (hf : Fits m k) (hge : v ≤ (m : ℚ) * 2 ^ k) :
    (r : ℚ) * 2 ^ q ≤ m * 2 ^ k := by
  have hpos : (0 : ℚ) < 2 ^ q := by positivity
  rcases le_or_gt q k with hk | hk
  · obtain ⟨n, hn⟩ := exists_units (m := m) hk
    rw [hn] at hge ⊢
    have hn' : (r : ℚ) - 1 / 2 ≤ n := h.low.trans ((div_le_iff₀ hpos).mpr hge)
    have hlt : (r : ℚ) < ((n + 1 : Nat) : ℚ) := by
      push_cast
      linarith
    have hlt' : r < n + 1 := by exact_mod_cast hlt
    exact mul_le_mul_of_nonneg_right (by exact_mod_cast (by omega : r ≤ n)) hpos.le
  · have hleast := hf.least
    have hfull := h.full.resolve_left (by omega)
    have hlt : (2 : ℚ) ^ (52 + q) < 2 ^ (53 + k) :=
      lt_of_le_of_lt (hfull.trans hge) hf.lt_two_zpow
    have hexponent := (zpow_lt_zpow_iff_right₀ (by norm_num : (1 : ℚ) < 2)).mp hlt
    omega

/-- A double is rounded to itself. -/
theorem of_fits (hf : Fits m q) : Rounds ((m : ℚ) * 2 ^ q) m q := by
  have hvalue : (m : ℚ) * 2 ^ q / 2 ^ q = m := by field_simp
  refine ⟨hf.least, ?_, hf.lt_two_zpow, ?_, ?_, Or.inr ⟨?_, ?_⟩⟩
  · by_cases hq : q = -1074
    · exact Or.inl hq
    · exact Or.inr (hf.two_zpow_le hq)
  all_goals
    rw [hvalue]
    linarith

theorem eq_of_fits (h : Rounds v r q) (hf : Fits m k) (heq : v = (m : ℚ) * 2 ^ k) :
    (r : ℚ) * 2 ^ q = m * 2 ^ k :=
  le_antisymm (h.ge_of_fits hf heq.le) (h.le_of_fits hf heq.ge)

/-- A magnitude of 53 bits and one half is rounded in the units of its last bit. -/
theorem unit_eq {a : ℚ} (h : Rounds (a * 2 ^ k) r q) (hk : -1074 ≤ k) (hlow : 2 ^ 52 ≤ a)
    (hhigh : a < 2 ^ 53) : q = k := by
  have htwo : (1 : ℚ) < 2 := by norm_num
  have hpos : (0 : ℚ) < 2 ^ k := by positivity
  have hlow' : (2 : ℚ) ^ (52 + k) ≤ a * 2 ^ k := by
    rw [zpow_add₀ (by norm_num)]
    exact mul_le_mul_of_nonneg_right (by exact_mod_cast hlow) hpos.le
  have hhigh' : a * 2 ^ k < 2 ^ (53 + k) := by
    rw [zpow_add₀ (by norm_num)]
    exact mul_lt_mul_of_pos_right (by exact_mod_cast hhigh) hpos
  have hge := (zpow_lt_zpow_iff_right₀ htwo).mp (hlow'.trans_lt h.below)
  rcases h.full with hleast | hfull
  · omega
  · have hle := (zpow_lt_zpow_iff_right₀ htwo).mp (hfull.trans_lt hhigh')
    omega

/-- A magnitude halfway between two doubles is rounded to the even one. -/
theorem even_of_halfway {n : Int} (h : Rounds ((n + 1 / 2) * 2 ^ k) r q) (hk : -1074 ≤ k)
    (hlow : 2 ^ 52 ≤ (n : ℚ) + 1 / 2) (hhigh : (n : ℚ) + 1 / 2 < 2 ^ 53) :
    q = k ∧ r % 2 = 0 ∧ n ≤ r ∧ (r : Int) ≤ n + 1 := by
  obtain rfl := h.unit_eq hk hlow hhigh
  have hpos : (0 : ℚ) < 2 ^ q := by positivity
  obtain ⟨_, _, _, hlow, hhigh, htie⟩ := h
  rw [mul_div_assoc, div_self hpos.ne', mul_one] at hlow hhigh htie
  have hle : (n : ℚ) ≤ ((r : Int) : ℚ) := by
    push_cast
    linarith
  have hge : ((r : Int) : ℚ) ≤ ((n + 1 : Int) : ℚ) := by
    push_cast
    linarith
  have hle' : n ≤ r := by exact_mod_cast hle
  have hge' : (r : Int) ≤ n + 1 := by exact_mod_cast hge
  refine ⟨rfl, htie.resolve_right fun h => ?_, hle', hge'⟩
  -- a number off the half on both sides would be strictly between the two
  have hlt : (n : ℚ) < ((r : Int) : ℚ) := by
    push_cast
    linarith [h.2]
  have hgt : ((r : Int) : ℚ) < ((n + 1 : Int) : ℚ) := by
    push_cast
    linarith [h.1]
  have hlt' : n < r := by exact_mod_cast hlt
  have hgt' : (r : Int) < n + 1 := by exact_mod_cast hgt
  omega

end Rounds

section Shift

variable {m n : Nat} {e q k : Int} {em : ExtendedMantissa}

/-- A mantissa after `n` bits of `m` were shifted out, with the last of them and whether any before
it was set. -/
structure Shifted (m n : Nat) (em : ExtendedMantissa) : Prop where
  mantissa : em.mantissa = m / 2 ^ n
  roundBit : em.roundBit = true ↔ 2 ^ n ≤ 2 * (m % 2 ^ n)
  stickyBit : em.stickyBit = true ↔ 2 * (m % 2 ^ n) % 2 ^ n ≠ 0

theorem Shifted.start (m : Nat) : Shifted m 0 (.ofMantissaAndAccuracy m .exact) := by
  have hmod : 2 * (m % 2 ^ 0) = 0 := by rw [pow_zero, Nat.mod_one]
  refine ⟨(Nat.div_one m).symm, iff_of_false Bool.false_ne_true ?_,
    iff_of_false Bool.false_ne_true ?_⟩
  · rw [hmod]
    decide
  · rw [hmod]
    decide

/-- Shifting by one bit moves the bits of the remainder along. -/
theorem Shifted.next (h : Shifted m n em) : Shifted m (n + 1) em.shiftRightOne := by
  have hdiv : m / 2 ^ (n + 1) = m / 2 ^ n / 2 := by rw [pow_succ, Nat.div_div_eq_div_mul]
  have hmod : m % 2 ^ (n + 1) = m % 2 ^ n + 2 ^ n * (m / 2 ^ n % 2) := by rw [pow_succ, Nat.mod_mul]
  have hrest : m % 2 ^ n < 2 ^ n := Nat.mod_lt _ (by positivity)
  have hround := h.roundBit
  have hsticky := h.stickyBit
  constructor
  · rw [hdiv, ← h.mantissa]
    rfl
  · change (em.mantissa % 2 != 0) = true ↔ _
    rw [hmod, h.mantissa, bne_iff_ne, pow_succ]
    generalize 2 ^ n = unit at *
    rcases Nat.mod_two_eq_zero_or_one (m / unit) with hb | hb <;> rw [hb] <;> omega
  · have hshift : 2 * (m % 2 ^ (n + 1)) % 2 ^ (n + 1) = 2 * (m % 2 ^ n) := by
      rw [hmod, pow_succ, mul_add, ← mul_assoc, mul_comm 2 (2 ^ n), Nat.add_mul_mod_self_left,
        Nat.mod_eq_of_lt (by omega)]
    change (em.roundBit || em.stickyBit) = true ↔ _
    rw [Bool.or_eq_true, hround, hsticky, hshift]
    generalize 2 ^ n = unit at *
    generalize m % unit = rest at *
    constructor
    · rintro (hhalf | hbelow) hzero
      · omega
      · rw [hzero, Nat.zero_mod] at hbelow
        exact hbelow rfl
    · intro hne
      by_cases hhalf : unit ≤ 2 * rest
      · exact Or.inl hhalf
      · rw [Nat.mod_eq_of_lt (by omega)]
        exact Or.inr hne

theorem Shifted.shift (m n : Nat) :
    Shifted m n (ExtendedMantissa.ofMantissaAndAccuracy m .exact >>> n) := by
  induction n with
  | zero => exact Shifted.start m
  | succ n ih => exact ih.next

/-- The bits that were shifted out tell how to round. -/
theorem Shifted.roundedMantissa (h : Shifted m n em) :
    em.roundedMantissa = roundQuotient m (2 ^ n) := by
  have hround := h.roundBit
  have hsticky := h.stickyBit
  have hmantissa := h.mantissa
  have hrest : m % 2 ^ n < 2 ^ n := Nat.mod_lt _ (by positivity)
  have hexcess : 2 ^ n ≤ 2 * (m % 2 ^ n) → 2 * (m % 2 ^ n) % 2 ^ n = 2 * (m % 2 ^ n) - 2 ^ n := by
    intro hhalf
    rw [Nat.mod_eq_sub_mod hhalf, Nat.mod_eq_of_lt (by omega)]
  obtain ⟨k, roundBit, stickyBit⟩ := em
  dsimp only at hround hsticky hmantissa
  subst hmantissa
  unfold roundQuotient
  dsimp only
  cases roundBit with
  | false =>
    have hbelow : 2 * (m % 2 ^ n) < 2 ^ n := by simpa using hround
    rw [if_pos hbelow]
    cases stickyBit <;> rfl
  | true =>
    have hhalf : 2 ^ n ≤ 2 * (m % 2 ^ n) := by simpa using hround
    rw [if_neg (by omega)]
    rw [hexcess hhalf] at hsticky
    cases stickyBit with
    | false =>
      have heq : 2 * (m % 2 ^ n) - 2 ^ n = 0 := by simpa using hsticky
      rw [if_neg (by omega)]
      change m / 2 ^ n + m / 2 ^ n % 2 = _
      split <;> omega
    | true =>
      have hne : 2 * (m % 2 ^ n) - 2 ^ n ≠ 0 := by simpa using hsticky
      rw [if_pos (by omega)]
      rfl

theorem targetExponent_eq (m : Nat) (e : Int) :
    Format.binary64.targetExponent (totalExponent m e) = max (m.log2 + e - 52) (-1074) := by
  have hbits : (Format.binary64.mantissaBits : Int) = 53 := rfl
  have hleast : Format.binary64.minExponent = -1074 := rfl
  unfold Format.targetExponent totalExponent
  rw [hbits, hleast]
  omega

theorem shiftToTargetExponent_eq (m : Nat) (e q : Int) (he : e ≤ q)
    (hq : max (m.log2 + e - 52) (-1074) = q) :
    shiftToTargetExponent Format.binary64 m e .exact =
      (ExtendedMantissa.ofMantissaAndAccuracy m .exact >>> (q - e).toNat, q) := by
  unfold shiftToTargetExponent shiftToExponent
  dsimp only
  rw [targetExponent_eq, hq]
  congr 1
  omega

/-- The double with the given mantissa and exponent, or a zero. -/
theorem denotes_packed (s : Sign) (hf : Fits m q) :
    Denotes (ofParts (if h : m = 0 then .zero s else .finite s m q (Nat.pos_of_ne_zero h)))
      (fieldValue (isNegativeSign s) m q) := by
  by_cases h : m = 0
  · subst h
    rw [fieldValue_zero]
    exact denotes_zero s
  · rw [dif_neg h, ofParts_finite s (Nat.pos_of_ne_zero h) hf]
    exact denotes_ofFields _ hf

theorem two_zpow_log2 {m : Nat} (hm : 0 < m) (e : Int) :
    (2 : ℚ) ^ ((m.log2 : Int) + e) ≤ m * 2 ^ e ∧
      (m : ℚ) * 2 ^ e < 2 ^ ((m.log2 : Int) + 1 + e) := by
  obtain ⟨hlow, hhigh⟩ := log2_bounds hm
  rw [zpow_add₀ (by norm_num), zpow_add₀ (by norm_num)]
  exact ⟨mul_le_mul_of_nonneg_right hlow (by positivity),
    mul_lt_mul_of_pos_right hhigh (by positivity)⟩

/-- A mantissa that rounding carried over to the next power of two is shifted by one more bit. -/
theorem fits_carried (hm : m ≤ 2 ^ 53) (hleast : -1074 ≤ q)
    (hmost : (m : ℚ) * 2 ^ q < 2 ^ (1024 : Int)) (hfull : q = -1074 ∨ 2 ^ 52 ≤ m) :
    Fits (shiftToTargetExponent Format.binary64 m q .exact).1.mantissa
        (shiftToTargetExponent Format.binary64 m q .exact).2 ∧
      ((shiftToTargetExponent Format.binary64 m q .exact).1.mantissa : ℚ) *
        2 ^ (shiftToTargetExponent Format.binary64 m q .exact).2 = m * 2 ^ q := by
  have horder : 0 < m → (m.log2 : Int) + q < 1024 := fun hpos =>
    (zpow_lt_zpow_iff_right₀ (by norm_num : (1 : ℚ) < 2)).mp
      ((two_zpow_log2 hpos q).1.trans_lt hmost)
  rcases hm.lt_or_eq with hlt | rfl
  · have hlog : m.log2 ≤ 52 := by
      rcases Nat.eq_zero_or_pos m with rfl | hpos
      · decide
      · exact Nat.le_of_lt_succ ((Nat.log2_lt hpos.ne').mpr hlt)
    have hlog' : q = -1074 ∨ 52 ≤ m.log2 := hfull.imp_right fun h =>
      (Nat.le_log2 (Nat.pos_of_ne_zero fun h0 => by omega).ne').mpr h
    have hq : max (m.log2 + q - 52) (-1074) = q := by omega
    rw [shiftToTargetExponent_eq m q q le_rfl hq]
    dsimp only
    rw [(Shifted.shift m _).mantissa, sub_self, Int.toNat_zero, pow_zero, Nat.div_one]
    have hq' : q ≤ 971 := by
      rcases Nat.eq_zero_or_pos m with h0 | hpos
      · omega
      · have hlast := horder hpos
        omega
    exact ⟨⟨hlt, hleast, hq', hfull.symm⟩, rfl⟩
  · have hlog : ((2 ^ 53 : Nat).log2 : Int) = 53 := by rw [Nat.log2_two_pow]; rfl
    have hq : max (((2 ^ 53 : Nat).log2 : Int) + q - 52) (-1074) = q + 1 := by omega
    rw [shiftToTargetExponent_eq (2 ^ 53) q (q + 1) (by omega) hq]
    dsimp only
    rw [(Shifted.shift (2 ^ 53) _).mantissa, add_sub_cancel_left]
    have hhalf : 2 ^ 53 / 2 ^ (1 : Int).toNat = 2 ^ 52 := by decide
    rw [hhalf]
    have hlast := horder (by decide)
    exact ⟨⟨by decide, by omega, by omega, Or.inl le_rfl⟩, carried_value q⟩

/-- A magnitude whose bits reach at least down to its last place is rounded by shifting them out. -/
theorem rounds_shifted (hm : 0 < m) (hq : max (m.log2 + e - 52) (-1074) = q) (he : e ≤ q) :
    Rounds ((m : ℚ) * 2 ^ e) (roundQuotient m (2 ^ (q - e).toNat)) q := by
  obtain ⟨hlow, hhigh⟩ := two_zpow_log2 hm e
  have hquotient : (m : ℚ) * 2 ^ e / 2 ^ q = (m : ℚ) / (2 ^ (q - e).toNat : Nat) := by
    have hsub : q = ((q - e).toNat : Int) + e := by omega
    conv_lhs => rw [hsub, zpow_add₀ (by norm_num), zpow_natCast]
    push_cast
    field_simp
  have hunit : 0 < 2 ^ (q - e).toNat := by positivity
  obtain ⟨hl, hh, ht⟩ := roundQuotient_bounds m hunit
  rw [← hquotient] at hl hh ht
  refine ⟨by omega, ?_, ?_, hl, hh, ht⟩
  · rcases le_or_gt (m.log2 + e - 52) (-1074) with h | h
    · exact Or.inl (by omega)
    · exact Or.inr ((zpow_le_zpow_right₀ (by norm_num) (by omega)).trans hlow)
  · exact hhigh.trans_le (zpow_le_zpow_right₀ (by norm_num) (by omega))

/-- Rounding by shifts gives the double that the magnitude is rounded to, if a double is at least as
large. -/
theorem denotes_roundWithAccuracy (s : Sign) (hm : 0 < m) (hf : Fits n k)
    (hv : (m : ℚ) * 2 ^ e ≤ n * 2 ^ k) (he : e ≤ max (m.log2 + e - 52) (-1074)) :
    ∃ r q, Rounds ((m : ℚ) * 2 ^ e) r q ∧
      Denotes (ofParts (roundWithAccuracy Format.binary64 s m e .exact))
        (fieldValue (isNegativeSign s) r q) := by
  obtain ⟨q, hq⟩ : ∃ q, max (m.log2 + e - 52) (-1074) = q := ⟨_, rfl⟩
  rw [hq] at he
  have hrounds := rounds_shifted hm hq he
  have hk := hf.most
  have hmost : (roundQuotient m (2 ^ (q - e).toNat) : ℚ) * 2 ^ q < 2 ^ (1024 : Int) :=
    calc (roundQuotient m (2 ^ (q - e).toNat) : ℚ) * 2 ^ q ≤ n * 2 ^ k := hrounds.ge_of_fits hf hv
      _ < 2 ^ (53 + k) := hf.lt_two_zpow
      _ ≤ 2 ^ (1024 : Int) := zpow_le_zpow_right₀ (by norm_num) (by omega)
  have hround := (Shifted.shift m (q - e).toNat).roundedMantissa
  refine ⟨_, q, hrounds, ?_⟩
  obtain ⟨hfits, hvalue⟩ :=
    fits_carried hrounds.le_two_pow hrounds.least hmost hrounds.full_mantissa
  unfold roundWithAccuracy
  rw [shiftToTargetExponent_eq m e q he hq]
  dsimp only
  rw [hround]
  have h := denotes_packed s hfits
  unfold fieldValue at h ⊢
  rwa [hvalue] at h

theorem log2_mul_two_pow (hm : 0 < m) (n : Nat) : (m * 2 ^ n).log2 = m.log2 + n := by
  obtain ⟨hlow, hhigh⟩ := (Nat.log2_eq_iff hm.ne').mp rfl
  rw [Nat.log2_eq_iff (Nat.mul_pos hm (by positivity)).ne', pow_add, Nat.add_right_comm, pow_add]
  exact ⟨Nat.mul_le_mul_right _ hlow, Nat.mul_lt_mul_of_pos_right hhigh (by positivity)⟩

/-- Moving bits from the exponent into the mantissa. -/
theorem lowered_value (m : Nat) {e low : Int} (h : low ≤ e) :
    ((m * 2 ^ (e - low).toNat : Nat) : ℚ) * 2 ^ low = m * 2 ^ e := by
  have he : e = ((e - low).toNat : Int) + low := by omega
  conv_rhs => rw [he, zpow_add₀ (by norm_num), zpow_natCast]
  push_cast
  ring

theorem decreaseExponent_eq (m : Nat) {e low : Int} (h : low ≤ e) :
    decreaseExponent m e low = (m * 2 ^ (e - low).toNat, low) := by
  unfold decreaseExponent
  dsimp only
  rw [Nat.shiftLeft_eq]
  congr 1
  omega

/-- The general rounding first lowers an exponent that is too large. -/
theorem denotes_round (s : Sign) (hm : 0 < m) (hf : Fits n k)
    (hv : (m : ℚ) * 2 ^ e ≤ n * 2 ^ k) :
    ∃ r q, Rounds ((m : ℚ) * 2 ^ e) r q ∧
      Denotes (ofParts (round Format.binary64 s m e)) (fieldValue (isNegativeSign s) r q) := by
  unfold UnpackedFloat.round
  dsimp only
  rw [targetExponent_eq]
  generalize hq : max (m.log2 + e - 52) (-1074) = q
  rcases le_total e q with he | he
  · have hsame : decreaseExponent m e q = (m, e) := by
      unfold decreaseExponent
      dsimp only
      rw [show (e - q).toNat = 0 by omega]
      simp
    rw [hsame]
    exact denotes_roundWithAccuracy s hm hf hv (by omega)
  · have hlowered := lowered_value m he
    rw [decreaseExponent_eq m he]
    dsimp only
    rw [← hlowered] at hv ⊢
    refine denotes_roundWithAccuracy s (Nat.mul_pos hm (by positivity)) hf hv ?_
    rw [log2_mul_two_pow hm]
    omega

end Shift

section Sum

/-- What a number is rounded to, with its sign. -/
inductive RoundsTo : ℚ → ℚ → Prop
  | oriented (negative : Bool) {v : ℚ} {r : Nat} {q : Int} (hv : 0 ≤ v) (h : Rounds v r q) :
      RoundsTo (oriented negative v) (fieldValue negative r q)

variable {x y z : Float} {v w d : ℚ} {m : Nat} {e k : Int}

theorem Denotes.roundsTo (h : Denotes x v) : RoundsTo v v := by
  obtain ⟨negative, m, q, hf, rfl, _⟩ := exists_fields h
  exact .oriented negative (by positivity) (Rounds.of_fits hf)

/-- No double lies between a number and what it is rounded to, from below. -/
theorem RoundsTo.le_of_denotes (h : RoundsTo v w) (hd : Denotes x d) (hle : d ≤ v) : d ≤ w := by
  obtain ⟨negative, m, q, hf, rfl, _⟩ := exists_fields hd
  obtain ⟨sign, hv, h⟩ := h
  rename_i v r unit
  have hr : (0 : ℚ) ≤ r * 2 ^ unit := by positivity
  have hm : (0 : ℚ) ≤ m * 2 ^ q := by positivity
  cases sign <;> cases negative
  · exact h.le_of_fits hf hle
  · exact (neg_nonpos.mpr hm).trans hr
  · have hzero : (m : ℚ) * 2 ^ q ≤ -v := hle
    have hge := h.ge_of_fits hf (by linarith)
    change (m : ℚ) * 2 ^ q ≤ -(r * 2 ^ unit)
    linarith
  · exact neg_le_neg (h.ge_of_fits hf (neg_le_neg_iff.mp hle))

theorem Denotes.neg (h : Denotes x v) : Denotes (-x) (-v) := by
  obtain ⟨b, hb, rfl⟩ := h
  rw [neg_eq_ofFields hb, Binary.value, ← fieldValue_not]
  exact denotes_ofFields _ (fits_of_ofFloat? hb)

theorem RoundsTo.neg (h : RoundsTo v w) : RoundsTo (-v) (-w) := by
  obtain ⟨sign, hv, h⟩ := h
  rw [← oriented_not, ← fieldValue_not]
  exact .oriented (!sign) hv h

/-- No double lies between a number and what it is rounded to, from above. -/
theorem RoundsTo.ge_of_denotes (h : RoundsTo v w) (hd : Denotes x d) (hge : v ≤ d) : w ≤ d :=
  neg_le_neg_iff.mp (h.neg.le_of_denotes hd.neg (neg_le_neg hge))

theorem RoundsTo.eq_of_denotes (h : RoundsTo v w) (hd : Denotes x v) : w = v :=
  le_antisymm (h.ge_of_denotes hd le_rfl) (h.le_of_denotes hd le_rfl)

/-- A number halfway between two doubles is rounded to the even one. -/
theorem RoundsTo.exists_even_of_halfway {n : Int} (h : RoundsTo ((n + 1 / 2) * 2 ^ k) w)
    (hk : -1074 ≤ k) (hlow : 2 ^ 52 ≤ |(n : ℚ) + 1 / 2|) (hhigh : |(n : ℚ) + 1 / 2| < 2 ^ 53) :
    ∃ r : Int, w = r * 2 ^ k ∧ r % 2 = 0 ∧ n ≤ r ∧ r ≤ n + 1 := by
  have hpos : (0 : ℚ) < 2 ^ k := by positivity
  generalize hvalue : ((n : ℚ) + 1 / 2) * 2 ^ k = value at h
  obtain ⟨negative, hv, h⟩ := h
  rename_i v r q
  cases negative with
  | false =>
    have hv' : v = ((n : ℚ) + 1 / 2) * 2 ^ k := hvalue.symm
    rw [hv'] at h hv
    rw [abs_of_nonneg (nonneg_of_mul_nonneg_left hv hpos)] at hlow hhigh
    obtain ⟨rfl, heven, hle, hge⟩ := h.even_of_halfway hk hlow hhigh
    exact ⟨r, rfl, by omega, hle, hge⟩
  | true =>
    -- the magnitude is halfway between the numbers with the other sign
    have hv' : v = (((-n - 1 : Int) : ℚ) + 1 / 2) * 2 ^ k := by
      have hneg : ((n : ℚ) + 1 / 2) * 2 ^ k = -v := hvalue
      push_cast
      linarith
    rw [hv'] at h hv
    have hnonneg := nonneg_of_mul_nonneg_left hv hpos
    have habs : |(n : ℚ) + 1 / 2| = ((-n - 1 : Int) : ℚ) + 1 / 2 := by
      push_cast at hnonneg ⊢
      rw [abs_of_nonpos (by linarith)]
      ring
    rw [habs] at hlow hhigh
    obtain ⟨rfl, heven, hle, hge⟩ := h.even_of_halfway hk hlow hhigh
    refine ⟨-r, ?_, by omega, by omega, by omega⟩
    push_cast
    exact (neg_mul _ _).symm

/-- A whole number of units is rounded with its sign. -/
theorem denotes_normalize (n : Int) (s : Sign) (hf : Fits m k) (h : |(n : ℚ) * 2 ^ e| ≤ m * 2 ^ k) :
    ∃ w, RoundsTo (n * 2 ^ e) w ∧
      Denotes (ofParts (UnpackedFloat.normalize Format.binary64 n e s)) w := by
  have hpos : (0 : ℚ) < 2 ^ e := by positivity
  unfold UnpackedFloat.normalize
  rcases lt_trichotomy n 0 with hn | rfl | hn
  · obtain ⟨j, hj⟩ := Int.eq_ofNat_of_zero_le (Int.neg_nonneg_of_nonpos hn.le)
    have hvalue : (n : ℚ) * 2 ^ e = oriented true (j * 2 ^ e) := by
      rw [show n = -(j : Int) by omega]
      push_cast
      exact neg_mul _ _
    rw [compare_lt_iff_lt.mpr hn, hj, Int.toNat_natCast, hvalue]
    rw [hvalue, oriented, if_pos rfl, abs_neg, abs_of_nonneg (by positivity)] at h
    obtain ⟨r, q, hr, hd⟩ := denotes_round .negative (m := j) (by omega) hf h
    exact ⟨_, .oriented true (by positivity) hr, hd⟩
  · rw [compare_eq_iff_eq.mpr rfl, Int.cast_zero, zero_mul]
    exact ⟨0, (denotes_zero s).roundsTo, denotes_zero s⟩
  · obtain ⟨j, rfl⟩ := Int.eq_ofNat_of_zero_le hn.le
    rw [compare_gt_iff_gt.mpr hn, Int.toNat_natCast, Int.cast_natCast]
    rw [Int.cast_natCast, abs_of_nonneg (by positivity)] at h
    obtain ⟨r, q, hr, hd⟩ := denotes_round .positive (m := j) (by omega) hf h
    exact ⟨_, .oriented false (by positivity) hr, hd⟩

/-- The value of a double in units of a smaller one. -/
theorem apply_value (s : Sign) (m : Nat) {e low : Int} (h : low ≤ e) :
    ((s.apply (m * 2 ^ (e - low).toNat : Nat) : Int) : ℚ) * 2 ^ low =
      fieldValue (isNegativeSign s) m e := by
  have hlowered := lowered_value m h
  cases s
  · change ((-((m * 2 ^ (e - low).toNat : Nat) : Int) : Int) : ℚ) * 2 ^ low = -((m : ℚ) * 2 ^ e)
    rw [← hlowered]
    push_cast
    ring
  · change ((((m * 2 ^ (e - low).toNat : Nat) : Int) : Int) : ℚ) * 2 ^ low = (m : ℚ) * 2 ^ e
    rw [← hlowered]
    push_cast
    ring

/-- A sum of doubles is the rounded sum of their values, if a double is at least as large. -/
theorem Denotes.add (hx : Denotes x v) (hy : Denotes y w) (hz : Denotes z d) (h : |v + w| ≤ |d|) :
    ∃ u, RoundsTo (v + w) u ∧ Denotes (x + y) u := by
  obtain ⟨negative, j, k, hbound, rfl, _⟩ := exists_fields hz
  rw [abs_fieldValue] at h
  rw [add_eq]
  rcases hx.cases with ⟨s, hs, rfl⟩ | ⟨s, m, q, hm, hf, hs, rfl⟩
  · rw [zero_add]
    refine ⟨w, hy.roundsTo, ?_⟩
    rcases hy.cases with ⟨t, ht, rfl⟩ | ⟨t, m', q', hm', hf', ht, rfl⟩
    · rw [hs, ht]
      unfold UnpackedFloat.add
      dsimp only
      split <;> exact denotes_zero _
    · have hsame : UnpackedFloat.add Format.binary64 (.zero s) (parts y) = parts y := by
        rw [ht]
        rfl
      rw [hs, hsame, ofParts_parts]
      exact hy
  · rcases hy.cases with ⟨t, ht, rfl⟩ | ⟨t, m', q', hm', hf', ht, rfl⟩
    · have hsame : UnpackedFloat.add Format.binary64 (parts x) (.zero t) = parts x := by
        rw [hs]
        rfl
      rw [add_zero, ht, hsame, ofParts_parts]
      exact ⟨_, hx.roundsTo, hx⟩
    · rw [hs, ht]
      unfold UnpackedFloat.add
      dsimp only
      rw [decreaseExponent_eq m (min_le_left q q'), decreaseExponent_eq m' (min_le_right q q')]
      dsimp only
      rw [← apply_value s m (min_le_left q q'), ← apply_value t m' (min_le_right q q'), ← add_mul,
        ← Int.cast_add] at h ⊢
      exact denotes_normalize _ _ hbound h

/-- The parts of one: the least full mantissa, and what makes up for it. -/
theorem parts_one : parts 1 = .finite .positive (2 ^ 52) (-52) (by decide) := rfl

/-- Multiplying by one changes no value. -/
theorem Denotes.mul_one (hx : Denotes x v) : Denotes (x * 1) v := by
  rw [mul_eq, parts_one]
  rcases hx.cases with ⟨s, hs, rfl⟩ | ⟨s, m, q, hm, hf, hs, rfl⟩
  · rw [hs]
    exact denotes_zero _
  · rw [hs]
    have hsign : isNegativeSign (s * .positive) = isNegativeSign s := by cases s <;> rfl
    have hlowered := lowered_value m (show q + -52 ≤ q by omega)
    rw [show (q - (q + -52)).toNat = 52 by omega] at hlowered
    have hlast : q + -52 ≤ max ((m * 2 ^ 52).log2 + (q + -52) - 52) (-1074) := by
      rw [log2_mul_two_pow hm]
      omega
    obtain ⟨r, unit, hr, hd⟩ := denotes_roundWithAccuracy (s * .positive)
      (Nat.mul_pos hm (by positivity)) hf hlowered.le hlast
    rw [hlowered] at hr
    unfold fieldValue at hd ⊢
    rwa [hsign, hr.eq_of_fits hf rfl] at hd

/-- Dividing by one changes no value. -/
theorem Denotes.div_one (hx : Denotes x v) : Denotes (x / 1) v := by
  rw [div_eq, parts_one]
  rcases hx.cases with ⟨s, hs, rfl⟩ | ⟨s, m, q, hm, hf, hs, rfl⟩
  · rw [hs]
    exact denotes_zero _
  · rw [hs]
    have hsign : isNegativeSign (s / .positive) = isNegativeSign s := by cases s <;> rfl
    have hlog : m.log2 ≤ 52 := Nat.le_of_lt_succ ((Nat.log2_lt hm.ne').mpr hf.bits)
    have hleast := hf.least
    -- the dividend is shifted by the bits of the divisor, and by more where it may be
    obtain ⟨low, hlow⟩ : ∃ low, min (q - -52) (max (m.log2 + q - 53) (-1074)) = low := ⟨_, rfl⟩
    have hle : low ≤ q := by omega
    have hcore : divCore Format.binary64 m q (2 ^ 52) (-52) =
        (m * 2 ^ (q - low).toNat, low, .exact) := by
      have htarget :
          Format.binary64.targetExponent (totalExponent m q - totalExponent (2 ^ 52) (-52)) =
            max (m.log2 + q - 53) (-1074) := by
        have htotal :
            totalExponent m q - totalExponent (2 ^ 52) (-52) = totalExponent m (q - 1) := by
          have hone : ((2 ^ 52 : Nat).log2 : Int) = 52 := by rw [Nat.log2_two_pow]; rfl
          unfold totalExponent
          rw [hone]
          omega
        rw [htotal, targetExponent_eq]
        omega
      have hshift : m <<< (q - -52 - low).toNat = m * 2 ^ (q - low).toNat * 2 ^ 52 := by
        rw [Nat.shiftLeft_eq, mul_assoc, ← pow_add]
        congr 2
        omega
      unfold divCore
      dsimp only
      rw [htarget, hlow, hshift, Nat.mul_div_cancel _ (by positivity), Nat.mul_mod_left]
      rfl
    have hlowered := lowered_value m hle
    have hlast : low ≤ max ((m * 2 ^ (q - low).toNat).log2 + low - 52) (-1074) := by
      rw [log2_mul_two_pow hm]
      omega
    obtain ⟨r, unit, hr, hd⟩ := denotes_roundWithAccuracy (s / .positive)
      (Nat.mul_pos hm (by positivity)) hf hlowered.le hlast
    unfold UnpackedFloat.div
    dsimp only
    rw [hcore]
    rw [hlowered] at hr
    unfold fieldValue at hd ⊢
    rwa [hsign, hr.eq_of_fits hf rfl] at hd

end Sum

end Reckoner.Number
