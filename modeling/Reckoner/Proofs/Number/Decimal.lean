import Reckoner.Proofs.Number.Nearest
import Reckoner.Proofs.Text.Digits

/-!
Decimals that read back as a double. The test on whole numbers holds exactly when the decimal lies
within the double; the search for the shortest decimal ends in one that passes, since the exact
value does. Reading rounds such a decimal to the double, and no cutoff of the reader comes into it:
numbers within a finite double are far from both.
-/
namespace Reckoner.Number

/-- The number that a decimal denotes. -/
def Decimal.value (d : Decimal) : ℚ := d.digits * 10 ^ d.exponent

/-- Moving a number by a power of ten. -/
theorem tenScaled_eq (n : Nat) (k : Int) :
    ((n * tenTo k.toNat : Nat) : ℚ) / (tenTo (-k).toNat : Nat) = (n : ℚ) * 10 ^ k := by
  rw [tenTo_eq, tenTo_eq]
  push_cast
  rw [mul_div_assoc, pow_toNat_div_pow_toNat (by norm_num)]

variable {m : Nat} {q : Int}

/-- The gap below a double, in quarters of a unit of its last place. -/
private theorem reach_quarters (m : Nat) (q : Int) :
    ((if m = twoTo 52 ∧ q ≠ -1074 then 1 else 2 : Nat) : ℚ) = 4 * reach m q := by
  unfold reach
  split <;> norm_num

/-- The test on whole numbers is the condition to lie within the double. -/
theorem readsBack_iff (hm : 0 < m) (d : Decimal) :
    readsBack m q d = true ↔ Within m q d.value := by
  have hquarters := reach_quarters m q
  unfold readsBack
  dsimp only
  generalize hbelow : (if m = twoTo 52 ∧ q ≠ -1074 then 1 else 2) = below at hquarters ⊢
  have hle : below ≤ 2 := by
    rw [← hbelow]
    split <;> decide
  have hsub : ((4 * m - below : Nat) : ℚ) = 4 * m - below := by
    rw [Nat.cast_sub (by omega)]
    push_cast
    ring
  have hunit : 0 < tenTo (-d.exponent).toNat * twoTo (q - 2).toNat :=
    Nat.mul_pos (tenTo_pos _) (twoTo_pos _)
  have hunit' : (0 : ℚ) < (tenTo (-d.exponent).toNat * twoTo (q - 2).toNat : Nat) := by
    exact_mod_cast hunit
  have hquotient : ((d.digits * tenTo d.exponent.toNat * twoTo (2 - q).toNat : Nat) : ℚ) /
      (tenTo (-d.exponent).toNat * twoTo (q - 2).toNat : Nat) = 4 * (d.value / 2 ^ q) := by
    have hscaled :=
      scaled_eq (d.digits * tenTo d.exponent.toNat) (tenTo (-d.exponent).toNat) (q - 2)
    rw [tenScaled_eq, neg_sub] at hscaled
    have hpow : (2 : ℚ) ^ q = 2 ^ (q - 2) * 4 := by
      rw [show (4 : ℚ) = 2 ^ (2 : Int) by norm_num, ← zpow_add₀ (by norm_num), sub_add_cancel]
    unfold Decimal.value
    rw [hscaled, hpow]
    field_simp
  generalize d.digits * tenTo d.exponent.toNat * twoTo (2 - q).toNat = left at hquotient ⊢
  generalize tenTo (-d.exponent).toNat * twoTo (q - 2).toNat = unit at hunit hunit' hquotient ⊢
  have hlow : (4 * m - below) * unit ≤ left ↔ m - reach m q ≤ d.value / 2 ^ q := by
    rw [← Nat.cast_le (α := ℚ), Nat.cast_mul, hsub, ← le_div_iff₀ hunit', hquotient, hquarters]
    constructor <;> intro h <;> linarith
  have hhigh : left ≤ (4 * m + 2) * unit ↔ d.value / 2 ^ q ≤ m + 1 / 2 := by
    rw [← Nat.cast_le (α := ℚ), Nat.cast_mul, ← div_le_iff₀ hunit', hquotient]
    push_cast
    constructor <;> intro h <;> linarith
  have hlow' : (4 * m - below) * unit < left ↔ m - reach m q < d.value / 2 ^ q := by
    rw [← Nat.cast_lt (α := ℚ), Nat.cast_mul, hsub, ← lt_div_iff₀ hunit', hquotient, hquarters]
    constructor <;> intro h <;> linarith
  have hhigh' : left < (4 * m + 2) * unit ↔ d.value / 2 ^ q < m + 1 / 2 := by
    rw [← Nat.cast_lt (α := ℚ), Nat.cast_mul, ← div_lt_iff₀ hunit', hquotient]
    push_cast
    constructor <;> intro h <;> linarith
  by_cases heven : m % 2 = 0
  · rw [if_pos heven, Bool.and_eq_true, decide_eq_true_iff, decide_eq_true_iff, hlow, hhigh]
    exact ⟨fun h => ⟨h.1, h.2, Or.inl heven⟩, fun h => ⟨h.low, h.high⟩⟩
  · rw [if_neg heven, Bool.and_eq_true, decide_eq_true_iff, decide_eq_true_iff, hlow', hhigh']
    exact ⟨fun h => ⟨h.1.le, h.2.le, Or.inr h⟩, fun h => h.tie.resolve_left heven⟩

/-- The value of a double lies within it. -/
theorem within_self (m : Nat) (q : Int) : Within m q ((m : ℚ) * 2 ^ q) := by
  have hpos : (0 : ℚ) < 2 ^ q := by positivity
  have hvalue : (m : ℚ) * 2 ^ q / 2 ^ q = m := by field_simp
  have hreach := reach_pos m q
  constructor
  · rw [hvalue]
    linarith
  · rw [hvalue]
    linarith
  · rw [hvalue]
    exact Or.inr ⟨by linarith, by linarith⟩

theorem exactDecimal_value (m : Nat) (q : Int) : (exactDecimal m q).value = (m : ℚ) * 2 ^ q := by
  unfold exactDecimal Decimal.value
  split
  · rename_i h
    obtain ⟨j, rfl⟩ := Int.eq_ofNat_of_zero_le h
    rw [Int.toNat_natCast, twoTo_eq, zpow_natCast]
    push_cast
    ring
  · rename_i h
    obtain ⟨j, hj⟩ := Int.eq_ofNat_of_zero_le (show 0 ≤ -q by omega)
    have hq : q = -(j : Int) := by omega
    have hfive : (Nat.pow 5 (-q).toNat : Nat) = 5 ^ (-q).toNat := rfl
    simp only [hfive]
    rw [hq, neg_neg, Int.toNat_natCast, zpow_neg, zpow_neg, zpow_natCast, zpow_natCast]
    have hten : (10 : ℚ) ^ j = 5 ^ j * 2 ^ j := by
      rw [← mul_pow]
      norm_num
    push_cast
    rw [hten]
    field_simp

private theorem within_shortestFrom (hm : 0 < m) (order : Int) (count more : Nat) :
    Within m q (shortestFrom m q order count more).value := by
  induction more generalizing count with
  | zero =>
    unfold shortestFrom
    rw [exactDecimal_value]
    exact within_self m q
  | succ more ih =>
    unfold shortestFrom
    split
    · rename_i d hd
      exact (readsBack_iff hm d).mp (List.find?_some hd)
    · exact ih (count + 1)

/-- The shortest decimal of a double lies within it. -/
theorem within_shortest (hm : 0 < m) : Within m q (shortest m q).value := by
  unfold shortest
  rw [if_neg hm.ne']
  exact within_shortestFrom hm _ _ _

theorem digits_shortest_pos (hm : 0 < m) (q : Int) : 0 < (shortest m q).digits := by
  refine Nat.pos_of_ne_zero fun h0 => ?_
  have hv := (within_shortest (q := q) hm).pos hm
  unfold Decimal.value at hv
  rw [h0] at hv
  simp at hv

/-- The number of digits bounds a decimal from both sides. -/
theorem decimalLength_bounds {n : Nat} (hn : 0 < n) (e : Int) :
    (10 : ℚ) ^ ((decimalLength n : Int) + e - 1) ≤ n * 10 ^ e ∧
      (n : ℚ) * 10 ^ e < 10 ^ ((decimalLength n : Int) + e) := by
  have hten : (10 : ℚ) ≠ 0 := by norm_num
  have hpos : (0 : ℚ) < 10 ^ e := by positivity
  have hlength : 0 < decimalLength n := Nat.length_toDigits_pos
  have hlow : ((10 ^ (decimalLength n - 1) : Nat) : ℚ) ≤ n := by
    exact_mod_cast pow_decimalLength_le hn
  have hhigh : (n : ℚ) < (10 ^ decimalLength n : Nat) := by exact_mod_cast lt_pow_decimalLength n
  constructor
  · have hexp : (decimalLength n : Int) + e - 1 = ((decimalLength n - 1 : Nat) : Int) + e := by
      omega
    rw [hexp, zpow_add₀ hten, zpow_natCast]
    push_cast at hlow
    exact mul_le_mul_of_nonneg_right hlow hpos.le
  · rw [zpow_add₀ hten, zpow_natCast]
    push_cast at hhigh
    exact mul_lt_mul_of_pos_right hhigh hpos

/-- All powers of two in the range of doubles are below this power of ten. -/
private theorem two_pow_lt {n : Nat} (h : n < 1300) : (2 : ℚ) ^ n < 10 ^ 400 := by
  calc (2 : ℚ) ^ n < 2 ^ (13 * 100) := pow_lt_pow_right₀ (by norm_num) (by omega)
    _ = (2 ^ 13) ^ 100 := pow_mul 2 13 100
    _ ≤ (10 ^ 4) ^ 100 := pow_le_pow_left₀ (by norm_num) (by norm_num) 100
    _ = 10 ^ 400 := (pow_mul 10 4 100).symm

private theorem two_zpow_lt {k : Int} (h : k < 1300) : (2 : ℚ) ^ k < 10 ^ (400 : Int) := by
  calc (2 : ℚ) ^ k ≤ 2 ^ ((k.toNat : Nat) : Int) :=
        zpow_le_zpow_right₀ (by norm_num) (by omega)
    _ = 2 ^ k.toNat := zpow_natCast 2 k.toNat
    _ < 10 ^ 400 := two_pow_lt (by omega)
    _ = 10 ^ (400 : Int) := (zpow_natCast 10 400).symm

private theorem ten_zpow_lt {k : Int} (h : -1300 < k) : (10 : ℚ) ^ (-(400 : Int)) < 2 ^ k := by
  have hlt : (2 : ℚ) ^ (-k) < 10 ^ (400 : Int) := two_zpow_lt (by omega)
  rw [zpow_neg]
  rw [zpow_neg] at hlt
  exact inv_lt_of_inv_lt₀ (by positivity) hlt

/-- Numbers within a finite double are neither huge nor tiny. -/
theorem Within.range {v : ℚ} (hf : Fits m q) (hm : 0 < m) (h : Within m q v) :
    (10 : ℚ) ^ (-(400 : Int)) ≤ v ∧ v < 10 ^ (400 : Int) := by
  have hreach := reach_le m q
  have hm' : (1 : ℚ) ≤ m := by exact_mod_cast hm
  have hbits : (m : ℚ) + 1 ≤ 2 ^ 53 := by exact_mod_cast hf.bits
  have hpos : (0 : ℚ) < 2 ^ q := by positivity
  constructor
  · have hhalf : (2 : ℚ) ^ (-(1 : Int)) ≤ v / 2 ^ q := by
      norm_num
      linarith [h.low]
    have hlow := (le_div_iff₀ hpos).mp hhalf
    rw [← zpow_add₀ (by norm_num)] at hlow
    exact (ten_zpow_lt (by have := hf.least; omega)).le.trans hlow
  · have hfull : v / 2 ^ q ≤ (2 : ℚ) ^ (53 : Int) := by
      norm_num at hbits ⊢
      linarith [h.high]
    have hhigh := (div_le_iff₀ hpos).mp hfull
    rw [← zpow_add₀ (by norm_num)] at hhigh
    exact lt_of_le_of_lt hhigh (two_zpow_lt (by have := hf.most; omega))

/-- A decimal that lies within a double is read as the double. -/
theorem nearestDecimal_of_within {n : Nat} {e : Int} (negative : Bool) (hm : 0 < m) (hf : Fits m q)
    (h : Within m q ((n : ℚ) * 10 ^ e)) :
    nearestDecimal negative n e = ofFields negative m q := by
  have hn : 0 < n := by
    rcases Nat.eq_zero_or_pos n with h0 | hpos
    · have hv := h.pos hm
      rw [h0] at hv
      simp at hv
    · exact hpos
  obtain ⟨hlow, hhigh⟩ := decimalLength_bounds hn e
  obtain ⟨htiny, hhuge⟩ := h.range hf hm
  have hten : (1 : ℚ) < 10 := by norm_num
  have hmost : (decimalLength n : Int) + e - 1 < 400 :=
    (zpow_lt_zpow_iff_right₀ hten).mp (lt_of_le_of_lt hlow hhuge)
  have hleast : -400 < (decimalLength n : Int) + e :=
    (zpow_lt_zpow_iff_right₀ hten).mp (lt_of_le_of_lt htiny hhigh)
  unfold nearestDecimal
  dsimp only
  rw [if_neg (by omega), if_neg (by omega)]
  refine nearest_of_within negative (tenTo_pos _) hm hf ?_
  rwa [tenScaled_eq]

end Reckoner.Number
