import Mathlib.Algebra.Order.Field.Basic
import Mathlib.Algebra.Order.Field.Power
import Mathlib.Data.Rat.Cast.Order
import Mathlib.Tactic.FieldSimp
import Mathlib.Tactic.Linarith
import Mathlib.Tactic.NormNum
import Mathlib.Tactic.Positivity
import Mathlib.Tactic.Ring
import Reckoner.Number.Shortest
import Reckoner.Proofs.Number.Parts

/-!
The nearest double. A quotient lies within a double when it is between the points halfway to the
neighbouring doubles; the points themselves count when the mantissa is even. Rounding takes every
quotient that lies within a double to this double.
-/
namespace Reckoner.Number

/-- A rounded quotient is within one half, and halfway only when it is even. -/
theorem roundQuotient_bounds (num : Nat) {den : Nat} (hden : 0 < den) :
    (roundQuotient num den : ℚ) - 1 / 2 ≤ num / den ∧
      (num : ℚ) / den ≤ roundQuotient num den + 1 / 2 ∧
      (roundQuotient num den % 2 = 0 ∨
        ((roundQuotient num den : ℚ) - 1 / 2 < num / den ∧
          (num : ℚ) / den < roundQuotient num den + 1 / 2)) := by
  have hden' : (0 : ℚ) < den := by exact_mod_cast hden
  have hdiv : (den : ℚ) * (num / den : Nat) + (num % den : Nat) = num := by
    exact_mod_cast Nat.div_add_mod num den
  have hmod : num % den < den := Nat.mod_lt num hden
  unfold roundQuotient
  dsimp only
  generalize num / den = q at *
  generalize num % den = r at *
  have hvalue : (num : ℚ) / den = q + r / den := by
    rw [← hdiv]
    field_simp
  have hr0 : (0 : ℚ) ≤ r / den := by positivity
  have hr1 : (r : ℚ) / den < 1 := by
    rw [div_lt_one hden']
    exact_mod_cast hmod
  rw [hvalue]
  split
  · rename_i h
    have hhalf : (r : ℚ) / den < 1 / 2 := by
      rw [div_lt_iff₀ hden']
      have h' : (2 : ℚ) * r < den := by exact_mod_cast h
      linarith
    exact ⟨by linarith, by linarith, Or.inr ⟨by linarith, by linarith⟩⟩
  · split
    · rename_i h
      have hhalf : 1 / 2 < (r : ℚ) / den := by
        rw [lt_div_iff₀ hden']
        have h' : (den : ℚ) < 2 * r := by exact_mod_cast h
        linarith
      push_cast
      exact ⟨by linarith, by linarith, Or.inr ⟨by linarith, by linarith⟩⟩
    · rename_i h h'
      have hhalf : (r : ℚ) / den = 1 / 2 := by
        have heq : 2 * r = den := by omega
        rw [div_eq_iff hden'.ne']
        have heq' : (2 : ℚ) * r = den := by exact_mod_cast heq
        linarith
      rw [hhalf]
      split
      · rename_i heven
        exact ⟨by linarith, by linarith, Or.inl heven⟩
      · rename_i hodd
        push_cast
        exact ⟨by linarith, by linarith, Or.inl (by omega)⟩

/-- A quotient within one half of a whole number rounds to it; one that is exactly halfway does
when the number is even. -/
theorem roundQuotient_eq {num den m : Nat} (hden : 0 < den)
    (hlow : (m : ℚ) - 1 / 2 ≤ num / den) (hhigh : (num : ℚ) / den ≤ m + 1 / 2)
    (htie : m % 2 = 0 ∨ ((m : ℚ) - 1 / 2 < num / den ∧ (num : ℚ) / den < m + 1 / 2)) :
    roundQuotient num den = m := by
  obtain ⟨hlow', hhigh', htie'⟩ := roundQuotient_bounds num hden
  generalize roundQuotient num den = r at *
  -- numbers that are different are both halfway, and one of them is odd
  rcases lt_trichotomy r m with hlt | heq | hgt
  · have hstep : ((r + 1 : Nat) : ℚ) ≤ m := by exact_mod_cast hlt
    push_cast at hstep
    have hle : (m : ℚ) ≤ ((r + 1 : Nat) : ℚ) := by
      push_cast
      linarith
    have hle' : m ≤ r + 1 := by exact_mod_cast hle
    have heven := htie.resolve_right fun h => by linarith [h.1]
    have heven' := htie'.resolve_right fun h => by linarith [h.2]
    omega
  · exact heq
  · have hstep : ((m + 1 : Nat) : ℚ) ≤ r := by exact_mod_cast hgt
    push_cast at hstep
    have hle : (r : ℚ) ≤ ((m + 1 : Nat) : ℚ) := by
      push_cast
      linarith
    have hle' : r ≤ m + 1 := by exact_mod_cast hle
    have heven := htie.resolve_right fun h => by linarith [h.2]
    have heven' := htie'.resolve_right fun h => by linarith [h.1]
    omega

/-- A power with a sign in its exponent is a quotient of powers with none. -/
theorem pow_toNat_div_pow_toNat {b : ℚ} (hb : b ≠ 0) (k : Int) :
    b ^ k.toNat / b ^ (-k).toNat = b ^ k := by
  calc b ^ k.toNat / b ^ (-k).toNat = b ^ ((k.toNat : Int) - (-k).toNat) := by
        rw [zpow_sub₀ hb, zpow_natCast, zpow_natCast]
    _ = b ^ k := by rw [Int.toNat_sub_toNat_neg]

/-- Moving a quotient by a power of two. -/
theorem scaled_eq (num den : Nat) (k : Int) :
    ((num * twoTo (-k).toNat : Nat) : ℚ) / (den * twoTo k.toNat : Nat) =
      (num : ℚ) / den / (2 : ℚ) ^ k := by
  have hpow := pow_toNat_div_pow_toNat (two_ne_zero (α := ℚ)) (-k)
  rw [neg_neg, zpow_neg] at hpow
  rw [twoTo_eq, twoTo_eq]
  push_cast
  rw [mul_div_mul_comm, hpow, ← div_eq_mul_inv]

theorem log2_bounds {n : Nat} (h : 0 < n) :
    (2 : ℚ) ^ (n.log2 : Int) ≤ n ∧ (n : ℚ) < 2 ^ ((n.log2 : Int) + 1) := by
  have hlow : 2 ^ n.log2 ≤ n := Nat.log2_self_le h.ne'
  have hhigh : n < 2 ^ (n.log2 + 1) := Nat.lt_log2_self
  constructor
  · rw [zpow_natCast]
    exact_mod_cast hlow
  · have hcast : ((n.log2 : Int) + 1) = ((n.log2 + 1 : Nat) : Int) := by push_cast; rfl
    rw [hcast, zpow_natCast]
    exact_mod_cast hhigh

/-- The order of a quotient is the exponent of the largest power of two not above it. -/
theorem binaryOrder_bounds {num den : Nat} (hnum : 0 < num) (hden : 0 < den) :
    (2 : ℚ) ^ binaryOrder num den ≤ (num : ℚ) / den ∧
      (num : ℚ) / den < 2 ^ (binaryOrder num den + 1) := by
  have hden' : (0 : ℚ) < den := by exact_mod_cast hden
  have hnum' : (0 : ℚ) < num := by exact_mod_cast hnum
  obtain ⟨hn, hn'⟩ := log2_bounds hnum
  obtain ⟨hd, hd'⟩ := log2_bounds hden
  have h2 : (2 : ℚ) ≠ 0 := by norm_num
  have hupper : (num : ℚ) / den < 2 ^ ((num.log2 : Int) - den.log2 + 1) := by
    rw [div_lt_iff₀ hden']
    calc (num : ℚ) < 2 ^ ((num.log2 : Int) + 1) := hn'
      _ = 2 ^ ((num.log2 : Int) - den.log2 + 1) * 2 ^ (den.log2 : Int) := by
          rw [← zpow_add₀ h2]
          congr 1
          ring
      _ ≤ 2 ^ ((num.log2 : Int) - den.log2 + 1) * den :=
          mul_le_mul_of_nonneg_left hd (by positivity)
  have hlower : (2 : ℚ) ^ ((num.log2 : Int) - den.log2 - 1) ≤ (num : ℚ) / den := by
    rw [le_div_iff₀ hden']
    calc (2 : ℚ) ^ ((num.log2 : Int) - den.log2 - 1) * den
        ≤ 2 ^ ((num.log2 : Int) - den.log2 - 1) * 2 ^ ((den.log2 : Int) + 1) :=
          mul_le_mul_of_nonneg_left hd'.le (by positivity)
      _ = 2 ^ (num.log2 : Int) := by
          rw [← zpow_add₀ h2]
          congr 1
          ring
      _ ≤ num := hn
  unfold binaryOrder
  dsimp only
  generalize (num.log2 : Int) - den.log2 = guess at *
  have htest : den * twoTo guess.toNat ≤ num * twoTo (-guess).toNat ↔
      (2 : ℚ) ^ guess ≤ (num : ℚ) / den := by
    have hscaled := scaled_eq num den guess
    have hpos : (0 : ℚ) < 2 ^ guess := by positivity
    have hpos' : (0 : ℚ) < (den * twoTo guess.toNat : Nat) := by
      exact_mod_cast Nat.mul_pos hden (twoTo_pos _)
    rw [← one_le_div hpos, ← hscaled, one_le_div hpos']
    exact_mod_cast Iff.rfl
  split
  · rename_i h
    exact ⟨htest.mp h, hupper⟩
  · rename_i h
    refine ⟨hlower, ?_⟩
    rw [sub_add_cancel]
    exact lt_of_not_ge fun hge => h (htest.mpr hge)

/-- How far a double reaches down, in units of its last place. The gap below a power of two is half
the gap above it. -/
def reach (m : Nat) (q : Int) : ℚ := if m = twoTo 52 ∧ q ≠ -1074 then 1 / 4 else 1 / 2

/-- Whether a number lies between the points halfway to the neighbours of the double `m * 2 ^ q`. -/
structure Within (m : Nat) (q : Int) (v : ℚ) : Prop where
  low : m - reach m q ≤ v / 2 ^ q
  high : v / 2 ^ q ≤ m + 1 / 2
  tie : m % 2 = 0 ∨ (m - reach m q < v / 2 ^ q ∧ v / 2 ^ q < m + 1 / 2)

theorem reach_le (m : Nat) (q : Int) : reach m q ≤ 1 / 2 := by
  unfold reach
  split <;> norm_num

theorem reach_pos (m : Nat) (q : Int) : 0 < reach m q := by
  unfold reach
  split <;> norm_num

section Within

variable {m : Nat} {q : Int} {v : ℚ}

theorem Within.pos (h : Within m q v) (hm : 0 < m) : 0 < v := by
  have hreach := reach_le m q
  have hm' : (1 : ℚ) ≤ m := by exact_mod_cast hm
  have hlow : 0 < v / (2 : ℚ) ^ q := by linarith [h.low]
  have hpos : (0 : ℚ) < 2 ^ q := by positivity
  have hv : v = v / (2 : ℚ) ^ q * 2 ^ q := by field_simp
  rw [hv]
  positivity

private theorem two_zpow_le_of {k : Int} {a : ℚ} (ha : (2 : ℚ) ^ k ≤ a) (h : a ≤ v / 2 ^ q) :
    (2 : ℚ) ^ (k + q) ≤ v := by
  have hpos : (0 : ℚ) < 2 ^ q := by positivity
  rw [zpow_add₀ (by norm_num)]
  exact (le_div_iff₀ hpos).mp (ha.trans h)

private theorem lt_two_zpow_of {k : Int} {a : ℚ} (ha : a < (2 : ℚ) ^ k) (h : v / 2 ^ q ≤ a) :
    v < (2 : ℚ) ^ (k + q) := by
  have hpos : (0 : ℚ) < 2 ^ q := by positivity
  rw [zpow_add₀ (by norm_num)]
  exact (div_lt_iff₀ hpos).mp (lt_of_le_of_lt h ha)

/-- The order of a number within a double is at most the order of the double. -/
theorem order_le {e : Int} (hf : Fits m q) (h : Within m q v) (he : (2 : ℚ) ^ e ≤ v) :
    e ≤ q + 52 := by
  have hm : (m : ℚ) + 1 ≤ 2 ^ 53 := by exact_mod_cast hf.bits
  have hlt : v < (2 : ℚ) ^ ((53 : Int) + q) :=
    lt_two_zpow_of (a := m + 1 / 2) (by norm_num at hm ⊢; linarith) h.high
  have hexp := (zpow_lt_zpow_iff_right₀ (by norm_num : (1 : ℚ) < 2)).mp (lt_of_le_of_lt he hlt)
  omega

/-- Except right below a power of two the orders are the same. -/
theorem order_ge {e : Int} (hf : Fits m q) (hq : q ≠ -1074) (h : Within m q v)
    (he : v < (2 : ℚ) ^ (e + 1)) (hp : m ≠ 2 ^ 52 ∨ (2 : ℚ) ^ ((52 : Int) + q) ≤ v) :
    q + 52 ≤ e := by
  have hge : (2 : ℚ) ^ ((52 : Int) + q) ≤ v := by
    rcases hp with hne | hge
    · have hfull := hf.full.resolve_right hq
      have hm : ((2 ^ 52 + 1 : Nat) : ℚ) ≤ m := by exact_mod_cast (by omega : 2 ^ 52 + 1 ≤ m)
      have hpower : (2 : ℚ) ^ (52 : Int) + 1 = ((2 ^ 52 + 1 : Nat) : ℚ) := by norm_num
      have hreach := reach_le m q
      exact two_zpow_le_of (a := m - reach m q) (by linarith) h.low
    · exact hge
  have hexp := (zpow_lt_zpow_iff_right₀ (by norm_num : (1 : ℚ) < 2)).mp (lt_of_le_of_lt hge he)
  omega

end Within

section Nearest

variable {num den m : Nat} {q unit : Int}

/-- A quotient is rounded to the double that its unit and its rounded quotient encode. -/
theorem nearest_eq_of_encoded (negative : Bool) (hnum : 0 < num) (hf : Fits m q)
    (hmax : max (binaryOrder num den - 52) (-1074) = unit)
    (hbits : (unit + 1074).toNat * twoTo 52 +
      roundQuotient (num * twoTo (-unit).toNat) (den * twoTo unit.toNat) = encoded m q) :
    nearest negative num den = ofFields negative m q := by
  have hlt := encoded_lt hf
  unfold nearest ofFields
  dsimp only
  rw [if_neg hnum.ne', hmax, hbits, twoTo_eq 52, Nat.min_eq_left hlt.le, twoTo_eq 63]

theorem roundQuotient_of_within (hden : 0 < den) (h : Within m q ((num : ℚ) / den)) :
    roundQuotient (num * twoTo (-q).toNat) (den * twoTo q.toNat) = m := by
  have hreach := reach_le m q
  refine roundQuotient_eq (Nat.mul_pos hden (twoTo_pos _)) ?_ ?_ ?_ <;> rw [scaled_eq]
  · linarith [h.low]
  · exact h.high
  · rcases h.tie with h0 | ⟨hl, hh⟩
    · exact Or.inl h0
    · exact Or.inr ⟨by linarith, hh⟩

/-- Below a power of two the unit is half of the unit of the power, so the power has twice as many
of them. -/
theorem roundQuotient_below_power (hden : 0 < den) (hq : q ≠ -1074)
    (h : Within (2 ^ 52) q ((num : ℚ) / den)) (hbelow : (num : ℚ) / den < (2 : ℚ) ^ ((52 : Int) + q)) :
    roundQuotient (num * twoTo (-(q - 1)).toNat) (den * twoTo (q - 1).toNat) = 2 ^ 53 := by
  have hlow := h.low
  rw [show reach (2 ^ 52) q = 1 / 4 from if_pos ⟨rfl, hq⟩] at hlow
  have h2 : (2 : ℚ) ^ q = 2 ^ (q - 1) * 2 := by
    rw [← zpow_add_one₀ (by norm_num), sub_add_cancel]
  have hhalf : (num : ℚ) / den / 2 ^ (q - 1) = 2 * ((num : ℚ) / den / 2 ^ q) := by
    rw [h2]
    field_simp
  have hhigh : (num : ℚ) / den / 2 ^ q < 2 ^ 52 := by
    have hpos : (0 : ℚ) < 2 ^ q := by positivity
    rw [div_lt_iff₀ hpos]
    rw [zpow_add₀ (by norm_num)] at hbelow
    exact_mod_cast hbelow
  refine roundQuotient_eq (Nat.mul_pos hden (twoTo_pos _)) ?_ ?_ (Or.inl (by decide)) <;>
    rw [scaled_eq, hhalf]
  · push_cast at hlow ⊢
    linarith
  · push_cast
    linarith

/-- The order of a number that lies within a power of two, and below it. -/
theorem order_below_power {v : ℚ} {e : Int} (hq : q ≠ -1074) (h : Within (2 ^ 52) q v)
    (hbelow : v < (2 : ℚ) ^ ((52 : Int) + q)) (he : (2 : ℚ) ^ e ≤ v)
    (he' : v < (2 : ℚ) ^ (e + 1)) : e = q + 51 := by
  have hlow := h.low
  rw [show reach (2 ^ 52) q = 1 / 4 from if_pos ⟨rfl, hq⟩] at hlow
  have hge : (2 : ℚ) ^ ((51 : Int) + q) ≤ v := by
    refine two_zpow_le_of (a := ((2 ^ 52 : Nat) : ℚ) - 1 / 4) ?_ hlow
    norm_num
  have htwo : (1 : ℚ) < 2 := by norm_num
  have hmore := (zpow_lt_zpow_iff_right₀ htwo).mp (lt_of_le_of_lt hge he')
  have hless := (zpow_lt_zpow_iff_right₀ htwo).mp (lt_of_le_of_lt he hbelow)
  omega

/-- A quotient that lies within a double is rounded to it. -/
theorem nearest_of_within (negative : Bool) (hden : 0 < den) (hm : 0 < m) (hf : Fits m q)
    (h : Within m q ((num : ℚ) / den)) : nearest negative num den = ofFields negative m q := by
  have hnum : 0 < num := by
    rcases Nat.eq_zero_or_pos num with h0 | hpos
    · have hv := h.pos hm
      rw [h0] at hv
      simp at hv
    · exact hpos
  obtain ⟨horder, horder'⟩ := binaryOrder_bounds hnum hden
  have hle := order_le hf h horder
  have hleast := hf.least
  by_cases hsame : max (binaryOrder num den - 52) (-1074) = q
  · refine nearest_eq_of_encoded negative hnum hf hsame ?_
    rw [roundQuotient_of_within hden h]
    rfl
  · -- the number is below the power of two that the double is
    have hq : q ≠ -1074 := fun hq => hsame (by omega)
    have hpower : m = 2 ^ 52 ∧ (num : ℚ) / den < (2 : ℚ) ^ ((52 : Int) + q) := by
      by_contra hne
      have hp : m ≠ 2 ^ 52 ∨ (2 : ℚ) ^ ((52 : Int) + q) ≤ (num : ℚ) / den := by
        by_cases hm52 : m = 2 ^ 52
        · exact Or.inr (not_lt.mp fun hlt => hne ⟨hm52, hlt⟩)
        · exact Or.inl hm52
      have hge := order_ge hf hq h horder' hp
      exact hsame (by omega)
    obtain ⟨rfl, hbelow⟩ := hpower
    have hbinary := order_below_power hq h hbelow horder horder'
    have hmax : max (binaryOrder num den - 52) (-1074) = q - 1 := by omega
    refine nearest_eq_of_encoded negative hnum hf hmax ?_
    rw [roundQuotient_below_power hden hq h hbelow, twoTo_eq]
    unfold encoded
    omega

end Nearest

end Reckoner.Number
