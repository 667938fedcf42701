import Reckoner.Proofs.Number.Rounding

/-!
Differences of doubles. A difference is the sum with the negated double, so it is the rounded
difference of the values. Where neither value is more than twice the other, it is exact: it has no
more units than the values have. So a difference can be compared with a double as if it were exact,
unless it is taken from a value between zero and that double.
-/
namespace Reckoner.Number

open Float.Model
open Float.Model.UnpackedFloat

variable {x y z : Float} {v w c d : ℚ}

theorem parts_neg (h : Denotes x v) : parts (-x) = neg (parts x) := by
  rw [neg_eq]
  rcases h.cases with ⟨s, hs, rfl⟩ | ⟨s, m, q, hm, hf, hs, rfl⟩
  · rw [hs]
    exact parts_ofParts_zero (-s)
  · rw [hs]
    change parts (ofParts (.finite (-s) m q hm)) = _
    rw [ofParts_finite (-s) hm hf, parts_ofFields (-s) hm hf]
    rfl

/-- A finite double is subtracted by adding it with the other sign. -/
theorem sub_eq_add_neg_of_denotes (hx : Denotes x v) (hy : Denotes y w) : x - y = x + -y := by
  rw [sub_eq, add_eq, parts_neg hy]
  congr 1
  rcases hx.cases with ⟨s, hs, rfl⟩ | ⟨s, m, q, hm, hf, hs, rfl⟩ <;>
    rcases hy.cases with ⟨t, ht, rfl⟩ | ⟨t, m', q', hm', hf', ht, rfl⟩ <;> rw [hs, ht]
  · rfl
  · rfl
  · rfl
  · have happly : ∀ n : Nat, (-t).apply n = -t.apply n := by
      intro n
      cases t
      · exact (neg_neg _).symm
      · rfl
    change normalize _ (s.apply _ - t.apply _) _ _ = normalize _ (s.apply _ + (-t).apply _) _ _
    rw [happly, sub_eq_add_neg]

/-- A difference of doubles is the rounded difference of their values, if a double is at least as
large. -/
theorem Denotes.sub (hx : Denotes x v) (hy : Denotes y w) (hz : Denotes z d) (h : |v - w| ≤ |d|) :
    ∃ u, RoundsTo (v - w) u ∧ Denotes (x - y) u := by
  rw [sub_eq_add_neg_of_denotes hx hy, sub_eq_add_neg]
  exact hx.add hy.neg hz (by rwa [← sub_eq_add_neg])

/-- A double that is not negative is a whole number of units of its last place. -/
theorem Denotes.exists_magnitude (h : Denotes x v) (hv : 0 ≤ v) :
    ∃ m q, Fits m q ∧ v = (m : ℚ) * 2 ^ q := by
  obtain ⟨negative, m, q, hf, rfl, _⟩ := exists_fields h
  exact ⟨m, q, hf, by rw [← abs_fieldValue negative, abs_of_nonneg hv]⟩

/-- The difference of values that are at most twice each other is the value of a double. -/
theorem exists_double_sub (hx : Denotes x v) (hy : Denotes y w) (hle : w ≤ v) (htwice : v ≤ 2 * w) :
    ∃ z, Denotes z (v - w) := by
  obtain ⟨m, q, hf, hv⟩ := hx.exists_magnitude (by linarith)
  obtain ⟨m', q', hf', hw⟩ := hy.exists_magnitude (by linarith)
  -- the units of the smaller place, but halves of the largest one, so that the difference is in range
  obtain ⟨e, he⟩ : ∃ e, min (min q q') 970 = e := ⟨_, rfl⟩
  have hleast := hf.least
  have hleast' := hf'.least
  have hmost := hf.most
  obtain ⟨i, hi⟩ := Rounds.exists_units (m := m) (show e ≤ q by omega)
  obtain ⟨j, hj⟩ := Rounds.exists_units (m := m') (show e ≤ q' by omega)
  rw [← hv] at hi
  rw [← hw] at hj
  have hpos : (0 : ℚ) < 2 ^ e := by positivity
  have hji : j ≤ i := by
    rw [hi, hj] at hle
    exact_mod_cast le_of_mul_le_mul_right hle hpos
  have hvalue : v - w = ((i - j : Nat) : ℚ) * 2 ^ e := by
    rw [Nat.cast_sub hji, hi, hj, sub_mul]
  have hv' := hf.lt_two_zpow
  have hw' := hf'.lt_two_zpow
  rw [← hv] at hv'
  rw [← hw] at hw'
  have hbelow : v - w < 2 ^ (53 + e) := by
    rcases (by omega : e = q ∨ e = q' ∨ e = 970) with rfl | rfl | rfl
    · linarith
    · linarith
    · have hlast : (2 : ℚ) ^ (53 + q) ≤ 2 ^ (53 + 970 + 1 : Int) :=
        zpow_le_zpow_right₀ (by norm_num) (by omega)
      rw [zpow_add_one₀ (by norm_num)] at hlast
      linarith
  have hbits : i - j < 2 ^ 53 := by
    rw [hvalue, zpow_add₀ (by norm_num)] at hbelow
    exact_mod_cast lt_of_mul_lt_mul_right hbelow hpos.le
  obtain ⟨z, hz⟩ := exists_double hbits.le (show -1074 ≤ e by omega) (show e ≤ 970 by omega) false
  exact ⟨z, hvalue ▸ hz⟩

/-- A difference from a value that is no smaller is compared with a double as if it were exact, if
what is taken away is zero or at least that double. -/
theorem sub_lt_iff_of_denotes (hx : Denotes x v) (hy : Denotes y w) (hz : Denotes z c) (hle : w ≤ v)
    (hw : w = 0 ∨ 0 ≤ c ∧ c ≤ w) : x - y < z ↔ v - w < c := by
  have hnonneg : 0 ≤ w := by
    rcases hw with rfl | ⟨hc, hcw⟩
    · exact le_rfl
    · exact hc.trans hcw
  have hsize : |v - w| ≤ |v| := by
    rw [abs_of_nonneg (by linarith), abs_of_nonneg (by linarith)]
    linarith
  obtain ⟨u, hu, hd⟩ := hx.sub hy hx hsize
  rw [hd.lt_iff hz]
  rcases le_or_gt c (v - w) with hlarge | hsmall
  · exact iff_of_false (hu.le_of_denotes hz hlarge).not_gt hlarge.not_gt
  · have hexact : ∃ x', Denotes x' (v - w) := by
      rcases hw with rfl | ⟨_, hcw⟩
      · exact ⟨x, by rwa [sub_zero]⟩
      · exact exists_double_sub hx hy hle (by linarith)
    obtain ⟨x', hx'⟩ := hexact
    rw [hu.eq_of_denotes hx']

end Reckoner.Number
