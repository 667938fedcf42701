import Reckoner.Proofs.Formula.CallFaults
import Reckoner.Proofs.Number.Rounding

/-!
Rounding to whole numbers. A value is rounded by adding one half, a sum of doubles that is itself
rounded, and taking the whole part. Mostly no whole number lies between the exact and the rounded
sum. There is one in the double right below one half and in the odd whole numbers of 53 bits: their
sums are halfway between two doubles, and the even one is the next whole number.
-/
namespace Reckoner.Formula.Builtin

open Text Number

variable {x : Float} {v w : ℚ} {n k : Int}

/-- The values for which one half more is rounded up to the next whole number. -/
def CarriesOver (v : ℚ) : Prop :=
  v = 1 / 2 - 1 / 2 ^ 54 ∨ ∃ n : Int, v = n ∧ n % 2 = 1 ∧ 2 ^ 52 < |v|

/-- Halves of at most 53 bits. -/
theorem denotes_half {n : Int} (h : (2 * n + 1).natAbs ≤ 2 ^ 53) : ∃ x, Denotes x (n + 1 / 2) := by
  obtain ⟨x, hx⟩ := exists_double_int (q := -1) h (by decide) (by decide)
  refine ⟨x, ?_⟩
  have hvalue : ((2 * n + 1 : Int) : ℚ) * 2 ^ (-1 : Int) = n + 1 / 2 := by
    rw [zpow_neg_one]
    push_cast
    ring
  rwa [hvalue] at hx

theorem abs_intCast (n : Int) : |(n : ℚ)| = (n.natAbs : ℚ) := by
  rw [Nat.cast_natAbs, Int.cast_abs]

/-- The whole number to which a value below `2 ^ 53` is rounded. -/
theorem natAbs_floor_le (hv : |v| < 2 ^ 53) : ⌊v + 1 / 2⌋.natAbs ≤ 2 ^ 53 := by
  obtain ⟨hlow, hhigh⟩ := abs_lt.mp hv
  have hfloor := Int.floor_le (v + 1 / 2)
  have hfloor' := Int.lt_floor_add_one (v + 1 / 2)
  have hmost : (⌊v + 1 / 2⌋ : ℚ) < ((2 ^ 53 + 1 : Int) : ℚ) := by
    push_cast
    linarith
  have hleast : ((-2 ^ 53 - 1 : Int) : ℚ) < ⌊v + 1 / 2⌋ := by
    push_cast
    linarith
  have hmost' : ⌊v + 1 / 2⌋ < 2 ^ 53 + 1 := by exact_mod_cast hmost
  have hleast' : -2 ^ 53 - 1 < ⌊v + 1 / 2⌋ := by exact_mod_cast hleast
  omega

theorem floor_whole_half (n : Int) : ⌊(n : ℚ) + 1 / 2⌋ = n := by
  rw [Int.floor_eq_iff]
  constructor <;> linarith

theorem floor_last_half : ⌊(1 / 2 - 1 / 2 ^ 54 + 1 / 2 : ℚ)⌋ = 0 := by
  rw [Int.floor_eq_iff]
  norm_num

theorem carriesOver_whole : CarriesOver (n : ℚ) ↔ n % 2 = 1 ∧ 2 ^ 52 < n.natAbs := by
  have hsize : (2 : ℚ) ^ 52 < |(n : ℚ)| ↔ 2 ^ 52 < n.natAbs := by
    rw [abs_intCast]
    exact_mod_cast Iff.rfl
  constructor
  · rintro (hhalf | ⟨n', hn', hodd, hlarge⟩)
    · -- there is no whole number between zero and one
      have hpos : (0 : ℚ) < n := by rw [hhalf]; norm_num
      have hlt : (n : ℚ) < ((1 : Int) : ℚ) := by rw [hhalf]; norm_num
      have hpos' : 0 < n := by exact_mod_cast hpos
      have hlt' : n < 1 := by exact_mod_cast hlt
      omega
    · obtain rfl : n = n' := by exact_mod_cast hn'
      exact ⟨hodd, hsize.mp hlarge⟩
  · rintro ⟨hodd, hlarge⟩
    exact Or.inr ⟨n, rfl, hodd, hsize.mpr hlarge⟩

/-- A whole number with one half more. -/
theorem floor_of_whole (hn : n.natAbs < 2 ^ 53) (h : RoundsTo ((n : ℚ) + 1 / 2) w) :
    (⌊w⌋ = n ∧ ¬ CarriesOver n) ∨ (⌊w⌋ = n + 1 ∧ CarriesOver n) := by
  rw [carriesOver_whole]
  by_cases hsmall : (2 * n + 1).natAbs ≤ 2 ^ 53
  · obtain ⟨y, hy⟩ := denotes_half hsmall
    have hexact := h.eq_of_denotes hy
    exact Or.inl ⟨by rw [hexact, floor_whole_half], by omega⟩
  · have habs : |(n : ℚ) + 1 / 2| = ((2 * n + 1).natAbs : ℚ) / 2 := by
      have hhalf : (n : ℚ) + 1 / 2 = ((2 * n + 1 : Int) : ℚ) / 2 := by
        push_cast
        ring
      rw [hhalf, abs_div, abs_intCast, abs_of_nonneg (by norm_num : (0 : ℚ) ≤ 2)]
    have hlow : ((2 ^ 53 : Nat) : ℚ) ≤ (2 * n + 1).natAbs := by exact_mod_cast (by omega)
    have hhigh : ((2 * n + 1).natAbs : ℚ) < (2 ^ 54 : Nat) := by exact_mod_cast (by omega)
    push_cast at hlow hhigh
    have htie : RoundsTo ((n + 1 / 2) * 2 ^ (0 : Int)) w := by rwa [zpow_zero, mul_one]
    obtain ⟨r, hw, heven, hle, hge⟩ := htie.exists_even_of_halfway (by decide)
      (by rw [habs]; linarith) (by rw [habs]; linarith)
    rw [zpow_zero, mul_one] at hw
    rw [hw, Int.floor_intCast]
    omega

/-- The double right below one half. -/
theorem floor_below_half (h : RoundsTo (1 / 2 - 1 / 2 ^ 54 + 1 / 2) w) : ⌊w⌋ = 1 := by
  have htie : RoundsTo ((((2 ^ 53 - 1 : Int) : ℚ) + 1 / 2) * 2 ^ (-53 : Int)) w := by
    convert h using 1
    norm_num
  have habs : |((2 ^ 53 - 1 : Int) : ℚ) + 1 / 2| = 2 ^ 53 - 1 / 2 := by
    rw [abs_of_nonneg (by norm_num)]
    norm_num
  obtain ⟨r, hw, heven, hle, hge⟩ := htie.exists_even_of_halfway (by decide)
    (by rw [habs]; norm_num) (by rw [habs]; norm_num)
  obtain rfl : r = 2 ^ 53 := by omega
  rw [hw]
  norm_num

/-- A double that is not whole, in units that are halves or smaller. -/
theorem exists_units_of_not_whole (hx : Denotes x v) (hwhole : ∀ n : Int, v ≠ n) :
    ∃ n : Int, ∃ j : Nat, v = n * 2 ^ (-(j : Int) - 1) ∧ n.natAbs < 2 ^ 53 ∧ j < 1074 := by
  obtain ⟨negative, m, q, hf, rfl, _⟩ := exists_fields hx
  obtain ⟨n, hn, hvalue⟩ : ∃ n : Int, n.natAbs = m ∧ fieldValue negative m q = n * 2 ^ q := by
    cases negative
    · exact ⟨m, by omega, by simp [fieldValue, oriented]⟩
    · exact ⟨-m, by omega, by simp [fieldValue, oriented]⟩
  rw [hvalue] at hwhole ⊢
  have hneg : q < 0 := by
    by_contra hge
    obtain ⟨i, rfl⟩ := Int.eq_ofNat_of_zero_le (not_lt.mp hge)
    refine hwhole (n * 2 ^ i) ?_
    rw [zpow_natCast]
    push_cast
    rfl
  have hleast := hf.least
  have hbits := hf.bits
  refine ⟨n, (-q - 1).toNat, ?_, by omega, by omega⟩
  congr 2
  omega

/-- A power of two is no number strictly between neighbouring whole numbers that are positive. -/
theorem two_zpow_not_between {e : Int} (hk : 1 ≤ k) (hlow : (k : ℚ) < 2 ^ e) :
    (k : ℚ) + 1 ≤ 2 ^ e := by
  have hk' : (1 : ℚ) ≤ k := by exact_mod_cast hk
  have he : 0 ≤ e := by
    by_contra hneg
    have hlt : (2 : ℚ) ^ e < 1 := zpow_lt_one_of_neg₀ (by norm_num) (not_le.mp hneg)
    linarith
  obtain ⟨i, rfl⟩ := Int.eq_ofNat_of_zero_le he
  rw [zpow_natCast] at hlow ⊢
  have hlow' : k < 2 ^ i := by exact_mod_cast hlow
  exact_mod_cast hlow'

theorem half_eq (j : Nat) : (2 : ℚ) ^ j * 2 ^ (-(j : Int) - 1) = 1 / 2 := by
  rw [← zpow_natCast, ← zpow_add₀ (by norm_num), show (j : Int) + (-(j : Int) - 1) = -1 by ring]
  norm_num

/-- Of the doubles below one half that have the bits of one quarter, all but the last one leave room
for a double below one. -/
theorem le_of_not_last (hv : v = n / 2 ^ 54) (hhalf : v < 1 / 2) (hcarry : v ≠ 1 / 2 - 1 / 2 ^ 54) :
    v ≤ 1 / 2 - 1 / 2 ^ 53 := by
  have hlt : (n : ℚ) < ((2 ^ 53 : Int) : ℚ) := by
    push_cast
    rw [hv] at hhalf
    linarith
  have hlt' : n < 2 ^ 53 := by exact_mod_cast hlt
  have hne : n ≠ 2 ^ 53 - 1 := by
    rintro rfl
    refine hcarry (hv.trans ?_)
    norm_num
  have hle : (n : ℚ) ≤ ((2 ^ 53 - 2 : Int) : ℚ) := by exact_mod_cast (by omega : n ≤ 2 ^ 53 - 2)
  push_cast at hle
  rw [hv]
  linarith

/-- Where the whole number to which a value is rounded is not below it, the half after that number
is a double above the exact sum. -/
theorem exists_half_above (hsmall : |v| ≤ 2 ^ 51) (hle : v ≤ ⌊v + 1 / 2⌋) :
    ∃ y d, Denotes y d ∧ v + 1 / 2 ≤ d ∧ d < ⌊v + 1 / 2⌋ + 1 := by
  have hfloor := Int.floor_le (v + 1 / 2)
  generalize ⌊v + 1 / 2⌋ = k at *
  obtain ⟨hleast, hmost⟩ := abs_le.mp hsmall
  have hbits : (2 * k + 1).natAbs ≤ 2 ^ 53 := by
    have hlow : ((-2 ^ 51 : Int) : ℚ) ≤ k := by
      push_cast
      linarith
    have hhigh : (k : ℚ) < ((2 ^ 51 + 1 : Int) : ℚ) := by
      push_cast
      linarith
    have hlow' : -2 ^ 51 ≤ k := by exact_mod_cast hlow
    have hhigh' : k < 2 ^ 51 + 1 := by exact_mod_cast hhigh
    omega
  obtain ⟨y, hy⟩ := denotes_half hbits
  exact ⟨y, _, hy, by linarith, by linarith⟩

/-- The last double below one is not below an exact sum that is below one, where more bits than the
value has lie between the value and the sum. -/
theorem exists_double_below_one {j : Nat} (hv : v = n * 2 ^ (-(j : Int) - 1))
    (hbelow : v < 2 ^ (52 - (j : Int))) (habove : (2 : ℚ) ^ (52 - (j : Int)) < v + 1 / 2)
    (hone : v + 1 / 2 < 1) (hcarry : v ≠ 1 / 2 - 1 / 2 ^ 54) :
    ∃ y d, Denotes y d ∧ v + 1 / 2 ≤ d ∧ d < 1 := by
  obtain ⟨y, hy⟩ := exists_double_int (n := 2 ^ 53 - 1) (q := -53) (by decide) (by decide)
    (by decide)
  have hlast : ((2 ^ 53 - 1 : Int) : ℚ) * 2 ^ (-53 : Int) = 1 - 1 / 2 ^ 53 := by norm_num
  rw [hlast] at hy
  refine ⟨y, _, hy, ?_, by norm_num⟩
  by_contra hlt
  have hj : j = 53 := by
    have htwo : (1 : ℚ) < 2 := by norm_num
    have hunit : (2 : ℚ) ^ (52 - (j : Int)) < 2 ^ (0 : Int) := by
      rw [zpow_zero]
      linarith
    have hquarter : (2 : ℚ) ^ (-2 : Int) < 2 ^ (52 - (j : Int)) := by
      refine lt_trans ?_ hbelow
      norm_num
      linarith
    have hless := (zpow_lt_zpow_iff_right₀ htwo).mp hunit
    have hmore := (zpow_lt_zpow_iff_right₀ htwo).mp hquarter
    omega
  subst hj
  have hv' : v = n / 2 ^ 54 := by
    rw [hv]
    norm_num
    ring
  have hle := le_of_not_last hv' (by linarith) hcarry
  exact hlt (by linarith)

/-- A sum with more than 53 bits has a half or a double below one above it. -/
theorem exists_double_above_of_long {j : Nat} (hv : v = n * 2 ^ (-(j : Int) - 1))
    (hn : n.natAbs < 2 ^ 53) (hlong : 2 ^ 53 < n + 2 ^ j) (hcarry : v ≠ 1 / 2 - 1 / 2 ^ 54) :
    ∃ y d, Denotes y d ∧ v + 1 / 2 ≤ d ∧ d < ⌊v + 1 / 2⌋ + 1 := by
  have hunit : (0 : ℚ) < 2 ^ (-(j : Int) - 1) := by positivity
  have hpower : (2 : ℚ) ^ (52 - (j : Int)) = 2 ^ 53 * 2 ^ (-(j : Int) - 1) := by
    rw [show (52 - (j : Int)) = 53 + (-(j : Int) - 1) by ring, zpow_add₀ (by norm_num)]
    norm_cast
  have hbelow : v < 2 ^ (52 - (j : Int)) := by
    have hlt : (n : ℚ) < 2 ^ 53 := by exact_mod_cast (by omega : n < 2 ^ 53)
    rw [hv, hpower]
    exact mul_lt_mul_of_pos_right hlt hunit
  have habove : (2 : ℚ) ^ (52 - (j : Int)) < v + 1 / 2 := by
    have hlt : (2 : ℚ) ^ 53 < n + 2 ^ j := by exact_mod_cast hlong
    rw [hpower, hv, ← half_eq j, ← add_mul]
    exact mul_lt_mul_of_pos_right hlt hunit
  rcases le_or_gt v ⌊v + 1 / 2⌋ with hle | hgt
  · have hj : 0 < j := by
      rcases Nat.eq_zero_or_pos j with rfl | hpos
      · omega
      · exact hpos
    have hbits : (n.natAbs : ℚ) ≤ 2 ^ 53 := by exact_mod_cast hn.le
    have hquarter : (2 : ℚ) ^ (-(j : Int) - 1) ≤ 2 ^ (-2 : Int) :=
      zpow_le_zpow_right₀ (by norm_num) (by omega)
    refine exists_half_above ?_ hle
    calc |v| = n.natAbs * 2 ^ (-(j : Int) - 1) := by
          rw [hv, abs_mul, abs_intCast, abs_of_pos hunit]
      _ ≤ 2 ^ 53 * 2 ^ (-2 : Int) := mul_le_mul hbits hquarter hunit.le (by norm_num)
      _ = 2 ^ 51 := by norm_num
  · have hfloor := Int.floor_le (v + 1 / 2)
    have hfloor' := Int.lt_floor_add_one (v + 1 / 2)
    generalize ⌊v + 1 / 2⌋ = k at *
    have hpos : (0 : ℚ) < 2 ^ (52 - (j : Int)) := by positivity
    have hlt : ((-1 : Int) : ℚ) < k := by
      push_cast
      linarith
    have hk : 0 ≤ k := by
      have hlt' : -1 < k := by exact_mod_cast hlt
      omega
    rcases hk.eq_or_lt with rfl | hk
    · rw [Int.cast_zero, zero_add] at hfloor' ⊢
      exact exists_double_below_one hv hbelow habove hfloor' hcarry
    · -- the power of two would lie between whole numbers
      have hge := two_zpow_not_between hk (hgt.trans hbelow)
      linarith

/-- There is a double from the exact sum to below the next whole number. -/
theorem exists_double_above (hx : Denotes x v) (hwhole : ∀ n : Int, v ≠ n)
    (hcarry : v ≠ 1 / 2 - 1 / 2 ^ 54) :
    ∃ y d, Denotes y d ∧ v + 1 / 2 ≤ d ∧ d < ⌊v + 1 / 2⌋ + 1 := by
  obtain ⟨n, j, hv, hn, hj⟩ := exists_units_of_not_whole hx hwhole
  by_cases hbits : (n + 2 ^ j).natAbs ≤ 2 ^ 53
  · obtain ⟨y, hy⟩ := exists_double_int hbits (q := -(j : Int) - 1) (by omega) (by omega)
    have hsum : ((n + 2 ^ j : Int) : ℚ) * 2 ^ (-(j : Int) - 1) = v + 1 / 2 := by
      rw [hv, ← half_eq j]
      push_cast
      ring
    rw [hsum] at hy
    exact ⟨y, _, hy, le_rfl, Int.lt_floor_add_one _⟩
  · have hpos : (0 : Int) < 2 ^ j := by positivity
    exact exists_double_above_of_long hv hn (by omega) hcarry

/-- A value that is not whole with one half more. -/
theorem floor_of_not_whole (hx : Denotes x v) (hv : |v| < 2 ^ 53) (hwhole : ∀ n : Int, v ≠ n)
    (h : RoundsTo (v + 1 / 2) w) :
    (⌊w⌋ = ⌊v + 1 / 2⌋ ∧ ¬ CarriesOver v) ∨ ⌊w⌋ = ⌊v + 1 / 2⌋ + 1 ∧ CarriesOver v := by
  by_cases hcarry : v = 1 / 2 - 1 / 2 ^ 54
  · subst hcarry
    refine Or.inr ⟨?_, Or.inl rfl⟩
    rw [floor_below_half h, floor_last_half]
    rfl
  · obtain ⟨y, d, hy, hle, hlt⟩ := exists_double_above hx hwhole hcarry
    refine Or.inl ⟨?_, fun h => h.elim hcarry fun ⟨n, hn, _⟩ => hwhole n hn⟩
    have hlow := h.le_of_denotes (denotes_ofInt (natAbs_floor_le hv)) (Int.floor_le (v + 1 / 2))
    exact Int.floor_eq_iff.mpr ⟨hlow, (h.ge_of_denotes hy hle).trans_lt hlt⟩

/-- The whole part of the rounded sum: that of the exact sum, or the next whole number. -/
theorem floor_roundsTo (hx : Denotes x v) (hv : |v| < 2 ^ 53) (h : RoundsTo (v + 1 / 2) w) :
    (⌊w⌋ = ⌊v + 1 / 2⌋ ∧ ¬ CarriesOver v) ∨ (⌊w⌋ = ⌊v + 1 / 2⌋ + 1 ∧ CarriesOver v) := by
  by_cases hwhole : ∃ n : Int, v = n
  · obtain ⟨n, rfl⟩ := hwhole
    have hn : n.natAbs < 2 ^ 53 := by
      rw [abs_intCast] at hv
      exact_mod_cast hv
    rw [floor_whole_half]
    exact floor_of_whole hn h
  · exact floor_of_not_whole hx hv (fun n hn => hwhole ⟨n, hn⟩) h

section Function

theorem denotes_oneHalf : Denotes 0.5 (1 / 2) := by
  refine ⟨⟨false, 2 ^ 52, -53⟩, by rfl, ?_⟩
  unfold Binary.value fieldValue oriented
  norm_num

/-- Rounding to no places: one half is added, and the whole part of the sum is taken. -/
theorem round_eq {b : Binary} (h : Binary.ofFloat? (x * 1 + 0.5) = some b) :
    round [x] = .ok (ofInt b.floor / 1) := by
  have hfloor : whole Binary.floor (x * 1 + 0.5) = .ok b.floor := by
    unfold whole
    rw [h]
  have hone : ¬ ((1 : Float) == 0) = true := by decide +kernel
  change roundTo x 0 = _
  simp only [roundTo, whole_zero, powerOfTen_zero, hfloor, bind, Except.bind]
  exact if_neg hone

/-- Whole numbers of 53 bits are divided by one as they are. -/
theorem denotes_whole_div (hn : n.natAbs ≤ 2 ^ 53) : Denotes (ofInt n / 1) n :=
  (denotes_ofInt hn).div_one

theorem natAbs_next_le (hv : |v| < 2 ^ 53) (h : CarriesOver v) :
    (⌊v + 1 / 2⌋ + 1).natAbs ≤ 2 ^ 53 := by
  rcases h with rfl | ⟨n, rfl, _⟩
  · rw [floor_last_half]
    decide
  · have hn : n.natAbs < 2 ^ 53 := by
      rw [abs_intCast] at hv
      exact_mod_cast hv
    rw [floor_whole_half]
    omega

/-- The builtin rounds halves up, as if the sum were exact, but for the values that carry over. -/
theorem round_value (hx : Denotes x v) (hv : |v| < 2 ^ 53) :
    ∃ y, round [x] = .ok y ∧ (¬ CarriesOver v → Denotes y ⌊v + 1 / 2⌋) ∧
      (CarriesOver v → Denotes y (⌊v + 1 / 2⌋ + 1 : Int)) := by
  obtain ⟨z, hz⟩ := exists_double_int (n := 1) (q := 54) (by decide) (by decide) (by decide)
  have hsum : |v + 1 / 2| ≤ |((1 : Int) : ℚ) * 2 ^ (54 : Int)| := by
    refine (abs_add_le v (1 / 2)).trans ?_
    rw [abs_of_pos (by norm_num : (0 : ℚ) < 1 / 2)]
    norm_num at hv ⊢
    linarith
  obtain ⟨w, hw, b, hb, rfl⟩ := hx.mul_one.add denotes_oneHalf hz hsum
  refine ⟨_, round_eq hb, ?_⟩
  rw [Binary.floor_eq]
  rcases floor_roundsTo hx hv hw with ⟨hfloor, hcarry⟩ | ⟨hfloor, hcarry⟩
  · rw [hfloor]
    exact ⟨fun _ => denotes_whole_div (natAbs_floor_le hv), fun h => absurd h hcarry⟩
  · rw [hfloor]
    exact ⟨fun h => absurd hcarry h, fun _ => denotes_whole_div (natAbs_next_le hv hcarry)⟩

/-- A call of the builtin with one argument. -/
theorem call_round {resolve : Resolver} {name argument : List Char}
    (hname : lower name = "round".toList) (hargument : ArgumentValue resolve argument x)
    (hx : Denotes x v) (hv : |v| < 2 ^ 53) :
    ∃ y, call table resolve name [argument] = .ok y ∧
      (¬ CarriesOver v → Denotes y ⌊v + 1 / 2⌋) ∧
      (CarriesOver v → Denotes y (⌊v + 1 / 2⌋ + 1 : Int)) := by
  obtain ⟨y, hy, hvalue⟩ := round_value hx hv
  have hfinite : y.isFinite = true := by
    by_cases hcarry : CarriesOver v
    · exact (hvalue.2 hcarry).isFinite
    · exact (hvalue.1 hcarry).isFinite
  obtain ⟨f, hfound, happly, htakes⟩ : ∃ f : Function, Assoc.get? table "round".toList = some f ∧
      f.apply = round ∧ f.Takes 1 :=
    ⟨_, rfl, rfl, by decide, fun most hmost => (Option.some.inj hmost) ▸ by decide⟩
  rw [← hname] at hfound
  refine ⟨y, ?_, hvalue⟩
  rw [call_known hfound, List.length_singleton, checkArity_of_takes htakes,
    resolveArguments_eq_ok.mpr (.cons hargument .nil)]
  change settleResult f.name (f.apply [x]) = _
  rw [happly, hy]
  exact if_pos hfinite

/-- An odd whole number of 53 bits is rounded to the next whole number. -/
theorem call_round_odd :
    let argument := "4503599627370497".toList
    let resolve : Resolver := fun s => .error (.fault ⟨.parse .unexpectedEnd s.length, some s⟩)
    lower "ROUND".toList = "round".toList ∧
      ArgumentValue resolve argument (ofInt 4503599627370497) ∧
      Denotes (ofInt 4503599627370497) 4503599627370497 ∧
      |(4503599627370497 : ℚ)| < 2 ^ 53 ∧
      ∃ y, call table resolve "ROUND".toList [argument] = .ok y ∧ Denotes y 4503599627370498 := by
  intro argument resolve
  have hname : lower "ROUND".toList = "round".toList := by decide
  have hargument : ArgumentValue resolve argument (ofInt 4503599627370497) :=
    .plain (by decide) rfl
  have hx : Denotes (ofInt 4503599627370497) 4503599627370497 := by
    exact_mod_cast denotes_ofInt (n := 4503599627370497) (by decide)
  have hv : |(4503599627370497 : ℚ)| < 2 ^ 53 := by norm_num
  obtain ⟨y, hy, _, hcarry⟩ := call_round hname hargument hx hv
  refine ⟨hname, hargument, hx, hv, y, hy, ?_⟩
  have hvalue := hcarry (Or.inr ⟨4503599627370497, by norm_num, by decide, by norm_num⟩)
  have hfloor : ⌊(4503599627370497 : ℚ) + 1 / 2⌋ = 4503599627370497 := by
    exact_mod_cast floor_whole_half 4503599627370497
  rw [hfloor] at hvalue
  norm_num at hvalue
  exact hvalue

end Function

end Reckoner.Formula.Builtin
