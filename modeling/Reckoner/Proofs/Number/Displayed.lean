import Reckoner.Data.Presentation
import Reckoner.Proofs.Number.Numeral
import Reckoner.Proofs.Number.Value

/-!
Displayed numbers. Between the bounds a number is displayed by a numeral. Its digits are those of
the nearest multiple of the last place, from which the zeros at the end of the fraction are dropped;
the digits before the point stay. So the numeral is within half a unit of the last place, it has no
superfluous zeros, and a number that is rounded to zero is displayed without its sign.
-/
namespace Reckoner.Number

open Text

/-- Digits around a point, which is there only when digits follow. -/
def pointed (whole fraction : List Char) : List Char :=
  if fraction = [] then whole else whole ++ '.' :: fraction

/-- The numerals of ASCII digits without superfluous zeros, with a limit on the places. -/
structure Numeral.Canonical (n : Numeral) (limit : Nat) : Prop where
  ascii : ∀ c ∈ n.whole ++ n.fraction.getD [], isAsciiDigit c = true
  some_whole : n.whole ≠ []
  leading : n.whole.head? = some '0' → n.whole = ['0']
  point : n.fraction ≠ some []
  places_le : n.places ≤ limit
  trailing : (n.fraction.getD []).getLast? ≠ some '0'

section Digits

variable {whole fraction : List Char}

theorem dropTrailingZeros_append_cons {c : Char} (hc : (c == '0') = false) (s t : List Char) :
    dropTrailingZeros (s ++ c :: t) = s ++ c :: dropTrailingZeros t := by
  have hstop : (c :: s.reverse).dropWhile (· == '0') = c :: s.reverse :=
    dropWhile_cons_of_false (p := (· == '0')) hc s.reverse
  have hreverse : (s ++ c :: t).reverse = t.reverse ++ c :: s.reverse := by simp
  unfold dropTrailingZeros
  rw [hreverse, List.dropWhile_append, hstop]
  split
  · rename_i hnone
    rw [List.isEmpty_iff.mp hnone]
    simp
  · simp

theorem getLast?_dropTrailingZeros (s : List Char) :
    (dropTrailingZeros s).getLast? ≠ some '0' := by
  unfold dropTrailingZeros
  rw [List.getLast?_reverse]
  intro hlast
  exact absurd (head_dropWhile (· == '0') s.reverse '0' hlast) (by decide)

theorem dropTrailingPoint_append (whole : List Char) (hf : '.' ∉ fraction) :
    dropTrailingPoint (whole ++ '.' :: fraction) = pointed whole fraction := by
  unfold dropTrailingPoint pointed
  rcases List.eq_nil_or_concat' fraction with rfl | ⟨s, c, rfl⟩
  · rw [List.getLast?_concat, if_pos rfl, if_pos rfl, List.dropLast_concat]
  · have hc : c ≠ '.' := fun hc => hf (by rw [hc]; simp)
    have hlast : (whole ++ '.' :: (s ++ [c])).getLast? = some c := by
      rw [← List.cons_append, ← List.append_assoc, List.getLast?_concat]
    rw [hlast, if_neg (by simpa using hc), if_neg (by simp)]

/-- Trimming touches the fraction only. -/
theorem trimDecimals_pointed (hw : '.' ∉ whole) (hf : '.' ∉ fraction) :
    trimDecimals (pointed whole fraction) = pointed whole (dropTrailingZeros fraction) := by
  obtain ⟨k, hk⟩ := dropTrailingZeros_append fraction
  have hkept : '.' ∉ dropTrailingZeros fraction := fun h =>
    hf (by rw [hk]; exact List.mem_append_left _ h)
  unfold trimDecimals
  by_cases hnone : fraction = []
  · subst hnone
    rw [pointed, if_pos rfl, if_neg (by simpa using hw)]
    rfl
  · rw [pointed, if_neg hnone, if_pos (by simp), dropTrailingZeros_append_cons (by decide),
      dropTrailingPoint_append whole hkept]

/-- The digits of a number, filled up with zeros in front, before and behind the point. -/
theorem exists_split (n places : Nat) :
    ∃ whole fraction,
      zeroDigits (places + 1 - (decimalDigits n).length) ++ decimalDigits n = whole ++ fraction ∧
      fraction.length = places ∧ whole ≠ [] ∧ (whole.head? = some '0' → whole = ['0']) := by
  have hzeros : ∀ k, (zeroDigits k).length = k := fun k => List.length_replicate
  by_cases hshort : (decimalDigits n).length ≤ places
  · -- the only digit before the point is one of the zeros
    refine ⟨['0'], zeroDigits (places - (decimalDigits n).length) ++ decimalDigits n, ?_, ?_,
      List.cons_ne_nil _ _, fun _ => rfl⟩
    · rw [Nat.succ_sub hshort]
      rfl
    · rw [List.length_append, hzeros, Nat.sub_add_cancel hshort]
  · have hnone : places + 1 - (decimalDigits n).length = 0 := by omega
    have hpos : 0 < (decimalDigits n).length - places := by omega
    refine ⟨(decimalDigits n).take ((decimalDigits n).length - places),
      (decimalDigits n).drop ((decimalDigits n).length - places), ?_, ?_, ?_, ?_⟩
    · rw [hnone, List.take_append_drop]
      rfl
    · rw [List.length_drop]
      omega
    · rw [ne_eq, List.take_eq_nil_iff]
      exact not_or.mpr ⟨hpos.ne', decimalDigits_ne_nil n⟩
    · intro hhead
      rw [List.head?_take, if_neg hpos.ne'] at hhead
      rw [decimalDigits_leading hhead] at hpos ⊢
      exact List.take_of_length_le hpos

end Digits

section Rounded

theorem scaledDown_eq (m : Nat) (q k : Int) :
    ((scaledDown m q k).1 : ℚ) / (scaledDown m q k).2 = m * 2 ^ q / 10 ^ k := by
  have htwo := twoScaled_eq m q
  have hten := tenScaled_eq 1 (-k)
  rw [neg_neg, Nat.one_mul, Nat.cast_one, one_mul, zpow_neg] at hten
  unfold scaledDown
  push_cast at htwo ⊢
  rw [mul_div_mul_comm, htwo, hten, div_eq_mul_inv]

theorem scaledDown_pos (m : Nat) (q k : Int) : 0 < (scaledDown m q k).2 :=
  Nat.mul_pos (twoTo_pos _) (tenTo_pos _)

/-- The magnitude as a multiple of the last place. -/
def Binary.rounded (b : Binary) (places : Nat) : Nat :=
  roundQuotient (scaledDown b.mantissa b.exponent (-places)).1
    (scaledDown b.mantissa b.exponent (-places)).2

/-- Rounding goes to a nearest multiple of the last place. -/
theorem Binary.abs_rounded_sub_le (b : Binary) (places : Nat) :
    |b.rounded places * 10 ^ (-(places : Int)) - (|b.value|)| ≤ 1 / 2 * 10 ^ (-(places : Int)) := by
  obtain ⟨hlow, hhigh, _⟩ :=
    roundQuotient_bounds (scaledDown b.mantissa b.exponent (-places)).1
      (scaledDown_pos b.mantissa b.exponent (-places))
  have hpos : (0 : ℚ) < 10 ^ (-(places : Int)) := by positivity
  rw [scaledDown_eq, ← b.abs_value] at hlow hhigh
  rw [le_div_iff₀ hpos] at hlow
  rw [div_le_iff₀ hpos] at hhigh
  change _ ≤ ((b.rounded places : ℚ) + 1 / 2) * _ at hhigh
  change ((b.rounded places : ℚ) - 1 / 2) * _ ≤ _ at hlow
  rw [abs_le]
  constructor <;> linarith

theorem Binary.fixed_eq (b : Binary) {whole fraction : List Char} {places : Nat}
    (hsplit : zeroDigits (places + 1 - (decimalDigits (b.rounded places)).length) ++
      decimalDigits (b.rounded places) = whole ++ fraction)
    (hlength : fraction.length = places) : b.fixed places = pointed whole fraction := by
  have hplaces : (whole ++ fraction).length - places = whole.length := by
    rw [List.length_append, hlength, Nat.add_sub_cancel]
  have hnone : places = 0 ↔ fraction = [] := by rw [← hlength, List.length_eq_zero_iff]
  unfold Binary.rounded at hsplit
  unfold Binary.fixed pointed
  dsimp only
  rw [hsplit, hplaces, List.take_left, List.drop_left]
  simp only [hnone]

/-- Digits are the numeral with these digits around the point. -/
theorem exists_pointed {whole fraction : List Char}
    (h : ∀ c ∈ whole ++ fraction, isAsciiDigit c = true) (hne : whole ≠ []) :
    ∃ n : Numeral, n.text = pointed whole fraction ∧ n.whole = whole ∧
      n.fraction.getD [] = fraction ∧ n.fraction ≠ some [] := by
  have hw : AllDigits whole := fun c hc => isDigit_ascii (h c (List.mem_append_left _ hc))
  have hf : AllDigits fraction := fun c hc => isDigit_ascii (h c (List.mem_append_right _ hc))
  unfold pointed
  split
  · rename_i hnone
    exact ⟨.ofDigits whole hw hne, rfl, rfl, hnone.symm, nofun⟩
  · rename_i hsome
    exact ⟨.ofParts whole fraction hw hf (List.append_ne_nil_of_left_ne_nil hne _), rfl, rfl, rfl,
      fun hnil => hsome (Option.some.inj hnil)⟩

/-- The numeral of a magnitude that is rounded to a number of places. -/
theorem Binary.exists_trimmed (b : Binary) (places : Nat) :
    ∃ n : Numeral, n.text = trimDecimals (b.fixed places) ∧ n.Canonical places ∧
      n.rational = b.rounded places * 10 ^ (-(places : Int)) := by
  obtain ⟨whole, fraction, hsplit, hlength, hne, hleading⟩ := exists_split (b.rounded places) places
  obtain ⟨k, hk⟩ := dropTrailingZeros_append fraction
  have hascii : ∀ c ∈ whole ++ fraction, isAsciiDigit c = true := by
    rw [← hsplit]
    intro c hc
    rcases List.mem_append.mp hc with hc | hc
    · rw [List.eq_of_mem_replicate hc]
      decide
    · exact isAsciiDigit_decimalDigits hc
  have hvalue : digitsValue (whole ++ fraction) = b.rounded places := by
    rw [← hsplit, digitsValue_zeros_append _ (allDigits_decimalDigits _), digitsValue_decimalDigits]
  have htrim : trimDecimals (b.fixed places) = pointed whole (dropTrailingZeros fraction) := by
    rw [b.fixed_eq hsplit hlength]
    refine trimDecimals_pointed (fun h => ?_) fun h => ?_
    · exact absurd (hascii _ (List.mem_append_left _ h)) (by decide)
    · exact absurd (hascii _ (List.mem_append_right _ h)) (by decide)
  have hlast := getLast?_dropTrailingZeros fraction
  rw [htrim]
  generalize dropTrailingZeros fraction = kept at hk hlast ⊢
  subst hk
  have hkept : ∀ c ∈ whole ++ kept, isAsciiDigit c = true := fun c hc =>
    hascii c (by rw [← List.append_assoc]; exact List.mem_append_left _ hc)
  have hplaces : places = kept.length + k := by
    rw [← hlength, List.length_append, zeroDigits, List.length_replicate]
  obtain ⟨n, htext, hwhole, hfraction, hpoint⟩ := exists_pointed hkept hne
  have hlimit : n.places = kept.length := congrArg List.length hfraction
  refine ⟨n, htext, ⟨?_, ?_, ?_, hpoint, ?_, ?_⟩, ?_⟩
  · rwa [hwhole, hfraction]
  · rwa [hwhole]
  · rwa [hwhole]
  · omega
  · rwa [hfraction]
  · unfold Numeral.rational Numeral.mantissa
    rw [← List.append_assoc, digitsValue_append_zeros] at hvalue
    rw [hwhole, hfraction, hlimit, ← hvalue, hplaces]
    push_cast
    rw [neg_add, zpow_add₀ (by norm_num), zpow_neg _ (k : Int), zpow_natCast]
    field_simp

end Rounded

section Bounds

variable {x : Float} {v : ℚ}

theorem denotes_upperBound : Denotes upperBound (10 ^ 15) := by
  refine ⟨⟨false, 8000000000000000, -3⟩, rfl, ?_⟩
  norm_num [Binary.value, fieldValue, oriented]

theorem denotes_lowerBound : Denotes lowerBound (7737125245533627 * 2 ^ (-86 : Int)) :=
  ⟨⟨false, 7737125245533627, -86⟩, rfl, rfl⟩

/-- The lower bound is the least double that is at least `10 ^ -10`. -/
theorem not_lt_lowerBound (hx : Denotes x v) (hv : (10 : ℚ) ^ (-10 : Int) ≤ v) :
    ¬ x < lowerBound := by
  rw [hx.lt_iff denotes_lowerBound]
  intro hlt
  obtain ⟨negative, m, q, hf, rfl, _⟩ := exists_fields hx
  have hbound : Fits 7737125245533627 (-86) := ⟨by decide, by decide, by decide, Or.inl (by decide)⟩
  have hmagnitude := abs_fieldValue negative m q
  have hpos : (0 : ℚ) < 10 ^ (-10 : Int) := by norm_num
  rw [abs_of_pos (hpos.trans_le hv)] at hmagnitude
  rw [hmagnitude] at hv hlt
  have horder := (hf.compare_eq_lt hbound).mpr (by exact_mod_cast hlt)
  rw [Ordering.then_eq_lt, compare_lt_iff_lt, compare_lt_iff_lt, compare_eq_iff_eq] at horder
  rcases horder with hexponent | ⟨rfl, hmantissa⟩
  · have hpower : (2 : ℚ) ^ (53 + q) ≤ 2 ^ (-34 : Int) :=
      zpow_le_zpow_right₀ (by norm_num) (by omega)
    have hsmall : (2 : ℚ) ^ (-34 : Int) < 10 ^ (-10 : Int) := by norm_num
    linarith [hf.lt_two_zpow]
  · have hm : (m : ℚ) ≤ 7737125245533626 := by exact_mod_cast Nat.le_of_lt_succ hmantissa
    have hsmall : (7737125245533626 : ℚ) * 2 ^ (-86 : Int) < 10 ^ (-10 : Int) := by norm_num
    have hle : (m : ℚ) * 2 ^ (-86 : Int) ≤ 7737125245533626 * 2 ^ (-86 : Int) :=
      mul_le_mul_of_nonneg_right hm (by positivity)
    linarith

/-- Between the bounds a number is displayed without an exponent. -/
theorem Binary.display_eq {b : Binary} (hb : Binary.ofFloat? x = some b)
    (hrange : b.value = 0 ∨ (10 : ℚ) ^ (-10 : Int) ≤ |b.value| ∧ |b.value| ≤ 10 ^ 15)
    (places : Nat) :
    b.display x.abs places =
      if trimDecimals (b.fixed places) = ['0'] then ['0']
      else withSign b.negative (trimDecimals (b.fixed places)) := by
  have hx : Denotes x.abs |b.value| := Denotes.abs ⟨b, hb, rfl⟩
  have hupper : ¬ upperBound < x.abs := by
    rw [denotes_upperBound.lt_iff hx, not_lt]
    rcases hrange with hzero | hrange
    · rw [hzero, abs_zero]
      positivity
    · exact hrange.2
  have hlower : ¬ (b.mantissa ≠ 0 ∧ x.abs < lowerBound) := by
    rintro ⟨hm, hlt⟩
    rcases hrange with hzero | hrange
    · have hmagnitude := b.abs_value
      rw [hzero, abs_zero, eq_comm, mul_eq_zero, Nat.cast_eq_zero] at hmagnitude
      exact hm (hmagnitude.resolve_right (by positivity))
    · exact not_lt_lowerBound hx hrange.1 hlt
  unfold Binary.display
  rw [if_neg]
  · dsimp only
    split
    · assumption
    · rfl
  · rw [Bool.or_eq_true, Bool.and_eq_true, bne_iff_ne, decide_eq_true_iff, decide_eq_true_iff]
    exact not_or.mpr ⟨hupper, hlower⟩

end Bounds

section Sign

variable {n : Numeral}

/-- The numeral of a single zero is zero. -/
theorem rational_of_text (h : n.text = ['0']) : n.rational = 0 := by
  obtain ⟨whole, fraction, hw, hf, hne⟩ := n
  cases fraction with
  | none =>
    obtain rfl : whole = ['0'] := h
    have hmantissa : Numeral.mantissa ⟨['0'], none, hw, hf, hne⟩ = 0 := digitsValue_zeroDigits 1
    rw [Numeral.rational, hmantissa, Nat.cast_zero, zero_mul]
  | some f =>
    have hpoint : '.' ∈ ['0'] := by
      rw [← h]
      exact List.mem_append_right _ List.mem_cons_self
    exact absurd hpoint (by decide)

/-- Only the numeral of a single zero gives a zero with a sign. -/
theorem withSign_ne {negative : Bool} (h : n.text ≠ ['0']) :
    withSign negative n.text ≠ ['-', '0'] := by
  unfold withSign
  split
  · exact fun hsame => h (List.cons.inj hsame).2
  · intro hsame
    rcases mem_numeral_text (n := n) (c := '-') (by rw [hsame]; exact List.mem_cons_self) with h | h
    · exact absurd h (by decide)
    · exact absurd h (by decide)

end Sign

section Characters

variable {c : Char}

/-- Digits, signs, a point and the mark of an exponent. -/
def IsDisplayed (c : Char) : Prop := isDigit c = true ∨ c ∈ ['-', '+', '.', 'e']

instance (c : Char) : Decidable (IsDisplayed c) := inferInstanceAs (Decidable (_ ∨ _))

theorem mem_withSign {negative : Bool} {s : List Char} (h : c ∈ withSign negative s) :
    IsDisplayed c ∨ c ∈ s := by
  unfold withSign at h
  split at h
  · rcases List.mem_cons.mp h with rfl | h
    · exact Or.inl (Or.inr (by decide))
    · exact Or.inr h
  · exact Or.inr h

theorem mem_exponentMark {e : Int} (h : c ∈ exponentMark e) : IsDisplayed c := by
  unfold exponentMark at h
  rcases List.mem_cons.mp h with rfl | h
  · exact Or.inr (by decide)
  rcases List.mem_append.mp h with h | h
  · rcases List.mem_cons.mp h with rfl | h
    · refine Or.inr ?_
      split <;> decide
    · exact Or.inl (allDigits_zeroDigits _ c h)
  · exact Or.inl (allDigits_decimalDigits _ c h)

theorem mem_exponential {s : List Char} {e : Int} (h : c ∈ exponential s e) :
    IsDisplayed c ∨ c ∈ s := by
  match s with
  | [] => exact absurd h List.not_mem_nil
  | [d] =>
    rcases List.mem_cons.mp h with rfl | h
    · exact Or.inr List.mem_cons_self
    · exact Or.inl (mem_exponentMark h)
  | d :: d' :: rest =>
    rcases List.mem_cons.mp h with rfl | h
    · exact Or.inr List.mem_cons_self
    rcases List.mem_cons.mp h with rfl | h
    · exact Or.inl (Or.inr (by decide))
    rcases List.mem_append.mp h with h | h
    · exact Or.inr (List.mem_cons_of_mem _ h)
    · exact Or.inl (mem_exponentMark h)

theorem Binary.mem_display {b : Binary} {magnitude : Float} {places : Nat}
    (h : c ∈ b.display magnitude places) : IsDisplayed c := by
  have hfixed : c ∈ trimDecimals (b.fixed places) → IsDisplayed c := by
    obtain ⟨n, htext, -⟩ := b.exists_trimmed places
    rw [← htext]
    intro h
    rcases mem_numeral_text h with hdigit | rfl
    · exact Or.inl hdigit
    · exact Or.inr (by decide)
  have hscientific : c ∈ b.scientific places → IsDisplayed c := by
    unfold Binary.scientific
    dsimp only
    split <;> exact fun h =>
      (mem_exponential h).elim id fun h => Or.inl (allDigits_decimalDigits _ c h)
  unfold Binary.display at h
  dsimp only at h
  split at h
  · exact (mem_withSign h).elim id hscientific
  · split at h
    · exact hfixed h
    · exact (mem_withSign h).elim id hfixed

theorem exists_display {x : Float} (h : x.isFinite = true) (places : Nat) :
    ∃ shown, display x places = some shown := by
  obtain ⟨b, hb⟩ := exists_binary h
  exact ⟨_, congrArg (Option.map _) hb⟩

/-- A number is displayed with these characters only. -/
theorem mem_display {x : Float} {places : Nat} {s : List Char} (h : display x places = some s)
    (hc : c ∈ s) : IsDisplayed c := by
  obtain ⟨b, _, rfl⟩ := Option.map_eq_some_iff.mp h
  exact Binary.mem_display hc

end Characters

end Reckoner.Number

namespace Reckoner.Data

open Number

variable {x : Float} {v : ℚ}

theorem present_eq {b : Binary} (hb : Binary.ofFloat? x = some b) (precision : Int) :
    present x (.int precision) = .ok (b.display x.abs (clampPrecision precision)) := by
  unfold present places display
  rw [if_pos (isFinite_of_ofFloat? hb), hb]
  rfl

/-- A number that is zero or between the bounds is displayed by a numeral without superfluous zeros,
which is at most half a unit of the last place away from the number. Zero has no sign. -/
theorem present_accurate (hx : Denotes x v) (precision : Int)
    (hrange : v = 0 ∨ (10 : ℚ) ^ (-10 : Int) ≤ |v| ∧ |v| ≤ 10 ^ 15) :
    ∃ (negative : Bool) (n : Numeral),
      present x (.int precision) = .ok (withSign negative n.text) ∧
      n.Canonical (clampPrecision precision) ∧ withSign negative n.text ≠ ['-', '0'] ∧
      |oriented negative n.rational - v| ≤ 1 / 2 * 10 ^ (-(clampPrecision precision : Int)) := by
  obtain ⟨b, hb, rfl⟩ := hx
  obtain ⟨n, htext, hcanonical, hrational⟩ := b.exists_trimmed (clampPrecision precision)
  have haccurate := b.abs_rounded_sub_le (clampPrecision precision)
  rw [← hrational] at haccurate
  rw [present_eq hb, Binary.display_eq hb hrange, ← htext]
  by_cases hzero : n.text = ['0']
  · -- the sign goes, and zero is as far from the number as from its magnitude
    have hrational : n.rational = 0 := rational_of_text hzero
    refine ⟨false, n, by rw [if_pos hzero, hzero]; rfl, hcanonical, by rw [hzero]; decide, ?_⟩
    rw [hrational, zero_sub, abs_neg, abs_abs] at haccurate
    rwa [hrational, oriented, if_neg Bool.false_ne_true, zero_sub, abs_neg]
  · refine ⟨b.negative, n, by rw [if_neg hzero], hcanonical, withSign_ne hzero, ?_⟩
    rw [b.value_eq_oriented, abs_oriented_sub]
    exact haccurate

/-- The sign of a number that is rounded to zero is not displayed. -/
theorem present_minusEighth : Denotes (ofFields true (2 ^ 52) (-55)) (-1 / 8) ∧
    ∃ (negative : Bool) (n : Numeral),
      present (ofFields true (2 ^ 52) (-55)) (.int 0) = .ok (withSign negative n.text) ∧
      n.Canonical (clampPrecision 0) ∧ withSign negative n.text ≠ ['-', '0'] ∧
      |oriented negative n.rational - -1 / 8| ≤ 1 / 2 * 10 ^ (-(clampPrecision 0 : Int)) := by
  have hf : Fits (2 ^ 52) (-55) := ⟨by decide, by decide, by decide, Or.inl le_rfl⟩
  have hvalue : fieldValue true (2 ^ 52) (-55) = -1 / 8 := by norm_num [fieldValue, oriented]
  have hx := denotes_ofFields true hf
  rw [hvalue] at hx
  refine ⟨hx, present_accurate hx 0 (Or.inr ?_)⟩
  constructor <;> norm_num [abs_of_neg]

end Reckoner.Data
