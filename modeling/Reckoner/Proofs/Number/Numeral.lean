import Reckoner.Arith.Value
import Reckoner.Formula.Substitution
import Reckoner.Proofs.Number.Decimal
import Reckoner.Proofs.Text.Spans

/-!
Plain decimal numerals, and the numeral that stands for a value. A numeral has digits and at most
one point. Whatever way the digits of a finite double are laid out, the numeral denotes a
number within the double, so reading it gives the double back, up to the sign of zero.
-/
namespace Reckoner.Number

open Text

/-- Digits with an optional point; there is at least one digit. -/
structure Numeral where
  whole : List Char
  fraction : Option (List Char)
  whole_digits : AllDigits whole
  fraction_digits : AllDigits (fraction.getD [])
  some_digit : whole ++ fraction.getD [] ≠ []

namespace Numeral

def text (n : Numeral) : List Char :=
  match n.fraction with
  | none => n.whole
  | some f => n.whole ++ '.' :: f

/-- All digits as one number, and how many of them follow the point. -/
def mantissa (n : Numeral) : Nat := digitsValue (n.whole ++ n.fraction.getD [])

def places (n : Numeral) : Nat := (n.fraction.getD []).length

def rational (n : Numeral) : ℚ := n.mantissa * 10 ^ (-(n.places : Int))

/-- A numeral of digits only. -/
def ofDigits (s : List Char) (hs : AllDigits s) (hne : s ≠ []) : Numeral :=
  ⟨s, none, hs, allDigits_nil, by rwa [Option.getD_none, List.append_nil]⟩

def ofParts (whole fraction : List Char) (hw : AllDigits whole) (hf : AllDigits fraction)
    (hne : whole ++ fraction ≠ []) : Numeral :=
  ⟨whole, some fraction, hw, hf, hne⟩

end Numeral

theorem numeral_text_ne_nil (n : Numeral) : n.text ≠ [] := by
  obtain ⟨whole, fraction, _, _, hne⟩ := n
  cases fraction with
  | none => rwa [Option.getD_none, List.append_nil] at hne
  | some f => exact List.append_ne_nil_of_right_ne_nil _ (by simp)

/-- The characters of a numeral are digits and points. -/
theorem mem_numeral_text {n : Numeral} {c : Char} (h : c ∈ n.text) :
    isDigit c = true ∨ c = '.' := by
  obtain ⟨whole, fraction, hw, hf, _⟩ := n
  cases fraction with
  | none => exact Or.inl (hw c h)
  | some f =>
    rcases List.mem_append.mp h with h | h
    · exact Or.inl (hw c h)
    · rcases List.mem_cons.mp h with rfl | h
      · exact Or.inr rfl
      · exact Or.inl (hf c h)

private theorem isDigit_point : isDigit '.' = false := by decide

theorem readMantissa_text (n : Numeral) :
    readMantissa n.text = some (n.mantissa, n.places, []) := by
  obtain ⟨whole, fraction, hw, hf, hne⟩ := n
  unfold readMantissa Numeral.text Numeral.mantissa Numeral.places
  cases fraction with
  | none =>
    have htake := takeWhile_append_stop (s := []) hw (by simp)
    have hdrop := dropWhile_append_stop (s := []) hw (by simp)
    rw [List.append_nil] at htake hdrop
    rw [Option.getD_none, List.append_nil] at hne
    rw [htake, hdrop]
    simp [hne]
  | some f =>
    have htake := takeWhile_append_stop (s := '.' :: f) hw (by simp [isDigit_point])
    have hdrop := dropWhile_append_stop (s := '.' :: f) hw (by simp [isDigit_point])
    have htake' := takeWhile_append_stop (s := []) hf (by simp)
    have hdrop' := dropWhile_append_stop (s := []) hf (by simp)
    rw [Option.getD_some, List.append_nil] at htake' hdrop'
    rw [htake, hdrop]
    change (if whole.isEmpty && (f.takeWhile isDigit).isEmpty then none
      else some (digitsValue (whole ++ f.takeWhile isDigit), (f.takeWhile isDigit).length,
        f.dropWhile isDigit)) = some (digitsValue (whole ++ f), f.length, [])
    rw [htake', hdrop', if_neg]
    rw [Bool.and_eq_true, List.isEmpty_iff, List.isEmpty_iff]
    rintro ⟨rfl, rfl⟩
    exact hne rfl

/-- What a numeral is read as. -/
theorem readDecimal_text (n : Numeral) (negative : Bool) :
    readDecimal negative n.text =
      some (nearestDecimal negative n.mantissa (-(n.places : Int))) := by
  unfold readDecimal
  rw [readMantissa_text]
  simp [readExponent]

theorem literalValue_text (n : Numeral) :
    Arith.literalValue n.text = nearestDecimal false n.mantissa (-(n.places : Int)) := by
  unfold Arith.literalValue
  rw [readDecimal_text]
  rfl

theorem exists_digits {s : List Char} (hs : AllDigits s) (hne : s ≠ []) :
    ∃ n : Numeral, n.text = s ∧ n.mantissa = digitsValue s ∧ n.places = 0 := by
  refine ⟨.ofDigits s hs hne, rfl, ?_, rfl⟩
  unfold Numeral.ofDigits Numeral.mantissa
  rw [Option.getD_none, List.append_nil]

/-- Laying digits out around a point gives a numeral of the right value. -/
theorem exists_positional {s : List Char} (hs : AllDigits s) (hne : s ≠ []) (point : Int) :
    ∃ n : Numeral, n.text = positional [] s point ∧
      n.rational = (digitsValue s : ℚ) * 10 ^ (point - s.length) := by
  unfold positional
  split
  · rename_i h
    have hzero : AllDigits ['0'] := allDigits_cons (by decide) allDigits_nil
    have hfraction := (allDigits_zeroDigits (-point).toNat).append hs
    refine ⟨.ofParts ['0'] (zeroDigits (-point).toNat ++ s) hzero hfraction (by simp), rfl, ?_⟩
    have hmantissa : digitsValue (['0'] ++ (zeroDigits (-point).toNat ++ s)) = digitsValue s := by
      rw [← List.append_assoc, show ['0'] = zeroDigits 1 from rfl]
      unfold zeroDigits
      rw [← List.replicate_add]
      exact digitsValue_zeros_append _ hs
    have hplaces : (zeroDigits (-point).toNat ++ s).length = (-point).toNat + s.length := by
      unfold zeroDigits
      rw [List.length_append, List.length_replicate]
    unfold Numeral.rational Numeral.mantissa Numeral.places Numeral.ofParts
    rw [Option.getD_some, hmantissa, hplaces]
    congr 2
    omega
  · split
    · rename_i h hlength
      rw [List.append_nil]
      obtain ⟨n, htext, hmantissa, hplaces⟩ :=
        exists_digits (hs.append (allDigits_zeroDigits (point.toNat - s.length)))
          (List.append_ne_nil_of_left_ne_nil hne _)
      refine ⟨n, htext, ?_⟩
      have hpower : point - s.length = ((point.toNat - s.length : Nat) : Int) := by omega
      unfold Numeral.rational
      rw [hmantissa, hplaces, digitsValue_append_zeros, hpower, zpow_natCast]
      push_cast
      rw [mul_one]
    · rename_i h hlength
      have htake : AllDigits (s.take point.toNat) := fun c hc => hs c (List.mem_of_mem_take hc)
      have hdrop : AllDigits (s.drop point.toNat) := fun c hc => hs c (List.mem_of_mem_drop hc)
      have hjoin : s.take point.toNat ++ s.drop point.toNat = s := List.take_append_drop _ _
      refine ⟨.ofParts _ _ htake hdrop (by rwa [hjoin]), rfl, ?_⟩
      unfold Numeral.rational Numeral.mantissa Numeral.places Numeral.ofParts
      rw [Option.getD_some, hjoin, List.length_drop]
      congr 2
      omega

variable {x : Float} {b : Binary}

/-- Dropping trailing zeros and moving the point keeps the value of a decimal. -/
theorem exists_places (d : Decimal) (hd : 0 < d.digits) :
    ∃ n : Numeral, n.text = positional [] d.places.1 d.places.2 ∧ n.rational = d.value := by
  obtain ⟨k, hk⟩ := dropTrailingZeros_append (decimalDigits d.digits)
  have hvalue := digitsValue_decimalDigits d.digits
  have hascii := allDigits_decimalDigits d.digits
  unfold Decimal.places
  dsimp only
  generalize hs : dropTrailingZeros (decimalDigits d.digits) = s at hk ⊢
  have hs' : AllDigits s := fun c hc =>
    hascii c (by rw [hk]; exact List.mem_append_left _ hc)
  rw [hk, digitsValue_append_zeros] at hvalue
  have hne : s ≠ [] := by
    rintro rfl
    rw [digitsValue_nil, Nat.zero_mul] at hvalue
    omega
  obtain ⟨n, htext, hrational⟩ :=
    exists_positional hs' hne ((decimalDigits d.digits).length + d.exponent)
  refine ⟨n, htext, ?_⟩
  have hlength : ((decimalDigits d.digits).length : Int) + d.exponent - s.length =
      (k : Int) + d.exponent := by
    have h := congrArg List.length hk
    unfold zeroDigits at h
    rw [List.length_append, List.length_replicate] at h
    omega
  have hcast : (d.digits : ℚ) = digitsValue s * 10 ^ k := by exact_mod_cast hvalue.symm
  unfold Decimal.value
  rw [hrational, hlength, zpow_add₀ (by norm_num), zpow_natCast, hcast, mul_assoc]

/-- The numeral of a finite double denotes a number within the double. -/
theorem exists_numeral (b : Binary) :
    ∃ n : Numeral, b.numeral = withSign (b.negative && b.mantissa != 0) n.text ∧
      (b.mantissa = 0 → n.mantissa = 0) ∧
      (0 < b.mantissa → Within b.mantissa b.exponent n.rational) := by
  unfold Binary.numeral
  dsimp only
  generalize hw : b.mantissa * twoTo b.exponent.toNat / twoTo (-b.exponent).toNat = whole
  have hpos := twoTo_pos (-b.exponent).toNat
  have hpos' := twoTo_pos b.exponent.toNat
  have hzero : b.mantissa = 0 → whole = 0 := by
    intro h0
    rw [← hw, h0, Nat.zero_mul, Nat.zero_div]
  split
  · rename_i hexact
    obtain ⟨hexact, _⟩ := hexact
    obtain ⟨n, htext, hmantissa, hplaces⟩ :=
      exists_digits (allDigits_decimalDigits whole) (decimalDigits_ne_nil whole)
    rw [digitsValue_decimalDigits] at hmantissa
    have hsame : (whole != 0) = (b.mantissa != 0) := by
      rw [Bool.eq_iff_iff, bne_iff_ne, bne_iff_ne, not_iff_not]
      refine ⟨fun h0 => ?_, hzero⟩
      rw [h0, Nat.zero_mul] at hexact
      exact (Nat.mul_eq_zero.mp hexact.symm).resolve_right hpos'.ne'
    refine ⟨n, by rw [htext, hsame], fun h0 => hmantissa.trans (hzero h0), fun hm => ?_⟩
    have hvalue : n.rational = (b.mantissa : ℚ) * 2 ^ b.exponent := by
      have hscaled := scaled_eq b.mantissa 1 (-b.exponent)
      have hdiv :
          ((b.mantissa * twoTo b.exponent.toNat : Nat) : ℚ) / (twoTo (-b.exponent).toNat : Nat) =
          whole := by
        rw [← hexact]
        push_cast
        field_simp
      unfold Numeral.rational
      rw [neg_neg, Nat.one_mul, hdiv, zpow_neg, div_inv_eq_mul, Nat.cast_one, div_one] at hscaled
      rw [hmantissa, hplaces, Nat.cast_zero, neg_zero, zpow_zero, mul_one, hscaled]
    rw [hvalue]
    exact within_self _ _
  · rename_i hexact
    have hm : 0 < b.mantissa := by
      refine Nat.pos_of_ne_zero fun h0 => hexact ⟨?_, ?_⟩
      · rw [hzero h0, h0, Nat.zero_mul, Nat.zero_mul]
      · rw [hzero h0]
        exact tenTo_pos 16
    have hwithin := within_shortest (q := b.exponent) hm
    obtain ⟨n, htext, hrational⟩ := exists_places _ (digits_shortest_pos hm b.exponent)
    have hsign : (b.negative && b.mantissa != 0) = b.negative := by
      rw [bne_iff_ne.mpr hm.ne', Bool.and_true]
    refine ⟨n, by rw [htext, hsign], fun h0 => absurd h0 hm.ne', fun _ => ?_⟩
    rwa [hrational]

/-- A zero is written without its sign. -/
theorem literal_of_isZero (h : IsZero x) : Formula.literal x = .ok ['0'] := by
  obtain ⟨negative, hparts⟩ := ofFloat?_of_isZero h
  have hzero : ¬ x < 0 := fun h => ((lt_zero_iff hparts).mp h).2 rfl
  have hnumeral : Binary.numeral ⟨negative, 0, -1074⟩ = ['0'] := by
    unfold Binary.numeral
    dsimp only
    rw [Nat.zero_mul, Nat.zero_div, Nat.zero_mul, if_pos ⟨rfl, tenTo_pos 16⟩]
    cases negative <;> rfl
  unfold Formula.literal numeral
  rw [hparts]
  dsimp only
  rw [if_neg hzero, hnumeral]

/-- Alike values are written alike. -/
theorem literal_of_alike {y : Float} (h : Alike x y) : Formula.literal x = Formula.literal y := by
  rcases h with rfl | ⟨hx, hy⟩
  · rfl
  · rw [literal_of_isZero hx, literal_of_isZero hy]

/-- The text of a finite value is a numeral, in parentheses and with a minus sign when the value is
negative, and the numeral is read as the magnitude of the value. -/
theorem exists_literal (h : x.isFinite = true) :
    ∃ n : Numeral,
      Formula.literal x = .ok (if x < 0 then '(' :: '-' :: n.text ++ [')'] else n.text) ∧
      (Arith.literalValue n.text).isFinite = true ∧
      Alike (if x < 0 then -Arith.literalValue n.text else Arith.literalValue n.text) x := by
  obtain ⟨b, hb⟩ := exists_binary h
  have hf := fits_of_ofFloat? hb
  obtain ⟨n, htext, hzero, hwithin⟩ := exists_numeral b
  have hliteral : Formula.literal x =
      .ok (if x < 0 then '(' :: '-' :: n.text ++ [')'] else n.text) := by
    unfold Formula.literal numeral
    rw [hb]
    dsimp only
    rw [htext]
    by_cases hx : x < 0
    · obtain ⟨hneg, hm⟩ := (lt_zero_iff hb).mp hx
      rw [if_pos hx, if_pos hx, hneg, bne_iff_ne.mpr hm]
      rfl
    · have hsign : (b.negative && b.mantissa != 0) = false := by
        rw [Bool.eq_false_iff, ne_eq, Bool.and_eq_true, bne_iff_ne]
        exact fun hsign => hx ((lt_zero_iff hb).mpr hsign)
      rw [if_neg hx, if_neg hx, hsign]
      rfl
  refine ⟨n, hliteral, ?_⟩
  rw [literalValue_text]
  rcases Nat.eq_zero_or_pos b.mantissa with hm | hm
  · have hx : ¬ x < 0 := fun hx => ((lt_zero_iff hb).mp hx).2 hm
    have hread : nearestDecimal false n.mantissa (-(n.places : Int)) = nearest false 0 1 := by
      unfold nearestDecimal
      rw [if_pos (Or.inl (hzero hm))]
    have hnearest : nearest false 0 1 = 0 := rfl
    rw [hread, hnearest, if_neg hx]
    exact ⟨rfl, Or.inr ⟨isZero_zero, (isZero_iff_mantissa hb).mpr hm⟩⟩
  · have hread := nearestDecimal_of_within false hm hf (hwithin hm)
    have hfields := ofFloat?_ofFields false hf
    rw [hread]
    refine ⟨isFinite_of_ofFloat? hfields, ?_⟩
    by_cases hx : x < 0
    · obtain ⟨hneg, _⟩ := (lt_zero_iff hb).mp hx
      rw [if_pos hx, neg_eq_ofFields hfields, eq_ofFields hb, hneg]
      exact Alike.refl _
    · have hneg : b.negative = false := by
        rw [Bool.eq_false_iff]
        exact fun hneg => hx ((lt_zero_iff hb).mpr ⟨hneg, hm.ne'⟩)
      rw [if_neg hx, eq_ofFields hb, hneg]
      exact Alike.refl _

/-- The text of a value is that of a numeral, or of one with a minus sign in parentheses. -/
theorem literal_cases {text : List Char} (h : Formula.literal x = .ok text) :
    ∃ n : Numeral, text = n.text ∨ text = '(' :: '-' :: n.text ++ [')'] := by
  have hfinite : x.isFinite = true := by
    unfold Formula.literal numeral at h
    cases hparts : Binary.ofFloat? x with
    | none =>
      rw [hparts] at h
      exact absurd h (by simp)
    | some b => exact isFinite_of_ofFloat? hparts
  obtain ⟨n, hliteral, _, _⟩ := exists_literal hfinite
  obtain rfl := Except.ok.inj (hliteral.symm.trans h)
  refine ⟨n, ?_⟩
  split
  · exact Or.inr rfl
  · exact Or.inl rfl

end Reckoner.Number
