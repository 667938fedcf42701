import Reckoner.Proofs.Number.Alike

/-!
The exact binary fraction of a double. A double has one exactly when it is finite; its mantissa has
at most 53 bits, and only the doubles of the least exponent have fewer. The word of a double can be
read off its sign, mantissa and exponent, and a larger mantissa or exponent gives a larger word.
-/
namespace Reckoner.Number

open Float.Model
open Float.Model.UnpackedFloat

theorem twoTo_pos (n : Nat) : 0 < twoTo n := Nat.pow_pos (by decide)

theorem twoTo_eq (n : Nat) : twoTo n = 2 ^ n := rfl

theorem tenTo_eq (n : Nat) : tenTo n = 10 ^ n := rfl

theorem tenTo_pos (n : Nat) : 0 < tenTo n := Nat.pow_pos (by decide)

/-- The word of a double. -/
def word (x : Float) : Nat := x.toBits.toNat

theorem word_lt (x : Float) : word x < 2 ^ 64 := x.toBits.toNat_lt

private theorem exponentField (x : Float) :
    (@unpackExponent Format.binary64 x.toBits.toBitVec).toNat = word x / 2 ^ 52 % 2 ^ 11 :=
  toNat_unpackExponent _

private theorem fractionField (x : Float) :
    (@unpackMantissa Format.binary64 x.toBits.toBitVec).toNat = word x % 2 ^ 52 :=
  toNat_unpackMantissa _

private theorem signField (x : Float) :
    (@unpackSign Format.binary64 x.toBits.toBitVec).toNat = word x / 2 ^ 63 :=
  toNat_unpackSign _

def isNegativeSign : Sign → Bool
  | .negative => true
  | .positive => false

private theorem isNegativeSign_ofBitVec (b : BitVec 1) :
    isNegativeSign (Sign.ofBitVec b) = (b.toNat == 1) := by
  revert b
  decide

/-- The binary fraction with the given parts. -/
def binaryOf : UnpackedFloat → Option Binary
  | .zero s => some ⟨isNegativeSign s, 0, -1074⟩
  | .finite s m e _ => some ⟨isNegativeSign s, m, e⟩
  | _ => none

theorem ofFloat?_eq (x : Float) : Binary.ofFloat? x = binaryOf (parts x) := by
  have hexp := exponentField x
  have hfrac := fractionField x
  have hsign := signField x
  have hneg : isNegativeSign (Sign.ofBitVec (@unpackSign Format.binary64 x.toBits.toBitVec))
      = (word x / 2 ^ 63 == 1) := by
    rw [isNegativeSign_ofBitVec, hsign]
  change Binary.ofFloat? x = binaryOf (unpack Format.binary64 x.toBits.toBitVec)
  unfold Binary.ofFloat?
  dsimp only
  change (if word x / 2 ^ 52 % 2 ^ 11 = 2047 then none
    else if word x / 2 ^ 52 % 2 ^ 11 = 0 then
      some (⟨word x / 2 ^ 63 == 1, word x % 2 ^ 52, -1074⟩ : Binary)
    else some ⟨word x / 2 ^ 63 == 1, word x % 2 ^ 52 + 2 ^ 52,
      ((word x / 2 ^ 52 % 2 ^ 11 : Nat) : Int) - 1075⟩) = _
  rw [← hexp, ← hfrac, ← hneg]
  generalize x.toBits.toBitVec = b
  by_cases he : @unpackExponent Format.binary64 b = -1#11
  · rw [if_pos (by rw [he]; rfl)]
    by_cases hm : @unpackMantissa Format.binary64 b = 0#52
    · rw [unpack_infinite b he hm]
      rfl
    · rw [unpack_undefined b he hm]
      rfl
  · have hne : (@unpackExponent Format.binary64 b).toNat ≠ 2047 := by
      have h := unpackExponent_lt b he
      omega
    rw [if_neg hne]
    by_cases he0 : @unpackExponent Format.binary64 b = 0#11
    · rw [if_pos (by rw [he0]; rfl)]
      by_cases hm : @unpackMantissa Format.binary64 b = 0#52
      · rw [unpack_zero b he0 hm, hm]
        rfl
      · rw [unpack_subnormal b he0 (toNat_ne_zero hm)]
        rfl
    · have h0 : (@unpackExponent Format.binary64 b).toNat ≠ 0 := by
        have h := toNat_ne_zero he0
        omega
      rw [if_neg h0, unpack_normal b he he0, Nat.add_comm]
      rfl

/-- The mantissas and exponents of finite doubles. -/
structure Fits (m : Nat) (q : Int) : Prop where
  bits : m < 2 ^ 53
  least : -1074 ≤ q
  most : q ≤ 971
  full : 2 ^ 52 ≤ m ∨ q = -1074

variable {x : Float} {b : Binary}

/-- The two kinds of finite words, by their exponent field. -/
private theorem fields_of_ofFloat? (h : Binary.ofFloat? x = some b) :
    b.negative = (word x / 2 ^ 63 == 1) ∧ word x / 2 ^ 52 % 2 ^ 11 < 2047 ∧
      ((word x / 2 ^ 52 % 2 ^ 11 = 0 ∧ b.mantissa = word x % 2 ^ 52 ∧ b.exponent = -1074) ∨
        (0 < word x / 2 ^ 52 % 2 ^ 11 ∧ b.mantissa = word x % 2 ^ 52 + 2 ^ 52 ∧
          b.exponent = ((word x / 2 ^ 52 % 2 ^ 11 : Nat) : Int) - 1075)) := by
  unfold Binary.ofFloat? at h
  dsimp only at h
  change (if word x / 2 ^ 52 % 2 ^ 11 = 2047 then none
    else if word x / 2 ^ 52 % 2 ^ 11 = 0 then
      some (⟨word x / 2 ^ 63 == 1, word x % 2 ^ 52, -1074⟩ : Binary)
    else some ⟨word x / 2 ^ 63 == 1, word x % 2 ^ 52 + 2 ^ 52,
      ((word x / 2 ^ 52 % 2 ^ 11 : Nat) : Int) - 1075⟩) = some b at h
  have hlt : word x / 2 ^ 52 % 2 ^ 11 < 2 ^ 11 := Nat.mod_lt _ (by decide)
  split at h
  · exact absurd h (by simp)
  · rename_i hne
    split at h
    · rename_i h0
      obtain rfl := Option.some.inj h
      exact ⟨rfl, by omega, Or.inl ⟨h0, rfl, rfl⟩⟩
    · rename_i h0
      obtain rfl := Option.some.inj h
      exact ⟨rfl, by omega, Or.inr ⟨by omega, rfl, rfl⟩⟩

theorem fits_of_ofFloat? (h : Binary.ofFloat? x = some b) : Fits b.mantissa b.exponent := by
  have hfraction : word x % 2 ^ 52 < 2 ^ 52 := Nat.mod_lt _ (by decide)
  obtain ⟨_, hlt, ⟨_, hm, hq⟩ | ⟨hpos, hm, hq⟩⟩ := fields_of_ofFloat? h
  · exact ⟨by omega, by omega, by omega, Or.inr hq⟩
  · exact ⟨by omega, by omega, by omega, Or.inl (by omega)⟩

/-- The word without its sign. -/
def encoded (m : Nat) (q : Int) : Nat := (q + 1074).toNat * 2 ^ 52 + m

theorem word_eq (h : Binary.ofFloat? x = some b) :
    word x = (if b.negative then 2 ^ 63 else 0) + encoded b.mantissa b.exponent := by
  have hword := word_lt x
  unfold encoded
  obtain ⟨hneg, _, ⟨h0, hm, hq⟩ | ⟨hpos, hm, hq⟩⟩ := fields_of_ofFloat? h
  · rw [hneg, hm, hq]
    by_cases hs : word x / 2 ^ 63 = 1
    · rw [hs]
      simp only [beq_self_eq_true, if_true]
      omega
    · simp only [beq_iff_eq, hs, if_false]
      omega
  · rw [hneg, hm, hq]
    by_cases hs : word x / 2 ^ 63 = 1
    · rw [hs]
      simp only [beq_self_eq_true, if_true]
      omega
    · simp only [beq_iff_eq, hs, if_false]
      omega

theorem ofBits_toBits (x : Float) : Float.ofBits x.toBits = x := ofParts_parts x

theorem ofBits_word (x : Float) : Float.ofBits (UInt64.ofNat (word x)) = x := by
  unfold word
  rw [UInt64.ofNat_toNat, ofBits_toBits]

theorem isFinite_iff (x : Float) : x.isFinite = true ↔ ∃ b, Binary.ofFloat? x = some b := by
  rw [isFinite_eq, ofFloat?_eq]
  cases parts x with
  | zero s => exact ⟨fun _ => ⟨_, rfl⟩, fun _ => rfl⟩
  | finite s m e hm => exact ⟨fun _ => ⟨_, rfl⟩, fun _ => rfl⟩
  | infinity s => exact ⟨fun h => absurd h Bool.false_ne_true, fun ⟨_, h⟩ => absurd h nofun⟩
  | notANumber => exact ⟨fun h => absurd h Bool.false_ne_true, fun ⟨_, h⟩ => absurd h nofun⟩

theorem exists_binary (h : x.isFinite = true) : ∃ b, Binary.ofFloat? x = some b :=
  (isFinite_iff x).mp h

theorem isFinite_of_ofFloat? (h : Binary.ofFloat? x = some b) : x.isFinite = true :=
  (isFinite_iff x).mpr ⟨b, h⟩

theorem isZero_iff_mantissa (h : Binary.ofFloat? x = some b) : IsZero x ↔ b.mantissa = 0 := by
  rw [ofFloat?_eq] at h
  unfold IsZero
  cases hx : parts x with
  | zero s =>
    rw [hx] at h
    obtain rfl := Option.some.inj h
    exact ⟨fun _ => rfl, fun _ => ⟨s, rfl⟩⟩
  | finite s m e hm =>
    rw [hx] at h
    obtain rfl := Option.some.inj h
    exact ⟨fun ⟨_, hs⟩ => (by cases hs), fun h0 => absurd h0 hm.ne'⟩
  | infinity s => rw [hx] at h; exact absurd h nofun
  | notANumber => rw [hx] at h; exact absurd h nofun

/-- A double is negative when it has a minus sign and is not zero. -/
theorem lt_zero_iff (h : Binary.ofFloat? x = some b) :
    x < 0 ↔ b.negative = true ∧ b.mantissa ≠ 0 := by
  rw [ofFloat?_eq] at h
  rw [lt_iff]
  change UnpackedFloat.lt (parts x) (.zero .positive) = true ↔ _
  cases hx : parts x with
  | zero s =>
    rw [hx] at h
    obtain rfl := Option.some.inj h
    exact iff_of_false Bool.false_ne_true fun hneg => hneg.2 rfl
  | finite s m e hm =>
    rw [hx] at h
    obtain rfl := Option.some.inj h
    cases s with
    | positive => exact iff_of_false Bool.false_ne_true fun hneg => Bool.false_ne_true hneg.1
    | negative => exact iff_of_true rfl ⟨rfl, hm.ne'⟩
  | infinity s => rw [hx] at h; exact absurd h nofun
  | notANumber => rw [hx] at h; exact absurd h nofun

theorem encoded_lt {m : Nat} {q : Int} (hf : Fits m q) : encoded m q < 2047 * 2 ^ 52 := by
  obtain ⟨hbits, hleast, hmost, _⟩ := hf
  unfold encoded
  omega

/-- The finite double with the given sign, mantissa and exponent. -/
def ofFields (negative : Bool) (m : Nat) (q : Int) : Float :=
  Float.ofBits (UInt64.ofNat ((if negative then 2 ^ 63 else 0) + encoded m q))

theorem eq_ofFields (h : Binary.ofFloat? x = some b) :
    x = ofFields b.negative b.mantissa b.exponent := by
  unfold ofFields
  rw [← word_eq h, ofBits_word]

private theorem word_ofBits (n : Nat) (hn : n < 2 ^ 64) (hfield : n / 2 ^ 52 % 2 ^ 11 < 2047) :
    word (Float.ofBits (UInt64.ofNat n)) = n := by
  have hnat : (UInt64.ofNat n).toBitVec.toNat = n := by
    rw [UInt64.toNat_toBitVec, UInt64.toNat_ofNat', Nat.mod_eq_of_lt hn]
  have hexp : @unpackExponent Format.binary64 (UInt64.ofNat n).toBitVec ≠ -1#11 := by
    intro h
    have hfull := congrArg BitVec.toNat h
    rw [toNat_unpackExponent, hnat] at hfull
    have hmax : (-1#11 : BitVec 11).toNat = 2047 := rfl
    omega
  have hpack := pack_unpack (UInt64.ofNat n).toBitVec fun h => absurd h hexp
  change (UInt64.ofBitVec (pack Format.binary64
    (unpack Format.binary64 (UInt64.ofNat n).toBitVec))).toNat = n
  rw [hpack]
  exact hnat

/-- The parts of the double with given parts. -/
theorem ofFloat?_ofFields {m : Nat} {q : Int} (negative : Bool) (hf : Fits m q) :
    Binary.ofFloat? (ofFields negative m q) = some ⟨negative, m, q⟩ := by
  have hlt := encoded_lt hf
  obtain ⟨hbits, hleast, hmost, hfull⟩ := hf
  unfold ofFields
  generalize hw : (if negative then 2 ^ 63 else 0) + encoded m q = w
  have hfields : w < 2 ^ 64 ∧ w / 2 ^ 52 % 2 ^ 11 = encoded m q / 2 ^ 52 ∧
      w % 2 ^ 52 = encoded m q % 2 ^ 52 ∧ (w / 2 ^ 63 == 1) = negative := by
    subst hw
    cases negative with
    | false =>
      simp only [Bool.false_eq_true, if_false, beq_eq_false_iff_ne]
      omega
    | true =>
      simp only [if_true, beq_iff_eq]
      omega
  obtain ⟨hlt64, hfield, hfraction, hsign⟩ := hfields
  have hword := word_ofBits w hlt64 (by omega)
  unfold word at hword
  have hencoded : encoded m q = (q + 1074).toNat * 2 ^ 52 + m := rfl
  unfold Binary.ofFloat?
  dsimp only
  rw [hword, twoTo_eq, twoTo_eq, hfraction, hsign, show 2048 = 2 ^ 11 from rfl, hfield]
  rw [if_neg (by omega)]
  split
  · rename_i h0
    have hm : encoded m q % 2 ^ 52 = m := by omega
    have hq : -1074 = q := by omega
    rw [hm, hq]
  · rename_i h0
    have hm : encoded m q % 2 ^ 52 + 2 ^ 52 = m := by omega
    have hq : ((encoded m q / 2 ^ 52 : Nat) : Int) - 1075 = q := by omega
    rw [hm, hq]

theorem parts_ofFields {m : Nat} {q : Int} (s : Sign) (hm : 0 < m) (hf : Fits m q) :
    parts (ofFields (isNegativeSign s) m q) = .finite s m q hm := by
  have h := ofFloat?_ofFields (isNegativeSign s) hf
  rw [ofFloat?_eq] at h
  cases hp : parts (ofFields (isNegativeSign s) m q) with
  | zero t =>
    rw [hp] at h
    have hzero := congrArg Binary.mantissa (Option.some.inj h)
    exact absurd hzero hm.ne
  | finite t m' q' hm' =>
    rw [hp] at h
    have hb := Option.some.inj h
    have hsign : isNegativeSign t = isNegativeSign s := congrArg Binary.negative hb
    have hmantissa : m' = m := congrArg Binary.mantissa hb
    have hexponent : q' = q := congrArg Binary.exponent hb
    subst hmantissa hexponent
    cases s <;> cases t
    · rfl
    · exact absurd hsign (by decide)
    · exact absurd hsign (by decide)
    · rfl
  | infinity t => rw [hp] at h; exact absurd h nofun
  | notANumber => rw [hp] at h; exact absurd h nofun

/-- Changing the sign changes the sign bit only. -/
theorem neg_eq_ofFields (h : Binary.ofFloat? x = some b) :
    -x = ofFields (!b.negative) b.mantissa b.exponent := by
  have hf := fits_of_ofFloat? h
  rw [ofFloat?_eq] at h
  rw [neg_eq]
  cases hx : parts x with
  | zero s =>
    rw [hx] at h
    obtain rfl := Option.some.inj h
    cases s <;> rfl
  | finite s m q hm =>
    rw [hx] at h
    obtain rfl := Option.some.inj h
    have hsign : (!isNegativeSign s) = isNegativeSign (-s) := by cases s <;> rfl
    rw [← ofParts_parts (ofFields _ _ _), hsign, parts_ofFields (-s) hm hf]
    rfl
  | infinity s => rw [hx] at h; exact absurd h nofun
  | notANumber => rw [hx] at h; exact absurd h nofun

/-- The whole part of a zero is zero whatever its sign. -/
theorem ofFloat?_of_isZero (h : IsZero x) :
    ∃ negative, Binary.ofFloat? x = some ⟨negative, 0, -1074⟩ := by
  obtain ⟨s, hs⟩ := h
  rw [ofFloat?_eq, hs]
  exact ⟨_, rfl⟩

end Reckoner.Number
