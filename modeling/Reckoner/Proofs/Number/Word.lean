import Mathlib.Tactic.Ring
import Reckoner.Number.Binary

/-!
The word of a double. A finite double is a sign, an exponent field and a fraction field, and every
word that is no payload of the undefined value comes back when it is taken apart and put together
again. So a finite double is determined by its sign, mantissa and exponent.
-/
namespace Reckoner.Number

open Float.Model
open Float.Model.UnpackedFloat

theorem toNat_unpackMantissa (b : BitVec Format.binary64.numBits) :
    (unpackMantissa b).toNat = b.toNat % 2 ^ 52 := by
  simp [unpackMantissa]

theorem toNat_unpackExponent (b : BitVec Format.binary64.numBits) :
    (unpackExponent b).toNat = b.toNat / 2 ^ 52 % 2 ^ 11 := by
  simp [unpackExponent, Nat.shiftRight_eq_div_pow]

theorem toNat_unpackSign (b : BitVec Format.binary64.numBits) :
    (unpackSign b).toNat = b.toNat / 2 ^ 63 := by
  have hb : b.toNat < 2 ^ 64 := b.isLt
  change (BitVec.cast (rfl : 63 - 63 + 1 = 1) (BitVec.extractLsb 63 63 b)).toNat = _
  rw [BitVec.toNat_cast, BitVec.extractLsb_toNat, Nat.shiftRight_eq_div_pow]
  omega

theorem toNat_packComponents (s : Sign) (e : BitVec 11) (m : BitVec 52) :
    (packComponents Format.binary64 s e m).toNat =
      s.toBitVec.toNat * 2 ^ 63 + e.toNat * 2 ^ 52 + m.toNat := by
  have hm := m.isLt
  have he := e.isLt
  simp only [packComponents, BitVec.toNat_append]
  rw [← Nat.shiftLeft_add_eq_or_of_lt he, ← Nat.shiftLeft_add_eq_or_of_lt hm]
  simp only [Nat.shiftLeft_eq]
  ring

@[simp] theorem toBitVec_ofBitVec (b : BitVec 1) : (Sign.ofBitVec b).toBitVec = b := by
  revert b
  decide

theorem packComponents_unpack (b : BitVec Format.binary64.numBits) :
    packComponents Format.binary64 (Sign.ofBitVec (unpackSign b)) (unpackExponent b)
      (unpackMantissa b) = b := by
  apply BitVec.eq_of_toNat_eq
  have hb : b.toNat < 2 ^ 64 := b.isLt
  rw [toNat_packComponents, toBitVec_ofBitVec, toNat_unpackSign, toNat_unpackExponent,
    toNat_unpackMantissa]
  omega

theorem toNat_implicit (m : BitVec 52) : (1#1 ++ m).toNat = 2 ^ 52 + m.toNat := by
  rw [BitVec.toNat_append, ← Nat.shiftLeft_add_eq_or_of_lt m.isLt]
  simp [Nat.shiftLeft_eq]

theorem exponentBias_eq : (Format.binary64.exponentBias : Int) = 1023 := by decide

theorem pack_subnormal (s : Sign) (m : Nat) (hm : 0 < m) (hlt : m < 2 ^ 52) :
    pack Format.binary64 (.finite s m (-1074) hm) =
      packComponents Format.binary64 s 0#11 (BitVec.ofNat 52 m) := by
  have hlog : ¬ m.log2 + 1 = Format.binary64.mantissaBits := by
    have h := (Nat.log2_lt hm.ne').mpr hlt
    change ¬ m.log2 + 1 = 53
    omega
  have hbias : ((-1074 : Int) + Format.binary64.exponentBias + (52 : Nat)).toNat = 1 := by
    rw [exponentBias_eq]
    rfl
  unfold UnpackedFloat.pack
  dsimp only
  rw [hbias, if_neg (by decide), if_neg hlog]

theorem pack_normal (s : Sign) (m : Nat) (e : Int) (hm : 0 < m) (hle : 2 ^ 52 ≤ m)
    (hlt : m < 2 ^ 53) (he : -1074 ≤ e) (he' : e ≤ 971) :
    pack Format.binary64 (.finite s m e hm) =
      packComponents Format.binary64 s (BitVec.ofNat 11 (e + 1075).toNat) (BitVec.ofNat 52 m) := by
  have hlog : m.log2 + 1 = Format.binary64.mantissaBits := by
    have h := (Nat.log2_eq_iff hm.ne').mpr ⟨hle, hlt⟩
    rw [h]
    rfl
  have hbias : (e + Format.binary64.exponentBias + (52 : Nat)).toNat = (e + 1075).toNat := by
    rw [exponentBias_eq]
    omega
  have hfits : ¬ 2 ^ Format.binary64.exponentBits ≤ (e + 1075).toNat + 1 := by
    change ¬ 2 ^ 11 ≤ (e + 1075).toNat + 1
    omega
  unfold UnpackedFloat.pack
  dsimp only
  rw [hbias, if_neg hfits, if_pos hlog]

/-- What a word is taken apart into, by its two fields. -/
theorem unpack_infinite (b : BitVec Format.binary64.numBits) (he : unpackExponent b = -1#11)
    (hm : unpackMantissa b = 0#52) :
    unpack Format.binary64 b = .infinity (Sign.ofBitVec (unpackSign b)) := by
  unfold UnpackedFloat.unpack
  dsimp only
  rw [if_pos he, if_pos hm]

theorem unpack_undefined (b : BitVec Format.binary64.numBits) (he : unpackExponent b = -1#11)
    (hm : unpackMantissa b ≠ 0#52) : unpack Format.binary64 b = .notANumber := by
  unfold UnpackedFloat.unpack
  dsimp only
  rw [if_pos he, if_neg hm]

theorem unpack_zero (b : BitVec Format.binary64.numBits) (he : unpackExponent b = 0#11)
    (hm : unpackMantissa b = 0#52) :
    unpack Format.binary64 b = .zero (Sign.ofBitVec (unpackSign b)) := by
  unfold UnpackedFloat.unpack
  dsimp only
  rw [if_neg (by rw [he]; decide), if_pos he, dif_pos hm]

theorem unpack_subnormal (b : BitVec Format.binary64.numBits) (he : unpackExponent b = 0#11)
    (hm : 0 < (unpackMantissa b).toNat) :
    unpack Format.binary64 b =
      .finite (Sign.ofBitVec (unpackSign b)) (unpackMantissa b).toNat (-1074) hm := by
  have hm0 : unpackMantissa b ≠ 0#52 := fun h => by
    rw [h] at hm
    exact absurd hm (by decide)
  unfold UnpackedFloat.unpack
  dsimp only
  rw [if_neg (by rw [he]; decide), if_pos he, dif_neg hm0]
  congr 1
  rw [he, exponentBias_eq]
  rfl

theorem unpack_normal (b : BitVec Format.binary64.numBits) (he : unpackExponent b ≠ -1#11)
    (he0 : unpackExponent b ≠ 0#11) :
    unpack Format.binary64 b =
      .finite (Sign.ofBitVec (unpackSign b)) (2 ^ 52 + (unpackMantissa b).toNat)
        ((unpackExponent b).toNat - 1075) (by omega) := by
  unfold UnpackedFloat.unpack
  dsimp only
  rw [if_neg he, if_neg he0]
  congr 1
  exact toNat_implicit _

/-- The exponent field of a normal word. -/
theorem unpackExponent_lt (b : BitVec Format.binary64.numBits) (he : unpackExponent b ≠ -1#11) :
    (unpackExponent b).toNat < 2047 := by
  have hlt : (unpackExponent b).toNat < 2 ^ 11 := (unpackExponent b).isLt
  have hne : (unpackExponent b).toNat ≠ 2047 := fun h =>
    he (BitVec.eq_of_toNat_eq (by rw [h]; rfl))
  omega

theorem toNat_ne_zero {n : Nat} {b : BitVec n} (h : b ≠ 0#n) : 0 < b.toNat :=
  Nat.pos_of_ne_zero fun h0 => h (BitVec.eq_of_toNat_eq (by simpa using h0))

/-- Putting together what was taken apart gives a word back, unless it is a payload of the
undefined value. -/
theorem pack_unpack (b : BitVec Format.binary64.numBits)
    (h : unpackExponent b = -1#11 → unpackMantissa b = 0#52) :
    pack Format.binary64 (unpack Format.binary64 b) = b := by
  have hb := packComponents_unpack b
  by_cases he : unpackExponent b = -1#11
  · rw [he, h he] at hb
    rw [unpack_infinite b he (h he)]
    exact hb
  · by_cases he0 : unpackExponent b = 0#11
    · by_cases hm : unpackMantissa b = 0#52
      · rw [he0, hm] at hb
        rw [unpack_zero b he0 hm]
        exact hb
      · have hlt : (unpackMantissa b).toNat < 2 ^ 52 := (unpackMantissa b).isLt
        rw [he0] at hb
        rw [unpack_subnormal b he0 (toNat_ne_zero hm), pack_subnormal _ _ _ hlt]
        rwa [BitVec.ofNat_toNat, BitVec.setWidth_eq]
    · have hlt : (unpackMantissa b).toNat < 2 ^ 52 := (unpackMantissa b).isLt
      have hlt' : 2 ^ 52 + (unpackMantissa b).toNat < 2 ^ 53 := by
        have h53 : (2 : Nat) ^ 53 = 2 ^ 52 + 2 ^ 52 := by decide
        rw [h53]
        exact Nat.add_lt_add_left hlt _
      have hexp := unpackExponent_lt b he
      have hpos := toNat_ne_zero he0
      rw [unpack_normal b he he0,
        pack_normal _ _ _ _ (Nat.le_add_right _ _) hlt' (by omega) (by omega)]
      have hfield : ((unpackExponent b).toNat - 1075 + 1075 : Int).toNat =
          (unpackExponent b).toNat := by omega
      have hfraction : BitVec.ofNat 52 (2 ^ 52 + (unpackMantissa b).toNat) = unpackMantissa b := by
        apply BitVec.eq_of_toNat_eq
        rw [BitVec.toNat_ofNat, Nat.add_mod_left, Nat.mod_eq_of_lt hlt]
      rwa [hfield, hfraction, BitVec.ofNat_toNat, BitVec.setWidth_eq]

/-- Doubles with one word are the same. -/
theorem eq_of_toBits {x y : Float} (h : x.toBits = y.toBits) : x = y := by
  obtain ⟨⟨u, hu⟩⟩ := x
  obtain ⟨⟨v, hv⟩⟩ := y
  have huv : u = v := h
  subst huv
  rfl

end Reckoner.Number
