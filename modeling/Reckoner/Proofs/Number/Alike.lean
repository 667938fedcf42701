import Reckoner.Number.Sum
import Reckoner.Proofs.Number.Word

/-!
Doubles up to the sign of zero. Two doubles are alike when they are the same or both are zero.
Sums, differences, products, comparisons, square roots, whole parts and remainders do not tell
alike doubles apart; quotients do only by their divisor. For a double that is a number, being
alike is the same as being equal as a number.
-/
namespace Reckoner.Number

open Float.Model
open Float.Model.UnpackedFloat

/-- The sign, mantissa and exponent of a double, or which special value it is. -/
def parts (x : Float) : UnpackedFloat := x.toModel.unpack

def ofParts (u : UnpackedFloat) : Float := Float.ofModel (Float.Model.pack u)

theorem add_eq (x y : Float) : x + y = ofParts (add Format.binary64 (parts x) (parts y)) := rfl

theorem sub_eq (x y : Float) : x - y = ofParts (sub Format.binary64 (parts x) (parts y)) := rfl

theorem mul_eq (x y : Float) : x * y = ofParts (mul Format.binary64 (parts x) (parts y)) := rfl

theorem div_eq (x y : Float) : x / y = ofParts (div Format.binary64 (parts x) (parts y)) := rfl

theorem neg_eq (x : Float) : -x = ofParts (neg (parts x)) := rfl

theorem abs_eq (x : Float) : x.abs = ofParts (abs (parts x)) := rfl

theorem sqrt_eq (x : Float) : x.sqrt = ofParts (sqrt Format.binary64 (parts x)) := rfl

theorem beq_eq (x y : Float) : (x == y) = UnpackedFloat.beq (parts x) (parts y) := rfl

theorem lt_iff (x y : Float) : x < y ↔ UnpackedFloat.lt (parts x) (parts y) = true :=
  decide_eq_true_iff

theorem isFinite_eq (x : Float) : x.isFinite = isFinite (parts x) := rfl

theorem isNaN_eq (x : Float) : x.isNaN = isNaN (parts x) := rfl

theorem parts_ofParts_zero (s : Sign) : parts (ofParts (.zero s)) = .zero s := by
  cases s <;> rfl

/-- A double comes back from its parts. -/
theorem ofParts_parts (x : Float) : ofParts (parts x) = x := by
  obtain ⟨⟨u, hu⟩⟩ := x
  have hword : pack Format.binary64 (unpack Format.binary64 u.toBitVec) = u.toBitVec := by
    by_cases he : @unpackExponent Format.binary64 u.toBitVec = -1#11
    · by_cases hm : @unpackMantissa Format.binary64 u.toBitVec = 0#52
      · exact pack_unpack _ fun _ => hm
      · rw [unpack_undefined _ he hm]
        exact (hu.eq_packedNaN he hm).symm
    · exact pack_unpack _ fun h => absurd h he
  apply eq_of_toBits
  change UInt64.ofBitVec (pack Format.binary64 (unpack Format.binary64 u.toBitVec)) = u
  rw [hword]

def IsZero (x : Float) : Prop := ∃ s, parts x = .zero s

/-- The doubles are the same or both are zero. -/
def Alike (x y : Float) : Prop := x = y ∨ (IsZero x ∧ IsZero y)

/-- The same for parts. -/
def AlikeParts (u v : UnpackedFloat) : Prop := u = v ∨ ∃ s t, u = .zero s ∧ v = .zero t

theorem isZero_zero : IsZero 0 := ⟨.positive, rfl⟩

theorem isFinite_zero : (0 : Float).isFinite = true := rfl

namespace AlikeParts

theorem refl (u : UnpackedFloat) : AlikeParts u u := Or.inl rfl

theorem zeros (s t : Sign) : AlikeParts (.zero s) (.zero t) := Or.inr ⟨s, t, rfl, rfl⟩

theorem trans {u v w : UnpackedFloat} (h : AlikeParts u v) (h' : AlikeParts v w) :
    AlikeParts u w := by
  rcases h with rfl | ⟨s, t, rfl, rfl⟩
  · exact h'
  · rcases h' with rfl | ⟨_, t', _, rfl⟩
    · exact zeros s t
    · exact zeros s t'

theorem alike {u v : UnpackedFloat} (h : AlikeParts u v) : Alike (ofParts u) (ofParts v) := by
  rcases h with rfl | ⟨s, t, rfl, rfl⟩
  · exact Or.inl rfl
  · exact Or.inr ⟨⟨s, parts_ofParts_zero s⟩, ⟨t, parts_ofParts_zero t⟩⟩

/-- An operation that cannot tell zeros apart on the left cannot tell alike parts apart there. -/
theorem congr_one {f : UnpackedFloat → UnpackedFloat}
    (hf : ∀ s t, AlikeParts (f (.zero s)) (f (.zero t))) {u v : UnpackedFloat}
    (h : AlikeParts u v) : AlikeParts (f u) (f v) := by
  rcases h with rfl | ⟨s, t, rfl, rfl⟩
  · exact refl _
  · exact hf s t

theorem congr_two {f : UnpackedFloat → UnpackedFloat → UnpackedFloat}
    (hl : ∀ s t v, AlikeParts (f (.zero s) v) (f (.zero t) v))
    (hr : ∀ s t u, AlikeParts (f u (.zero s)) (f u (.zero t))) {u u' v v' : UnpackedFloat}
    (h : AlikeParts u u') (h' : AlikeParts v v') : AlikeParts (f u v) (f u' v') :=
  (congr_one (f := fun w => f w v) (fun s t => hl s t v) h).trans
    (congr_one (f := f u') (fun s t => hr s t u') h')

end AlikeParts

namespace Alike

theorem refl (x : Float) : Alike x x := Or.inl rfl

theorem symm {x y : Float} (h : Alike x y) : Alike y x := by
  rcases h with rfl | ⟨hx, hy⟩
  · exact refl x
  · exact Or.inr ⟨hy, hx⟩

theorem trans {x y z : Float} (h : Alike x y) (h' : Alike y z) : Alike x z := by
  rcases h with rfl | ⟨hx, hy⟩
  · exact h'
  · rcases h' with rfl | ⟨_, hz⟩
    · exact Or.inr ⟨hx, hy⟩
    · exact Or.inr ⟨hx, hz⟩

theorem parts {x y : Float} (h : Alike x y) : AlikeParts (parts x) (parts y) := by
  rcases h with rfl | ⟨⟨s, hs⟩, ⟨t, ht⟩⟩
  · exact Or.inl rfl
  · exact Or.inr ⟨s, t, hs, ht⟩

variable {x x' y y' : Float}

theorem add (h : Alike x x') (h' : Alike y y') : Alike (x + y) (x' + y') := by
  rw [add_eq, add_eq]
  refine (AlikeParts.congr_two ?_ ?_ h.parts h'.parts).alike
  · intro s t v
    cases v with
    | zero r => cases s <;> cases t <;> cases r <;> exact AlikeParts.zeros _ _
    | _ => exact AlikeParts.refl _
  · intro s t u
    cases u with
    | zero r => cases s <;> cases t <;> cases r <;> exact AlikeParts.zeros _ _
    | _ => exact AlikeParts.refl _

theorem sub (h : Alike x x') (h' : Alike y y') : Alike (x - y) (x' - y') := by
  rw [sub_eq, sub_eq]
  refine (AlikeParts.congr_two ?_ ?_ h.parts h'.parts).alike
  · intro s t v
    cases v with
    | zero r => cases s <;> cases t <;> cases r <;> exact AlikeParts.zeros _ _
    | _ => exact AlikeParts.refl _
  · intro s t u
    cases u with
    | zero r => cases s <;> cases t <;> cases r <;> exact AlikeParts.zeros _ _
    | _ => exact AlikeParts.refl _

theorem mul (h : Alike x x') (h' : Alike y y') : Alike (x * y) (x' * y') := by
  rw [mul_eq, mul_eq]
  refine (AlikeParts.congr_two ?_ ?_ h.parts h'.parts).alike
  · intro s t v
    cases v with
    | zero r => exact AlikeParts.zeros _ _
    | finite r m e hm => exact AlikeParts.zeros _ _
    | _ => exact AlikeParts.refl _
  · intro s t u
    cases u with
    | zero r => exact AlikeParts.zeros _ _
    | finite r m e hm => exact AlikeParts.zeros _ _
    | _ => exact AlikeParts.refl _

theorem div (h : Alike x x') (y : Float) : Alike (x / y) (x' / y) := by
  rw [div_eq, div_eq]
  refine (AlikeParts.congr_one (f := fun u => UnpackedFloat.div _ u _) ?_ h.parts).alike
  intro s t
  cases Number.parts y with
  | infinity r => exact AlikeParts.zeros _ _
  | finite r m e hm => exact AlikeParts.zeros _ _
  | _ => exact AlikeParts.refl _

theorem neg (h : Alike x x') : Alike (-x) (-x') := by
  rw [neg_eq, neg_eq]
  exact (AlikeParts.congr_one (fun s t => AlikeParts.zeros (-s) (-t)) h.parts).alike

theorem abs (h : Alike x x') : Alike x.abs x'.abs := by
  rw [abs_eq, abs_eq]
  exact (AlikeParts.congr_one (fun _ _ => AlikeParts.zeros _ _) h.parts).alike

theorem sqrt (h : Alike x x') : Alike x.sqrt x'.sqrt := by
  rw [sqrt_eq, sqrt_eq]
  exact (AlikeParts.congr_one (fun s t => AlikeParts.zeros s t) h.parts).alike

theorem isFinite (h : Alike x x') : x.isFinite = x'.isFinite := by
  rw [isFinite_eq, isFinite_eq]
  rcases h.parts with hu | ⟨s, t, hs, ht⟩
  · rw [hu]
  · rw [hs, ht]
    rfl

theorem isNaN (h : Alike x x') : x.isNaN = x'.isNaN := by
  rw [isNaN_eq, isNaN_eq]
  rcases h.parts with hu | ⟨s, t, hs, ht⟩
  · rw [hu]
  · rw [hs, ht]
    rfl

private theorem compare_eq {u u' v v' : UnpackedFloat} (h : AlikeParts u u')
    (h' : AlikeParts v v') : UnpackedFloat.compare u v = UnpackedFloat.compare u' v' := by
  have hl : ∀ s t v, UnpackedFloat.compare (.zero s) v = UnpackedFloat.compare (.zero t) v := by
    intro s t v
    cases v with
    | infinity r => cases r <;> rfl
    | finite r m e hm => cases r <;> rfl
    | _ => rfl
  have hr : ∀ s t u, UnpackedFloat.compare u (.zero s) = UnpackedFloat.compare u (.zero t) := by
    intro s t u
    cases u with
    | infinity r => cases r <;> rfl
    | finite r m e hm => cases r <;> rfl
    | _ => rfl
  rcases h with rfl | ⟨s, t, rfl, rfl⟩
  · rcases h' with rfl | ⟨s', t', rfl, rfl⟩
    · rfl
    · exact hr s' t' u
  · rcases h' with rfl | ⟨s', t', rfl, rfl⟩
    · exact hl s t v
    · exact (hl s t _).trans (hr s' t' _)

theorem beq (h : Alike x x') (h' : Alike y y') : (x == y) = (x' == y') := by
  rw [beq_eq, beq_eq]
  unfold UnpackedFloat.beq
  rw [compare_eq h.parts h'.parts]

theorem lt (h : Alike x x') (h' : Alike y y') : (x < y) = (x' < y') := by
  apply propext
  rw [lt_iff, lt_iff]
  unfold UnpackedFloat.lt
  rw [compare_eq h.parts h'.parts]

end Alike

private theorem compare_self (u : UnpackedFloat) (h : u.isNaN = false) :
    UnpackedFloat.compare u u = some .eq := by
  cases u with
  | notANumber => exact absurd h (by decide)
  | infinity s => cases s <;> rfl
  | zero s => rfl
  | finite s m e hm =>
    cases s with
    | negative =>
      change some (((compare e e).then (compare m m)).swap) = some .eq
      simp
    | positive =>
      change some ((compare e e).then (compare m m)) = some .eq
      simp

private theorem alikeParts_of_compare {u v : UnpackedFloat}
    (h : UnpackedFloat.compare u v = some .eq) : AlikeParts u v := by
  cases u with
  | notANumber => cases h
  | infinity s =>
    cases v with
    | infinity t =>
      cases s <;> cases t
      · exact AlikeParts.refl _
      · cases h
      · cases h
      · exact AlikeParts.refl _
    | _ => cases s <;> cases h
  | zero s =>
    cases v with
    | zero t => exact AlikeParts.zeros s t
    | infinity t => cases t <;> cases h
    | finite t m e hm => cases t <;> cases h
    | notANumber => cases h
  | finite s m e hm =>
    cases v with
    | finite t m' e' hm' =>
      have hsame : (compare e e').then (compare m m') = .eq → e = e' ∧ m = m' := by
        intro hthen
        simpa [Ordering.then_eq_eq] using hthen
      cases s <;> cases t
      · obtain ⟨rfl, rfl⟩ := hsame (Ordering.swap_eq_eq.mp (Option.some.inj h))
        exact AlikeParts.refl _
      · cases h
      · cases h
      · obtain ⟨rfl, rfl⟩ := hsame (Option.some.inj h)
        exact AlikeParts.refl _
    | zero t => cases s <;> cases h
    | infinity t => cases s <;> cases t <;> cases h
    | notANumber => cases s <;> cases h

/-- Doubles that are equal as numbers are alike. -/
theorem alike_of_beq {x y : Float} (h : (x == y) = true) : Alike x y := by
  rw [beq_eq] at h
  have hparts := alikeParts_of_compare (eq_of_beq h)
  have halike := hparts.alike
  rwa [ofParts_parts, ofParts_parts] at halike

/-- A double that is a number equals the doubles that are alike. -/
theorem beq_of_alike {x y : Float} (h : Alike x y) (hx : x.isNaN = false) : (x == y) = true := by
  rw [← Alike.beq (Alike.refl x) h, beq_eq]
  unfold UnpackedFloat.beq
  rw [compare_self _ (by rwa [isNaN_eq] at hx)]
  rfl

theorem isNaN_of_isFinite {x : Float} (h : x.isFinite = true) : x.isNaN = false := by
  rw [isFinite_eq] at h
  rw [isNaN_eq]
  cases hx : parts x with
  | notANumber => rw [hx] at h; exact absurd h (by decide)
  | _ => rfl

theorem isZero_iff_beq_zero (x : Float) : IsZero x ↔ (x == 0) = true := by
  constructor
  · intro h
    have hx : x.isNaN = false := by
      obtain ⟨s, hs⟩ := h
      rw [isNaN_eq, hs]
      rfl
    exact beq_of_alike (Or.inr ⟨h, isZero_zero⟩) hx
  · intro h
    rcases alike_of_beq h with rfl | ⟨hx, _⟩
    · exact isZero_zero
    · exact hx

end Reckoner.Number
