import Mathlib.Data.List.Induction
import Mathlib.Data.List.TakeWhile
import Mathlib.Tactic.Ring
import Reckoner.Number.Layout
import Reckoner.Number.Reading

/-!
Texts of digits. Their value is that of the digits in base ten, so appending digits shifts the
value, leading zeros count nothing and trailing zeros are powers of ten. The digits of a whole
number have the number as their value.
-/
namespace Reckoner.Number

open Text

/-- The texts of digits, of any script. -/
def AllDigits (s : List Char) : Prop := ∀ c ∈ s, isDigit c = true

theorem isAsciiDigit_iff (c : Char) : isAsciiDigit c = true ↔ 48 ≤ c.toNat ∧ c.toNat ≤ 57 := by
  unfold isAsciiDigit
  rw [Bool.and_eq_true, decide_eq_true_iff, decide_eq_true_iff]
  exact Iff.rfl

theorem digitValue?_ascii {c : Char} (h : isAsciiDigit c = true) :
    digitValue? c = some (c.toNat - 48) := by
  have hrange := (isAsciiDigit_iff c).mp h
  unfold digitValue?
  rw [if_pos (by omega), if_pos h]

theorem digitValue?_lt {c : Char} {d : Nat} (h : digitValue? c = some d) : d < 10 := by
  unfold digitValue? at h
  split at h
  · split at h
    · rename_i hc
      have hrange := (isAsciiDigit_iff c).mp hc
      obtain rfl := Option.some.inj h
      omega
    · exact absurd h (by simp)
  · obtain ⟨z, hz, rfl⟩ := Option.map_eq_some_iff.mp h
    have hrange := List.find?_some hz
    rw [Bool.and_eq_true, decide_eq_true_iff, decide_eq_true_iff] at hrange
    omega

theorem isDigit_ascii {c : Char} (h : isAsciiDigit c = true) : isDigit c = true := by
  unfold isDigit
  rw [digitValue?_ascii h]
  rfl

theorem allDigits_nil : AllDigits [] := fun _ h => absurd h List.not_mem_nil

theorem allDigits_cons {c : Char} {s : List Char} (hc : isDigit c = true)
    (hs : AllDigits s) : AllDigits (c :: s) := by
  intro d hd
  rcases List.mem_cons.mp hd with rfl | hd
  · exact hc
  · exact hs d hd

theorem AllDigits.append {s t : List Char} (hs : AllDigits s) (ht : AllDigits t) :
    AllDigits (s ++ t) := by
  intro c hc
  rcases List.mem_append.mp hc with h | h
  · exact hs c h
  · exact ht c h

theorem allDigits_zeroDigits (n : Nat) : AllDigits (zeroDigits n) := by
  intro c hc
  rw [List.eq_of_mem_replicate hc]
  decide

theorem isAsciiDigit_decimalDigits {n : Nat} {c : Char} (hc : c ∈ decimalDigits n) :
    isAsciiDigit c = true := by
  have h := Nat.isDigit_of_mem_toDigits (by decide) (by decide) hc
  unfold Char.isDigit at h
  rw [Bool.and_eq_true, decide_eq_true_iff, decide_eq_true_iff] at h
  exact (isAsciiDigit_iff c).mpr h

theorem allDigits_decimalDigits (n : Nat) : AllDigits (decimalDigits n) := fun _ hc =>
  isDigit_ascii (isAsciiDigit_decimalDigits hc)

section Value

variable {s t : List Char}

theorem filterMap_length (h : AllDigits s) : (s.filterMap digitValue?).length = s.length := by
  induction s with
  | nil => rfl
  | cons c s ih =>
    have hs : AllDigits s := fun d hd => h d (List.mem_cons_of_mem c hd)
    obtain ⟨d, hd⟩ := Option.isSome_iff_exists.mp (h c List.mem_cons_self)
    rw [List.filterMap_cons_some hd, List.length_cons, ih hs, List.length_cons]

private theorem foldl_shift (values : List Nat) (n : Nat) :
    values.foldl (fun n d => 10 * n + d) n = n * 10 ^ values.length + foldDigits values := by
  induction values generalizing n with
  | nil => simp [foldDigits]
  | cons d rest ih =>
    have hd : foldDigits (d :: rest) = d * 10 ^ rest.length + foldDigits rest := by
      unfold foldDigits
      rw [List.foldl_cons, Nat.mul_zero, Nat.zero_add, ih]
      rfl
    rw [List.foldl_cons, ih, hd, List.length_cons, Nat.pow_succ]
    ring_nf

/-- Digits that follow shift the value of the digits before. -/
theorem digitsValue_append (ht : AllDigits t) :
    digitsValue (s ++ t) = digitsValue s * 10 ^ t.length + digitsValue t := by
  unfold digitsValue
  rw [List.filterMap_append, ← filterMap_length ht, ← foldl_shift]
  unfold foldDigits
  rw [List.foldl_append]

theorem digitsValue_nil : digitsValue [] = 0 := rfl

theorem digitsValue_singleton {c : Char} (h : isAsciiDigit c = true) :
    digitsValue [c] = c.toNat - 48 := by
  unfold digitsValue
  rw [List.filterMap_cons_some (digitValue?_ascii h)]
  simp [foldDigits]

theorem digitsValue_zeroDigits (n : Nat) : digitsValue (zeroDigits n) = 0 := by
  induction n with
  | zero => rfl
  | succ n ih =>
    have hsplit : zeroDigits (n + 1) = zeroDigits n ++ ['0'] := List.replicate_succ'
    rw [hsplit, digitsValue_append (allDigits_cons (by decide) allDigits_nil), ih]
    rfl

theorem digitsValue_zeros_append (n : Nat) (h : AllDigits s) :
    digitsValue (zeroDigits n ++ s) = digitsValue s := by
  rw [digitsValue_append h, digitsValue_zeroDigits, Nat.zero_mul, Nat.zero_add]

theorem digitsValue_append_zeros (s : List Char) (n : Nat) :
    digitsValue (s ++ zeroDigits n) = digitsValue s * 10 ^ n := by
  rw [digitsValue_append (allDigits_zeroDigits n), digitsValue_zeroDigits, Nat.add_zero]
  unfold zeroDigits
  rw [List.length_replicate]

/-- A text of digits denotes less than the power of ten of its length. -/
theorem digitsValue_lt (h : AllDigits s) : digitsValue s < 10 ^ s.length := by
  induction s using List.reverseRecOn with
  | nil => exact Nat.one_pos
  | append_singleton s c ih =>
    have hs : AllDigits s := fun d hd => h d (List.mem_append_left _ hd)
    have hc : AllDigits [c] := fun d hd => h d (List.mem_append_right _ hd)
    obtain ⟨d, hd⟩ := Option.isSome_iff_exists.mp (hc c (List.mem_singleton_self c))
    have hasValue := digitValue?_lt hd
    have hlast : digitsValue [c] < 10 := by
      unfold digitsValue
      rw [List.filterMap_cons_some hd]
      simpa [foldDigits] using hasValue
    rw [digitsValue_append hc, List.length_append, List.length_singleton, Nat.pow_succ]
    have := ih hs
    omega

/-- The digits of a number have the number as their value. -/
theorem digitsValue_decimalDigits (n : Nat) : digitsValue (decimalDigits n) = n := by
  induction n using Nat.strongRecOn with
  | ind n ih =>
    have hmod : n % 10 < 10 := Nat.mod_lt n (by decide)
    have hdigit : isAsciiDigit (Nat.digitChar (n % 10)) = true := by
      rw [isAsciiDigit_iff, Nat.toNat_digitChar_of_lt_ten hmod]
      omega
    have hlast : digitsValue [Nat.digitChar (n % 10)] = n % 10 := by
      rw [digitsValue_singleton hdigit, Nat.toNat_digitChar_of_lt_ten hmod]
      omega
    by_cases h : n < 10
    · have hshort : decimalDigits n = [Nat.digitChar (n % 10)] := by
        rw [Nat.mod_eq_of_lt h]
        exact Nat.toDigits_of_lt_base h
      rw [hshort, hlast, Nat.mod_eq_of_lt h]
    · have hlong : decimalDigits n = decimalDigits (n / 10) ++ [Nat.digitChar (n % 10)] :=
        Nat.toDigits_of_base_le (by decide) (by omega)
      rw [hlong, digitsValue_append (allDigits_cons (isDigit_ascii hdigit) allDigits_nil), hlast,
        ih (n / 10) (by omega), List.length_singleton, Nat.pow_one]
      omega

end Value

theorem decimalDigits_ne_nil (n : Nat) : decimalDigits n ≠ [] := Nat.toDigits_ne_nil

theorem lt_pow_decimalLength (n : Nat) : n < 10 ^ decimalLength n :=
  (Nat.length_toDigits_le_iff (by decide) Nat.length_toDigits_pos).mp (Nat.le_refl _)

/-- A positive number is at least the power of ten with as many digits. -/
theorem pow_decimalLength_le {n : Nat} (h : 0 < n) : 10 ^ (decimalLength n - 1) ≤ n := by
  by_contra hlt
  by_cases hone : decimalLength n - 1 = 0
  · rw [hone] at hlt
    omega
  · have hle : decimalLength n ≤ decimalLength n - 1 :=
      (Nat.length_toDigits_le_iff (by decide) (by omega)).mpr (by omega)
    omega

/-- Only zero is written with a leading zero. -/
theorem decimalDigits_leading {n : Nat} (h : (decimalDigits n).head? = some '0') : n = 0 := by
  obtain ⟨r, hr⟩ := List.head?_eq_some_iff.mp h
  by_contra hn
  have hle := pow_decimalLength_le (Nat.pos_of_ne_zero hn)
  have hlength : decimalLength n = r.length + 1 := by
    change (decimalDigits n).length = _
    rw [hr, List.length_cons]
  have hdigits : AllDigits r := fun c hc =>
    allDigits_decimalDigits n c (by rw [hr]; exact List.mem_cons_of_mem _ hc)
  have hvalue := digitsValue_decimalDigits n
  rw [hr, show '0' :: r = zeroDigits 1 ++ r from rfl, digitsValue_zeros_append 1 hdigits] at hvalue
  have hlt := digitsValue_lt hdigits
  rw [hlength, Nat.add_sub_cancel] at hle
  omega

/-- Digits are what stays and the zeros that are dropped. -/
theorem dropTrailingZeros_append (s : List Char) :
    ∃ n, s = dropTrailingZeros s ++ zeroDigits n := by
  have hsplit := List.takeWhile_append_dropWhile (p := (· == '0')) (l := s.reverse)
  refine ⟨(s.reverse.takeWhile (· == '0')).length, ?_⟩
  have hzeros : s.reverse.takeWhile (· == '0') =
      zeroDigits (s.reverse.takeWhile (· == '0')).length := by
    apply List.eq_replicate_iff.mpr
    refine ⟨rfl, fun c hc => ?_⟩
    exact eq_of_beq (List.mem_takeWhile_imp (p := (· == '0')) hc)
  have hreverse : (s.reverse.takeWhile (· == '0')).reverse =
      zeroDigits (s.reverse.takeWhile (· == '0')).length := by
    have h := congrArg List.reverse hzeros
    unfold zeroDigits at h ⊢
    rwa [List.reverse_replicate] at h
  rw [← hreverse]
  unfold dropTrailingZeros
  rw [← List.reverse_append, hsplit, List.reverse_reverse]

end Reckoner.Number
