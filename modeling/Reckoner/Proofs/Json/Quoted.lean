import Reckoner.Json.Reader
import Reckoner.Json.Writer

/-!
Texts between quotes. A text is written as escapes of its characters, and an escape is read as the
code units of its character. Joining the units of a text gives the text back, since no character is
a surrogate.
-/
namespace Reckoner.Json

open Text Data

/-- The code units of a character: two beyond the first plane. -/
def unitsOf (c : Char) : List Nat :=
  if c.toNat < 0x10000 then [c.toNat]
  else [0xD800 + (c.toNat - 0x10000) / 0x400, 0xDC00 + (c.toNat - 0x10000) % 0x400]

section Units

theorem hexValue?_hexDigit {n : Nat} (h : n < 16) : hexValue? (hexDigit n) = some n := by
  have hall : ∀ k ∈ List.range 16, hexValue? (hexDigit k) = some k := by decide
  exact hall n (List.mem_range.mpr h)

/-- Four hexadecimal digits hold a code unit. -/
theorem hexDigits_four (n : Nat) :
    hexDigits 4 n =
      [hexDigit (n / 16 / 16 / 16 % 16), hexDigit (n / 16 / 16 % 16), hexDigit (n / 16 % 16),
        hexDigit (n % 16)] := rfl

theorem readUnits_unitEscape {n : Nat} (hn : n < 0x10000) {s rest : List Char} {units : List Nat}
    (h : readUnits s = some (units, rest)) :
    readUnits (unitEscape n ++ s) = some (n :: units, rest) := by
  have hvalue : unitValue? (hexDigit (n / 16 / 16 / 16 % 16)) (hexDigit (n / 16 / 16 % 16))
      (hexDigit (n / 16 % 16)) (hexDigit (n % 16)) = some n := by
    have hlt : ∀ k, k % 16 < 16 := fun k => Nat.mod_lt k (by decide)
    unfold unitValue?
    rw [hexValue?_hexDigit (hlt _), hexValue?_hexDigit (hlt _), hexValue?_hexDigit (hlt _),
      hexValue?_hexDigit (hlt _)]
    refine congrArg some ?_
    omega
  unfold unitEscape
  rw [hexDigits_four]
  change readUnits ('\\' :: 'u' :: _ :: _ :: _ :: _ :: s) = _
  rw [readUnits, hvalue, h]
  rfl

/-- A short escape is read as the character that it stands for. -/
theorem readUnits_escape {c d : Char} (hc : c ≠ 'u') (hd : unescape? c = some d)
    {s rest : List Char} {units : List Nat} (h : readUnits s = some (units, rest)) :
    readUnits ('\\' :: c :: s) = some (d.toNat :: units, rest) := by
  rw [readUnits, hd, h]
  · rfl
  · intro _ _ _ _ _ hu
    exact absurd hu hc

theorem readUnits_plain {c : Char} (hquote : c ≠ '\x22') (hslash : c ≠ '\\') (hc : 32 ≤ c.toNat)
    {s rest : List Char} {units : List Nat} (h : readUnits s = some (units, rest)) :
    readUnits (c :: s) = some (c.toNat :: units, rest) := by
  have hlegal : ¬ (c = '\\' ∨ c.toNat < 32) := not_or.mpr ⟨hslash, Nat.not_lt.mpr hc⟩
  rw [readUnits, if_neg hquote, if_neg hlegal, h]
  · rfl
  · intro _ _ _ _ _ heq
    exact absurd heq hslash
  · intro _ _ heq
    exact absurd heq hslash

/-- The escape of a character is read as its code units. -/
theorem readUnits_escapeChar (c : Char) {s rest : List Char} {units : List Nat}
    (h : readUnits s = some (units, rest)) :
    readUnits (escapeChar c ++ s) = some (unitsOf c ++ units, rest) := by
  have hshort : ∀ {d : Char}, c.toNat < 0x10000 → d ≠ 'u' → unescape? d = some c →
      readUnits ('\\' :: d :: s) = some (unitsOf c ++ units, rest) := by
    intro d hc hd hvalue
    rw [readUnits_escape hd hvalue h, unitsOf, if_pos hc]
    rfl
  unfold escapeChar
  iterate 7
    split
    · rename_i hc
      subst hc
      exact hshort (by decide) (by decide) (by decide)
  rename_i hquote hslash _ _ _ _ _
  split
  · rename_i hrange
    rw [unitsOf, if_pos (by omega)]
    exact readUnits_plain hquote hslash hrange.1 h
  split
  · rename_i hplane
    rw [unitsOf, if_pos hplane]
    exact readUnits_unitEscape hplane h
  · rename_i hplane
    have hvalid : c.toNat < 0x110000 := by
      rcases c.valid with hlow | hhigh
      · exact Nat.lt_trans hlow (by decide)
      · exact hhigh.2
    rw [unitsOf, if_neg hplane]
    dsimp only
    rw [List.append_assoc,
      readUnits_unitEscape (by omega) (readUnits_unitEscape (by omega) h)]
    rfl

/-- Reading stops at the closing quote. -/
theorem readUnits_text (s rest : List Char) :
    readUnits (s.flatMap escapeChar ++ '\x22' :: rest) = some (s.flatMap unitsOf, rest) := by
  induction s with
  | nil =>
    rw [List.flatMap_nil, List.nil_append, readUnits, if_pos rfl]
    · rfl
    · rintro _ _ _ _ _ ⟨⟩
    · rintro _ _ ⟨⟩
  | cons c s ih =>
    rw [List.flatMap_cons, List.append_assoc, readUnits_escapeChar c ih, List.flatMap_cons]

end Units

section Joining

theorem not_surrogate (c : Char) : ¬ (0xD800 ≤ c.toNat ∧ c.toNat < 0xE000) := by
  rintro ⟨hlow, hhigh⟩
  rcases c.valid with h | h
  · have h' : c.toNat < 0xD800 := h
    omega
  · have h' : 0xDFFF < c.toNat := h.1
    omega

theorem isHigh_toNat (c : Char) : isHigh c.toNat = false := by
  have hc := not_surrogate c
  unfold isHigh
  rw [Bool.eq_false_iff, ne_eq, Bool.and_eq_true, decide_eq_true_iff, decide_eq_true_iff]
  omega

theorem isLow_toNat (c : Char) : isLow c.toNat = false := by
  have hc := not_surrogate c
  unfold isLow
  rw [Bool.eq_false_iff, ne_eq, Bool.and_eq_true, decide_eq_true_iff, decide_eq_true_iff]
  omega

/-- A unit of a character by itself. -/
theorem joinUnits_single (c : Char) (units : List Nat) :
    joinUnits (c.toNat :: units) = c :: joinUnits units := by
  cases units with
  | nil => simp [joinUnits, isHigh_toNat, isLow_toNat]
  | cons n r =>
    rw [joinUnits, isHigh_toNat, isLow_toNat, Char.ofNat_toNat]
    rfl

/-- Joining the units of a character gives the character. -/
theorem joinUnits_unitsOf (c : Char) (units : List Nat) :
    joinUnits (unitsOf c ++ units) = c :: joinUnits units := by
  unfold unitsOf
  split
  · exact joinUnits_single c units
  · rename_i hplane
    have hvalid : c.toNat < 0x110000 := by
      rcases c.valid with hlow | hhigh
      · exact Nat.lt_trans hlow (by decide)
      · exact hhigh.2
    generalize hhi : 0xD800 + (c.toNat - 0x10000) / 0x400 = hi
    generalize hlo : 0xDC00 + (c.toNat - 0x10000) % 0x400 = lo
    have hpair : (isHigh hi && isLow lo) = true := by
      unfold isHigh isLow
      simp only [Bool.and_eq_true, decide_eq_true_iff]
      omega
    have hvalue : 0x10000 + (hi - 0xD800) * 0x400 + (lo - 0xDC00) = c.toNat := by omega
    change joinUnits (hi :: lo :: units) = _
    rw [joinUnits, if_pos hpair, hvalue, Char.ofNat_toNat]

theorem joinUnits_text (s : List Char) : joinUnits (s.flatMap unitsOf) = s := by
  induction s with
  | nil => rfl
  | cons c s ih => rw [List.flatMap_cons, joinUnits_unitsOf, ih]

end Joining

end Reckoner.Json
