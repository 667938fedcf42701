import Mathlib.Data.Bool.AllAny
import Reckoner.Arith.Tree
import Reckoner.Proofs.Text.Digits
import Reckoner.Text.Blank
import Reckoner.Text.Word

/-!
How the classes of characters lie to each other. Digits and the starts of names are word
characters, and no character is both; blanks, operators and punctuation marks are no word
characters.
-/
namespace Reckoner.Text

open Arith

/-- The characters of expressions that are no word characters, apart from wide blanks. -/
def marks : List Char := [' ', '(', ')', ',', '.', '@', '+', '-', '*', '/', '%', '^']

variable {c : Char}

theorem isWord_of_isDigit (h : isDigit c = true) : isWord c = true := by
  unfold isWord isNumeric
  rw [h]
  simp

theorem isNameStart_ascii (h : isNameStart c = true) :
    c.toNat < 128 ∧ ¬ (48 ≤ c.toNat ∧ c.toNat ≤ 57) := by
  unfold isNameStart isAsciiLetter at h
  simp only [Bool.or_eq_true, Bool.and_eq_true, decide_eq_true_iff, beq_iff_eq] at h
  rcases h with (⟨hl, hh⟩ | ⟨hl, hh⟩) | rfl
  · have hl' : 97 ≤ c.toNat := hl
    have hh' : c.toNat ≤ 122 := hh
    omega
  · have hl' : 65 ≤ c.toNat := hl
    have hh' : c.toNat ≤ 90 := hh
    omega
  · decide

theorem isWord_of_isNameStart (h : isNameStart c = true) : isWord c = true := by
  have hascii := (isNameStart_ascii h).1
  unfold isNameStart at h
  unfold isWord isAlphabetic
  rw [if_pos hascii]
  rcases Bool.or_eq_true_iff.mp h with hletter | hunder
  · rw [hletter]
    simp
  · rw [hunder]
    simp

theorem isDigit_of_isNameStart (h : isNameStart c = true) : isDigit c = false := by
  obtain ⟨hascii, hrange⟩ := isNameStart_ascii h
  have hdigit : isAsciiDigit c = false := by
    rw [Bool.eq_false_iff, ne_eq, Number.isAsciiDigit_iff]
    exact hrange
  unfold isDigit digitValue?
  rw [if_pos hascii, if_neg (by rw [hdigit]; decide)]
  rfl

theorem isNameStart_of_isDigit (h : isDigit c = true) : isNameStart c = false := by
  rw [Bool.eq_false_iff]
  intro hstart
  rw [isDigit_of_isNameStart hstart] at h
  exact absurd h (by decide)

/-- The blocks of digits lie between the ranges of letters. -/
theorem isAlphabetic_of_isDigit (h : isDigit c = true) : isAlphabetic c = false := by
  have hapart : (zeros.all fun z => letterRanges.all fun r => r.2.blt z || (z + 10).ble r.1) = true := by
    decide +kernel
  simp only [List.all_eq_true, Bool.or_eq_true, Nat.blt_eq, Nat.ble_eq] at hapart
  unfold isDigit digitValue? at h
  unfold isAlphabetic
  split at h
  · rename_i hascii
    rw [if_pos hascii]
    split at h
    · rename_i hdigit
      have hstart := isNameStart_of_isDigit (c := c) (by simp [isDigit, digitValue?, hascii, hdigit])
      exact (Bool.or_eq_false_iff.mp hstart).1
    · exact absurd h Bool.false_ne_true
  · rename_i hwide
    rw [if_neg hwide, Option.isSome_map, List.find?_isSome] at *
    obtain ⟨z, hz, hrange⟩ := h
    unfold inRanges
    rw [List.any_eq_false]
    intro r hr hin
    have hgap := hapart z hz r hr
    simp only [Bool.and_eq_true, decide_eq_true_eq] at hrange hin
    omega

theorem isWord_of_mem_marks (h : c ∈ marks) : isWord c = false := by
  have hall : ∀ d ∈ marks, isWord d = false := List.all_iff_forall_prop.mp (by decide)
  exact hall c h

theorem not_mem_marks (h : isWord c = true) : c ∉ marks := by
  intro hmem
  rw [isWord_of_mem_marks hmem] at h
  exact absurd h (by decide)

theorem isBlank_of_isWord (h : isWord c = true) : isBlank c = false := by
  have hall : ∀ n ∈ blankCodes, isWord (Char.ofNat n) = false := by decide +kernel
  rw [Bool.eq_false_iff]
  intro hblank
  have hword := hall c.toNat (List.contains_iff_mem.mp hblank)
  rw [Char.ofNat_toNat, h] at hword
  exact absurd hword (by decide)

theorem isWord_of_isBlank (h : isBlank c = true) : isWord c = false := by
  rw [Bool.eq_false_iff]
  intro hword
  rw [isBlank_of_isWord hword] at h
  exact Bool.false_ne_true h

theorem isOperator_iff : isOperator c = true ↔ ∃ op : Op, op.symbol = c := by
  unfold isOperator Op.ofSymbol?
  rw [List.find?_isSome]
  constructor
  · rintro ⟨op, _, h⟩
    exact ⟨op, eq_of_beq h⟩
  · rintro ⟨op, rfl⟩
    exact ⟨op, by cases op <;> decide, beq_self_eq_true _⟩

theorem symbol_mem_marks (op : Op) : op.symbol ∈ marks := by
  cases op <;> decide

theorem isOperator_symbol (op : Op) : isOperator op.symbol = true := isOperator_iff.mpr ⟨op, rfl⟩

theorem isOperator_of_isWord (h : isWord c = true) : isOperator c = false := by
  rw [Bool.eq_false_iff]
  intro hop
  obtain ⟨op, rfl⟩ := isOperator_iff.mp hop
  exact not_mem_marks h (symbol_mem_marks op)

theorem isWord_of_isOperator (h : isOperator c = true) : isWord c = false := by
  obtain ⟨op, rfl⟩ := isOperator_iff.mp h
  exact isWord_of_mem_marks (symbol_mem_marks op)

theorem isOperator_of_isBlank (h : isBlank c = true) : isOperator c = false := by
  rw [Bool.eq_false_iff]
  intro hop
  obtain ⟨op, rfl⟩ := isOperator_iff.mp hop
  revert h
  cases op <;> decide

end Reckoner.Text
