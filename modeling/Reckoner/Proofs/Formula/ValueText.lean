import Reckoner.Proofs.Arith.Accepted
import Reckoner.Proofs.Formula.CanonicalText
import Reckoner.Proofs.Formula.Settled

/-!
The text of a value in an expression. Whichever way the digits of a double are laid out, the text
holds ASCII digits, at most a point and, for a negative value, a minus sign and parentheses, so it
has no exponent. It is its own canonical form and arithmetic that is read as the value again. That
the shortest digits read back is no assumption here: `within_shortest` shows it of the search for
them, and `nearestDecimal_of_within` of the reader.
-/
namespace Reckoner.Formula

open Text Number Arith

section Characters

variable {s : List Char} {c : Char}

/-- Laying out digits adds zeros and a point. -/
theorem mem_positional {point : Int} (h : c ∈ positional [] s point) :
    c ∈ s ∨ c = '0' ∨ c = '.' := by
  have hzeros : ∀ {n : Nat}, c ∈ zeroDigits n → c = '0' := fun h => List.eq_of_mem_replicate h
  unfold positional at h
  split at h
  · rcases List.mem_cons.mp h with hc | h
    · exact Or.inr (Or.inl hc)
    rcases List.mem_cons.mp h with hc | h
    · exact Or.inr (Or.inr hc)
    rcases List.mem_append.mp h with h | h
    · exact Or.inr (Or.inl (hzeros h))
    · exact Or.inl h
  split at h
  · rw [List.append_nil] at h
    rcases List.mem_append.mp h with h | h
    · exact Or.inl h
    · exact Or.inr (Or.inl (hzeros h))
  · rcases List.mem_append.mp h with h | h
    · exact Or.inl (List.mem_of_mem_take h)
    rcases List.mem_cons.mp h with hc | h
    · exact Or.inr (Or.inr hc)
    · exact Or.inl (List.mem_of_mem_drop h)

/-- A numeral has no exponent. -/
theorem mem_numeral {b : Binary} (h : c ∈ b.numeral) :
    isAsciiDigit c = true ∨ c = '.' ∨ c = '-' := by
  have hsign : ∀ {negative : Bool} {t : List Char}, c ∈ withSign negative t →
      c = '-' ∨ c ∈ t := by
    intro negative t h
    cases negative with
    | false => exact Or.inr h
    | true => exact List.mem_cons.mp h
  unfold Binary.numeral at h
  dsimp only at h
  split at h
  · rcases hsign h with hc | h
    · exact Or.inr (Or.inr hc)
    · exact Or.inl (isAsciiDigit_decimalDigits h)
  · rcases hsign h with hc | h
    · exact Or.inr (Or.inr hc)
    rcases mem_positional h with h | rfl | hc
    · -- dropping zeros at the end leaves some of the digits
      obtain ⟨k, hk⟩ := dropTrailingZeros_append
        (decimalDigits (shortest b.mantissa b.exponent).digits)
      refine Or.inl (isAsciiDigit_decimalDigits
        (n := (shortest b.mantissa b.exponent).digits) ?_)
      rw [hk]
      exact List.mem_append_left _ h
    · exact Or.inl (by decide)
    · exact Or.inr (Or.inl hc)

theorem mem_valueText {x : Float} (h : literal x = .ok s) (hc : c ∈ s) :
    isAsciiDigit c = true ∨ c ∈ ['.', '-', '(', ')'] := by
  have hnumeral : ∀ {t : List Char}, numeral x = .ok t → c ∈ t →
      isAsciiDigit c = true ∨ c ∈ ['.', '-', '(', ')'] := by
    intro t ht hmem
    unfold numeral at ht
    split at ht
    · exact absurd ht (by simp)
    · obtain rfl := Except.ok.inj ht
      rcases mem_numeral hmem with hdigit | rfl | rfl
      · exact Or.inl hdigit
      · exact Or.inr (by decide)
      · exact Or.inr (by decide)
  unfold literal at h
  split at h
  · rename_i t ht
    obtain rfl := Except.ok.inj h
    split at hc
    · rcases List.mem_append.mp hc with hc | hc
      · rcases List.mem_cons.mp hc with rfl | hc
        · exact Or.inr (by decide)
        · exact hnumeral ht hc
      · rw [List.mem_singleton.mp hc]
        exact Or.inr (by decide)
    · exact hnumeral ht hc
  · exact absurd h (by simp)

end Characters

section Reading

variable {x : Float}

theorem arithmetic_ofValue (x : Float) : (Expr.ofValue x).Arithmetic := by
  unfold Expr.ofValue
  split
  · exact .group (.neg (.numeral _))
  · exact .numeral _

/-- No minus sign of a value stands before a name. -/
theorem widen_ofValue (x : Float) : (Expr.ofValue x).widen = Expr.ofValue x := by
  unfold Expr.ofValue
  split
  · rw [Expr.widen, Expr.widen, Expr.widen, Expr.lexemes]
    rfl
  · rw [Expr.widen]

theorem evaluate_ofValue (hx : x.isFinite = true) :
    ∃ y, Arith.evaluate (textOf (Expr.ofValue x).lexemes) = .ok y ∧ Alike y x := by
  have hvalue := evaluate_textOf (arithmetic_ofValue x) (levelled_ofValue x) [] Scope.empty
  have hsame := value_ofValue hx [] Scope.empty
  rw [← hvalue] at hsame
  cases hevaluate : Arith.evaluate (textOf (Expr.ofValue x).lexemes) with
  | error _ =>
    rw [hevaluate] at hsame
    cases hsame
  | ok y =>
    rw [hevaluate] at hsame
    cases hsame with
    | some halike => exact ⟨y, rfl, halike⟩

end Reading

/-- The text that substitution writes for a finite double has no exponent, since all its characters
are ASCII digits, points, minus signs and parentheses. The canonical form leaves it alone, it is
derived from the grammar, and its value is equal to the double. -/
theorem literal_reads_back (x : Float) (hx : x.isFinite = true) :
    ∃ s, literal x = .ok s ∧
      (∀ c ∈ s, isAsciiDigit c = true ∨ c ∈ ['.', '-', '(', ')']) ∧
      canonical s = s ∧
      (∃ d : Derivation .expr, Lexed s d.tokens) ∧
      ∃ y, Arith.evaluate s = .ok y ∧ (y == x) = true := by
  have hliteral := literal_eq_ofValue hx
  refine ⟨_, hliteral, fun c hc => mem_valueText hliteral hc, ?_, ?_, ?_⟩
  · rw [canonical_textOf, widen_ofValue]
  · have hparse := parse_textOf (arithmetic_ofValue x) (levelled_ofValue x)
    rw [parse_eq_ok, trim_textOf] at hparse
    obtain ⟨d, hd, _⟩ := exists_derivation hparse
    exact ⟨d, hd⟩
  · obtain ⟨y, hy, halike⟩ := evaluate_ofValue hx
    have hnumber : y.isNaN = false := isNaN_of_isFinite (halike.isFinite.trans hx)
    exact ⟨y, hy, beq_of_alike halike hnumber⟩

/-- The least double below zero: its text has 324 decimal places. -/
theorem literal_least_negative :
    (Float.ofBits 0x8000000000000001).isFinite = true ∧
      ∃ s, literal (Float.ofBits 0x8000000000000001) = .ok s ∧
        (∀ c ∈ s, isAsciiDigit c = true ∨ c ∈ ['.', '-', '(', ')']) ∧
        canonical s = s ∧
        (∃ d : Derivation .expr, Lexed s d.tokens) ∧
        ∃ y, Arith.evaluate s = .ok y ∧ (y == Float.ofBits 0x8000000000000001) = true :=
  ⟨by decide, literal_reads_back _ (by decide)⟩

end Reckoner.Formula
