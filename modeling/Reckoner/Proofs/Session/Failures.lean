import Reckoner.Proofs.Formula.ScopeReading
import Reckoner.Proofs.Number.Displayed
import Reckoner.Session.Calculation

/-!
How evaluating an expression in a context can fail. A fault is reported as such. The evaluation can
also break down: in reading the context, at a whole number beyond the range of doubles, and in the
expression, at a line reference with too many digits or at a rounding by a vanishing power of ten.
Showing a value does not fail.
-/
namespace Reckoner.Session

open Text Number Data Formula

variable {expression : List Char} {context : Value} {depth : Int} {b : Breakdown}

theorem isFinite_of_valueIn {x : Float} (h : valueIn context depth expression = .ok x) :
    x.isFinite = true := by
  obtain ⟨scope, _, hx⟩ := bind_eq_ok h
  exact isFinite_of_evaluate hx

/-- A finite value can be shown in any number of places. -/
theorem exists_present {x : Float} (h : x.isFinite = true) (precision : Int) :
    ∃ shown, display x (clampPrecision precision) = some shown ∧
      present x (.int precision) = .ok shown := by
  obtain ⟨parts, hparts⟩ := exists_binary h
  refine ⟨parts.display x.abs (clampPrecision precision), ?_, present_eq hparts precision⟩
  unfold display
  rw [hparts]
  rfl

theorem evaluate_of_value (s : Session) {x : Float}
    (h : valueIn context depth expression = .ok x) (precision : Int) :
    ∃ shown, display x (clampPrecision precision) = some shown ∧
      (s.evaluate expression context (.int precision) depth).1 = .ok shown := by
  obtain ⟨shown, hdisplay, hpresent⟩ := exists_present (isFinite_of_valueIn h) precision
  refine ⟨shown, hdisplay, ?_⟩
  unfold evaluate
  rw [h]
  dsimp only
  rw [hpresent]

theorem evaluate_of_failure (s : Session) {precision : Value} {why : Failure}
    (h : valueIn context depth expression = .error why) :
    (s.evaluate expression context precision depth).1 = .error why := by
  unfold evaluate
  rw [h]
  cases why <;> rfl

section Sample

/-- A session without files and without a log. -/
def unlogged : Session where
  tree := .empty
  log := none
  stampAt := decimalDigits
  stamped := 0
  runIdAt := decimalDigits
  started := 0
  warnings := ⟨0, 0, []⟩

end Sample

end Reckoner.Session
