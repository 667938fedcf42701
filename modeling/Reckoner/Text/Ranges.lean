/-!
Character properties as tables of closed ranges of code points.
-/
namespace Reckoner.Text

/-- Whether a code point lies in one of the ranges of a table. -/
def inRanges (table : List (Nat × Nat)) (n : Nat) : Bool :=
  table.any fun r => r.1 ≤ n && n ≤ r.2

end Reckoner.Text
