/-!
Warnings that are printed when the journal cannot be kept. At most one is printed in a minute.
-/
namespace Reckoner.Journal

/-- The time between two printed warnings, in seconds. -/
def warningInterval : Float := 60

structure Warnings where
  /-- The time now, in seconds. -/
  clock : Float
  /-- When the last warning was printed; zero before the first. -/
  last : Float
  /-- The lines printed, oldest first. -/
  lines : List (List Char)

namespace Warnings

def mark : List Char := "[notecalc] ".toList

/-- Prints a warning, unless the last one is too recent. -/
def warn (w : Warnings) (message : List Char) : Warnings :=
  if w.clock - w.last < warningInterval then w
  else { w with last := w.clock, lines := w.lines ++ [mark ++ message] }

def advance (w : Warnings) (milliseconds : Nat) : Warnings :=
  { w with clock := w.clock + milliseconds.toFloat / 1000 }

end Warnings

end Reckoner.Journal
