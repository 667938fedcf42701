/-!
Sums without rounding on the way. The partial sums are doubles of increasing magnitude whose exact
total is the sum so far; adding a number passes it through all of them and keeps what each addition
loses. Only the last step rounds.
-/
namespace Reckoner.Number

/-- A sum and what its rounding lost. -/
def addWithLoss (x y : Float) : Float × Float :=
  let (x, y) := if x.abs < y.abs then (y, x) else (x, y)
  let high := x + y
  (high, y - (high - x))

/-- Adds a number to partial sums in increasing order; the first component is the new last one. -/
def carry (x : Float) : List Float → Float × List Float
  | [] => (x, [])
  | p :: rest =>
    let (high, low) := addWithLoss x p
    let (last, kept) := carry high rest
    (last, if low == 0 then kept else low :: kept)

/-- The partial sums of a list, or `none` when one of them leaves the range of doubles. -/
def partialSums (partials : List Float) : List Float → Option (List Float)
  | [] => some partials
  | x :: rest =>
    let (last, kept) := carry x partials
    if last == 0 then partialSums kept rest
    else if last.isFinite then partialSums (kept ++ [last]) rest
    else none

/-- Adds partial sums from the largest down until an addition loses something. -/
def collapse (high : Float) : List Float → Float
  | [] => high
  | p :: rest =>
    let sum := high + p
    let low := p - (sum - high)
    if low == 0 then collapse sum rest
    else match rest with
      | [] => sum
      | next :: _ =>
        if (low < 0 && next < 0) || (0 < low && 0 < next) then
          let doubled := low * 2
          let other := sum + doubled
          if doubled == other - sum then other else sum
        else sum

/-- The sum rounded once, or `none` when a partial sum is too large. -/
def exactSum (values : List Float) : Option Float :=
  (partialSums [] values).map fun partials =>
    match partials.reverse with
    | [] => 0
    | high :: rest => collapse high rest

end Reckoner.Number
