import Reckoner.Yaml.Quoted

/-!
Block scalars. A header gives the style, how line ends at the end are kept, and optionally the
indentation, which otherwise is that of the first line with text. In the folded style a single line
end between two lines that start with text becomes a space.
-/
namespace Reckoner.Yaml

/-- What becomes of the line ends after the last line. -/
inductive Chomping
  | strip
  | clip
  | keep
deriving DecidableEq

structure BlockHeader where
  chomping : Chomping
  increment : Option Nat

def chompingOf? (c : Option Char) : Option Chomping :=
  if c = some '+' then some .keep else if c = some '-' then some .strip else none

def incrementOf? (c : Option Char) : Option Nat := c.bind fun x =>
  if '0' ≤ x ∧ x ≤ '9' then some (x.toNat - 48) else none

/-- The header after the style character: both parts are optional and come in any order. -/
def blockHeader (c : Cursor) : Reading (BlockHeader × Cursor) := do
  let (header, c) :=
    match chompingOf? c.head? with
    | some chomping =>
      match incrementOf? c.next.head? with
      | some n => ((⟨chomping, some n⟩ : BlockHeader), c.skip 2)
      | none => (⟨chomping, none⟩, c.next)
    | none =>
      match incrementOf? c.head? with
      | some n =>
        match chompingOf? c.next.head? with
        | some chomping => (⟨chomping, some n⟩, c.skip 2)
        | none => (⟨.clip, some n⟩, c.next)
      | none => (⟨.clip, none⟩, c)
  if header.increment = some 0 || !isSpaceOrEnd c.head? then refuse
  else
    let c ← c.dropRestOfLine
    return (header, c)

/-- Skips blank lines at the start; the line ends passed and the greatest column reached. -/
def leadingBreaks : Nat → Nat → Cursor → List Char × Nat × Cursor
  | 0, deepest, c => ([], deepest, c)
  | fuel + 1, deepest, c =>
    let c := c.dropSpaces
    let deepest := max deepest c.column
    match c.lineBreak? with
    | none => ([], deepest, c)
    | some (b, c) =>
      let (later, deepest, c) := leadingBreaks fuel deepest c
      (b :: later, deepest, c)

/-- Skips spaces up to a column. -/
def dropIndent (indent : Nat) : Nat → Cursor → Cursor
  | 0, c => c
  | fuel + 1, c =>
    if c.column < indent && c.head? = some ' ' then dropIndent indent fuel c.next else c

def blockBreaks (indent : Nat) : Nat → Cursor → List Char × Cursor
  | 0, c => ([], c)
  | fuel + 1, c =>
    let c := dropIndent indent indent c
    match c.lineBreak? with
    | none => ([], c)
    | some (b, c) =>
      let (later, c) := blockBreaks indent fuel c
      (b :: later, c)

def startsText (c : Cursor) : Bool := !c.head?.any isSpaceOrTab

/-- The lines from a place on, which come after the line ends `breaks`. -/
def blockLines (folded : Bool) (chomping : Chomping) (indent : Nat) :
    Nat → List Char → Cursor → List Char × Cursor
  | 0, _, c => ([], c)
  | fuel + 1, breaks, c =>
    let text := c.rest.takeWhile (!isBreak ·)
    let after := c.skip text.length
    let (lineEnd, after) :=
      match after.lineBreak? with
      | some (b, after) => ([b], after)
      | none => ([], after)
    let (later, after) := blockBreaks indent after.steps after
    if after.column = indent && after.head?.isSome then
      let joint :=
        if folded && lineEnd = ['\n'] && startsText c && startsText after then
          if later.isEmpty then [' '] else []
        else lineEnd
      let (more, last) := blockLines folded chomping indent fuel later after
      (breaks ++ text ++ joint ++ more, last)
    else
      let tail := match chomping with
        | .strip => []
        | .clip => lineEnd
        | .keep => lineEnd ++ later
      (breaks ++ text ++ tail, after)

/-- The scalar whose style character is at the cursor, inside a node of the given indentation. -/
def blockScalar (folded : Bool) (outer : Int) (c : Cursor) : Reading (List Char × Cursor) := do
  let (header, c) ← blockHeader c.next
  let least := max (outer + 1) 1 |>.toNat
  let (indent, breaks, c) :=
    match header.increment with
    | some n =>
      let indent := least + n - 1
      let (breaks, c) := blockBreaks indent c.steps c
      (indent, breaks, c)
    | none =>
      let (breaks, deepest, c) := leadingBreaks c.steps 0 c
      (max least deepest, breaks, c)
  if c.column = indent && c.head?.isSome then
    return blockLines folded header.chomping indent c.steps breaks c
  else
    return (if header.chomping = .keep then breaks else [], c)

end Reckoner.Yaml
