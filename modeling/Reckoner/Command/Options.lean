/-!
Options and arguments of a command line. Options start with two dashes and may stand anywhere; a
value follows an equals sign or is the next word. After two dashes that stand alone everything is an
argument.
-/
namespace Reckoner.Command

/-- What a command accepts: options with a value, flags, and how many arguments at most. -/
structure Shape where
  options : List String
  flags : List String

structure Words where
  /-- The options and flags in order, with their values. -/
  options : List (List Char × List Char)
  arguments : List (List Char)

namespace Shape

def hasOption (shape : Shape) (name : List Char) : Bool :=
  shape.options.any fun o => o.toList == name

def hasFlag (shape : Shape) (name : List Char) : Bool :=
  shape.flags.any fun f => f.toList == name

/-- Whether a word is an option and not an argument. -/
def isOption (word : List Char) : Bool := word.head? = some '-' && word.length ≠ 1

def separator : List Char := ['-', '-']

def nameOf (word : List Char) : List Char := word.takeWhile (· != '=')

def valueOf? (word : List Char) : Option (List Char) :=
  match word.dropWhile (· != '=') with
  | _ :: v => some v
  | [] => none

def Words.addOption (name value : List Char) (w : Words) : Words :=
  { w with options := (name, value) :: w.options }

def Words.addArgument (word : List Char) (w : Words) : Words :=
  { w with arguments := word :: w.arguments }

/-- Splits words into options and arguments; `none` when an option is unknown, lacks its value or
has one it does not take. -/
def split (shape : Shape) : List (List Char) → Option Words
  | [] => some ⟨[], []⟩
  | word :: rest =>
    if word = separator then some ⟨[], rest⟩
    else if !isOption word then (shape.split rest).map (Words.addArgument word)
    else
      let name := nameOf word
      if shape.hasFlag name then
        match valueOf? word with
        | none => (shape.split rest).map (Words.addOption name [])
        | some _ => none
      else if shape.hasOption name then
        match valueOf? word with
        | some v => (shape.split rest).map (Words.addOption name v)
        | none =>
          match rest with
          | v :: rest => (shape.split rest).map (Words.addOption name v)
          | [] => none
      else none

end Shape

namespace Words

def values (w : Words) (name : String) : List (List Char) :=
  w.options.filterMap fun o => if o.1 = name.toList then some o.2 else none

/-- The value of an option; the last one given counts. -/
def value? (w : Words) (name : String) : Option (List Char) := (w.values name).getLast?

def has (w : Words) (name : String) : Bool := (w.value? name).isSome

end Words

end Reckoner.Command
