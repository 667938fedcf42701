import Reckoner.Data.Value

/-!
What can go wrong. A fault is a failure of an expression: it has a cause, and it may carry the text
in which it arose. Its kind is the code under which results and events list it. A breakdown is any
other failure; it is not the fault of an expression and is not listed as one.
-/
namespace Reckoner

open Text Number Data

inductive FaultKind
  | parse
  | unknownFunction
  | argument
  | divisionByZero
  | evaluation
deriving DecidableEq

def FaultKind.code : FaultKind → List Char
  | parse => "parse_error".toList
  | unknownFunction => "unknown_function".toList
  | argument => "argument_error".toList
  | divisionByZero => "division_by_zero".toList
  | evaluation => "evaluation_error".toList

/-- The steps of arithmetic whose value must be finite. -/
inductive Step
  | addition
  | subtraction
  | multiplication
  | division
  | modulo
  | exponentiation
  | literal
deriving DecidableEq

def Step.words : Step → List Char
  | addition => "addition".toList
  | subtraction => "subtraction".toList
  | multiplication => "multiplication".toList
  | division => "division".toList
  | modulo => "modulo".toList
  | exponentiation => "exponentiation".toList
  | literal => "number literal".toList

/-- A text that is no expression; the position says where this shows. -/
inductive ParseProblem
  | empty
  | unmatchedClose
  | unmatchedOpen
  | illegalCharacter (c : Char)
  | unexpectedToken (token : List Char)
  | unexpectedEnd
  | unclosedCall (name : List Char)
  | unknownName (name : List Char)

/-- What the arguments of a function call lack. -/
inductive ArgumentProblem
  | tooFew (least : Nat) (count : Int)
  | wrongCount (least most : Nat) (count : Int)
  | empty
  | notNumeric (argument : List Char)

inductive Cause
  | parse (problem : ParseProblem) (position : Nat)
  | unknownFunction (name : List Char)
  | argument (name : List Char) (problem : ArgumentProblem)
  | zeroDivisor
  | zeroModulus
  | nonFinite (step : Step)
  | powerTooLarge (base exponent : Float)
  | powerUndefined (base exponent : Float)
  | functionTooLarge (name : List Char)
  | functionUndefined (name : List Char)
  | functionNonFinite (name : List Char)
  | tooDeep (bound : Int)
  | unknownNode (rule : List Char)
  | notANumber (place : List Char) (value : Value)
  | notFinite (place : List Char) (value : Value)
  | notALine (key : List Char)

structure Fault where
  cause : Cause
  expression : Option (List Char)

namespace ParseProblem

def message : ParseProblem → List Char
  | empty => "empty expression".toList
  | unmatchedClose => "unbalanced parentheses: unexpected ')'".toList
  | unmatchedOpen => "unbalanced parentheses: missing ')'".toList
  | illegalCharacter c => "unexpected character ".toList ++ quoted [c]
  | unexpectedToken token => "unexpected ".toList ++ quoted token
  | unexpectedEnd => "unexpected end of expression".toList
  | unclosedCall name => "missing ')' in call to ".toList ++ quoted name
  | unknownName name => "unknown name ".toList ++ quoted name

end ParseProblem

namespace ArgumentProblem

def message (name : List Char) : ArgumentProblem → List Char
  | tooFew least count =>
    name ++ " requires at least ".toList ++ decimalDigits least ++ " argument".toList
      ++ (if least = 1 then [] else ['s']) ++ ", got ".toList ++ Value.decimalInt count
  | wrongCount least most count =>
    name ++ " requires ".toList
      ++ (if least = most then "exactly ".toList ++ decimalDigits least
          else decimalDigits least ++ '-' :: decimalDigits most)
      ++ " argument".toList ++ (if most = 1 then [] else ['s']) ++ ", got ".toList
      ++ Value.decimalInt count
  | empty => name ++ ": empty argument".toList
  | notNumeric argument => name ++ ": non-numeric argument ".toList ++ quoted argument

end ArgumentProblem

namespace Cause

def kind : Cause → FaultKind
  | parse _ _ => .parse
  | unknownFunction _ => .unknownFunction
  | argument _ _ => .argument
  | zeroDivisor => .divisionByZero
  | zeroModulus => .divisionByZero
  | _ => .evaluation

def powerText (base exponent : Float) : List Char :=
  Number.shown base ++ " ^ ".toList ++ Number.shown exponent

def message : Cause → List Char
  | parse problem position =>
    "Parse error: ".toList ++ problem.message ++ " (at position ".toList
      ++ decimalDigits position ++ [')']
  | unknownFunction name => "Unknown function: ".toList ++ quoted name
  | argument name problem => problem.message name
  | zeroDivisor => "Division by zero".toList
  | zeroModulus => "Modulo by zero".toList
  | nonFinite step => "Non-finite result in ".toList ++ step.words
  | powerTooLarge base exponent => "Overflow in ".toList ++ powerText base exponent
  | powerUndefined base exponent => "Undefined result for ".toList ++ powerText base exponent
  | functionTooLarge name => name ++ ": result too large".toList
  | functionUndefined name => name ++ ": math domain error".toList
  | functionNonFinite name => name ++ ": non-finite result".toList
  | tooDeep bound =>
    "Function calls nested deeper than ".toList ++ Value.decimalInt bound ++ " levels".toList
  | unknownNode rule => "Unknown node type: ".toList ++ rule
  | notANumber place value =>
    "Context value for ".toList ++ place ++ " is not a number: ".toList ++ value.shown
  | notFinite place value =>
    "Context value for ".toList ++ place ++ " is not finite: ".toList ++ value.shown
  | notALine key => "Line result keys must be line numbers, got ".toList ++ quoted key

end Cause

namespace Fault

def kind (f : Fault) : FaultKind := f.cause.kind

def message (f : Fault) : List Char := f.cause.message

/-- The place of a parse fault in its expression. -/
def position? (f : Fault) : Option Nat :=
  match f.cause with
  | .parse _ position => some position
  | _ => none

/-- The function whose name or arguments were refused. -/
def functionName? (f : Fault) : Option (List Char) :=
  match f.cause with
  | .unknownFunction name => some name
  | .argument name _ => some name
  | _ => none

end Fault

/-- Why a file cannot be used. -/
inductive FileProblem
  | missing
  | isDirectory
  | notDirectory
  | alreadyThere
  | nameTooLong
deriving DecidableEq

/-- The part of a date or a time of day that is out of its range; a time zone is given by its
distance in minutes. -/
inductive TimeProblem
  | year
  | month
  | day
  | hour
  | minute
  | second
  | zone (minutes : Int)
deriving DecidableEq

namespace TimeProblem

/-- A span of minutes in days and seconds. -/
def spanText (minutes : Int) : List Char :=
  let seconds := 60 * minutes.fmod 1440
  "datetime.timedelta(days=".toList ++ Value.decimalInt (minutes.fdiv 1440)
    ++ (if seconds = 0 then [] else ", seconds=".toList ++ Value.decimalInt seconds) ++ [')']

def message : TimeProblem → List Char
  | year => "year 0 is out of range".toList
  | month => "month must be in 1..12".toList
  | day => "day is out of range for month".toList
  | hour => "hour must be in 0..23".toList
  | minute => "minute must be in 0..59".toList
  | second => "second must be in 0..59".toList
  | zone minutes =>
    ("offset must be a timedelta strictly between -timedelta(hours=24) and "
      ++ "timedelta(hours=24), not ").toList ++ spanText minutes ++ ['.']

end TimeProblem

/-- A tagged text that the tag cannot read. -/
inductive TagProblem
  | noTruthValue
  | emptyNumber
  | noTime
  | noTimeText
  | endless
deriving DecidableEq

inductive Breakdown
  | zeroFactor
  | integerTooLarge
  | noWholePart (why : Unwritable)
  | noDisplay (x : Float)
  | malformedInteger (base : Nat) (s : List Char)
  | malformedBytes (bytes : Utf8.Bytes)
  | malformedNumber (s : List Char)
  | tooManyDigits (count : Nat)
  | notNumeric (kind : List Char)
  | noPasses
  | notAMapping
  | malformedTree
  | outsideText
  | noCharacter
  | characterTooLarge
  | noTime (problem : TimeProblem)
  | unreadable (problem : TagProblem)
  | configuration (problem : List Char)
  | invalidEvent (fields : List (List Char))
  | configurationExists (directory : List Char)
  | undecodable
  | file (problem : FileProblem)

namespace Breakdown

/-- The text of a breakdown; breakdowns of files, texts and structures have none. -/
def message? : Breakdown → Option (List Char)
  | zeroFactor => some "float division by zero".toList
  | integerTooLarge => some "int too large to convert to float".toList
  | noWholePart .infinite => some "cannot convert float infinity to integer".toList
  | noWholePart .undefined => some "cannot convert float NaN to integer".toList
  | noDisplay x => some ("Cannot format non-finite value ".toList ++ Number.shown x)
  | malformedInteger base s =>
    some ("invalid literal for int() with base ".toList ++ decimalDigits base ++ ": ".toList
      ++ (quoted s).take 200)
  | malformedBytes bytes =>
    some ("invalid literal for int() with base 10: ".toList
      ++ (quotedBytes (bytes.take 200)).take 200)
  | malformedNumber s => some ("could not convert string to float: ".toList ++ quoted s)
  | tooManyDigits count =>
    some ("Exceeds the limit (4300 digits) for integer string conversion: value has ".toList
      ++ decimalDigits count
      ++ " digits; use sys.set_int_max_str_digits() to increase the limit".toList)
  | notNumeric kind =>
    some ("int() argument must be a string, a bytes-like object or a real number, not '".toList
      ++ kind ++ ['\x27'])
  | noPasses => some "max_iterations must be at least 1".toList
  | noCharacter => some "chr() arg not in range(0x110000)".toList
  | characterTooLarge => some "Python int too large to convert to C int".toList
  | noTime problem => some problem.message
  | configuration problem => some problem
  | invalidEvent fields => some ([','].intercalate fields)
  | configurationExists directory =>
    some ("notecalc.yaml already exists in ".toList ++ directory)
  | notAMapping => none
  | malformedTree => none
  | outsideText => none
  | unreadable _ => none
  | undecodable => none
  | file _ => none

end Breakdown

inductive Failure
  | fault (f : Fault)
  | breakdown (b : Breakdown)

/-- A failure with a cause and no expression. -/
def Failure.of (cause : Cause) : Failure := .fault ⟨cause, none⟩

/-- A failure with a cause in an expression. -/
def Failure.within (cause : Cause) (expression : List Char) : Failure :=
  .fault ⟨cause, some expression⟩

end Reckoner
