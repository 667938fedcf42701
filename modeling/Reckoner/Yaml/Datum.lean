import Reckoner.Data.Numeric

/-!
Data of settings files. Scalars are values; besides them there are bytes, times, lists, sets and
mappings. Whatever can be compared can be a key, and numbers that are equal are the same key.
-/
namespace Reckoner.Yaml

open Data Number Text

inductive Datum
  | scalar (v : Value)
  | bytes (bytes : Utf8.Bytes)
  /-- A date, or a date with a time of day, as it is written. -/
  | time (hasClock : Bool) (s : List Char)
  | list (items : List Datum)
  | set (keys : List Datum)
  | map (entries : List (Datum × Datum))
  /-- A list or mapping where it stands inside itself. -/
  | loop (isMap : Bool)
deriving Inhabited

/-- What a key counts as. -/
inductive Key
  | null
  | whole (n : Int)
  /-- A number that is not whole, by its bits. -/
  | fraction (bits : UInt64)
  | text (s : List Char)
  | bytes (bytes : Utf8.Bytes)
  | time (hasClock : Bool) (s : List Char)
deriving DecidableEq

def Key.ofFloat (x : Float) : Key :=
  match Binary.ofFloat? x with
  | some b => if b.floor = b.ceiling then .whole b.floor else .fraction x.toBits
  | none => .fraction x.toBits

namespace Datum

def null : Datum := .scalar .null

def text (s : List Char) : Datum := .scalar (.text s)

def int (n : Int) : Datum := .scalar (.int n)

/-- Nothing, zero and whatever is empty do not hold. -/
def holds : Datum → Bool
  | scalar v => v.holds
  | bytes b => !b.isEmpty
  | time _ _ => true
  | list items => !items.isEmpty
  | set keys => !keys.isEmpty
  | map entries => !entries.isEmpty
  | loop _ => true

def kindName : Datum → List Char
  | scalar v => v.kindName
  | bytes _ => "bytes".toList
  | time false _ => "datetime.date".toList
  | time true _ => "datetime.datetime".toList
  | list _ => "list".toList
  | set _ => "set".toList
  | map _ => "dict".toList
  | loop true => "dict".toList
  | loop false => "list".toList

/-- Bytes are read as the characters of their codes, which must be ASCII. -/
def bytesToInt (bytes : Utf8.Bytes) : Except Breakdown Int :=
  match readInteger (bytes.map fun b => if b < 128 then Char.ofNat b.toNat else '?') with
  | .ok n => .ok n
  | .error .malformed => .error (.malformedBytes bytes)
  | .error (.tooManyDigits count) => .error (.tooManyDigits count)

def toInt : Datum → Except Breakdown Int
  | scalar v => v.toInt
  | bytes b => bytesToInt b
  | d => .error (.notNumeric d.kindName)

/-- The key that a datum is; lists, sets and mappings cannot be keys. -/
def key? : Datum → Option Key
  | scalar .null => some .null
  | scalar (.bool b) => some (.whole (if b then 1 else 0))
  | scalar (.int n) => some (.whole n)
  | scalar (.float x) => some (.ofFloat x)
  | scalar (.text s) => some (.text s)
  | bytes b => some (.bytes b)
  | time hasClock s => some (.time hasClock s)
  | _ => none

/-- Sets a key, which keeps its place and its form. -/
def setKey {α : Type} (k : Datum) (v : α) : List (Datum × α) → List (Datum × α)
  | [] => [(k, v)]
  | (k', v') :: rest => if k'.key? = k.key? then (k', v) :: rest else (k', v') :: setKey k v rest

mutual

/-- The datum that a value stands for. -/
def ofValue : Value → Datum
  | .list items => .list (ofValues items)
  | .map entries => .map (ofEntries entries)
  | v => .scalar v

def ofValues : List Value → List Datum
  | [] => []
  | v :: rest => ofValue v :: ofValues rest

def ofEntries : List (List Char × Value) → List (Datum × Datum)
  | [] => []
  | (k, v) :: rest => (.text k, ofValue v) :: ofEntries rest

end

/-- The entries of a mapping by what their keys count as. -/
def keyed (entries : List (Datum × Datum)) : Assoc Key Datum :=
  entries.filterMap fun e => e.1.key?.map fun k => (k, e.2)

end Datum

end Reckoner.Yaml
