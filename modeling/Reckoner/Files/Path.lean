import Reckoner.Text.Lines

/-!
Paths of files. A path is a list of names, from the root or from the working directory. Empty names
and single points are left out; two points lead to the directory above.
-/
namespace Reckoner.Files

open Text

abbrev Name := List Char

structure Path where
  absolute : Bool
  names : List Name
deriving DecidableEq

def above : Name := ['.', '.']

namespace Path

def segments (s : List Char) : List Name := splitAt (· == '/') s

def isVoid (n : Name) : Bool := n.isEmpty || n == ['.']

def ofText (s : List Char) : Path :=
  ⟨s.head? = some '/', (segments s).filter fun n => !isVoid n⟩

def joined : List Name → List Char
  | [] => []
  | [n] => n
  | n :: rest => n ++ '/' :: joined rest

def text (p : Path) : List Char :=
  if p.absolute then '/' :: joined p.names
  else if p.names.isEmpty then ['.']
  else joined p.names

def child (p : Path) (n : Name) : Path := ⟨p.absolute, p.names ++ [n]⟩

/-- Whether a written path can only lead to a directory. -/
def endsVoid (s : List Char) : Bool := ((segments s).getLast?).any isVoid

end Path

end Reckoner.Files
