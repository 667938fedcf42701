import Reckoner.Yaml.Part

/-!
Data from the parts of a document. Each part is put together once, also where several others share
it. A list or mapping that contains itself is cut off where it comes again. Reading a text cuts it
into tokens, which make up the nodes that stand for data.
-/
namespace Reckoner.Yaml

/-- How far a node is put together. -/
inductive Progress
  | untouched
  | begun
  | done (d : Datum)

abbrev Assembly := Array Progress

namespace Part

/-- The data of nodes; `build` puts a single one together. -/
def buildAll (build : Nat → Assembly → Datum × Assembly) (a : Assembly) :
    List Nat → List Datum × Assembly
  | [] => ([], a)
  | n :: rest =>
    let (d, a) := build n a
    let (later, a) := buildAll build a rest
    (d :: later, a)

/-- The datum of a part. -/
def assemble (build : Nat → Assembly → Datum × Assembly) (a : Assembly) : Part → Datum × Assembly
  | single d => (d, a)
  | list items =>
    let (data, a) := buildAll build a items
    (.list data, a)
  | pairs entries =>
    let (firsts, a) := buildAll build a (entries.map (·.1))
    let (seconds, a) := buildAll build a (entries.map (·.2))
    (.list ((firsts.zip seconds).map fun e => .list [e.1, e.2]), a)
  | map entries =>
    let (data, a) := buildAll build a (entries.map (·.2))
    (.map ((entries.map (·.1)).zip data), a)
  | set keys => (.set keys, a)

def isMap : Part → Bool
  | map _ => true
  | _ => false

/-- The datum of a node. What contains itself is cut off where it comes again. -/
def build (parts : Array (Option Part)) : Nat → Nat → Assembly → Datum × Assembly
  | 0, _, a => (.null, a)
  | fuel + 1, n, a =>
    match parts[n]?.join, a[n]?.getD .untouched with
    | none, _ => (.null, a)
    | some _, .done d => (d, a)
    | some p, .begun => (.loop p.isMap, a)
    | some p, .untouched =>
      let (d, a) := p.assemble (build parts fuel) (a.setIfInBounds n .begun)
      (d, a.setIfInBounds n (.done d))

end Part

namespace Contents

/-- The contents of an empty text. -/
def nothing : Contents := ⟨#[some (.single .null)], 0⟩

def datumAt (c : Contents) (n : Nat) : Datum :=
  (Part.build c.parts (c.parts.size + 1) n (Array.replicate c.parts.size .untouched)).1

def datum (c : Contents) : Datum := c.datumAt c.root

/-- Takes a key out of the outermost mapping: its value, and what is left. Where the value contains
the mapping, the key is missing there as well. -/
def takeOut (c : Contents) (key : Key) : Option Datum × Contents :=
  match c.parts[c.root]?.join with
  | some (.map entries) =>
    let others := entries.filter fun e => e.1.key? ≠ some key
    let left := { c with parts := c.parts.setIfInBounds c.root (some (.map others)) }
    let taken := entries.find? fun e => e.1.key? = some key
    (taken.map fun e => left.datumAt e.2, left)
  | _ => (none, c)

end Contents

/-- The contents of a text in which line ends are unified. -/
def read (s : List Char) : Reading Contents := do
  let tokens ← tokens s
  let g ← Node.graphOf tokens
  match g with
  | none => return .nothing
  | some g => g.contents

end Reckoner.Yaml
