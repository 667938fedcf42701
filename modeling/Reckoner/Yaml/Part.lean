import Reckoner.Yaml.Merge
import Reckoner.Yaml.Scalar

/-!
What the nodes of a document stand for. The document is gone through level by level: a scalar is
read where it is met, and the inside of a list or mapping waits until everything met before it is
done. The first trouble on this way is the one that counts. A node that is met again is not read
again.
-/
namespace Reckoner.Yaml

/-- What a node stands for; the parts of a list or mapping are given by their numbers. -/
inductive Part
  | single (d : Datum)
  | list (items : List Nat)
  | pairs (entries : List (Nat × Nat))
  | map (entries : List (Datum × Nat))
  | set (keys : List Datum)

/-- The nodes met so far; a list or mapping whose inside waits has no part yet. -/
structure Survey extends Merging where
  mergeFuel : Nat
  parts : Array (Option Part)
  met : List Nat
  /-- The lists and mappings met, in order. -/
  queue : Array Nat

namespace Survey

def start (nodes : Array Node) : Survey where
  nodes
  merged := []
  mergeFuel := Merging.fuelFor nodes
  parts := Array.replicate nodes.size none
  met := []
  queue := #[]

def setPart (s : Survey) (n : Nat) (p : Part) : Survey :=
  { s with parts := s.parts.setIfInBounds n (some p) }

/-- The text of a node that is to be a scalar. A mapping stands for the value of its default key;
one that stands for itself in this way has none. -/
def scalarText (s : Survey) : Nat → Nat → Reading (List Char)
  | 0, _ => broken (.unreadable .endless)
  | fuel + 1, n =>
    match s.node n with
    | .scalar _ text => .ok text
    | .sequence _ _ => refuse
    | .mapping _ entries =>
      match entries.find? fun e => s.kind e.1 == .default with
      | some (_, v) => scalarText s fuel v
      | none => refuse

/-- The datum of a node that is to be a scalar. A time must be written as a scalar. -/
def single (s : Survey) (n : Nat) : Reading Datum := do
  let text ← s.scalarText (s.nodes.size + 1) n
  match s.kind n, s.node n with
  | .time, .mapping _ _ => broken (.unreadable .noTimeText)
  | kind, _ => scalarDatum kind text

/-- Meets a node. -/
def meet (n : Nat) (s : Survey) : Reading Survey :=
  if s.met.contains n then .ok s
  else
    let s := { s with met := n :: s.met }
    match s.kind n with
    | .sequence => .ok { s with queue := s.queue.push n }
    | .mapping => .ok { s with queue := s.queue.push n }
    | .set => .ok { s with queue := s.queue.push n }
    | .pairs => .ok { s with queue := s.queue.push n }
    | .merge => refuse
    | .default => refuse
    | .unknown => refuse
    | _ => do
      let d ← s.single n
      return s.setPart n (.single d)

def meetAll (s : Survey) : List Nat → Reading Survey
  | [] => .ok s
  | n :: rest => do
    let s ← s.meet n
    meetAll s rest

/-- The key that a node stands for. -/
def keyOf (s : Survey) (n : Nat) : Reading Datum :=
  match s.parts[n]?.join with
  | some (.single d) => .ok d
  | _ => refuse

/-- Meets the keys and values of a mapping; of two equal keys the later counts. -/
def meetEntries (s : Survey) (found : List (Datum × Nat)) :
    List (Nat × Nat) → Reading (List (Datum × Nat) × Survey)
  | [] => .ok (found, s)
  | (k, v) :: rest => do
    let s ← s.meet k
    let key ← s.keyOf k
    let s ← s.meet v
    meetEntries s (Datum.setKey key v found) rest

/-- The entries of a node that is to be a mapping. -/
def openMapping (s : Survey) (n : Nat) : Reading (List (Datum × Nat) × Survey) :=
  match s.node n with
  | .mapping _ _ => do
    let m ← Merging.follow s.mergeFuel n s.toMerging
    let s := { s with toMerging := m }
    s.meetEntries [] (s.entries n)
  | _ => refuse

/-- The entries of mappings with one entry each. -/
def meetPairs (s : Survey) (found : List (Nat × Nat)) :
    List Nat → Reading (List (Nat × Nat) × Survey)
  | [] => .ok (found.reverse, s)
  | n :: rest =>
    match s.node n with
    | .mapping _ [(k, v)] => do
      let s ← s.meet k
      let s ← s.meet v
      meetPairs s ((k, v) :: found) rest
    | _ => refuse

/-- Looks into a list or mapping. -/
def openNode (s : Survey) (n : Nat) : Reading Survey :=
  match s.kind n, s.node n with
  | .sequence, .sequence _ items => do
    let s ← s.meetAll items
    return s.setPart n (.list items)
  | .pairs, .sequence _ items => do
    let (entries, s) ← s.meetPairs [] items
    return s.setPart n (.pairs entries)
  | .mapping, _ => do
    let (entries, s) ← s.openMapping n
    return s.setPart n (.map entries)
  | .set, _ => do
    let (entries, s) ← s.openMapping n
    return s.setPart n (.set (entries.map (·.1)))
  | _, _ => refuse

/-- Looks into all lists and mappings from the place `i` of the queue on. -/
def openFrom (s : Survey) : Nat → Nat → Reading Survey
  | 0, _ => .ok s
  | fuel + 1, i =>
    match s.queue[i]? with
    | none => .ok s
    | some n => do
      let s ← s.openNode n
      openFrom s fuel (i + 1)

end Survey

/-- What a document holds: the parts that its nodes stand for, and the number of the outermost. -/
structure Contents where
  parts : Array (Option Part)
  root : Nat

/-- What the nodes of a document stand for. Each node waits at most once. -/
def Graph.contents (g : Graph) : Reading Contents := do
  let s ← (Survey.start g.nodes).meet g.root
  let s ← s.openFrom g.nodes.size 0
  return ⟨s.parts, g.root⟩

end Reckoner.Yaml
