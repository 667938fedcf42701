import Reckoner.Yaml.Node

/-!
Merging of mappings. Under a merge key a mapping names others, or a list of others, whose entries
come before its own; of several mappings in a list the first counts most, so its entries come last.
A mapping may name itself, directly or through others: then it brings in the entries that it has
without the merge keys that were followed before.
-/
namespace Reckoner.Yaml

/-- The nodes of a document, and the mappings among them whose merge keys have been followed. -/
structure Merging where
  nodes : Array Node
  merged : List Nat

namespace Merging

def node (m : Merging) (n : Nat) : Node := m.nodes[n]?.getD .empty

def kind (m : Merging) (n : Nat) : Kind := (m.node n).kind

def entries (m : Merging) (n : Nat) : List (Nat × Nat) :=
  match m.node n with
  | .mapping _ entries => entries
  | _ => []

def setEntries (m : Merging) (n : Nat) (entries : List (Nat × Nat)) : Merging :=
  { m with nodes := m.nodes.setIfInBounds n (.mapping (m.kind n) entries) }

def setKind (m : Merging) (n : Nat) (kind : Kind) : Merging :=
  { m with nodes := m.nodes.setIfInBounds n ((m.node n).withKind kind) }

/-- The entries of the mappings in a list, those of the first mapping last. `follow` follows the
merge keys of a mapping. -/
def entriesOfAll (follow : Nat → Merging → Reading Merging) (m : Merging) :
    List Nat → Reading (List (Nat × Nat) × Merging)
  | [] => .ok ([], m)
  | n :: rest =>
    match m.node n with
    | .mapping _ _ => do
      let m ← follow n m
      let own := m.entries n
      let (others, m) ← entriesOfAll follow m rest
      return (others ++ own, m)
    | _ => refuse

/-- The entries that the value of a merge key stands for. -/
def entriesBehind (follow : Nat → Merging → Reading Merging) (m : Merging) (value : Nat) :
    Reading (List (Nat × Nat) × Merging) :=
  match m.node value with
  | .mapping _ _ => do
    let m ← follow value m
    return (m.entries value, m)
  | .sequence _ items => entriesOfAll follow m items
  | .scalar _ _ => refuse

/-- Puts entries before those of a mapping, after which its merge keys count as followed. -/
def bring (n : Nat) (brought : List (Nat × Nat)) (m : Merging) : Merging :=
  let m := if brought.isEmpty then m else m.setEntries n (brought ++ m.entries n)
  { m with merged := n :: m.merged }

/-- Goes through the entries of the mapping `n`, of which `kept`, from its end, holds those passed.
Where following a merge key leads back to the mapping, nothing is left to do in it. -/
def walk (follow : Nat → Merging → Reading Merging) (n : Nat) (kept brought : List (Nat × Nat))
    (m : Merging) : List (Nat × Nat) → Reading Merging
  | [] => .ok (m.bring n brought)
  | (k, v) :: rest =>
    if m.merged.contains n then .ok (m.bring n brought)
    else if m.kind k = .merge then do
      let (more, m) ← entriesBehind follow (m.setEntries n (kept.reverse ++ rest)) v
      walk follow n kept (brought ++ more) m rest
    else
      let m := if m.kind k = .default then m.setKind k .text else m
      walk follow n ((k, v) :: kept) brought m rest

/-- Follows the merge keys of a mapping. Each step inwards takes a merge key away, so their number
is fuel enough. -/
def follow : Nat → Nat → Merging → Reading Merging
  | 0, _, _ => refuse
  | fuel + 1, n, m =>
    if m.merged.contains n then .ok m else walk (follow fuel) n [] [] m (m.entries n)

/-- More than the number of merge keys in a document. -/
def fuelFor (nodes : Array Node) : Nat :=
  nodes.foldl (fun count n =>
    match n with
    | .mapping _ entries => count + entries.length
    | _ => count) 1

end Merging

end Reckoner.Yaml
