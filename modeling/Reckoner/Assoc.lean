/-!
Finite maps as lists of pairs. Setting a key keeps its place, so the keys stay distinct and in the
order in which they first came.
-/
namespace Reckoner

abbrev Assoc (κ : Type) (α : Type) := List (κ × α)

namespace Assoc

variable {κ α : Type} [DecidableEq κ]

def get? (m : Assoc κ α) (k : κ) : Option α :=
  match m with
  | [] => none
  | (k', v) :: rest => if k' = k then some v else get? rest k

def has (m : Assoc κ α) (k : κ) : Bool := (get? m k).isSome

def set (m : Assoc κ α) (k : κ) (v : α) : Assoc κ α :=
  match m with
  | [] => [(k, v)]
  | (k', v') :: rest => if k' = k then (k, v) :: rest else (k', v') :: set rest k v

def erase (m : Assoc κ α) (k : κ) : Assoc κ α := m.filter fun e => e.1 ≠ k

def keys (m : Assoc κ α) : List κ := m.map (·.1)

/-- The map in which each entry of the second list is set in turn. -/
def update (m : Assoc κ α) (entries : List (κ × α)) : Assoc κ α :=
  entries.foldl (fun m e => set m e.1 e.2) m

def ofList (entries : List (κ × α)) : Assoc κ α := update [] entries

end Assoc

end Reckoner
