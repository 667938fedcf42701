/-!
The order of texts by code points, and sorting by it.
-/
namespace Reckoner.Text

/-- Whether the first text comes before the second or is equal to it. -/
def atMost : List Char → List Char → Bool
  | [], _ => true
  | _ :: _, [] => false
  | c :: r, d :: s => if c = d then atMost r s else c.toNat < d.toNat

def sortTexts (texts : List (List Char)) : List (List Char) := texts.mergeSort atMost

/-- The pairs in the order of their keys. -/
def sortByKey {α : Type} (entries : List (List Char × α)) : List (List Char × α) :=
  entries.mergeSort fun a b => atMost a.1 b.1

end Reckoner.Text
