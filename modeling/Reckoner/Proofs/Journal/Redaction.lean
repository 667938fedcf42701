import Reckoner.Journal.Redaction
import Reckoner.Proofs.Assoc

/-!
What redaction leaves of a context. A place in a value is told by the positions of the parts on the
way to it. Redaction keeps all places: a list keeps its length, a mapping its keys and a leaf that
is no text its value. Only a text that is too long is cut. What is left of it is still too long, but
cutting that once more gives the same text.
-/
namespace Reckoner

open Data

namespace Data.Value

/-- The values right inside a list or a mapping, in order. -/
def parts : Value → List Value
  | list items => items
  | map entries => entries.map (·.2)
  | _ => []

/-- The value at a place, if there is one. -/
def at? (v : Value) : List Nat → Option Value
  | [] => some v
  | n :: place => v.parts[n]?.bind (at? · place)

end Data.Value

namespace Journal

section Texts

variable {s : List Char}

theorem shorten_of_le (h : s.length ≤ 256) : shorten s = s := if_neg (Nat.not_lt.mpr h)

theorem shorten_of_lt (h : 256 < s.length) : shorten s = s.take 256 ++ cutMark := if_pos h

theorem length_cutMark : cutMark.length = 14 := by decide

theorem length_shorten_le (s : List Char) : (shorten s).length ≤ 270 := by
  rcases Nat.lt_or_ge 256 s.length with h | h
  · rw [shorten_of_lt h, List.length_append, List.length_take, length_cutMark]
    omega
  · rw [shorten_of_le h]
    omega

example : [256, 257].map (fun n => (shorten (List.replicate n 'x')).length) = [256, 270] := by
  decide +kernel

/-- A text that was cut is longer than the limit, but its beginning is the same. -/
theorem shorten_shorten (s : List Char) : shorten (shorten s) = shorten s := by
  rcases Nat.lt_or_ge 256 s.length with h | h
  · have hlength : (s.take 256).length = 256 := List.length_take_of_le (Nat.le_of_lt h)
    have hlong : 256 < (s.take 256 ++ cutMark).length := by
      rw [List.length_append, hlength, length_cutMark]
      decide
    rw [shorten_of_lt h, shorten_of_lt hlong, List.take_left' hlength]
  · rw [shorten_of_le h, shorten_of_le h]

end Texts

section Lists

theorem redactItems_eq_map (items : List Value) : redactItems items = items.map redact := by
  induction items with
  | nil => rfl
  | cons v rest ih => rw [redactItems, ih, List.map_cons]

theorem redactEntries_eq_map (entries : List (List Char × Value)) :
    redactEntries entries = entries.map fun e => (e.1, redact e.2) := by
  induction entries with
  | nil => rfl
  | cons e rest ih => rw [redactEntries, ih, List.map_cons]

theorem keys_redactEntries (entries : List (List Char × Value)) :
    Assoc.keys (redactEntries entries) = Assoc.keys entries := by
  unfold Assoc.keys
  rw [redactEntries_eq_map, List.map_map]
  rfl

theorem get?_redactEntries (entries : List (List Char × Value)) (key : List Char) :
    Assoc.get? (redactEntries entries) key = (Assoc.get? entries key).map redact := by
  rw [redactEntries_eq_map]
  induction entries with
  | nil => rfl
  | cons first rest ih =>
    rw [List.map_cons, Assoc.get?_cons, Assoc.get?_cons]
    split
    · rfl
    · exact ih

end Lists

section Places

theorem parts_redact (v : Value) : (redact v).parts = v.parts.map redact := by
  cases v with
  | list items =>
    rw [redact, redactItems_eq_map]
    rfl
  | map entries =>
    rw [redact, redactEntries_eq_map]
    change (entries.map _).map _ = (entries.map _).map _
    rw [List.map_map, List.map_map]
    rfl
  | _ => rfl

/-- Redaction works on each place by itself. -/
theorem at?_redact (v : Value) (place : List Nat) :
    (redact v).at? place = (v.at? place).map redact := by
  induction place generalizing v with
  | nil => rfl
  | cons n place ih =>
    rw [Value.at?, Value.at?, parts_redact, List.getElem?_map]
    cases v.parts[n]? with
    | none => rfl
    | some part => exact ih part

/-- What may become of the value at a place. The parts of a list or a mapping have places of their
own. -/
inductive Redacts : Value → Value → Prop
  | null : Redacts .null .null
  | bool (b : Bool) : Redacts (.bool b) (.bool b)
  | int (n : Int) : Redacts (.int n) (.int n)
  | float (x : Float) : Redacts (.float x) (.float x)
  | short {s : List Char} (h : s.length ≤ 256) : Redacts (.text s) (.text s)
  | long {s : List Char} (h : 256 < s.length) :
      Redacts (.text s) (.text (s.take 256 ++ "...[truncated]".toList))
  | list {items items' : List Value} (h : items'.length = items.length) :
      Redacts (.list items) (.list items')
  | map {entries entries' : List (List Char × Value)} (h : Assoc.keys entries' = Assoc.keys entries) :
      Redacts (.map entries) (.map entries')

theorem redacts_redact (v : Value) : Redacts v (redact v) := by
  cases v with
  | null => exact .null
  | bool b => exact .bool b
  | int n => exact .int n
  | float x => exact .float x
  | text s =>
    rw [redact]
    rcases Nat.lt_or_ge 256 s.length with h | h
    · rw [shorten_of_lt h]
      exact .long h
    · rw [shorten_of_le h]
      exact .short h
  | list items =>
    rw [redact, redactItems_eq_map]
    exact .list (List.length_map redact)
  | map entries =>
    rw [redact]
    exact .map (keys_redactEntries entries)

theorem length_le_of_redact {v : Value} {t : List Char} (h : redact v = .text t) :
    t.length ≤ 270 := by
  cases v with
  | text s =>
    rw [redact, Value.text.injEq] at h
    exact h ▸ length_shorten_le s
  | _ => exact absurd h nofun

end Places

section Again

mutual

/-- Redaction is done once and for all. -/
theorem redact_redact (v : Value) : redact (redact v) = redact v := by
  cases v with
  | text s => rw [redact, redact, shorten_shorten]
  | list items => rw [redact, redact, redactItems_redactItems items]
  | map entries => rw [redact, redact, redactEntries_redactEntries entries]
  | _ => rfl

theorem redactItems_redactItems (items : List Value) :
    redactItems (redactItems items) = redactItems items := by
  cases items with
  | nil => rfl
  | cons v rest => rw [redactItems, redactItems, redact_redact v, redactItems_redactItems rest]

theorem redactEntries_redactEntries (entries : List (List Char × Value)) :
    redactEntries (redactEntries entries) = redactEntries entries := by
  cases entries with
  | nil => rfl
  | cons e rest =>
    rw [redactEntries, redactEntries, redact_redact e.2, redactEntries_redactEntries rest]

end

end Again

/-- A redacted context has the places of the context, with the same leaves, lengths and keys, except
that long texts are cut. So it holds no text beyond 270 characters, and redacting it again changes
nothing. -/
theorem redactEntries_everywhere (context : List (List Char × Value)) :
    (∀ place, Option.Rel Redacts ((Value.map context).at? place)
      ((Value.map (redactEntries context)).at? place)) ∧
    (∀ place t, (Value.map (redactEntries context)).at? place = some (.text t) → t.length ≤ 270) ∧
    redactEntries (redactEntries context) = redactEntries context := by
  have hplace : ∀ place, (Value.map (redactEntries context)).at? place =
      ((Value.map context).at? place).map redact := at?_redact (.map context)
  refine ⟨fun place => ?_, fun place t ht => ?_, redactEntries_redactEntries context⟩
  · rw [hplace]
    cases (Value.map context).at? place with
    | none => exact .none
    | some v => exact .some (redacts_redact v)
  · rw [hplace] at ht
    obtain ⟨v, _, hv⟩ := Option.map_eq_some_iff.mp ht
    exact length_le_of_redact hv

end Journal

end Reckoner
