import Reckoner.Proofs.Arith.Lexed

/-!
Tokens at their offsets. Where no token can start stands an illegal character. The scanner finds the
tokens and the illegal characters of a text at the offsets where they stand, in their order and apart
from each other. What it finds in a part of a text depends on the character after the part only.
-/
namespace Reckoner.Arith

open Text Number Formula

section Standing

variable {s rest : List Char} {token : Token} {p q : Nat}

/-- That a token or an illegal character stands at an offset of a text. -/
inductive TokenAt : List Char → Nat → Token → Prop
  | here {s rest : List Char} {token : Token} : Stands s token rest → TokenAt s 0 token
  | gap {c : Char} {s : List Char} {p : Nat} {token : Token} : isGap c = true →
      TokenAt s p token → TokenAt (c :: s) (p + 1) token
  | next {s rest : List Char} {first token : Token} {p : Nat} : Stands s first rest →
      TokenAt rest p token → TokenAt s (first.text.length + p) token

theorem exists_offset {x : Nat × Token} (h : x ∈ tokens q s) :
    ∃ p, x.1 = q + p ∧ TokenAt s p x.2 := by
  fun_induction tokens q s with
  | case1 => exact absurd h List.not_mem_nil
  | case2 q c r hgap ih =>
    obtain ⟨p, hp, hat⟩ := ih h
    exact ⟨p + 1, by omega, .gap hgap hat⟩
  | case3 q c r hgap token size ih =>
    have hstands : Stands (c :: r) token (r.drop size) := stands_tokenAt (by simpa using hgap) r
    rcases List.mem_cons.mp h with rfl | h
    · exact ⟨0, rfl, .here hstands⟩
    · obtain ⟨p, hp, hat⟩ := ih h
      have hpos := hstands.text_length_pos
      exact ⟨token.text.length + p, by omega, .next hstands hat⟩

/-- The scanner finds tokens and illegal characters where they stand. -/
theorem mem_tokens_iff : (q + p, token) ∈ tokens q s ↔ TokenAt s p token := by
  constructor
  · intro h
    obtain ⟨p', hp, hat⟩ := exists_offset h
    rwa [Nat.add_left_cancel hp]
  · intro h
    induction h generalizing q with
    | here h =>
      rw [h.tokens]
      exact List.mem_cons_self
    | gap hgap _ ih =>
      rw [tokens_gap hgap, ← Nat.add_assoc, Nat.add_right_comm]
      exact ih
    | next h _ ih =>
      rw [h.tokens, ← Nat.add_assoc]
      exact List.mem_cons_of_mem _ ih

end Standing

section Parts

variable {before rest rest' s : List Char} {ts us : List Token} {token : Token} {q : Nat}

/-- That a text, with another one after it, is a sequence of tokens. -/
inductive Precedes : List Char → List Token → List Char → Prop
  | nil {rest : List Char} : Precedes [] [] rest
  | gap {c : Char} {before rest : List Char} {ts : List Token} : isGap c = true →
      Precedes before ts rest → Precedes (c :: before) ts rest
  | token {before rest : List Char} {token : Token} {ts : List Token} :
      Starts (token.text ++ (before ++ rest)) token (before ++ rest) →
      Precedes before ts rest → Precedes (token.text ++ before) (token :: ts) rest

theorem Precedes.lexed (h : Precedes before ts rest) (hrest : Lexed rest us) :
    Lexed (before ++ rest) (ts ++ us) := by
  induction h with
  | nil => exact hrest
  | gap hgap _ ih => exact .gap hgap (ih hrest)
  | token hstarts _ ih =>
    rw [List.append_assoc]
    exact hstarts.lexed (ih hrest)

theorem Precedes.isLiteral (h : Precedes before ts rest) :
    ∀ literal, .number literal ∈ ts → IsLiteral literal := by
  induction h with
  | nil => exact fun _ h => absurd h List.not_mem_nil
  | gap _ _ ih => exact ih
  | token hstarts _ ih =>
    intro literal h
    rcases List.mem_cons.mp h with rfl | h
    · exact hstarts.isLiteral
    · exact ih literal h

/-- The scanner finds the tokens of the part first, and goes on behind it. -/
theorem Precedes.tokens (h : Precedes before ts rest) (q : Nat) :
    ∃ us, us.map (·.2) = ts ∧ tokens q (before ++ rest) = us ++ tokens (q + before.length) rest := by
  induction h generalizing q with
  | nil => exact ⟨[], rfl, rfl⟩
  | gap hgap _ ih =>
    obtain ⟨us, hus, htokens⟩ := ih (q + 1)
    refine ⟨us, hus, ?_⟩
    rw [List.cons_append, tokens_gap hgap, htokens, List.length_cons, Nat.add_assoc,
      Nat.add_comm 1]
  | @token before rest token ts hstarts _ ih =>
    obtain ⟨us, hus, htokens⟩ := ih (q + token.text.length)
    refine ⟨(q, token) :: us, congrArg (token :: ·) hus, ?_⟩
    rw [List.append_assoc, (Stands.token hstarts).tokens, htokens, List.length_append,
      ← Nat.add_assoc]
    rfl

/-- The beginning of a literal is a literal if there is a digit in it. -/
theorem isLiteral_of_initial {literal part : List Char} (h : IsLiteral literal)
    (hpart : part <+: literal) (hdigit : ∃ c ∈ part, isDigit c = true) : IsLiteral part := by
  obtain ⟨⟨whole, fraction, hw, hf, _⟩, rfl⟩ := h
  obtain ⟨c, hc, hcdigit⟩ := hdigit
  have hwhole : part <+: whole → IsLiteral part := fun hpart =>
    ⟨.ofDigits part (fun x hx => hw x (hpart.subset hx)) (List.ne_nil_of_mem hc), rfl⟩
  cases fraction with
  | none => exact hwhole hpart
  | some f =>
    have hf' : AllDigits f := hf
    obtain ⟨t, ht⟩ := hpart
    rcases List.append_eq_append_iff.mp ht with ⟨w, rfl, _⟩ | ⟨g, rfl, hg⟩
    · exact hwhole (List.prefix_append part w)
    · cases g with
      | nil => exact hwhole (by rw [List.append_nil])
      | cons x g =>
        obtain ⟨rfl, rfl⟩ := List.cons.inj hg
        refine ⟨.ofParts whole g hw (fun x hx => hf' x (List.mem_append_left t hx)) ?_, rfl⟩
        rintro hnil
        obtain ⟨rfl, rfl⟩ := List.append_eq_nil_iff.mp hnil
        obtain rfl := List.mem_singleton.mp hc
        exact absurd hcdigit (by decide)

theorem exists_digit (h : IsLiteral s) : ∃ c ∈ s, isDigit c = true := by
  obtain ⟨⟨whole, fraction, hw, hf, hne⟩, rfl⟩ := h
  obtain ⟨c, hc⟩ := List.exists_mem_of_ne_nil _ hne
  rcases List.mem_append.mp hc with hmem | hmem
  · refine ⟨c, ?_, hw c hmem⟩
    cases fraction with
    | none => exact hmem
    | some f => exact List.mem_append_left _ hmem
  · refine ⟨c, ?_, hf c hmem⟩
    cases fraction with
    | none => exact absurd hmem List.not_mem_nil
    | some f => exact List.mem_append_right _ (List.mem_cons_of_mem _ hmem)

/-- Whether a literal is longest shows in the character after it. -/
theorem longest_iff {literal : List Char} (h : IsLiteral literal) :
    Longest literal (literal ++ s) ↔ ∀ c ∈ s.head?, ¬ IsLiteral (literal ++ [c]) := by
  constructor
  · intro hlongest c hc hlonger
    obtain ⟨r, rfl⟩ := List.head?_eq_some_iff.mp hc
    have hle := hlongest _ hlonger ⟨r, by rw [List.append_assoc]; rfl⟩
    rw [List.length_append] at hle
    exact absurd hle (by simp)
  · rintro hnone _ hlonger ⟨t, ht⟩
    rcases List.append_eq_append_iff.mp ht with ⟨w, rfl, _⟩ | ⟨g, rfl, hg⟩
    · rw [List.length_append]
      exact Nat.le_add_right _ _
    · cases g with
      | nil => rw [List.append_nil]
      | cons c g =>
        refine absurd (isLiteral_of_initial hlonger ⟨g, by rw [List.append_assoc]; rfl⟩ ?_)
          (hnone c (by rw [hg]; rfl))
        obtain ⟨d, hd, hdigit⟩ := exists_digit h
        exact ⟨d, List.mem_append_left _ hd, hdigit⟩

/-- No literal goes on with a gap. -/
theorem not_isLiteral_gap {literal : List Char} {c : Char} (hgap : isGap c = true) :
    ¬ IsLiteral (literal ++ [c]) := by
  rintro ⟨n, hn⟩
  have hc : c ∈ n.text := by rw [hn]; exact List.mem_append_right _ List.mem_cons_self
  have hsolid := isGap_of_isBlank (solid_numeral n c hc).2.1
  rw [hgap] at hsolid
  exact absurd hsolid (by decide)

/-- That a text goes on like another one, or with a gap, or not at all. -/
def GoesOn (s s' : List Char) : Prop := ∀ c ∈ s'.head?, c ∈ s.head? ∨ isGap c = true

theorem GoesOn.append (h : GoesOn rest rest') (before : List Char) :
    GoesOn (before ++ rest) (before ++ rest') := by
  cases before with
  | nil => exact h
  | cons c before => exact fun _ hc => Or.inl hc

theorem Starts.congr (h : Starts (token.text ++ rest) token rest) (hrest : GoesOn rest rest') :
    Starts (token.text ++ rest') token rest' := by
  cases token with
  | number literal =>
    have hliteral := h.isLiteral
    have hlongest : Longest literal (literal ++ rest) := by
      generalize hs : Token.text (.number literal) ++ rest = s at h
      cases h
      assumption
    refine .number hliteral ((longest_iff hliteral).mpr fun c hc => ?_)
    rcases hrest c hc with hsame | hgap
    · exact (longest_iff hliteral).mp hlongest c hsame
    · exact not_isLiteral_gap hgap
  | operator op => exact .operator op rest'
  | opening => exact .opening rest'
  | closing => exact .closing rest'
  | illegal c => exact absurd rfl (h.not_illegal c)

theorem Precedes.congr (h : Precedes before ts rest) (hrest : GoesOn rest rest') :
    Precedes before ts rest' := by
  induction h with
  | nil => exact .nil
  | gap hgap _ ih => exact .gap hgap (ih hrest)
  | @token before _ _ _ hstarts _ ih => exact .token (hstarts.congr (hrest.append before)) (ih hrest)

/-- Where the tokens found first end, and where the next one stands. -/
theorem exists_precedes {us vs : List (Nat × Token)} (h : tokens q s = us ++ vs)
    (hlegal : ∀ x ∈ us, ∀ c, x.2 ≠ .illegal c) :
    ∃ before rest, s = before ++ rest ∧ Precedes before (us.map (·.2)) rest ∧
      vs = tokens (q + before.length) rest ∧
      (∀ x ∈ us, x.1 + x.2.text.length ≤ q + before.length) ∧
      (rest = [] ∨ ∃ token after, Stands rest token after) := by
  fun_induction tokens q s generalizing us with
  | case1 =>
    obtain ⟨rfl, rfl⟩ := List.append_eq_nil_iff.mp h.symm
    exact ⟨[], [], rfl, .nil, by rw [Arith.tokens], fun _ h => absurd h List.not_mem_nil, Or.inl rfl⟩
  | case2 q c r hgap ih =>
    obtain ⟨before, rest, rfl, hbefore, hvs, hends, hrest⟩ := ih h hlegal
    have hlength : q + (c :: before).length = q + 1 + before.length := by
      rw [List.length_cons]; omega
    refine ⟨c :: before, rest, rfl, .gap hgap hbefore, ?_, ?_, hrest⟩
    · rw [hlength]; exact hvs
    · rw [hlength]; exact hends
  | case3 q c r hgap token size =>
    rename_i ih
    have hgap' : isGap c = false := by simpa using hgap
    have hstands : Stands (c :: r) token (r.drop size) := stands_tokenAt hgap' r
    have hpos := hstands.text_length_pos
    have hnext : q + 1 + size = q + token.text.length := by omega
    cases us with
    | nil =>
      refine ⟨[], c :: r, rfl, .nil, ?_, fun _ h => absurd h List.not_mem_nil,
        Or.inr ⟨token, _, hstands⟩⟩
      rw [hnext] at h
      exact h.symm.trans (hstands.tokens q).symm
    | cons u us =>
      obtain ⟨rfl, htokens⟩ := List.cons.inj h
      obtain ⟨before, rest, hdrop, hbefore, hvs, hends, hrest⟩ :=
        ih htokens fun x hx => hlegal x (List.mem_cons_of_mem _ hx)
      have hstarts : Starts (token.text ++ (before ++ rest)) token (before ++ rest) := by
        rw [← hdrop, hstands.text_append]
        exact hstands.starts (hlegal _ List.mem_cons_self)
      have hlength : q + (token.text ++ before).length = q + 1 + size + before.length := by
        rw [List.length_append]
        omega
      refine ⟨token.text ++ before, rest, ?_, .token hstarts hbefore, ?_, ?_, hrest⟩
      · rw [List.append_assoc, ← hdrop, hstands.text_append]
      · rw [hlength]
        exact hvs
      · rw [hlength]
        refine List.forall_mem_cons.mpr ⟨?_, hends⟩
        dsimp only
        omega

theorem le_of_mem_tokens {x : Nat × Token} (h : x ∈ tokens q s) : q ≤ x.1 := by
  obtain ⟨p, hp, _⟩ := exists_offset h
  omega

/-- A token that is found stands after the part of the text that the tokens before it make up. -/
theorem exists_precedes_token {us vs : List (Nat × Token)} {p : Nat}
    (h : tokens 0 s = us ++ (p, token) :: vs) (hlegal : ∀ x ∈ us, ∀ c, x.2 ≠ .illegal c) :
    ∃ before rest, s = before ++ (token.text ++ rest) ∧ p = before.length ∧
      Precedes before (us.map (·.2)) (token.text ++ rest) ∧
      Stands (token.text ++ rest) token rest ∧ ∀ x ∈ (p, token) :: vs, p ≤ x.1 := by
  obtain ⟨before, rest, rfl, hbefore, hrest, _, hend | ⟨first, after, hstands⟩⟩ :=
    exists_precedes h hlegal
  · rw [hend, Arith.tokens] at hrest
    exact absurd hrest (List.cons_ne_nil _ _)
  · rw [Nat.zero_add] at hrest
    have hlater : ∀ x ∈ (p, token) :: vs, before.length ≤ x.1 := by
      rw [hrest]
      exact fun x hx => le_of_mem_tokens hx
    rw [hstands.tokens] at hrest
    obtain ⟨rfl, rfl⟩ := Prod.mk.inj (List.cons.inj hrest).1
    have htext := hstands.text_append
    rw [← htext] at hbefore hstands ⊢
    exact ⟨before, after, rfl, rfl, hbefore, hstands, hlater⟩

end Parts

end Reckoner.Arith
