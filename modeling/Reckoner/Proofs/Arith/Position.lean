import Reckoner.Proofs.Arith.Accepted
import Reckoner.Proofs.Arith.Offsets
import Reckoner.Proofs.Formula.Depths

/-!
The position of a parse error. The parser takes tokens as long as some derivation begins with them:
a missing operand can be filled in by a number, and what is open can be closed. So up to the
position of an error the text can go on to a sentence, and with the token that stands there it
cannot. A point that belongs to no number is reported at its place as well, although a digit after
it would make it the beginning of a number. A text that can go on to a sentence as a whole is
reported at its end.
-/
namespace Reckoner.Arith

open Text Number Formula

section Viable

section Completion

variable {c : Category} {stack : List Frame} {state next : State} {ts us : List Token}

/-- That tokens make up an expression once the open parentheses are closed. -/
def Closable (ts : List Token) : Prop :=
  ∃ n, ∃ e : Derivation .expr, e.tokens = ts ++ List.replicate n .closing

theorem Closable.of_closing (h : Closable (ts ++ [.closing])) : Closable ts := by
  obtain ⟨n, e, he⟩ := h
  refine ⟨n + 1, e, ?_⟩
  rw [he, List.append_assoc]
  rfl

theorem exists_expr (d : Derivation c) : ∃ e : Derivation .expr, e.tokens = d.tokens := by
  obtain ⟨e, he, _⟩ := exists_of_level_le (k := .expr) d (by cases c <;> decide)
  exact ⟨e, he⟩

/-- An operand completes what is on the stack. A primary expression does so even after a minus
sign, which takes it. -/
theorem closable_operand (h : Holds stack us) (d : Derivation c)
    (hd : Passes c.level stack ∨ c = .primary) : Closable (us ++ d.tokens) := by
  induction h generalizing c with
  | empty =>
    obtain ⟨e, he⟩ := exists_expr d
    exact ⟨0, e, by rw [he, List.replicate_zero, List.append_nil]; rfl⟩
  | paren _ ih =>
    obtain ⟨e, he⟩ := exists_expr d
    have hgroup := ih (.group e) (Or.inr rfl)
    refine Closable.of_closing ?_
    rw [Derivation.tokens, he] at hgroup
    rw [List.append_assoc, List.append_assoc]
    exact hgroup
  | minus _ hpasses ih =>
    rcases hd with hd | rfl
    · exact absurd hd id
    · have hneg := ih (.neg d) (Or.inl hpasses)
      rw [List.append_assoc]
      exact hneg
  | @left rest ts op l _ hpasses ih =>
    have hlevel : op.rightCategory.level ≤ c.level := by
      rw [level_rightCategory]
      rcases hd with hd | rfl
      · exact hd
      · cases op <;> decide
    obtain ⟨r, hr, _⟩ := exists_of_level_le d hlevel
    have hbinary := ih (.binary op l r) (Or.inl ((level_category op).symm ▸ hpasses))
    rw [tokens_binary, hr] at hbinary
    rw [List.append_assoc, List.append_assoc]
    exact hbinary

/-- That some derivation from literals begins with tokens. -/
def Viable (ts : List Token) : Prop :=
  ∃ (d : Derivation .expr) (more : List Token), d.tokens = ts ++ more ∧
    ∀ literal, .number literal ∈ d.tokens → IsLiteral literal

theorem Closable.viable (h : Closable (ts ++ us))
    (hliteral : ∀ literal, .number literal ∈ ts ++ us → IsLiteral literal) : Viable ts := by
  obtain ⟨n, e, he⟩ := h
  refine ⟨e, us ++ List.replicate n .closing, by rw [he, List.append_assoc], ?_⟩
  intro literal hmem
  rw [he, List.mem_append] at hmem
  rcases hmem with hmem | hmem
  · exact hliteral literal hmem
  · exact absurd (List.eq_of_mem_replicate hmem) (by simp)

/-- The tokens that a state stands for begin an expression. -/
theorem State.Covers.viable (h : state.Covers ts)
    (hliteral : ∀ literal, .number literal ∈ ts → IsLiteral literal) : Viable ts := by
  have hzero : ∀ {stack : List Frame}, Holds stack ts → Viable ts := by
    intro stack h
    refine (closable_operand h (.number ['0']) (Or.inr rfl)).viable fun literal hmem => ?_
    rcases List.mem_append.mp hmem with hmem | hmem
    · exact hliteral literal hmem
    · obtain rfl := Token.number.inj (List.mem_singleton.mp hmem)
      exact isLiteral_digit '0' (by decide)
  cases state with
  | operand stack => exact hzero h.1
  | primary stack => exact hzero h
  | operator stack t =>
    obtain ⟨us, d, hholds, hpasses, _, rfl⟩ := h
    have hclosable := closable_operand hholds d (Or.inl hpasses)
    rw [← List.append_nil (us ++ d.tokens)] at hclosable
    exact hclosable.viable (by rwa [List.append_nil])

theorem covers_after (h : state.Covers ts) (hafter : state.after? us = some next) :
    next.Covers (ts ++ us) := by
  induction us generalizing state ts with
  | nil =>
    obtain rfl := Option.some.inj hafter
    rwa [List.append_nil]
  | cons token us ih =>
    rw [State.after?_cons] at hafter
    obtain ⟨middle, hmiddle, hrest⟩ := Option.bind_eq_some_iff.mp hafter
    have hnext := ih (covers_next h hmiddle) hrest
    rwa [List.append_assoc] at hnext

/-- The parser takes exactly the tokens that begin an expression. -/
theorem viable_iff (hliteral : ∀ literal, .number literal ∈ ts → IsLiteral literal) :
    Viable ts ↔ ∃ state, (State.operand []).after? ts = some state := by
  constructor
  · rintro ⟨d, more, hd, hall⟩
    obtain ⟨e, ha, hl, _, _, htokens⟩ := exists_expression d hall
    obtain ⟨pending, t, hrun, _⟩ := (ha.read hl).operand [] trivial
    rw [htokens, hd, State.after?_append] at hrun
    obtain ⟨state, hstate, _⟩ := Option.bind_eq_some_iff.mp hrun
    exact ⟨state, hstate⟩
  · rintro ⟨state, hstate⟩
    have hstart : (State.operand []).Covers [] := ⟨.empty, trivial⟩
    exact (covers_after hstart hstate).viable hliteral

end Completion

section Refusal

variable {state : State} {problem : ParseProblem} {position length : Nat}

/-- A run fails at the first token that its state does not take, or else at the end. -/
theorem runTokens_eq_error {ts : List (Nat × Token)}
    (h : runTokens length state ts = .error (problem, position)) :
    (∃ us token vs next, ts = us ++ (position, token) :: vs ∧
      state.after? (us.map (·.2)) = some next ∧ next.next? token = none) ∨
    position = length ∧ ∃ next, state.after? (ts.map (·.2)) = some next := by
  induction ts generalizing state with
  | nil =>
    rw [runTokens] at h
    split at h
    · exact absurd h (by simp)
    · exact Or.inr ⟨(Prod.mk.inj (Except.error.inj h)).2.symm, state, rfl⟩
  | cons head ts ih =>
    obtain ⟨place, token⟩ := head
    rw [runTokens] at h
    split at h
    · rename_i next hnext
      have hafter : ∀ us : List (Nat × Token),
          state.after? (((place, token) :: us).map (·.2)) = next.after? (us.map (·.2)) := by
        intro us
        rw [List.map_cons, State.after?_cons, hnext]
        rfl
      rcases ih h with ⟨us, token', vs, last, rfl, hlast, hnone⟩ | ⟨hend, last, hlast⟩
      · exact Or.inl ⟨(place, token) :: us, token', vs, last, rfl, (hafter us).trans hlast, hnone⟩
      · exact Or.inr ⟨hend, last, (hafter ts).trans hlast⟩
    · rename_i hnone
      obtain rfl := (Prod.mk.inj (Except.error.inj h)).2
      exact Or.inl ⟨[], token, ts, state, rfl, rfl, hnone⟩

end Refusal

end Viable

section Reported

section Beginnings

variable {before rest s : List Char} {ts : List Token} {token : Token} {state : State}

/-- That a sentence begins with the text. -/
def BeginsSentence (s : List Char) : Prop := ∃ rest, IsSentence (s ++ rest)

theorem BeginsSentence.of_initial (h : BeginsSentence s) (hbefore : before <+: s) :
    BeginsSentence before := by
  obtain ⟨more, hmore⟩ := h
  obtain ⟨t, rfl⟩ := hbefore
  exact ⟨t ++ more, by rwa [← List.append_assoc]⟩

/-- Tokens with a space before each of them. -/
theorem exists_spaced (hlegal : ∀ c, .illegal c ∉ ts)
    (hliteral : ∀ literal, .number literal ∈ ts → IsLiteral literal) :
    ∃ s, Lexed s ts ∧ ∀ c ∈ s.head?, isGap c = true := by
  induction ts with
  | nil => exact ⟨[], .nil, by simp⟩
  | cons token ts ih =>
    obtain ⟨s, hs, hhead⟩ := ih (fun c hc => hlegal c (List.mem_cons_of_mem _ hc))
      fun literal h => hliteral literal (List.mem_cons_of_mem _ h)
    have hstarts : Starts (token.text ++ s) token s := by
      cases token with
      | number literal =>
        have h := hliteral literal List.mem_cons_self
        exact .number h ((longest_iff h).mpr fun c hc => not_isLiteral_gap (hhead c hc))
      | operator op => exact .operator op s
      | opening => exact .opening s
      | closing => exact .closing s
      | illegal c => exact absurd List.mem_cons_self (hlegal c)
    exact ⟨' ' :: (token.text ++ s), .gap (by decide) (hstarts.lexed hs), by simp [isGap]⟩

/-- A text whose tokens the parser takes begins a sentence. -/
theorem Precedes.beginsSentence (h : Precedes before ts rest)
    (hstate : (State.operand []).after? ts = some state) : BeginsSentence before := by
  obtain ⟨d, more, hd, hliteral⟩ := (viable_iff h.isLiteral).mpr ⟨state, hstate⟩
  have hmore : ∀ token ∈ more, token ∈ d.tokens := fun _ h => hd ▸ List.mem_append_right ts h
  obtain ⟨s, hs, hhead⟩ := exists_spaced (fun c hc => not_illegal d c (hmore _ hc))
    fun literal hmem => hliteral literal (hmore _ hmem)
  have hbefore : Precedes before ts s := h.congr fun c hc => Or.inr (hhead c hc)
  exact ⟨s, d, hd ▸ hbefore.lexed hs⟩

theorem legal_of_after {next : State} (h : state.after? ts = some next) : ∀ c, .illegal c ∉ ts := by
  induction ts generalizing state with
  | nil => exact fun _ => List.not_mem_nil
  | cons token ts ih =>
    rw [State.after?_cons] at h
    obtain ⟨middle, hmiddle, hrest⟩ := Option.bind_eq_some_iff.mp h
    intro c hc
    rcases List.mem_cons.mp hc with rfl | hc
    · cases state <;> exact absurd hmiddle (by simp [State.next?])
    · exact ih hrest c hc

theorem next?_number {literal : List Char} (literal' : List Char)
    (h : state.next? (.number literal) = none) : state.next? (.number literal') = none := by
  cases state with
  | operand | primary => exact absurd h (by simp [State.next?])
  | operator => rfl

theorem Starts.extended (h : Starts (token.text ++ rest) token rest) (more : List Char) :
    ∃ token' after, Starts (token.text ++ more) token' after ∧
      ∀ state : State, state.next? token = none → state.next? token' = none := by
  cases token with
  | number literal =>
    have hle := longest_takeLiteral (literal ++ more) literal h.isLiteral (List.prefix_append _ _)
    have hne : takeLiteral (literal ++ more) ≠ [] := by
      intro hnil
      rw [hnil] at hle
      exact isLiteral_ne_nil h.isLiteral (List.eq_nil_of_length_eq_zero (Nat.le_zero.mp hle))
    have hlongest := longest_takeLiteral (literal ++ more)
    obtain ⟨after, hafter⟩ := takeLiteral_initial (literal ++ more)
    have hstarts := Starts.number (isLiteral_takeLiteral hne) (by rwa [hafter])
    rw [hafter] at hstarts
    exact ⟨_, after, hstarts, fun _ => next?_number _⟩
  | operator op => exact ⟨_, more, .operator op more, fun _ => id⟩
  | opening => exact ⟨_, more, .opening more, fun _ => id⟩
  | closing => exact ⟨_, more, .closing more, fun _ => id⟩
  | illegal c => exact absurd rfl (h.not_illegal c)

/-- Only a point can become the beginning of a literal. -/
theorem Stands.illegal_extended {c : Char} (h : Stands (c :: rest) (.illegal c) rest)
    (hpoint : c ≠ '.') (more : List Char) : Stands (c :: more) (.illegal c) more := by
  obtain ⟨_, _, hcons, hgap, htoken⟩ := h.scanned
  obtain ⟨rfl, rfl⟩ := List.cons.inj hcons
  have hnil : takeLiteral (c :: rest) = [] := by
    unfold tokenAt at htoken
    split at htoken
    · exact absurd htoken (by simp)
    · assumption
  have hdigit : isDigit c = false := by
    rw [Bool.eq_false_iff]
    intro hdigit
    have hle := longest_takeLiteral (c :: rest) [c] (isLiteral_digit c hdigit) ⟨rest, rfl⟩
    rw [hnil] at hle
    exact absurd hle (by simp)
  have hmore : tokenAt c (c :: more) = .illegal c := by
    unfold tokenAt at htoken ⊢
    rw [takeLiteral_nil hdigit hpoint] at htoken ⊢
    exact htoken
  have hstands := stands_tokenAt hgap more
  rwa [hmore] at hstands

/-- With another text after it, the token at the beginning of a text is refused as before: a number
can only go on, and of the illegal characters only a point can become a token. -/
theorem Stands.extended (h : Stands (token.text ++ rest) token rest) (hpoint : token ≠ .illegal '.')
    (more : List Char) : ∃ token' after, Stands (token.text ++ more) token' after ∧
      ∀ state : State, state.next? token = none → state.next? token' = none := by
  by_cases hlegal : ∀ c, token ≠ .illegal c
  · obtain ⟨token', after, hstarts, hnext⟩ := (h.starts hlegal).extended more
    exact ⟨token', after, .token hstarts, hnext⟩
  · obtain ⟨c, rfl⟩ : ∃ c, token = .illegal c := by simpa using hlegal
    exact ⟨.illegal c, more, h.illegal_extended (fun hc => hpoint (congrArg _ hc)) more,
      fun _ => id⟩

/-- A text does not begin a sentence when the parser refuses its last token. -/
theorem Precedes.not_beginsSentence (h : Precedes before ts (token.text ++ rest))
    (hstate : (State.operand []).after? ts = some state) (hnone : state.next? token = none)
    (hstands : Stands (token.text ++ rest) token rest) (hpoint : token ≠ .illegal '.') :
    ¬ BeginsSentence (before ++ token.text) := by
  rintro ⟨more, d, hd⟩
  obtain ⟨token', after, hstands', hnext⟩ := hstands.extended hpoint more
  have hsame : GoesOn (token.text ++ rest) (token.text ++ more) := by
    intro c hc
    have hpos := hstands.text_length_pos
    rw [List.head?_append_of_ne_nil _ (List.length_pos_iff.mp hpos)] at hc ⊢
    exact Or.inl hc
  obtain ⟨us, hus, htokens⟩ := (h.congr hsame).tokens 0
  rw [List.append_assoc] at hd
  have hfound := hd.tokens 0
  rw [htokens, hstands'.tokens, List.map_append, hus, List.map_cons] at hfound
  -- the tokens of the sentence are refused where the last token was
  obtain ⟨last, hlast⟩ := (viable_iff hd.isLiteral).mp ⟨d, [], by rw [List.append_nil], hd.isLiteral⟩
  rw [← hfound, State.after?_append, hstate, Option.bind_some, State.after?_cons,
    hnext state hnone] at hlast
  exact absurd hlast (by simp)

end Beginnings

section Position

variable {s : List Char} {us vs : List (Nat × Token)} {token : Token} {state : State} {p : Nat}

/-- That a text begins a sentence up to a token or an illegal character, and not with it. A point
that belongs to no number counts as such, even where a digit after it would make it the beginning of
one. -/
def RefusedAt (s : List Char) (p : Nat) : Prop :=
  ∃ token, TokenAt s p token ∧ BeginsSentence (s.take p) ∧
    (¬ BeginsSentence (s.take (p + token.text.length)) ∨ token = .illegal '.')

/-- The first place where a text is refused, or else its end if it begins a sentence. -/
def ReportedAt (s : List Char) (p : Nat) : Prop :=
  IsLeast {q | RefusedAt s q} p ∨ (∀ q, ¬ RefusedAt s q) ∧ BeginsSentence s ∧ p = s.length

theorem legal_of_taken (hstate : (State.operand []).after? (us.map (·.2)) = some state) :
    ∀ x ∈ us, ∀ c, x.2 ≠ .illegal c := by
  intro x hx c hc
  exact legal_of_after hstate c (hc ▸ List.mem_map_of_mem hx)

/-- Where a text is refused stands a token that the parser has not taken. -/
theorem RefusedAt.not_taken (h : RefusedAt s p) (htokens : tokens 0 s = us ++ vs)
    (hstate : (State.operand []).after? (us.map (·.2)) = some state) : ∃ token, (p, token) ∈ vs := by
  obtain ⟨token, hat, _, hrefused⟩ := h
  have hmem := (mem_tokens_iff (q := 0)).mpr hat
  rw [Nat.zero_add, htokens] at hmem
  refine ⟨token, (List.mem_append.mp hmem).resolve_left fun htaken => ?_⟩
  have hlegal := legal_of_taken hstate
  obtain ⟨before, rest, rfl, hbefore, _, hends, _⟩ := exists_precedes htokens hlegal
  have hle := hends _ htaken
  rw [Nat.zero_add] at hle
  refine hrefused.elim (fun hnone => hnone ?_) (hlegal _ htaken '.')
  rw [List.take_append_of_le_length hle]
  exact (hbefore.beginsSentence hstate).of_initial (List.take_prefix _ before)

/-- The first token that the parser does not take is where the text is refused first. -/
theorem isLeast_refused (htokens : tokens 0 s = us ++ (p, token) :: vs)
    (hstate : (State.operand []).after? (us.map (·.2)) = some state)
    (hnone : state.next? token = none) : IsLeast {q | RefusedAt s q} p := by
  obtain ⟨before, rest, rfl, rfl, hbefore, hstands, hlater⟩ :=
    exists_precedes_token htokens (legal_of_taken hstate)
  constructor
  · have hmem : (0 + before.length, token) ∈ tokens 0 (before ++ (token.text ++ rest)) := by
      rw [htokens, Nat.zero_add]
      exact List.mem_append_right us List.mem_cons_self
    refine ⟨token, mem_tokens_iff.mp hmem, ?_⟩
    rw [List.take_left]
    refine ⟨hbefore.beginsSentence hstate, or_iff_not_imp_right.mpr fun hpoint => ?_⟩
    rw [← List.append_assoc, ← List.length_append, List.take_left]
    exact hbefore.not_beginsSentence hstate hnone hstands hpoint
  · intro q hq
    obtain ⟨token', hmem⟩ := hq.not_taken htokens hstate
    exact hlater _ hmem

/-- A text that the parser takes as a whole begins a sentence and is refused nowhere. -/
theorem beginsSentence_of_taken
    (hstate : (State.operand []).after? ((tokens 0 s).map (·.2)) = some state) :
    (∀ q, ¬ RefusedAt s q) ∧ BeginsSentence s := by
  have htokens : tokens 0 s = tokens 0 s ++ [] := (List.append_nil _).symm
  constructor
  · intro q hq
    obtain ⟨token, hmem⟩ := hq.not_taken htokens hstate
    exact absurd hmem List.not_mem_nil
  · obtain ⟨before, rest, hs, hbefore, hrest, _, hstands⟩ :=
      exists_precedes htokens (legal_of_taken hstate)
    obtain rfl : rest = [] := by
      refine hstands.resolve_right ?_
      rintro ⟨first, after, hstands⟩
      rw [hstands.tokens] at hrest
      exact absurd hrest.symm (List.cons_ne_nil _ _)
    rw [hs, List.append_nil]
    exact hbefore.beginsSentence hstate

/-- A text with balanced parentheses that is no sentence is reported at the first token or illegal
character such that the text begins a sentence up to it but not with it, or at its end if it begins
a sentence as a whole. -/
theorem parse_error_position (s : List Char) (hne : trim s ≠ [])
    (hbalanced : depthThrough 0 (trim s) = some 0) (hsentence : ¬ IsSentence (trim s)) :
    ∃ problem position, parse s = .error ⟨.parse problem position, some (trim s)⟩ ∧
      ReportedAt (trim s) position := by
  have hrun : parseTrimmed (trim s) =
      runTokens (trim s).length (.operand []) (tokens 0 (trim s)) := by
    unfold parseTrimmed
    rw [if_neg (by simpa using hne), imbalance_eq_none_iff.mpr hbalanced]
  cases hparse : parseTrimmed (trim s) with
  | ok t => exact absurd (isSentence_iff.mpr ⟨t, hparse⟩) hsentence
  | error e =>
    obtain ⟨problem, position⟩ := e
    refine ⟨problem, position, by unfold parse; rw [hparse], ?_⟩
    rw [hparse] at hrun
    rcases runTokens_eq_error hrun.symm with ⟨us, token, vs, state, htokens, hstate, hnone⟩ |
      ⟨rfl, state, hstate⟩
    · exact Or.inl (isLeast_refused htokens hstate hnone)
    · obtain ⟨hnone, hbegins⟩ := beginsSentence_of_taken hstate
      exact Or.inr ⟨hnone, hbegins, rfl⟩

/-- A number ends before a second point, and no other number can follow it. -/
theorem reported_second_point : ReportedAt "1.5.2".toList 3 := by
  obtain ⟨problem, position, hparse, hreported⟩ := parse_error_position "1.5.2".toList (by decide)
    (by decide) (by rw [isSentence_iff_isSome]; decide +kernel)
  have hfound : parse "1.5.2".toList =
      .error ⟨.parse (.unexpectedToken ".2".toList) 3, some "1.5.2".toList⟩ := by
    cbv
  rw [hfound] at hparse
  obtain ⟨_, rfl⟩ := Cause.parse.inj (Fault.mk.inj (Except.error.inj hparse)).1
  exact hreported

/-- A point at the end is reported where it stands, although the text begins the sentence that has a
digit after it. -/
theorem parse_error_last_point :
    trim "1 + .".toList = "1 + .".toList ∧ depthThrough 0 "1 + .".toList = some 0 ∧
      ¬ IsSentence "1 + .".toList ∧ IsSentence ("1 + .".toList ++ ['5']) ∧
      parse "1 + .".toList =
        .error ⟨.parse (.illegalCharacter '.') 4, some "1 + .".toList⟩ ∧
      "1 + .".toList.length = 5 := by
  refine ⟨by decide, by decide, ?_, ?_, by cbv, rfl⟩
  · rw [isSentence_iff_isSome]
    decide +kernel
  · rw [isSentence_iff_isSome]
    decide +kernel

end Position

end Reported

end Reckoner.Arith
