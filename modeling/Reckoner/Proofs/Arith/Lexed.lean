import Reckoner.Proofs.Arith.Grammar
import Reckoner.Proofs.Formula.Parsed

/-!
Texts as sequences of tokens. A number is the longest literal at its place, and white space between
tokens counts for nothing. The scanner finds exactly these tokens; any other text holds a character
that it takes for an illegal token. Whether parentheses balance depends on the tokens alone.
-/
namespace Reckoner.Arith

open Text Number Formula

/-- The texts of numbers: digits with an optional point among or next to them. -/
def IsLiteral (s : List Char) : Prop := ∃ n : Numeral, n.text = s

/-- That no literal at the beginning of a text is longer. -/
def Longest (literal s : List Char) : Prop :=
  ∀ longer, IsLiteral longer → longer <+: s → longer.length ≤ literal.length

/-- That a text is a sequence of tokens. -/
inductive Lexed : List Char → List Token → Prop
  | nil : Lexed [] []
  | gap {c s ts} : isGap c = true → Lexed s ts → Lexed (c :: s) ts
  | number {literal s ts} : IsLiteral literal → Longest literal (literal ++ s) → Lexed s ts →
      Lexed (literal ++ s) (.number literal :: ts)
  | operator (op) {s ts} : Lexed s ts → Lexed (op.symbol :: s) (.operator op :: ts)
  | opening {s ts} : Lexed s ts → Lexed ('(' :: s) (.opening :: ts)
  | closing {s ts} : Lexed s ts → Lexed (')' :: s) (.closing :: ts)

section Literals

variable {s literal : List Char}

/-- The literal that the scanner takes is at the beginning of the text. -/
theorem takeLiteral_initial (s : List Char) : takeLiteral s <+: s := by
  have hsplit : s.takeWhile isDigit ++ s.dropWhile isDigit = s := List.takeWhile_append_dropWhile
  unfold takeLiteral
  dsimp only
  split
  · rename_i r hdrop
    split
    · exact List.nil_prefix
    · refine ⟨r.dropWhile isDigit, ?_⟩
      rw [List.append_assoc, List.cons_append, List.takeWhile_append_dropWhile, ← hdrop, hsplit]
  · exact List.takeWhile_prefix isDigit

theorem allDigits_takeWhile (s : List Char) : AllDigits (s.takeWhile isDigit) :=
  fun _ hc => List.mem_takeWhile_imp hc

/-- What the scanner takes is a literal, if it takes anything. -/
theorem isLiteral_takeLiteral (h : takeLiteral s ≠ []) : IsLiteral (takeLiteral s) := by
  unfold takeLiteral at h ⊢
  dsimp only at h ⊢
  split at h
  · rename_i r hdrop
    split at h
    · exact absurd rfl h
    · rename_i hdigit
      rw [if_neg hdigit]
      refine ⟨.ofParts _ _ (allDigits_takeWhile s) (allDigits_takeWhile r) fun hnil => hdigit ?_, rfl⟩
      obtain ⟨hwhole, hfraction⟩ := List.append_eq_nil_iff.mp hnil
      rw [hwhole, hfraction]
      rfl
  · exact ⟨.ofDigits _ (allDigits_takeWhile s) h, rfl⟩

/-- The scanner takes the longest literal. -/
theorem longest_takeLiteral (s : List Char) : Longest (takeLiteral s) s := by
  rintro _ ⟨⟨whole, fraction, hw, hf, hne⟩, rfl⟩ ⟨t, rfl⟩
  cases fraction with
  | none =>
    -- the digits of the text begin with those of the literal
    change whole.length ≤ (takeLiteral (whole ++ t)).length
    have hwhole : whole.length ≤ ((whole ++ t).takeWhile isDigit).length := by
      rw [List.takeWhile_append_of_pos hw, List.length_append]
      exact Nat.le_add_right _ _
    unfold takeLiteral
    dsimp only
    split
    · split
      · rename_i hempty
        rw [Bool.and_eq_true, List.isEmpty_iff, List.isEmpty_iff] at hempty
        rw [hempty.1] at hwhole
        exact hwhole
      · rw [List.length_append]
        omega
    · exact hwhole
  | some f =>
    have hf' : AllDigits f := hf
    have hpoint : ∀ c ∈ ('.' :: f ++ t).head?, isDigit c = false := by
      intro c hc
      obtain rfl := Option.some.inj hc
      decide
    change (whole ++ '.' :: f).length ≤ (takeLiteral (whole ++ '.' :: f ++ t)).length
    rw [List.append_assoc]
    unfold takeLiteral
    dsimp only
    rw [takeWhile_append_stop hw hpoint, dropWhile_append_stop hw hpoint]
    change _ ≤ (if whole.isEmpty && ((f ++ t).takeWhile isDigit).isEmpty then []
      else whole ++ '.' :: (f ++ t).takeWhile isDigit).length
    rw [List.takeWhile_append_of_pos hf', if_neg]
    · simp only [List.length_append, List.length_cons]
      omega
    · rw [Bool.and_eq_true, List.isEmpty_iff, List.isEmpty_iff, List.append_eq_nil_iff]
      rintro ⟨rfl, rfl, _⟩
      exact hne rfl

theorem isLiteral_ne_nil (h : IsLiteral literal) : literal ≠ [] := by
  obtain ⟨n, rfl⟩ := h
  exact numeral_text_ne_nil n

/-- A longest literal is the one that the scanner takes. -/
theorem takeLiteral_eq (h : IsLiteral literal) (hlongest : Longest literal (literal ++ s)) :
    takeLiteral (literal ++ s) = literal := by
  have hle := longest_takeLiteral (literal ++ s) literal h (List.prefix_append _ _)
  have hne : takeLiteral (literal ++ s) ≠ [] := by
    rw [← List.length_pos_iff]
    exact Nat.lt_of_lt_of_le (List.length_pos_iff.mpr (isLiteral_ne_nil h)) hle
  have hge := hlongest _ (isLiteral_takeLiteral hne) (takeLiteral_initial _)
  have hboth := List.prefix_of_prefix_length_le (List.prefix_append literal s)
    (takeLiteral_initial _) hle
  exact (hboth.eq_of_length_le hge).symm

/-- A literal is longest when no digit and no point comes after it. -/
theorem longest_of_boundary (n : Numeral) (hs : ∀ c ∈ s.head?, isDigit c = false ∧ c ≠ '.') :
    Longest n.text (n.text ++ s) := by
  have hlongest := longest_takeLiteral (n.text ++ s)
  rwa [takeLiteral_text n hs] at hlongest

end Literals

section Scanner

variable {s rest : List Char} {token : Token} {ts : List Token}

theorem Lexed.isLiteral (h : Lexed s ts) : ∀ literal, .number literal ∈ ts → IsLiteral literal := by
  induction h with
  | nil => exact fun _ h => absurd h List.not_mem_nil
  | gap _ _ ih => exact ih
  | number hliteral _ _ ih =>
    intro literal h
    rcases List.mem_cons.mp h with heq | h
    · rw [Token.number.inj heq]
      exact hliteral
    · exact ih literal h
  | operator op _ ih | opening _ ih | closing _ ih =>
    exact fun literal h => ih literal (List.mem_of_ne_of_mem (by simp) h)

theorem symbol_of_ofSymbol? {c : Char} {op : Op} (h : Op.ofSymbol? c = some op) :
    op.symbol = c := by
  have hfound := List.find?_some h
  exact beq_iff_eq.mp hfound

/-- That a token stands at the beginning of a text, and what comes after it. -/
inductive Starts : List Char → Token → List Char → Prop
  | number {literal rest : List Char} : IsLiteral literal → Longest literal (literal ++ rest) →
      Starts (literal ++ rest) (.number literal) rest
  | operator (op : Op) (rest : List Char) : Starts (op.symbol :: rest) (.operator op) rest
  | opening (rest : List Char) : Starts ('(' :: rest) .opening rest
  | closing (rest : List Char) : Starts (')' :: rest) .closing rest

theorem Starts.lexed (h : Starts s token rest) (hrest : Lexed rest ts) :
    Lexed s (token :: ts) := by
  cases h with
  | number hliteral hlongest => exact .number hliteral hlongest hrest
  | operator op => exact .operator op hrest
  | opening => exact .opening hrest
  | closing => exact .closing hrest

/-- The token that the scanner finds at a character is illegal, or the text starts with it. -/
theorem tokenAt_starts (c : Char) (r : List Char) :
    tokenAt c (c :: r) = .illegal c ∨ Starts (c :: r) (tokenAt c (c :: r))
      (r.drop ((tokenAt c (c :: r)).text.length - 1)) := by
  cases htake : takeLiteral (c :: r) with
  | cons d literal =>
    have htoken : tokenAt c (c :: r) = .number (d :: literal) := by
      unfold tokenAt
      rw [htake]
    have hliteral : IsLiteral (d :: literal) :=
      htake ▸ isLiteral_takeLiteral (by rw [htake]; exact List.cons_ne_nil d literal)
    have hlongest : Longest (d :: literal) (c :: r) := htake ▸ longest_takeLiteral (c :: r)
    obtain ⟨t, ht⟩ : d :: literal <+: c :: r := htake ▸ takeLiteral_initial (c :: r)
    have hdrop : r.drop ((d :: literal).length - 1) = t := by
      rw [← (List.cons.inj ht).2, List.length_cons, Nat.add_sub_cancel, List.append_eq,
        List.drop_left]
    rw [htoken]
    change _ ∨ Starts (c :: r) _ (r.drop ((d :: literal).length - 1))
    rw [hdrop]
    rw [← ht] at hlongest ⊢
    exact Or.inr (.number hliteral hlongest)
  | nil =>
    unfold tokenAt
    rw [htake]
    dsimp only
    split
    · rename_i hc
      subst hc
      exact Or.inr (.opening r)
    · split
      · rename_i hc
        subst hc
        exact Or.inr (.closing r)
      · split
        · rename_i op hop
          obtain rfl := symbol_of_ofSymbol? hop
          exact Or.inr (.operator op r)
        · exact Or.inl rfl

/-- That a token stands at the beginning of a text, or a character with which no token starts. -/
inductive Stands : List Char → Token → List Char → Prop
  | token {s rest : List Char} {token : Token} : Starts s token rest → Stands s token rest
  | illegal {c : Char} {rest : List Char} : isGap c = false →
      (∀ token after, ¬ Starts (c :: rest) token after) → Stands (c :: rest) (.illegal c) rest

theorem Starts.not_illegal (h : Starts s token rest) (c : Char) : token ≠ .illegal c := by
  cases h <;> simp

theorem Starts.isLiteral {literal : List Char} (h : Starts s (.number literal) rest) :
    IsLiteral literal := by
  cases h
  assumption

theorem Starts.text_append (h : Starts s token rest) : token.text ++ rest = s := by
  cases h <;> rfl

/-- A text that starts with a token starts with no gap, and the scanner finds the token. -/
theorem Starts.scanned (h : Starts s token rest) :
    ∃ c r, s = c :: r ∧ isGap c = false ∧ tokenAt c (c :: r) = token := by
  cases h with
  | @number literal _ hliteral hlongest =>
    have htake := takeLiteral_eq hliteral hlongest
    obtain ⟨n, rfl⟩ := hliteral
    obtain ⟨c, r, hn⟩ := List.exists_cons_of_ne_nil (numeral_text_ne_nil n)
    have hsolid := solid_numeral n c (by rw [hn]; exact List.mem_cons_self)
    rw [hn, List.cons_append] at htake
    rw [hn, List.cons_append]
    refine ⟨c, r ++ rest, rfl, isGap_of_isBlank hsolid.2.1, ?_⟩
    unfold tokenAt
    rw [htake]
  | operator op => exact ⟨_, _, rfl, by cases op <;> decide, tokenAt_symbol op rest⟩
  | opening => exact ⟨_, _, rfl, by decide, tokenAt_opening rest⟩
  | closing => exact ⟨_, _, rfl, by decide, tokenAt_closing rest⟩

theorem Stands.scanned (h : Stands s token rest) :
    ∃ c r, s = c :: r ∧ isGap c = false ∧ tokenAt c (c :: r) = token := by
  cases h with
  | token h => exact h.scanned
  | @illegal c _ hgap hnone =>
    refine ⟨c, rest, rfl, hgap, ?_⟩
    rcases tokenAt_starts c rest with h | h
    · exact h
    · exact absurd h (hnone _ _)

theorem Stands.starts (h : Stands s token rest) (hlegal : ∀ c, token ≠ .illegal c) :
    Starts s token rest := by
  cases h with
  | token h => exact h
  | illegal => exact absurd rfl (hlegal _)

theorem Stands.text_append (h : Stands s token rest) : token.text ++ rest = s := by
  cases h with
  | token h => exact h.text_append
  | illegal => rfl

/-- At a character that is no gap stands what the scanner finds. -/
theorem stands_tokenAt {c : Char} (hgap : isGap c = false) (r : List Char) :
    Stands (c :: r) (tokenAt c (c :: r)) (r.drop ((tokenAt c (c :: r)).text.length - 1)) := by
  rcases tokenAt_starts c r with h | h
  · rw [h]
    refine .illegal hgap fun token after hstarts => ?_
    obtain ⟨_, _, hcons, _, htoken⟩ := hstarts.scanned
    obtain ⟨rfl, rfl⟩ := List.cons.inj hcons
    exact hstarts.not_illegal c (htoken.symm.trans h)
  · exact .token h

theorem Stands.text_length_pos (h : Stands s token rest) : 0 < token.text.length := by
  rw [List.length_pos_iff]
  cases h with
  | token h =>
    cases h with
    | number hliteral => exact isLiteral_ne_nil hliteral
    | operator | opening | closing => exact List.cons_ne_nil _ _
  | illegal => exact List.cons_ne_nil _ _

/-- The scanner finds what stands at the beginning, and goes on behind it. -/
theorem Stands.tokens (h : Stands s token rest) (position : Nat) :
    tokens position s = (position, token) :: tokens (position + token.text.length) rest := by
  have htext := h.text_append
  have hpos := h.text_length_pos
  obtain ⟨c, r, rfl, hgap, htoken⟩ := h.scanned
  have hdrop : r.drop (token.text.length - 1) = rest := by
    have := congrArg (List.drop token.text.length) htext
    rw [List.drop_left, ← Nat.sub_add_cancel hpos, List.drop_succ_cons] at this
    exact this.symm
  rw [Arith.tokens, if_neg (by rw [hgap]; exact Bool.false_ne_true)]
  dsimp only
  rw [htoken, hdrop, Nat.add_assoc, Nat.add_sub_cancel' hpos]

theorem Starts.tokens (h : Starts s token rest) (position : Nat)
    (hrest : ∀ position, (tokens position rest).map (·.2) = ts) :
    (tokens position s).map (·.2) = token :: ts := by
  rw [(Stands.token h).tokens, List.map_cons, hrest]

/-- The scanner finds the tokens of a text. -/
theorem Lexed.tokens (h : Lexed s ts) (position : Nat) : (tokens position s).map (·.2) = ts := by
  induction h generalizing position with
  | nil => rw [Arith.tokens]; rfl
  | gap hgap _ ih => rw [tokens_gap hgap]; exact ih _
  | number hliteral hlongest _ ih => exact (Starts.number hliteral hlongest).tokens position ih
  | operator op _ ih => exact (Starts.operator op _).tokens position ih
  | opening _ ih => exact (Starts.opening _).tokens position ih
  | closing _ ih => exact (Starts.closing _).tokens position ih

/-- A text in which the scanner finds no illegal token is the sequence of the tokens found. -/
theorem lexed_of_tokens (position : Nat) (s : List Char)
    (h : ∀ token ∈ tokens position s, ∀ c, token.2 ≠ .illegal c) :
    Lexed s ((tokens position s).map (·.2)) := by
  fun_induction tokens position s with
  | case1 => exact .nil
  | case2 position c r hgap ih => exact .gap hgap (ih h)
  | case3 position c r hgap token size ih =>
    have hrest := ih fun token htoken => h token (List.mem_cons_of_mem _ htoken)
    have hstands := stands_tokenAt (by simpa using hgap) r
    exact (hstands.starts (h _ List.mem_cons_self)).lexed hrest

end Scanner

section Balance

variable {s : List Char} {ts : List Token} {c : Category}

/-- Whether tokens close the parentheses that are open before them, and all that they open. -/
def balanced : Nat → List Token → Bool
  | open', [] => open' == 0
  | open', .opening :: ts => balanced (open' + 1) ts
  | 0, .closing :: _ => false
  | open' + 1, .closing :: ts => balanced open' ts
  | open', _ :: ts => balanced open' ts

theorem balanced_append (d : Derivation c) (n : Nat) (ts : List Token) :
    balanced n (d.tokens ++ ts) = balanced n ts := by
  induction d using Derivation.induct generalizing n ts with
  | number literal => rfl
  | group e ih =>
    change balanced (n + 1) (e.tokens ++ [.closing] ++ ts) = _
    rw [List.append_assoc, ih]
    rfl
  | neg p ih => exact ih n ts
  | binary op l r ihl ihr =>
    rw [tokens_binary, List.append_assoc, ihl]
    exact ihr n ts
  | widen c d ih =>
    rw [tokens_widen]
    exact ih n ts

theorem imbalanceFrom_of_lexed (h : Lexed s ts) (opened : List Nat) (position : Nat)
    (hbalanced : balanced opened.length ts = true) : imbalanceFrom opened position s = none := by
  induction h generalizing opened position with
  | nil =>
    obtain rfl := List.length_eq_zero_iff.mp (beq_iff_eq.mp hbalanced)
    rfl
  | @gap c s ts hgap _ ih =>
    have hopen : c ≠ '(' := by rintro rfl; exact absurd hgap (by decide)
    have hclose : c ≠ ')' := by rintro rfl; exact absurd hgap (by decide)
    rw [imbalanceFrom_other hopen hclose]
    exact ih _ _ hbalanced
  | @number literal s ts hliteral _ _ ih =>
    obtain ⟨n, rfl⟩ := hliteral
    rw [closes_solid fun c hc => ?_]
    · exact ih _ _ hbalanced
    · refine ⟨?_, ?_⟩
      all_goals
        rintro rfl
        rcases mem_numeral_text hc with h | h <;> exact absurd h (by decide)
  | @operator op s ts _ ih =>
    rw [imbalanceFrom_other (by cases op <;> decide) (by cases op <;> decide)]
    exact ih _ _ hbalanced
  | opening _ ih =>
    rw [imbalanceFrom_opening]
    exact ih _ _ hbalanced
  | closing _ ih =>
    cases opened with
    | nil => exact absurd hbalanced Bool.false_ne_true
    | cons last opened =>
      rw [imbalanceFrom_closing]
      exact ih _ _ hbalanced

/-- The parentheses of a text that the grammar derives are balanced. -/
theorem imbalance_of_lexed {d : Derivation c} (h : Lexed s d.tokens) : imbalance s = none := by
  refine imbalanceFrom_of_lexed h [] 0 ?_
  rw [← List.append_nil d.tokens, balanced_append]
  rfl

end Balance

end Reckoner.Arith
