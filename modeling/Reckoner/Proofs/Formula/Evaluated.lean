import Reckoner.Proofs.Formula.SplicedCalls

/-!
Only expressions have values. What is left after the last round is arithmetic, so it can be read.
Going back from there, each round has put values in the places of calls, and substitution has put
them in the places of names and line references; where operands stand apart, the text before can be
read as well. The arguments of calls are evaluated as texts of their own and have fewer letters, so
the induction is on the number of letters.
-/
namespace Reckoner.Formula

open Text Number Arith

variable {table : FunctionTable} {place : Place} {scope : Scope} {resolve : Resolver}
  {s t : List Char} {ts : List Token} {ps qs : List Segment} {x : Float}

section Tokens

theorem isBlank_of_isGap {c : Char} (h : isGap c = true) : isBlank c = true := by
  unfold isGap at h
  simp only [Bool.or_eq_true, beq_iff_eq] at h
  rcases h with (((rfl | rfl) | rfl) | rfl) | rfl <;> decide

/-- That a number does not come right after another or after a closing parenthesis. -/
def Unglued (a b : Token) : Prop :=
  (∃ literal, a = .number literal) ∨ a = .closing → ∀ literal, b ≠ .number literal

theorem unglued_tokens {c : Category} (d : Derivation c) : d.tokens.IsChain Unglued := by
  have hfree : ∀ {a : Token} {ts : List Token}, (∀ literal, a ≠ .number literal) → a ≠ .closing →
      ts.IsChain Unglued → (a :: ts).IsChain Unglued := by
    intro a ts hnumber hclosing h
    refine List.isChain_cons.mpr ⟨fun b _ hb => ?_, h⟩
    rcases hb with ⟨literal, ha⟩ | ha
    · exact absurd ha (hnumber literal)
    · exact absurd ha hclosing
  induction d using Derivation.induct with
  | number literal => exact .singleton _
  | group e ih =>
    refine hfree (by simp) (by simp) (List.isChain_append.mpr ⟨ih, .singleton _, ?_⟩)
    rintro a _ b hb _ literal
    rw [← Option.some.inj hb]
    simp
  | neg p ih => exact hfree (by simp) (by simp) ih
  | binary op l r ihl ihr =>
    rw [tokens_binary]
    refine List.isChain_append.mpr ⟨ihl, hfree (by simp) (by simp) ihr, ?_⟩
    rintro a _ b hb _ literal
    rw [← Option.some.inj hb]
    simp
  | widen c d ih =>
    rw [tokens_widen]
    exact ih

/-- A sequence of tokens whose text begins like a word begins with a number. -/
theorem number_of_lexed (h : Lexed s ts) (hs : startsWith isOperandChar s = true) :
    ∃ literal rest, ts = .number literal :: rest := by
  have hmark : ∀ {c : Char} {r : List Char}, isOperandChar c = false →
      startsWith isOperandChar (c :: r) = true → False := fun hc h =>
    Bool.false_ne_true (hc.symm.trans h)
  cases h with
  | nil => exact absurd hs Bool.false_ne_true
  | gap hgap _ => exact (hmark (isOperandChar_of_isBlank (isBlank_of_isGap hgap)) hs).elim
  | number _ _ _ => exact ⟨_, _, rfl⟩
  | operator op _ => exact (hmark (commonMark (symbol_commonMark op)).1 hs).elim
  | opening _ => exact (hmark (commonMark (by decide)).1 hs).elim
  | closing _ => exact (hmark (commonMark (by decide)).1 hs).elim

/-- The segments of a sequence of tokens in which no numbers are glued. -/
theorem segments_lexed (h : Lexed s ts) (hchain : ts.IsChain Unglued) :
    segments s = ts.map segmentOf := by
  have hstop : ∀ {a : Token} {s : List Char} {ts : List Token}, Lexed s ts →
      (a :: ts).IsChain Unglued → (∃ literal, a = .number literal) ∨ a = .closing →
      startsWith isOperandChar s = false := by
    intro a s ts hlexed hchain ha
    rw [Bool.eq_false_iff]
    intro hs
    obtain ⟨literal, rest, rfl⟩ := number_of_lexed hlexed hs
    exact (List.isChain_cons_cons.mp hchain).1 ha literal rfl
  induction h with
  | nil => rfl
  | gap hgap _ ih => exact (segments_blank (isBlank_of_isGap hgap) _).trans (ih hchain)
  | @number literal s ts hliteral _ hlexed ih =>
    have hs := hstop hlexed hchain (Or.inl ⟨literal, rfl⟩)
    obtain ⟨n, rfl⟩ := hliteral
    rw [segments_word (numeral_text_ne_nil n) (isOperandChar_numeral n) hs,
      ih (List.isChain_cons.mp hchain).2]
    rfl
  | @operator op s ts _ ih =>
    obtain ⟨hc, hblank⟩ := commonMark (symbol_commonMark op)
    rw [segments_mark hc hblank fun h => absurd h (by cases op <;> decide),
      ih (List.isChain_cons.mp hchain).2]
    rfl
  | @opening s ts _ ih =>
    obtain ⟨hc, hblank⟩ := commonMark (c := '(') (by decide)
    rw [segments_mark hc hblank fun h => absurd h (by decide), ih (List.isChain_cons.mp hchain).2]
    rfl
  | @closing s ts hlexed ih =>
    obtain ⟨hc, hblank⟩ := commonMark (c := ')') (by decide)
    rw [segments_mark hc hblank fun _ => hstop hlexed hchain (Or.inr rfl),
      ih (List.isChain_cons.mp hchain).2]
    rfl

/-- A text without calls that has a value can be read. -/
theorem reads_settled (h : settleText s = .ok x) : Reads table .expr (segments s) [] := by
  unfold settleText at h
  split at h
  · exact absurd h (by simp [Failure.within])
  · obtain ⟨t, ht, _⟩ := bind_eq_ok (asFailure_eq_ok.mp h)
    obtain ⟨d, hlexed, _⟩ := exists_derivation (parse_eq_ok.mp ht)
    have hreads : Reads table .expr (d.tokens.map segmentOf ++ []) [] :=
      reads_derivation d hlexed.isLiteral []
    rw [← segments_trim, segments_lexed hlexed (unglued_tokens d)]
    rwa [List.append_nil] at hreads

end Tokens

section Back

theorem IsValue.ne_nil {vs : List Segment} (h : IsValue vs) : vs ≠ [] := by
  cases h <;> exact List.cons_ne_nil _ _

theorem Spliced.eq_nil (h : Spliced table ps []) : ps = [] := by
  generalize hq : ([] : List Segment) = qs at h
  cases h with
  | nil => rfl
  | same => exact absurd hq (by simp)
  | reference _ hv _ | name _ _ hv _ | call _ _ hv _ =>
    exact absurd (List.append_eq_nil_iff.mp hq.symm).1 hv.ne_nil

/-- What can be read with values in it can be read. -/
theorem Spliced.reads_all (hs : Spliced table ps qs) (ha : Apart table place ps)
    (h : Reads table .expr qs []) : Reads table .expr ps [] := by
  obtain ⟨later, hreads, hlater⟩ := hs.reads h ha
  obtain rfl := hlater.eq_nil
  exact hreads

/-- A text whose rounds lead to a value can be read. -/
theorem reads_rounds {n left : Nat} {bound : Int} (hsound : resolve.Sound table n)
    (ha : Apart table Place.start (segments s)) (hclean : Clean (segments s))
    (hn : letterCount s ≤ n) (h : replaceRounds table resolve bound left s = .ok t)
    (ht : settleText t = .ok x) : Reads table .expr (segments s) [] := by
  induction left generalizing s with
  | zero =>
    obtain ⟨_, rfl⟩ | ⟨_, _, _, hleft, _⟩ := replaceRounds_eq_ok h
    · exact reads_settled ht
    · exact absurd hleft nofun
  | succ left ih =>
    obtain ⟨_, rfl⟩ | ⟨_, calls, u, hleft, _, hcalls, hu, h⟩ := replaceRounds_eq_ok h
    · exact reads_settled ht
    · obtain rfl := Nat.succ.inj hleft
      have hle := letterCount_replaceCalls (fun c hc => (mem_innermostCalls hcalls hc).1) hu
      have hstarts : innermostAmong s (callStartsFrom none ([] : List Char).length s) = .ok calls :=
        hcalls
      obtain ⟨_, rfl, hreplaced⟩ := replaceCalls_replaced hsound s s
        (fun _ _ hc => absurd hc (by simp)) ha hclean hn hstarts hu
      have hspliced := hreplaced.spliced
      exact hspliced.reads_all ha
        (ih (hspliced.apart ha) (hspliced.clean hclean) (hle.trans hn) h)

/-- What can be said of a text that has a value. -/
theorem evaluate_eq_ok {depth : Int} (h : evaluate table depth scope s = .ok x) :
    ∃ t u, scope.substitute s = .ok t ∧
      replaceRounds table (evaluate table depth scope) depth depth.toNat (canonical t) = .ok u ∧
      settleText u = .ok x := by
  rw [evaluate_rounds] at h
  obtain ⟨text, htext, h⟩ := bind_eq_ok h
  obtain ⟨u, hu, hx⟩ := bind_eq_ok h
  obtain ⟨t, ht, htext⟩ := bind_eq_ok htext
  obtain rfl := Except.ok.inj htext
  exact ⟨t, u, asBreakdown_eq_ok ht, hu, hx⟩

/-- A text can be read if the text with the values of names and line references, clean, leads to a
value. -/
theorem reads_substituted {n left : Nat} {bound : Int} {v u : List Char}
    (hscope : scope.Identifiers) (hsound : resolve.Sound table n)
    (ha : Apart table Place.start (segments s)) (hv : scope.substitute s = .ok v)
    (hsame : segments v = segments t) (hclean : Clean (segments t)) (hn : letterCount t ≤ n)
    (hu : replaceRounds table resolve bound left t = .ok u) (hx : settleText u = .ok x) :
    Reads table .expr (segments s) [] := by
  obtain ⟨ms, hlines, hnames⟩ := substitute_spliced hscope hv ha
  have hms := hlines.apart ha
  rw [hsame] at hnames
  have hreads := reads_rounds hsound (hnames.apart hms) hclean hn hu hx
  exact hlines.reads_all ha (hnames.reads_all hms hreads)

/-- Only what can be read has a value, among the texts that arguments are. -/
theorem evaluate_sound (hscope : scope.Identifiers) (depth : Int) (n : Nat) :
    Resolver.Sound table n (evaluate table depth scope) := by
  induction n with
  | zero => exact fun a x ha => absurd ha (Nat.not_lt_zero _)
  | succ n ih =>
    intro a x hletters h htame
    obtain ⟨t, u, ht, hu, hx⟩ := evaluate_eq_ok h
    obtain ⟨ms, hlines, hnames⟩ := substitute_spliced hscope ht htame.apart
    have hclean := hnames.clean (hlines.clean htame.clean)
    have hcommas : .mark ',' ∉ segments t :=
      hnames.not_mem (by decide) (hlines.not_mem (by decide) htame.commas)
    have hequals : (segments t).head? ≠ some (.mark '=') :=
      hnames.head_ne (by decide) (hlines.head_ne (by decide) htame.equals)
    have hsame := segments_canonical hclean hcommas hequals
    have hcount : letterCount (canonical t) ≤ n := by
      have hprepare : prepare scope a = .ok (canonical t) := by
        unfold prepare
        rw [ht]
        rfl
      exact (letterCount_prepare hprepare).trans (Nat.le_of_lt_succ hletters)
    exact reads_substituted hscope ih htame.apart ht hsame.symm (hsame ▸ hclean) hcount hu hx

end Back

/-- That no value can be taken together with what stands next to it: neither in the clean text nor
by the clean-up, so that cleaning after the substitution leaves the segments that cleaning before it
leaves. -/
structure Separated (table : FunctionTable) (scope : Scope) (s : List Char) : Prop where
  apart : Apart table Place.start (segments (canonical s))
  cleaned : (scope.substitute (canonical s)).map segments =
    (scope.substitute s).map fun t => segments (canonical t)

theorem Separated.exists_substitute (hsep : Separated table scope s)
    (h : scope.substitute s = .ok t) :
    ∃ v, scope.substitute (canonical s) = .ok v ∧ segments v = segments (canonical t) :=
  map_eq_ok (hsep.cleaned.trans (congrArg _ h))

theorem Separated.reads (hsep : Separated table scope s) (hscope : scope.Identifiers) {depth : Int}
    (h : evaluate table depth scope s = .ok x) :
    Reads table .expr (segments (canonical s)) [] := by
  obtain ⟨t, u, ht, hu, hx⟩ := evaluate_eq_ok h
  obtain ⟨v, hv, hsame⟩ := hsep.exists_substitute ht
  exact reads_substituted hscope (evaluate_sound hscope depth _) hsep.apart hv hsame
    (clean_canonical t) le_rfl hu hx

theorem Reads.isSentence (h : Reads table .expr ps []) :
    Sentence .expr ps ∧ ps.IsChain fun p q => ¬ Adjoining p q := by
  obtain ⟨as, rfl, hsentence⟩ := h.sentence
  rw [List.append_nil]
  exact ⟨hsentence, Sentence.chain hsentence⟩

/-- Only sentences have values among texts that clean-up leaves alone. -/
theorem sentence_of_tame (hscope : scope.Identifiers) {depth : Int}
    (htame : Tame table (segments s)) (h : evaluate table depth scope s = .ok x) :
    Sentence .expr (segments s) ∧ (segments s).IsChain fun p q => ¬ Adjoining p q :=
  (evaluate_sound hscope depth _ s x (Nat.lt_succ_self (letterCount s)) h htame).isSentence

/-- Only sentences have values: when a text evaluates, the clean text is a sentence of the grammar
of expressions, and no operand in it comes right after another. Values are put in as plain text, so
this takes operands that stand apart. -/
theorem sentence_of_evaluate (table : FunctionTable) (depth : Int) (scope : Scope)
    (hscope : scope.Identifiers) (s : List Char) (x : Float) (hsep : Separated table scope s)
    (h : evaluate table depth scope s = .ok x) :
    Sentence .expr (segments (canonical s)) ∧
      (segments (canonical s)).IsChain fun p q => ¬ Adjoining p q := by
  have hreads : Reads table .expr (segments (canonical s)) [] := hsep.reads hscope h
  exact hreads.isSentence

section Bill

/-- A text with markup, an operator glyph, a name, a line reference and a call. -/
def bill : List Char := "= $1,200 × max(rate, @2)".toList

/-- A scope in which `rate` is two and the second line has given three. -/
def billScope : Scope := ⟨[("rate".toList, 2)], [(2, 3)], []⟩

theorem apart_bill : Apart Builtin.table Place.start (segments (canonical bill)) := by
  have hsegments : segments (canonical bill) =
      [.word "1200".toList, .mark '*', .word "max".toList, .mark '(', .word "rate".toList,
        .mark ',', .word "@2".toList, .mark ')'] := by decide +kernel
  have hmark : ∀ {c : Char} {opened : List Bool},
      ¬ Place.FollowsFunction Builtin.table ⟨opened, some (.mark c)⟩ :=
    fun ⟨_, hf, _⟩ => absurd hf (by simp)
  have hdigits : AllDigits ['2'] := allDigits_cons (by decide) allDigits_nil
  rw [hsegments]
  refine .cons ?number <| .cons (allows_mark (by decide) (by decide) _) <| .cons ?max <|
    .cons (allows_mark (by decide) (by decide) _) <| .cons ?rate <| .cons ?comma <|
    .cons ?reference <| .cons (allows_mark (by decide) (by decide) _) .nil
  case number =>
    exact allows_word (fun hat => absurd hat (by decide +kernel)) (by decide +kernel)
      fun hoperand => absurd hoperand (by decide +kernel)
  case max =>
    exact allows_word (fun hat => absurd hat (by decide +kernel)) (by decide +kernel) fun _ => hmark
  case rate =>
    exact allows_word (fun hat => absurd hat (by decide +kernel)) (by decide +kernel) fun _ => hmark
  case comma =>
    exact ⟨by simp, by simp, by simp, by simp, by decide, by simp⟩
  case reference =>
    exact allows_word (fun _ => ⟨['2'], by simp, hdigits, rfl⟩) (by decide +kernel) fun _ => hmark

theorem separated_bill : Separated Builtin.table billScope bill := by
  have hafter : billScope.substitute (canonical bill) = .ok "1200 * max(2, 3)".toList :=
    eq_ok_of_toOption (by decide +kernel)
  have hbefore : billScope.substitute bill = .ok "= $1,200 × max(2, 3)".toList :=
    eq_ok_of_toOption (by decide +kernel)
  refine ⟨apart_bill, ?_⟩
  rw [hafter, hbefore]
  exact congrArg Except.ok (by decide +kernel)

theorem sentence_bill :
    billScope.Identifiers ∧ Separated Builtin.table billScope bill ∧
      ∃ x, evaluate Builtin.table 10 billScope bill = .ok x ∧
        Sentence .expr (segments (canonical bill)) ∧
          (segments (canonical bill)).IsChain fun p q => ¬ Adjoining p q := by
  have hscope : billScope.Identifiers := by unfold Scope.Identifiers; decide +kernel
  have hvalue : (evaluate Builtin.table 10 billScope bill).toOption.isSome = true := by
    rw [evaluate_rounds]
    decide +kernel
  cases hx : evaluate Builtin.table 10 billScope bill with
  | error f =>
    rw [hx] at hvalue
    exact absurd hvalue Bool.false_ne_true
  | ok x =>
    exact ⟨hscope, separated_bill, x, rfl,
      sentence_of_evaluate Builtin.table 10 billScope hscope bill x separated_bill hx⟩

end Bill

end Reckoner.Formula
