import Reckoner.Proofs.Formula.Rewritten

/-!
Rounds of call evaluation on the text of an expression. The replacement of the innermost calls of
the text is the text of the expression after one round.
-/
namespace Reckoner.Formula

open Text Number Arith

variable {table : FunctionTable} {resolve : Resolver}

section Arguments

/-- The texts of further arguments, each after a comma. -/
def further (args : List Expr) : List Char :=
  textOf ((args.map fun e => e.lexemes).flatMap fun more => Lexeme.comma :: more)

theorem inside_cons (e : Expr) (rest : List Expr) :
    inside (e :: rest) = textOf e.lexemes ++ further rest := by
  unfold inside further
  rw [List.map_cons, joined, textOf_append]

theorem further_cons (e : Expr) (rest : List Expr) :
    further (e :: rest) = ',' :: ' ' :: (textOf e.lexemes ++ further rest) := by
  unfold further
  rw [List.map_cons, List.flatMap_cons, textOf_append, textOf_cons]
  rfl

theorem stop_further {s : List Char} (hs : Stop s) (args : List Expr) :
    Stop (further args ++ s) := by
  cases args with
  | nil => exact hs
  | cons e rest =>
    rw [further_cons]
    exact stop_mark (by decide) (by decide) (by decide) _

theorem balanced_inside (args : List Expr) : Balanced (inside args) := by
  obtain ⟨parts, _, hparts, htext⟩ := exists_parts args fun e _ => laid_textOf e
  rw [htext]
  exact balanced_intercalate (List.forall_mem_map.mpr fun p hp => (hparts p hp).1.balanced)

theorem splitArguments_inside (args : List Expr) :
    splitArguments (inside args) = args.map fun e => textOf e.lexemes := by
  obtain ⟨parts, rfl, hparts, htext⟩ := exists_parts args fun e _ => laid_textOf e
  have hsplit := @splitArguments_laid [] parts (fun c hc => absurd hc List.not_mem_nil)
    fun p hp => (hparts p hp).1
  rw [htext, List.map_map]
  exact hsplit.trans (List.map_congr_left fun p hp => (hparts p hp).2)

theorem flat_cons {e : Expr} {rest : List Expr} :
    (e.nesting = 0 ∧ ∀ a ∈ rest, a.nesting = 0) ↔ ∀ a ∈ e :: rest, a.nesting = 0 :=
  (List.forall_mem_cons (p := fun a : Expr => a.nesting = 0)).symm

/-- That an expression becomes what a round of it gives. -/
def RewrittenText (table : FunctionTable) (resolve : Resolver) (e : Expr) : Prop :=
  Rewritten table resolve (e.nesting = 0) (textOf e.lexemes)
    ((e.round table resolve).map fun e => textOf e.lexemes)

theorem rewritten_further {args : List Expr} (h : ∀ e ∈ args, RewrittenText table resolve e) :
    Rewritten table resolve (∀ e ∈ args, e.nesting = 0) (further args)
      ((fromLast (args.map fun e => e.round table resolve)).map further) := by
  induction args with
  | nil => exact rewritten_nil.congr (by simp) rfl
  | cons e rest ih =>
    obtain ⟨he, hrest⟩ := List.forall_mem_cons.mp h
    have htexts := he.append (ih hrest) fun hs => stop_further hs rest
    rw [further_cons]
    refine ((htexts.cons (by decide)).cons (by decide)).congr flat_cons ?_
    rw [List.map_cons, fromLast]
    cases fromLast (rest.map fun e => e.round table resolve) with
    | error _ => rfl
    | ok later =>
      cases e.round table resolve with
      | error _ => rfl
      | ok e' => exact congrArg Except.ok (further_cons e' later).symm

theorem rewritten_inside {args : List Expr} (h : ∀ e ∈ args, RewrittenText table resolve e) :
    Rewritten table resolve (∀ e ∈ args, e.nesting = 0) (inside args)
      ((fromLast (args.map fun e => e.round table resolve)).map inside) := by
  cases args with
  | nil => exact rewritten_nil.congr (by simp) rfl
  | cons e rest =>
    obtain ⟨he, hrest⟩ := List.forall_mem_cons.mp h
    rw [inside_cons]
    refine (he.append (rewritten_further hrest) fun hs => stop_further hs rest).congr flat_cons ?_
    rw [List.map_cons, fromLast]
    cases fromLast (rest.map fun e => e.round table resolve) with
    | error _ => rfl
    | ok later =>
      cases e.round table resolve with
      | error _ => rfl
      | ok e' => exact congrArg Except.ok (inside_cons e' later).symm

end Arguments

section Text

/-- The text of an expression becomes the text of the expression after one round. -/
theorem rewritten_textOf (table : FunctionTable) (resolve : Resolver) (e : Expr) :
    RewrittenText table resolve e := by
  unfold RewrittenText
  induction e with
  | numeral n =>
    rw [Expr.round, Expr.nesting, textOf_numeral]
    refine (rewritten_unnamed (isNameStart_numeral n)).congr (by simp) ?_
    exact congrArg Except.ok (textOf_numeral n).symm
  | name n =>
    rw [Expr.round, Expr.nesting, textOf_name]
    exact (rewritten_name n).congr (by simp) (congrArg Except.ok (textOf_name n).symm)
  | line r =>
    have hline : ∀ c ∈ '@' :: r.digits, isNameStart c = false :=
      isNameStart_of_not_named (a := .line r) rfl
    rw [Expr.round, Expr.nesting, textOf_line]
    exact (rewritten_unnamed hline).congr (by simp) (congrArg Except.ok (textOf_line r).symm)
  | group e ih =>
    rw [Expr.round, Expr.nesting, textOf_group]
    refine ih.enclosed.congr Iff.rfl ?_
    cases e.round table resolve with
    | error _ => rfl
    | ok e' => exact congrArg Except.ok (textOf_group e').symm
  | neg spaced e ih =>
    have hspace : ∀ c ∈ if spaced then [' '] else [], c = ' ' := by cases spaced <;> simp
    rw [Expr.round, Expr.nesting, textOf_neg]
    refine ((ih.spaces hspace).cons (by decide)).congr Iff.rfl ?_
    cases e.round table resolve with
    | error _ => rfl
    | ok e' => exact congrArg Except.ok (textOf_neg spaced e').symm
  | binary op l r ihl ihr =>
    have hsymbol : allowsName (some op.symbol) = true := by cases op <;> decide
    have hright := ((ihr.cons (c := ' ') (by decide)).cons hsymbol).cons (c := ' ') (by decide)
    rw [Expr.round, Expr.nesting, textOf_binary]
    refine (ihl.append hright fun _ => (stop_symbol op _).space).congr Nat.max_eq_zero_iff.symm ?_
    cases r.round table resolve with
    | error _ => rfl
    | ok r' =>
      cases l.round table resolve with
      | error _ => rfl
      | ok l' => exact congrArg Except.ok (textOf_binary op l' r').symm
  | call f args ih =>
    have hbefore : ∀ c ∈ ([] : List Char), c = ' ' := fun c hc => absurd hc List.not_mem_nil
    have hinside := rewritten_inside ih
    have hcalls : ¬ (Expr.call f args).nesting = 0 := by
      rw [Expr.nesting]
      omega
    rw [Expr.round, textOf_call]
    split
    · rename_i hflat
      refine (rewritten_innermost f hbefore (balanced_inside args) hinside hflat).congr
        (iff_of_false id hcalls) ?_
      rw [splitArguments_inside]
      cases Formula.call table resolve f.chars (args.map fun e => textOf e.lexemes) <;> rfl
    · rename_i hdeep
      refine (hinside.call f hbefore (balanced_inside args) hdeep).congr
        (iff_of_false id hcalls) ?_
      cases fromLast (args.map fun e => e.round table resolve) with
      | error _ => rfl
      | ok args' => exact congrArg Except.ok (textOf_call f args').symm

end Text

section Rounds

variable {bound : Int} {scope : Scope}

/-- An expression after as many rounds as it takes to be without calls. -/
noncomputable def Expr.rounds (table : FunctionTable) (resolve : Resolver) (bound : Int)
    (left : Nat) (e : Expr) : Except Failure Expr :=
  if e.nesting = 0 then .ok e
  else match left with
    | 0 => .error (.within (.tooDeep bound) (textOf e.lexemes))
    | left + 1 => (e.round table resolve).bind fun e => e.rounds table resolve bound left

theorem Expr.rounds_flat {e : Expr} (h : e.nesting = 0) (bound : Int) (left : Nat) :
    e.rounds table resolve bound left = .ok e := by
  unfold Expr.rounds
  exact if_pos h

theorem Expr.rounds_exhausted {e : Expr} (h : e.nesting ≠ 0) (bound : Int) :
    e.rounds table resolve bound 0 = .error (.within (.tooDeep bound) (textOf e.lexemes)) := by
  unfold Expr.rounds
  exact if_neg h

theorem Expr.rounds_step {e : Expr} (h : e.nesting ≠ 0) (bound : Int) (left : Nat) :
    e.rounds table resolve bound (left + 1) =
      (e.round table resolve).bind fun e => e.rounds table resolve bound left := by
  rw [Expr.rounds]
  exact if_neg h

/-- The calls in the text of an expression are resolved in rounds of the expression. -/
theorem replaceRounds_textOf (left : Nat) (e : Expr) :
    replaceRounds table resolve bound left (textOf e.lexemes) =
      (e.rounds table resolve bound left).map fun e => textOf e.lexemes := by
  induction left generalizing e with
  | zero =>
    obtain ⟨calls, hcalls, hempty, _⟩ := (rewritten_textOf table resolve e).innermostCalls
    rw [List.isEmpty_iff] at hempty
    by_cases h : e.nesting = 0
    · obtain rfl := hempty.mpr h
      rw [e.rounds_flat h, replaceRounds_settled hcalls]
      rfl
    · rw [e.rounds_exhausted h, replaceRounds_exhausted hcalls (mt hempty.mp h)]
      rfl
  | succ left ih =>
    obtain ⟨calls, hcalls, hempty, hreplace⟩ :=
      (rewritten_textOf table resolve e).innermostCalls
    rw [List.isEmpty_iff] at hempty
    by_cases h : e.nesting = 0
    · obtain rfl := hempty.mpr h
      rw [e.rounds_flat h, replaceRounds_settled hcalls]
      rfl
    · rw [e.rounds_step h, replaceRounds_step hcalls (mt hempty.mp h), hreplace]
      cases e.round table resolve with
      | error _ => rfl
      | ok e' => exact ih e'

/-- What is left after the rounds is without calls. -/
theorem rounds_eq_ok {left : Nat} {e e' : Expr} (hl : e.Levelled) (hc : Closed scope e.lexemes)
    (h : e.rounds table resolve bound left = .ok e') :
    e'.nesting = 0 ∧ e'.Levelled ∧ Closed scope e'.lexemes := by
  induction left generalizing e with
  | zero =>
    by_cases hflat : e.nesting = 0
    · rw [e.rounds_flat hflat] at h
      obtain rfl := Except.ok.inj h
      exact ⟨hflat, hl, hc⟩
    · rw [e.rounds_exhausted hflat] at h
      exact absurd h nofun
  | succ left ih =>
    by_cases hflat : e.nesting = 0
    · rw [e.rounds_flat hflat] at h
      obtain rfl := Except.ok.inj h
      exact ⟨hflat, hl, hc⟩
    · rw [e.rounds_step hflat] at h
      obtain ⟨d, hd, h⟩ := bind_eq_ok h
      exact ih (levelled_round hl hd) (closed_round hc hd) h

/-- With fewer rounds than levels no outcome is reached. -/
theorem rounds_too_deep {left : Nat} {e : Expr} (h : left < e.nesting) :
    (e.rounds table resolve bound left).toOption = none := by
  induction left generalizing e with
  | zero =>
    rw [e.rounds_exhausted (by omega)]
    rfl
  | succ left ih =>
    rw [e.rounds_step (by omega)]
    cases hround : e.round table resolve with
    | error _ => rfl
    | ok e' =>
      have hnesting := nesting_round hround
      exact ih (by omega)

/-- The rounds keep the meaning. -/
theorem value_rounds (ht : table.Insensitive) (hr : Resolves table resolve scope) {left : Nat}
    {e : Expr} (hl : e.Levelled) (hc : Closed scope e.lexemes) (h : e.nesting ≤ left) :
    SameOutcome ((e.rounds table resolve bound left).toOption.bind fun e => e.value table scope)
      (e.value table scope) := by
  induction left generalizing e with
  | zero =>
    rw [e.rounds_flat (by omega)]
    exact sameOutcome_refl _
  | succ left ih =>
    by_cases hflat : e.nesting = 0
    · rw [e.rounds_flat hflat]
      exact sameOutcome_refl _
    · have hvalue := value_round ht hr hl hc
      unfold Expr.valueAfter at hvalue
      rw [e.rounds_step hflat]
      cases hround : e.round table resolve with
      | error _ => rw [hround] at hvalue; exact hvalue
      | ok e' =>
        have hnesting := nesting_round hround
        rw [hround] at hvalue
        exact sameOutcome_trans
          (ih (levelled_round hl hround) (closed_round hc hround) (by omega)) hvalue

end Rounds

end Reckoner.Formula
