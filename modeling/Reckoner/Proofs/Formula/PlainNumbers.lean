import Reckoner.Proofs.Formula.CallFaults
import Reckoner.Proofs.Formula.EnclosedRounds

/-!
Plain numbers as arguments. An argument that is a plain number takes a shortcut: its value is read
off the text. The whole evaluation would come to the same value. No reference and no name stands in
the text, it is its own canonical form and holds no call, and arithmetic reads the number that the
shortcut reads, with its sign even where it is zero.
-/
namespace Reckoner.Formula

open Text Number Arith

/-- The expressions of plain numbers. -/
inductive Expr.Plain : Expr → Prop
  | numeral (n : Numeral) : Plain (.numeral n)
  | neg (n : Numeral) : Plain (.neg false (.numeral n))

variable {table : FunctionTable} {resolve : Resolver} {scope : Scope} {depth : Int} {e : Expr}
  {a s : List Char} {x : Float}

section Expressions

/-- A plain number is the text of a numeral or of a negative one. -/
theorem exists_plain (h : isPlainNumber s = true) : ∃ e : Expr, e.Plain ∧ s = textOf e.lexemes := by
  have hliteral : ∀ {t : List Char}, (t != [] && takeLiteral t == t) = true → IsLiteral t := by
    intro t ht
    obtain ⟨hne, htake⟩ := Bool.and_eq_true_iff.mp ht
    have htake := eq_of_beq htake
    have hisLiteral := isLiteral_takeLiteral (s := t) (by rw [htake]; exact bne_iff_ne.mp hne)
    rwa [htake] at hisLiteral
  unfold isPlainNumber at h
  dsimp only at h
  split at h
  · obtain ⟨n, rfl⟩ := hliteral h
    refine ⟨_, .neg n, ?_⟩
    rw [textOf_neg, textOf_numeral]
    rfl
  · obtain ⟨n, rfl⟩ := hliteral h
    exact ⟨_, .numeral n, (textOf_numeral n).symm⟩

theorem Expr.Plain.levelled (h : e.Plain) : e.Levelled := by
  cases h with
  | numeral n => exact .numeral n
  | neg n => exact .neg (Nat.le_refl 5) (.numeral n)

theorem Expr.Plain.nesting (h : e.Plain) : e.nesting = 0 := by
  cases h <;> simp [Expr.nesting]

theorem Expr.Plain.closed (h : e.Plain) : Closed scope e.lexemes := by
  have hsubst : e.subst scope = e := by cases h <;> simp [Expr.subst, Expr.replace]
  exact hsubst ▸ closed_subst e

theorem Expr.Plain.widen_eq (h : e.Plain) : e.widen = e := by
  cases h <;> simp [Expr.widen, Expr.lexemes, refersFirst, Lexeme.referring]

/-- Every plain number can be read. -/
theorem Expr.Plain.exists_readFloat (h : e.Plain) : ∃ x, readFloat (textOf e.lexemes) = some x := by
  cases h with
  | numeral n =>
    rw [textOf_numeral]
    exact ⟨_, readFloat_text n⟩
  | neg n =>
    rw [textOf_neg, textOf_numeral]
    exact ⟨_, readFloat_neg n⟩

end Expressions

section Value

/-- A plain number is its own canonical form. -/
theorem canonical_plain (h : isPlainNumber s = true) : canonical s = s := by
  obtain ⟨e, hplain, rfl⟩ := exists_plain h
  rw [canonical_textOf, hplain.widen_eq]

/-- A plain number is read as arithmetic to the same value. -/
theorem settleText_plain (h : isPlainNumber s = true) (hread : readFloat s = some x)
    (hx : x.isFinite = true) : (settleText s).toOption = some x := by
  obtain ⟨e, hplain, rfl⟩ := exists_plain h
  have hvalue : (settleText (textOf e.lexemes)).toOption = e.value Builtin.table Scope.empty :=
    settleText_textOf hplain.levelled hplain.nesting hplain.closed
  exact hvalue.trans (readFloat_plain hplain.levelled h hread hx)

/-- White space and the characters of a plain number start neither a name nor anything that the
clean-up or the substitution looks for. -/
theorem quiet_of_plain (h : isPlainNumber (trim a) = true) :
    '@' ∉ a ∧ '<' ∉ a ∧ ∀ c ∈ a, isNameStart c = false := by
  obtain ⟨before, after, hsplit, hbefore, hafter⟩ := exists_around_trim a
  have hall : ∀ c ∈ a, isBlank c = true ∨ PlainCharacter c := by
    intro c hc
    rw [hsplit, List.mem_append, List.mem_append] at hc
    rcases hc with (hc | hc) | hc
    · exact Or.inl (hbefore c hc)
    · exact Or.inr (plainCharacter_of_isPlainNumber h c hc)
    · exact Or.inl (hafter c hc)
  have hmark : ∀ {c : Char}, isBlank c = false → ¬ (isDigit c = true ∨ c = '.' ∨ c = '-') →
      c ∉ a := by
    intro c hblank hplain hc
    rcases hall c hc with hc | hc
    · exact absurd (hblank.symm.trans hc) Bool.false_ne_true
    · exact hplain hc
  refine ⟨hmark (by decide) (by decide), hmark (by decide) (by decide), fun c hc => ?_⟩
  by_contra hstart
  have hstart := Bool.eq_true_of_not_eq_false hstart
  rcases hall c hc with hblank | hplain
  · have hword := isWord_of_isBlank hblank
    rw [isWord_of_isNameStart hstart] at hword
    exact absurd hword.symm Bool.false_ne_true
  · exact not_plainCharacter_of_isNameStart hstart hplain

/-- The whole evaluation of a plain number with white space around it gives the number. -/
theorem evaluate_plain (hs : scope.Identifiers) (ha : trim a = s) (h : isPlainNumber s = true)
    (hread : readFloat s = some x) (hx : x.isFinite = true) :
    evaluate table depth scope a = .ok x := by
  subst ha
  obtain ⟨hat, htag, hstart⟩ := quiet_of_plain h
  have hunnamed : Unnamed scope.names none a := by
    have hnone : Unnamed scope.names none (a ++ []) :=
      unnamed_append hs.names hstart (unnamed_nil hs.names)
    rwa [List.append_nil] at hnone
  have hcanonical : canonical a = trim a := by
    rw [← canonical_trim htag, canonical_plain h]
  have hflat : callStarts (trim a) = [] := by
    have hnone : callStartsFrom none 0 (trim a ++ []) = [] :=
      callStartsFrom_append (fun c hc => hstart c ((trim_sublist a).subset hc)) []
    rwa [List.append_nil] at hnone
  rw [evaluate_rounds, prepare_unnamed hs hat hunnamed, hcanonical]
  change (resolveCalls table _ depth (trim a)).bind settleText = _
  unfold resolveCalls
  rw [replaceRounds_flat hflat]
  exact eq_ok_of_toOption (settleText_plain h hread hx)

end Value

section Shortcut

/-- The value of an argument without the shortcut. -/
def resolveInFull (function : List Char) (resolve : Resolver) (argument : List Char) :
    Except Failure Float :=
  let s := trim argument
  if s.isEmpty then .error (argumentProblem function .empty)
  else
    match resolve s with
    | .error (.fault ⟨.parse _ _, _⟩) => .error (argumentProblem function (.notNumeric s))
    | result => result

/-- The value of a function call without the shortcut for its arguments. -/
def callInFull (table : FunctionTable) (resolve : Resolver) (name : List Char)
    (arguments : List (List Char)) : Except Failure Float := do
  let f ← asFailure (table.find name)
  asFailure (f.checkArity arguments.length)
  let values ← arguments.mapM (resolveInFull f.name resolve)
  settleResult f.name (f.apply values)

/-- The shortcut does not matter to an argument if plain numbers are evaluated to what is read. -/
theorem resolveArgument_inFull (f : List Char)
    (hplain : ∀ x, isPlainNumber (trim a) = true → readFloat (trim a) = some x →
      x.isFinite = true → resolve (trim a) = .ok x) :
    resolveArgument f resolve a = resolveInFull f resolve a := by
  by_cases hne : trim a = []
  · rw [resolveArgument_empty hne]
    unfold resolveInFull
    dsimp only
    rw [hne]
    rfl
  rw [resolveArgument_eq hne]
  unfold resolveInFull
  dsimp only
  rw [if_neg (by simpa using hne)]
  cases hvalue : plainValue? (trim a) with
  | none => rfl
  | some x =>
    obtain ⟨hread, hx⟩ := Option.filter_eq_some_iff.mp hvalue
    split at hread
    · rename_i h
      rw [hplain x h hread hx]
    · exact absurd hread nofun

theorem toOption_resolveInFull (f : List Char) (hne : (trim a).isEmpty = false) :
    (resolveInFull f resolve a).toOption = (resolve (trim a)).toOption := by
  unfold resolveInFull
  dsimp only
  rw [hne, if_neg Bool.false_ne_true]
  split
  · rename_i heq
    rw [heq]
    rfl
  · rfl

theorem resolveArguments_inFull (hs : scope.Identifiers) (f : List Char)
    (arguments : List (List Char)) : resolveArguments f (evaluate table depth scope) arguments =
      arguments.mapM (resolveInFull f (evaluate table depth scope)) := by
  induction arguments with
  | nil => rfl
  | cons a arguments ih =>
    have hfirst : resolveArgument f (evaluate table depth scope) a = _ :=
      resolveArgument_inFull f fun x => evaluate_plain hs (trim_trim a)
    rw [resolveArguments, List.mapM_cons, ih, hfirst]

/-- The shortcut agrees with the whole evaluation. A plain number can be read, and where the number
is finite, evaluating the text gives that very number; so every call has the value that it would
have without the shortcut. -/
theorem shortcut_agrees (table : FunctionTable) (depth : Int) (hs : scope.Identifiers) :
    (∀ a, isPlainNumber (trim a) = true → ∃ x, readFloat (trim a) = some x ∧
      (x.isFinite = true → evaluate table depth scope a = .ok x)) ∧
    ∀ name arguments, call table (evaluate table depth scope) name arguments =
      callInFull table (evaluate table depth scope) name arguments := by
  refine ⟨fun a h => ?_, fun name arguments => ?_⟩
  · obtain ⟨e, hplain, htext⟩ := exists_plain h
    obtain ⟨x, hx⟩ := hplain.exists_readFloat
    rw [← htext] at hx
    exact ⟨x, hx, evaluate_plain hs rfl h hx⟩
  · unfold call callInFull
    simp only [resolveArguments_inFull hs]

/-- A scope in which one name has a value and another is pending. -/
def rateScope : Scope := ⟨[(['r', 'a', 't', 'e'], 7)], [(1, 3)], [['t', 'i', 'p']]⟩

theorem shortcut_negativeZero : rateScope.Identifiers ∧ isPlainNumber "-0".toList = true ∧
    (∃ x, evaluate Builtin.table 0 rateScope "-0\n".toList = .ok x ∧
      x.isFinite = true ∧ isNegative x = true ∧ (x == 0) = true) ∧
    call Builtin.table (evaluate Builtin.table 0 rateScope) "max".toList
        ["-0".toList, "-.5".toList, "rate".toList] =
      callInFull Builtin.table (evaluate Builtin.table 0 rateScope) "max".toList
        ["-0".toList, "-.5".toList, "rate".toList] := by
  have hs : rateScope.Identifiers := by
    unfold Scope.Identifiers
    decide
  have hplain : isPlainNumber (trim "-0\n".toList) = true := by decide
  have hagrees := shortcut_agrees Builtin.table 0 hs
  obtain ⟨x, hread, hvalue⟩ := hagrees.1 _ hplain
  have hzero : (readFloat (trim "-0\n".toList)).all fun x =>
      x.isFinite && isNegative x && x == 0 := by decide +kernel
  rw [hread] at hzero
  have hzero : (x.isFinite && isNegative x && x == 0) = true := hzero
  rw [Bool.and_eq_true, Bool.and_eq_true] at hzero
  exact ⟨hs, by decide, ⟨x, hvalue hzero.1.1, hzero.1.1, hzero.1.2, hzero.2⟩, hagrees.2 _ _⟩

end Shortcut

end Reckoner.Formula
