import Reckoner.Proofs.Assoc
import Reckoner.Proofs.Formula.Breakdowns

/-!
Which fault a call has. Its function may be unknown, it may have too many or too few arguments, an
argument may fail, and the function may have no finite value. The first of these in this order is
reported, and of several arguments that fail the first one. What cannot be read as an argument is a
fault of the argument, so that no call is ever reported as a text that cannot be read.
-/
namespace Reckoner.Formula

open Text Number

section Arity

/-- That a function takes a number of arguments. -/
def Function.Takes (f : Function) (count : Nat) : Prop :=
  f.least ≤ count ∧ ∀ most, f.most = some most → count ≤ most

/-- What is wrong with a number of arguments that a function does not take. -/
def Function.countProblem (f : Function) (count : Nat) : ArgumentProblem :=
  match f.most with
  | none => .tooFew f.least count
  | some most => .wrongCount f.least most count

variable {f : Function} {count : Nat}

theorem checkArity_of_takes (h : f.Takes count) : f.checkArity count = .ok () := by
  obtain ⟨hleast, hmost⟩ := h
  unfold Function.checkArity Function.arityProblem?
  cases hf : f.most with
  | none =>
    dsimp only
    rw [if_neg (by omega)]
  | some most =>
    have hle := hmost most hf
    have hboth : (decide ((f.least : Int) ≤ count) && decide ((count : Int) ≤ most)) = true := by
      rw [Bool.and_eq_true, decide_eq_true_iff, decide_eq_true_iff]
      omega
    dsimp only
    rw [if_pos hboth]

theorem checkArity_of_not_takes (h : ¬ f.Takes count) :
    f.checkArity count = .error ⟨.argument f.name (f.countProblem count), none⟩ := by
  unfold Function.checkArity Function.arityProblem? Function.countProblem
  cases hf : f.most with
  | none =>
    have hlt : count < f.least := by
      by_contra hge
      exact h ⟨by omega, fun most hmost => absurd (hf.symm.trans hmost) nofun⟩
    dsimp only
    rw [if_pos (by omega)]
  | some most =>
    have hboth : ¬ (decide ((f.least : Int) ≤ count) && decide ((count : Int) ≤ most)) = true := by
      rw [Bool.and_eq_true, decide_eq_true_iff, decide_eq_true_iff]
      rintro ⟨hleast, hmost⟩
      refine h ⟨by omega, fun most' hmost' => ?_⟩
      obtain rfl := Option.some.inj (hf.symm.trans hmost')
      omega
    dsimp only
    rw [if_neg hboth]

end Arity

section Arguments

/-- The value of a text that is a plain number, unless the number is beyond the range of doubles. -/
def plainValue? (s : List Char) : Option Float :=
  (if isPlainNumber s then readFloat s else none).filter Float.isFinite

/-- That an argument has a value: as a plain number, or else as an expression. -/
inductive ArgumentValue (resolve : Resolver) (a : List Char) (x : Float) : Prop
  | plain : trim a ≠ [] → plainValue? (trim a) = some x → ArgumentValue resolve a x
  | resolved : trim a ≠ [] → plainValue? (trim a) = none → resolve (trim a) = .ok x →
      ArgumentValue resolve a x

/-- That an argument of a function has a fault: it is empty, it is neither a plain number nor can it
be read as an expression, or it is an expression with a fault of its own. -/
inductive ArgumentFault (function : List Char) (resolve : Resolver) (a : List Char) : Fault → Prop
  | empty : trim a = [] → ArgumentFault function resolve a ⟨.argument function .empty, none⟩
  | unreadable {f} : trim a ≠ [] → plainValue? (trim a) = none →
      resolve (trim a) = .error (.fault f) → f.kind = .parse →
      ArgumentFault function resolve a ⟨.argument function (.notNumeric (trim a)), none⟩
  | passed {f} : trim a ≠ [] → plainValue? (trim a) = none →
      resolve (trim a) = .error (.fault f) → f.kind ≠ .parse → ArgumentFault function resolve a f

variable {function : List Char} {resolve : Resolver} {a : List Char} {arguments : List (List Char)}
  {x : Float} {xs : List Float} {f : Fault}

theorem kind_eq_parse_iff :
    f.kind = .parse ↔ ∃ problem position, f.cause = .parse problem position := by
  unfold Fault.kind
  cases f.cause <;> simp [Cause.kind]

theorem resolveArgument_empty (h : trim a = []) : resolveArgument function resolve a =
    .error (.fault ⟨.argument function .empty, none⟩) := by
  unfold resolveArgument
  dsimp only
  rw [h]
  rfl

theorem resolveArgument_eq (h : trim a ≠ []) : resolveArgument function resolve a =
    match plainValue? (trim a) with
    | some x => .ok x
    | none =>
      match resolve (trim a) with
      | .error (.fault ⟨.parse _ _, _⟩) =>
        .error (argumentProblem function (.notNumeric (trim a)))
      | result => result := by
  unfold resolveArgument
  dsimp only
  rw [if_neg (by simpa using h)]
  rfl

theorem resolveArgument_of_parse (hne : trim a ≠ []) (hplain : plainValue? (trim a) = none)
    (h : resolve (trim a) = .error (.fault f)) (hf : f.kind = .parse) :
    resolveArgument function resolve a =
      .error (.fault ⟨.argument function (.notNumeric (trim a)), none⟩) := by
  obtain ⟨cause, expression⟩ := f
  obtain ⟨problem, position, rfl⟩ := kind_eq_parse_iff.mp hf
  rw [resolveArgument_eq hne, hplain, h]
  rfl

/-- Any other outcome of the expression is that of the argument. -/
theorem resolveArgument_of_result (hne : trim a ≠ []) (hplain : plainValue? (trim a) = none)
    (h : ∀ f, resolve (trim a) = .error (.fault f) → f.kind ≠ .parse) :
    resolveArgument function resolve a = resolve (trim a) := by
  rw [resolveArgument_eq hne, hplain]
  dsimp only
  split
  · rename_i problem position expression heq
    exact absurd rfl (h _ heq)
  · rfl

theorem resolveArgument_eq_ok :
    resolveArgument function resolve a = .ok x ↔ ArgumentValue resolve a x := by
  by_cases hne : trim a = []
  · rw [resolveArgument_empty hne]
    refine ⟨nofun, fun h => ?_⟩
    cases h with
    | plain h _ => exact absurd hne h
    | resolved h _ _ => exact absurd hne h
  cases hplain : plainValue? (trim a) with
  | some y =>
    rw [resolveArgument_eq hne, hplain]
    refine ⟨fun h => .plain hne (hplain.trans (congrArg some (Except.ok.inj h))), fun h => ?_⟩
    cases h with
    | plain _ h => exact congrArg Except.ok (Option.some.inj (hplain.symm.trans h))
    | resolved _ h _ => exact absurd (hplain.symm.trans h) nofun
  | none =>
    by_cases hparse : ∃ f, resolve (trim a) = .error (.fault f) ∧ f.kind = .parse
    · obtain ⟨f, hf, hkind⟩ := hparse
      rw [resolveArgument_of_parse hne hplain hf hkind]
      refine ⟨nofun, fun h => ?_⟩
      cases h with
      | plain _ h => exact absurd (hplain.symm.trans h) nofun
      | resolved _ _ h => exact absurd (hf.symm.trans h) nofun
    · rw [resolveArgument_of_result hne hplain fun f hf hkind => hparse ⟨f, hf, hkind⟩]
      refine ⟨fun h => .resolved hne hplain h, fun h => ?_⟩
      cases h with
      | plain _ h => exact absurd (hplain.symm.trans h) nofun
      | resolved _ _ h => exact h

theorem resolveArgument_eq_fault : resolveArgument function resolve a = .error (.fault f) ↔
    ArgumentFault function resolve a f := by
  by_cases hne : trim a = []
  · rw [resolveArgument_empty hne]
    constructor
    · rintro ⟨⟩
      exact .empty hne
    · intro h
      cases h with
      | empty _ => rfl
      | unreadable h _ _ _ => exact absurd hne h
      | passed h _ _ _ => exact absurd hne h
  cases hplain : plainValue? (trim a) with
  | some y =>
    rw [resolveArgument_eq hne, hplain]
    refine ⟨nofun, fun h => ?_⟩
    cases h with
    | empty h => exact absurd h hne
    | unreadable _ h _ _ => exact absurd (hplain.symm.trans h) nofun
    | passed _ h _ _ => exact absurd (hplain.symm.trans h) nofun
  | none =>
    by_cases hparse : ∃ g, resolve (trim a) = .error (.fault g) ∧ g.kind = .parse
    · obtain ⟨g, hg, hkind⟩ := hparse
      rw [resolveArgument_of_parse hne hplain hg hkind]
      constructor
      · rintro ⟨⟩
        exact .unreadable hne hplain hg hkind
      · intro h
        cases h with
        | empty h => exact absurd h hne
        | unreadable _ _ _ _ => rfl
        | passed _ _ h hother =>
          obtain rfl := Failure.fault.inj (Except.error.inj (hg.symm.trans h))
          exact absurd hkind hother
    · have hothers : ∀ g, resolve (trim a) = .error (.fault g) → g.kind ≠ .parse :=
        fun g hg hkind => hparse ⟨g, hg, hkind⟩
      rw [resolveArgument_of_result hne hplain hothers]
      refine ⟨fun h => .passed hne hplain h (hothers f h), fun h => ?_⟩
      cases h with
      | empty h => exact absurd h hne
      | unreadable _ _ h hkind => exact absurd hkind (hothers _ h)
      | passed _ _ h _ => exact h

/-- No argument is reported as a text that cannot be read. -/
theorem ArgumentFault.kind_ne_parse (h : ArgumentFault function resolve a f) : f.kind ≠ .parse := by
  cases h with
  | empty _ => exact nofun
  | unreadable _ _ _ _ => exact nofun
  | passed _ _ _ h => exact h

theorem resolveArguments_eq_ok : resolveArguments function resolve arguments = .ok xs ↔
    List.Forall₂ (ArgumentValue resolve) arguments xs := by
  induction arguments generalizing xs with
  | nil =>
    rw [List.forall₂_nil_left_iff, resolveArguments, Except.ok.injEq, eq_comm]
  | cons a rest ih =>
    rw [List.forall₂_cons_left_iff]
    constructor
    · intro h
      obtain ⟨x, hx, h⟩ := bind_eq_ok h
      obtain ⟨ys, hys, h⟩ := bind_eq_ok h
      exact ⟨x, ys, resolveArgument_eq_ok.mp hx, ih.mp hys, (Except.ok.inj h).symm⟩
    · rintro ⟨x, ys, hx, hys, rfl⟩
      rw [resolveArguments, resolveArgument_eq_ok.mpr hx, ih.mpr hys]
      rfl

/-- Of the arguments that fail the first one is reported. -/
theorem resolveArguments_eq_fault : resolveArguments function resolve arguments = .error (.fault f) ↔
    ∃ before a after xs, arguments = before ++ a :: after ∧
      List.Forall₂ (ArgumentValue resolve) before xs ∧ ArgumentFault function resolve a f := by
  induction arguments with
  | nil =>
    refine ⟨nofun, ?_⟩
    rintro ⟨before, a, after, _, h, _⟩
    exact absurd h (by simp)
  | cons first rest ih =>
    refine bind_eq_error.trans ⟨?_, ?_⟩
    · rintro (h | ⟨x, hx, h⟩)
      · exact ⟨[], first, rest, [], rfl, .nil, resolveArgument_eq_fault.mp h⟩
      · obtain ⟨before, a, after, xs, rfl, hxs, ha⟩ := ih.mp (bind_ok_eq_error.mp h)
        exact ⟨first :: before, a, after, x :: xs, rfl, .cons (resolveArgument_eq_ok.mp hx) hxs, ha⟩
    · rintro ⟨before, a, after, xs, h, hxs, ha⟩
      cases hxs with
      | nil =>
        obtain ⟨rfl, rfl⟩ := List.cons.inj h
        exact Or.inl (resolveArgument_eq_fault.mpr ha)
      | @cons b x before xs hx hxs =>
        obtain ⟨rfl, rfl⟩ := List.cons.inj h
        exact Or.inr ⟨x, resolveArgument_eq_ok.mpr hx,
          bind_ok_eq_error.mpr (ih.mpr ⟨before, a, after, xs, rfl, hxs, ha⟩)⟩

end Arguments

section Calls

/-- The fault of a function that has no finite value for its arguments. -/
inductive FunctionFault (function : List Char) : Except Mishap Float → Fault → Prop
  | tooLarge : FunctionFault function (.error .tooLarge) ⟨.functionTooLarge function, none⟩
  | undefined : FunctionFault function (.error .undefined) ⟨.functionUndefined function, none⟩
  | nonFinite {x} : x.isFinite = false →
      FunctionFault function (.ok x) ⟨.functionNonFinite function, none⟩

/-- The fault of a call. Each case leaves out the ones before it, so there is at most one. -/
inductive CallFault (table : FunctionTable) (resolve : Resolver) (name : List Char)
    (arguments : List (List Char)) : Fault → Prop
  | unknown : lower name ∉ Assoc.keys table →
      CallFault table resolve name arguments ⟨.unknownFunction name, none⟩
  | count {f} : Assoc.get? table (lower name) = some f → ¬ f.Takes arguments.length →
      CallFault table resolve name arguments
        ⟨.argument f.name (f.countProblem arguments.length), none⟩
  | argument {f before a after xs fault} : Assoc.get? table (lower name) = some f →
      f.Takes arguments.length → arguments = before ++ a :: after →
      List.Forall₂ (ArgumentValue resolve) before xs → ArgumentFault f.name resolve a fault →
      CallFault table resolve name arguments fault
  | function {f xs fault} : Assoc.get? table (lower name) = some f →
      f.Takes arguments.length → List.Forall₂ (ArgumentValue resolve) arguments xs →
      FunctionFault f.name (f.apply xs) fault → CallFault table resolve name arguments fault

variable {table : FunctionTable} {resolve : Resolver} {name function : List Char}
  {arguments : List (List Char)} {result : Except Mishap Float} {f : Function} {fault : Fault}

theorem settleResult_eq_fault :
    settleResult function result = .error (.fault fault) ↔ FunctionFault function result fault := by
  constructor
  · intro h
    unfold settleResult at h
    split at h
    · split at h
      · exact absurd h nofun
      · rename_i hx
        obtain rfl := Failure.fault.inj (Except.error.inj h)
        exact .nonFinite (Bool.eq_false_iff.mpr hx)
    · obtain rfl := Failure.fault.inj (Except.error.inj h)
      exact .tooLarge
    · obtain rfl := Failure.fault.inj (Except.error.inj h)
      exact .undefined
    · exact absurd h nofun
  · intro h
    cases h with
    | tooLarge => rfl
    | undefined => rfl
    | nonFinite hx =>
      unfold settleResult
      dsimp only
      rw [if_neg (Bool.eq_false_iff.mp hx)]
      rfl

/-- A function that fails is a plain failure of the evaluation. -/
theorem FunctionFault.kind_eq (h : FunctionFault function result fault) :
    fault.kind = .evaluation := by
  cases h <;> rfl

theorem CallFault.kind_ne_parse (h : CallFault table resolve name arguments fault) :
    fault.kind ≠ .parse := by
  cases h with
  | unknown _ => exact nofun
  | count _ _ => exact nofun
  | argument _ _ _ _ h => exact h.kind_ne_parse
  | function _ _ _ h => rw [h.kind_eq]; exact nofun

theorem call_unknown (h : lower name ∉ Assoc.keys table) :
    call table resolve name arguments = .error (.fault ⟨.unknownFunction name, none⟩) := by
  unfold call FunctionTable.find FunctionTable.find?
  rw [Assoc.get?_eq_none.mpr h]
  rfl

/-- A call of a known function checks the number of its arguments first. -/
theorem call_known (h : Assoc.get? table (lower name) = some f) :
    call table resolve name arguments =
      (asFailure (f.checkArity arguments.length)).bind fun _ =>
        (resolveArguments f.name resolve arguments).bind fun xs => settleResult f.name (f.apply xs) := by
  unfold call FunctionTable.find FunctionTable.find?
  rw [h]
  rfl

/-- A call of a known function with the right number of arguments evaluates them. -/
theorem call_taken (h : Assoc.get? table (lower name) = some f) (htakes : f.Takes arguments.length) :
    call table resolve name arguments =
      (resolveArguments f.name resolve arguments).bind fun xs => settleResult f.name (f.apply xs) := by
  rw [call_known h, checkArity_of_takes htakes]
  rfl

theorem call_not_taken (h : Assoc.get? table (lower name) = some f)
    (htakes : ¬ f.Takes arguments.length) :
    call table resolve name arguments =
      .error (.fault ⟨.argument f.name (f.countProblem arguments.length), none⟩) := by
  rw [call_known h, checkArity_of_not_takes htakes]
  rfl

theorem CallFault.call_eq (h : CallFault table resolve name arguments fault) :
    call table resolve name arguments = .error (.fault fault) := by
  cases h with
  | unknown h => exact call_unknown h
  | count h hcount => exact call_not_taken h hcount
  | argument h htakes hsplit hxs ha =>
    rw [call_taken h htakes]
    exact bind_eq_error.mpr (Or.inl (resolveArguments_eq_fault.mpr ⟨_, _, _, _, hsplit, hxs, ha⟩))
  | function h htakes hxs hfault =>
    rw [call_taken h htakes]
    exact bind_eq_error.mpr
      (Or.inr ⟨_, resolveArguments_eq_ok.mpr hxs, settleResult_eq_fault.mpr hfault⟩)

theorem CallFault.of_call (h : call table resolve name arguments = .error (.fault fault)) :
    CallFault table resolve name arguments fault := by
  cases hname : Assoc.get? table (lower name) with
  | none =>
    have hunknown := Assoc.get?_eq_none.mp hname
    rw [call_unknown hunknown] at h
    obtain rfl := Failure.fault.inj (Except.error.inj h)
    exact .unknown hunknown
  | some f =>
    by_cases htakes : f.Takes arguments.length
    · rw [call_taken hname htakes] at h
      rcases bind_eq_error.mp h with h | ⟨xs, hxs, h⟩
      · obtain ⟨before, a, after, xs, hsplit, hxs, ha⟩ := resolveArguments_eq_fault.mp h
        exact .argument hname htakes hsplit hxs ha
      · exact .function hname htakes (resolveArguments_eq_ok.mp hxs) (settleResult_eq_fault.mp h)
    · rw [call_not_taken hname htakes] at h
      obtain rfl := Failure.fault.inj (Except.error.inj h)
      exact .count hname htakes

theorem call_eq_fault : call table resolve name arguments = .error (.fault fault) ↔
    CallFault table resolve name arguments fault := ⟨.of_call, CallFault.call_eq⟩

/-- A call has a fault exactly in one of four cases, of which the first one counts: its function is
unknown; the number of its arguments is wrong; an argument fails, the first one that does, by being
empty, by not being readable, or by its own fault; its function has no finite value, a plain failure
of the evaluation. No fault says that a text cannot be read, and every value is finite. -/
theorem call_faults (table : FunctionTable) (resolve : Resolver) (name : List Char)
    (arguments : List (List Char)) :
    (∀ fault, call table resolve name arguments = .error (.fault fault) ↔
      CallFault table resolve name arguments fault) ∧
    (∀ function result fault, FunctionFault function result fault → fault.kind = .evaluation) ∧
    (∀ fault, call table resolve name arguments = .error (.fault fault) → fault.kind ≠ .parse) ∧
    ∀ x, call table resolve name arguments = .ok x → x.isFinite = true :=
  ⟨fun _ => call_eq_fault, fun _ _ _ h => h.kind_eq, fun _ h => (call_eq_fault.mp h).kind_ne_parse,
    fun _ h => call_isFinite h⟩

/-- Of two arguments that fail the first one is reported, and under the name of the table. -/
example : call Builtin.table (fun s => .error (.fault ⟨.parse .unexpectedEnd s.length, some s⟩))
    "MAX".toList [" 2 +".toList, []] =
      .error (.fault ⟨.argument "max".toList (.notNumeric "2 +".toList), none⟩) := rfl

end Calls

end Reckoner.Formula
