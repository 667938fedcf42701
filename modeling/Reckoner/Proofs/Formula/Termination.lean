import Reckoner.Proofs.Formula.CallPlaces
import Reckoner.Proofs.Formula.Depth

/-!
Why evaluations end. A round that completes has replaced a name with a number, so the text has fewer
letters afterwards, and an argument of a call has fewer letters than the text with the call. This
bounds the rounds and the depth to which evaluations nest, whatever bound is set on the rounds, and
without one: an evaluation that may neither nest deeper nor make more rounds has the same value.
-/
namespace Reckoner.Formula

open Text Number

section Rounds

variable {table : FunctionTable} {resolve : Resolver} {s t u : List Char} {n : Nat}

/-- A round that completes: a text has calls, and all that can be evaluated are replaced. -/
def Round (table : FunctionTable) (resolve : Resolver) (s t : List Char) : Prop :=
  ∃ calls, innermostCalls s = .ok calls ∧ calls ≠ [] ∧ replaceCalls table resolve s calls = .ok t

/-- A number of rounds, one after another. -/
inductive Rounds (table : FunctionTable) (resolve : Resolver) : Nat → List Char → List Char → Prop
  | refl (s : List Char) : Rounds table resolve 0 s s
  | next {n : Nat} {s t u : List Char} : Round table resolve s t → Rounds table resolve n t u →
      Rounds table resolve (n + 1) s u

/-- A call starts with a letter, and that is lost when a number takes its place. -/
theorem letterCount_call_lt {calls : List Call} {c : Call} (h : innermostCalls s = .ok calls)
    (hc : c ∈ calls) (ht : letterCount t = 0) :
    letterCount (s.take c.start ++ t ++ s.drop c.stop) < letterCount s := by
  obtain ⟨call, hcall, hstart, hstop, _⟩ := mem_innermostAmong h hc
  obtain ⟨before, f, gap, rest, rfl, _, _, rfl⟩ := exists_of_mem_callStartsFrom hcall
  obtain ⟨x, name, hf, hx, _⟩ := f.exists_cons
  have hstart' : c.start = before.length := hstart.trans (Nat.zero_add _)
  have hlater : before.length + 1 ≤ c.stop := by
    refine Nat.le_trans ?_ hstop
    simp only [callStart, hf, List.length_cons]
    omega
  rw [hf, List.cons_append]
  generalize name ++ (gap ++ '(' :: rest) = tail
  have hdrop : ((before ++ x :: tail).drop c.stop).Sublist tail := by
    rw [← Nat.add_sub_of_le hlater, ← List.drop_drop, List.drop_length_add_append]
    exact List.drop_sublist _ _
  rw [hstart', List.take_left]
  simp only [letterCount_append, ht]
  have hle := letterCount_le hdrop
  have hname : letterCount (x :: tail) = letterCount tail + 1 := List.countP_cons_of_pos hx
  omega

/-- Replacing calls leaves fewer letters: the one that is evaluated first stands in the text itself,
and none of the others adds any. -/
theorem letterCount_replaceCalls_lt {calls later : List Call} (hcalls : innermostCalls s = .ok calls)
    (hlater : ∀ c ∈ later, c ∈ calls) (hne : later ≠ [])
    (h : replaceCalls table resolve s later = .ok t) : letterCount t < letterCount s := by
  induction later generalizing t with
  | nil => exact absurd rfl hne
  | cons c later ih =>
    obtain ⟨u, x, value, hu, _, hvalue, rfl⟩ := replaceCalls_cons_eq_ok h
    have hzero := letterCount_literal hvalue
    have hc := hlater c List.mem_cons_self
    cases later with
    | nil =>
      obtain rfl := Except.ok.inj hu
      exact letterCount_call_lt hcalls hc hzero
    | cons d later =>
      have hlt := ih (fun e he => hlater e (List.mem_cons_of_mem c he)) (List.cons_ne_nil d later) hu
      exact (letterCount_replaced (mem_innermostCalls hcalls hc).1 hzero u).trans_lt hlt

theorem letterCount_round (h : Round table resolve s t) : letterCount t < letterCount s := by
  obtain ⟨calls, hcalls, hne, hreplace⟩ := h
  exact letterCount_replaceCalls_lt hcalls (fun _ hc => hc) hne hreplace

theorem letterCount_rounds (h : Rounds table resolve n s t) : n + letterCount t ≤ letterCount s := by
  induction h with
  | refl s => rw [Nat.zero_add]
  | next hround _ ih =>
    have hlt := letterCount_round hround
    omega

/-- The rounds come to an end: a text is reached of which no round completes. -/
theorem exists_last_round (table : FunctionTable) (resolve : Resolver) (s : List Char) :
    ∃ n u, Rounds table resolve n s u ∧ ∀ v, ¬ Round table resolve u v := by
  induction hn : letterCount s using Nat.strongRecOn generalizing s with
  | ind n ih =>
    by_cases hround : ∃ t, Round table resolve s t
    · obtain ⟨t, ht⟩ := hround
      obtain ⟨m, u, hu, hlast⟩ := ih _ (hn ▸ letterCount_round ht) t rfl
      exact ⟨m + 1, u, .next ht hu, hlast⟩
    · exact ⟨0, s, .refl s, fun v hv => hround ⟨v, hv⟩⟩

/-- What a round leaves takes the place of the text, with one round less to go. -/
theorem replaceRounds_round (h : Round table resolve s t) (bound : Int) (left : Nat) :
    replaceRounds table resolve bound (left + 1) s = replaceRounds table resolve bound left t := by
  obtain ⟨calls, hcalls, hne, hreplace⟩ := h
  rw [replaceRounds_step hcalls hne, hreplace]
  rfl

theorem replaceRounds_rounds (h : Rounds table resolve n s u) (bound : Int) (left : Nat) :
    replaceRounds table resolve bound (n + left) s = replaceRounds table resolve bound left u := by
  induction h with
  | refl s => rw [Nat.zero_add]
  | next hround _ ih => rw [Nat.add_right_comm, replaceRounds_round hround, ih]

/-- After the last round that completes, it does not matter how many more rounds are allowed, if any
is. -/
theorem replaceRounds_last (h : ∀ v, ¬ Round table resolve u v) (bound : Int) (left : Nat) :
    replaceRounds table resolve bound (left + 1) u = replaceRounds table resolve bound 1 u := by
  cases hcalls : innermostCalls u with
  | error f =>
    rw [replaceRounds, replaceRounds, hcalls]
    rfl
  | ok calls =>
    by_cases hne : calls = []
    · subst hne
      rw [replaceRounds_settled hcalls, replaceRounds_settled hcalls]
    rw [replaceRounds_step hcalls hne, replaceRounds_step hcalls hne]
    cases hreplace : replaceCalls table resolve u calls with
    | error f => rfl
    | ok t => exact absurd ⟨calls, hcalls, hne, hreplace⟩ (h t)

end Rounds

section Nesting

variable {table : FunctionTable} {depth : Int} {scope : Scope} {s t a : List Char} {n : Nat}

/-- That a text is an argument of a call of another one that can be evaluated. -/
def ArgumentOf (t a : List Char) : Prop :=
  ∃ calls, innermostCalls t = .ok calls ∧ ∃ c ∈ calls, ∃ argument ∈ splitArguments c.arguments,
    a = trim argument

theorem letterCount_argumentOf (h : ArgumentOf t a) : letterCount a < letterCount t := by
  obtain ⟨calls, hcalls, c, hc, argument, hargument, rfl⟩ := h
  exact (letterCount_argument hargument).trans_lt (mem_innermostCalls hcalls hc).2

/-- That the evaluation of a text may evaluate another one: an argument in one of its rounds. -/
def Asks (table : FunctionTable) (depth : Int) (scope : Scope) (s a : List Char) : Prop :=
  ∃ text n t, prepare scope s = .ok text ∧
    Rounds table (evaluate table depth scope) n text t ∧ ArgumentOf t a

/-- Evaluations of which each is made in the course of the one before. -/
inductive Nested (table : FunctionTable) (depth : Int) (scope : Scope) :
    Nat → List Char → List Char → Prop
  | refl (s : List Char) : Nested table depth scope 0 s s
  | next {n : Nat} {s a b : List Char} : Asks table depth scope s a →
      Nested table depth scope n a b → Nested table depth scope (n + 1) s b

theorem letterCount_asks (h : Asks table depth scope s a) : letterCount a < letterCount s := by
  obtain ⟨text, n, t, hprepare, hrounds, hargument⟩ := h
  have hlt := letterCount_argumentOf hargument
  have hle := letterCount_rounds hrounds
  have hprepared := letterCount_prepare hprepare
  omega

theorem letterCount_nested (h : Nested table depth scope n s a) :
    n + letterCount a ≤ letterCount s := by
  induction h with
  | refl s => rw [Nat.zero_add]
  | next hasks _ ih =>
    have hlt := letterCount_asks hasks
    omega

/-- The value of a text by evaluations that nest to a number of levels only and make a number of
rounds only; `beyond` stands for those that would nest deeper. -/
def evaluateWithin (table : FunctionTable) (depth : Int) (scope : Scope) (beyond : Resolver)
    (rounds : Nat) : Nat → List Char → Except Failure Float
  | 0, s => beyond s
  | levels + 1, s =>
    (prepare scope s).bind fun text =>
      (replaceRounds table (evaluateWithin table depth scope beyond rounds levels) depth
        (min rounds depth.toNat) text).bind settleText

/-- As many rounds as the text has letters are enough. -/
theorem replaceRounds_min {resolve : Resolver} {rounds : Nat} (h : letterCount s ≤ rounds)
    (bound : Int) (left : Nat) :
    replaceRounds table resolve bound (min rounds left) s =
      replaceRounds table resolve bound left s := by
  rcases Nat.le_total left rounds with hle | hle
  · rw [Nat.min_eq_right hle]
  rw [Nat.min_eq_left hle]
  obtain ⟨n, u, hrounds, hlast⟩ := exists_last_round table resolve s
  have hn := letterCount_rounds hrounds
  obtain ⟨more, rfl⟩ : ∃ more, rounds = n + more := ⟨rounds - n, by omega⟩
  obtain ⟨more', rfl⟩ : ∃ more', left = n + more' := ⟨left - n, by omega⟩
  rw [replaceRounds_rounds hrounds, replaceRounds_rounds hrounds]
  cases more with
  | zero =>
    have hflat := callStarts_eq_nil (s := u) (by omega)
    rw [replaceRounds_flat hflat, replaceRounds_flat hflat]
  | succ more =>
    obtain ⟨more'', rfl⟩ : ∃ more'', more' = more'' + 1 := ⟨more' - 1, by omega⟩
    rw [replaceRounds_last hlast bound more, replaceRounds_last hlast bound more'']

/-- An evaluation nests no deeper than the text has letters, and makes no more rounds. -/
theorem evaluateWithin_eq (table : FunctionTable) (depth : Int) (scope : Scope) (beyond : Resolver)
    {rounds levels : Nat} (hrounds : letterCount s ≤ rounds) (hlevels : letterCount s < levels) :
    evaluateWithin table depth scope beyond rounds levels s = evaluate table depth scope s := by
  induction levels generalizing s with
  | zero => exact absurd hlevels (Nat.not_lt_zero _)
  | succ levels ih =>
    rw [evaluate_rounds, evaluateWithin]
    cases hprepare : prepare scope s with
    | error f => dsimp only [Except.bind]
    | ok text =>
      have hle := letterCount_prepare hprepare
      have hsame : replaceRounds table (evaluateWithin table depth scope beyond rounds levels) depth
          (min rounds depth.toNat) text = resolveCalls table (evaluate table depth scope) depth text := by
        rw [replaceRounds_min (hle.trans hrounds), resolveCalls]
        exact replaceRounds_congr (fun a ha => ih (by omega) (by omega)) depth depth.toNat
      dsimp only [Except.bind]
      rw [hsame]

end Nesting

/-- Evaluation ends under any bound on the rounds. It calls itself for arguments only, and both the
rounds and these evaluations take letters away; so the letters of the text bound the number of the
rounds and the depth of the evaluations, and the value is found within these bounds. -/
theorem evaluation_ends (table : FunctionTable) (depth : Int) (scope : Scope) (s : List Char) :
    (evaluate table depth scope s = (prepare scope s).bind fun text =>
      (resolveCalls table (evaluate table depth scope) depth text).bind settleText) ∧
    (∀ resolve t u, Round table resolve t u → letterCount u < letterCount t) ∧
    (∀ t a, ArgumentOf t a → letterCount a < letterCount t) ∧
    (∀ text n t, prepare scope s = .ok text → Rounds table (evaluate table depth scope) n text t →
      n + letterCount t ≤ letterCount s) ∧
    (∀ n a, Nested table depth scope n s a → n + letterCount a ≤ letterCount s) ∧
    ∀ beyond rounds levels, letterCount s ≤ rounds → letterCount s < levels →
      evaluateWithin table depth scope beyond rounds levels s = evaluate table depth scope s := by
  refine ⟨evaluate_rounds table depth scope s, fun _ _ _ => letterCount_round,
    fun _ _ => letterCount_argumentOf, ?_, fun _ _ => letterCount_nested,
    fun beyond _ _ => evaluateWithin_eq table depth scope beyond⟩
  intro text n t hprepare hrounds
  exact (letterCount_rounds hrounds).trans (letterCount_prepare hprepare)

example : ArgumentOf "max(1, min(2 + 3, 4))".toList "2 + 3".toList :=
  ⟨_, rfl, _, List.mem_cons_self, _, List.mem_cons_self, rfl⟩

end Reckoner.Formula
