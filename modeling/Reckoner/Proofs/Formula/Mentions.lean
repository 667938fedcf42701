import Reckoner.Proofs.Formula.Letters
import Reckoner.Proofs.Formula.Semantics

/-!
What the value of a text depends on. Two scopes with the same names and alike values give every text
the same value or the same failure. A canonical text depends on less: which names the scope has, and
the values of the names and lines that it mentions. Arguments of calls are evaluated as texts of
their own, but by then they mention no line and no name that the scope has.
-/
namespace Reckoner.Formula

open Text Number

section Agreement

namespace Scope

/-- Scopes with the same names, which are identifiers, and alike values. -/
structure Agrees (σ τ : Scope) : Prop where
  identifiers : ∀ n ∈ σ.names, isIdentifier n = true
  names : ∀ n, n ∈ σ.names ↔ n ∈ τ.names
  named : ∀ n, SameOutcome (Assoc.get? σ.named n) (Assoc.get? τ.named n)
  lines : ∀ i, SameOutcome (Assoc.get? σ.lines i) (Assoc.get? τ.lines i)

variable {σ τ : Scope}

theorem alike_getD {a b : Option Float} (h : SameOutcome a b) : Alike (a.getD 0) (b.getD 0) := by
  cases h with
  | none => exact Alike.refl 0
  | some hx => exact hx

theorem Agrees.nameLiteral (h : Agrees σ τ) (n : List Char) :
    σ.nameLiteral n = τ.nameLiteral n := literal_of_alike (alike_getD (h.named n))

theorem Agrees.lineLiteral (h : Agrees σ τ) (digits : List Char) :
    σ.lineLiteral digits = τ.lineLiteral digits := by
  have hline := h.lines (digitsValue digits)
  unfold Scope.lineLiteral
  split
  · rfl
  · revert hline
    generalize Assoc.get? σ.lines (digitsValue digits) = a
    generalize Assoc.get? τ.lines (digitsValue digits) = b
    intro hline
    cases hline with
    | none => rfl
    | some hx => exact literal_of_alike hx

theorem Agrees.substituteLines (h : Agrees σ τ) (within : Bool) (s : List Char) :
    σ.substituteLines within s = τ.substituteLines within s := by
  induction s generalizing within with
  | nil => rfl
  | cons c r ih =>
    unfold Scope.substituteLines
    dsimp only
    rw [h.lineLiteral, ih true, ih false]

/-- Which name stands at a place depends on the set of names only. -/
theorem nameAt?_congr {names names' : List (List Char)} (h : ∀ n ∈ names, isIdentifier n = true)
    (hsame : ∀ n, n ∈ names ↔ n ∈ names') (last : Option Char) (s : List Char) :
    nameAt? names last s = nameAt? names' last s := by
  have h' : ∀ n ∈ names', isIdentifier n = true := fun n hn => h n ((hsame n).mpr hn)
  rw [nameAt?_eq h, nameAt?_eq h']
  simp only [hsame]

theorem Agrees.substituteNames (h : Agrees σ τ) (last : Option Char) (skip : Nat) (s : List Char) :
    σ.substituteNames σ.names last skip s = τ.substituteNames τ.names last skip s := by
  have hat := fun last s => nameAt?_congr h.identifiers h.names last s
  induction s generalizing last skip with
  | nil =>
    unfold Scope.substituteNames
    rw [hat, h.nameLiteral]
  | cons c r ih =>
    cases skip with
    | succ more =>
      rw [Scope.substituteNames, Scope.substituteNames]
      exact ih (some c) more
    | zero =>
      rw [Scope.substituteNames, Scope.substituteNames, hat]
      cases nameAt? τ.names last (c :: r) with
      | none =>
        dsimp only
        rw [ih]
      | some n =>
        cases n with
        | nil =>
          dsimp only
          rw [ih, h.nameLiteral]
        | cons d more =>
          dsimp only
          rw [ih, h.nameLiteral]

/-- Substitution gives the same text in scopes that agree. -/
theorem Agrees.substitute (h : Agrees σ τ) (s : List Char) : σ.substitute s = τ.substitute s := by
  unfold Scope.substitute
  rw [h.substituteLines]
  refine congrArg (Except.bind _) (funext fun t => ?_)
  exact h.substituteNames none 0 t

end Scope

/-- Every text has the same value in scopes that agree. -/
theorem Scope.Agrees.evaluate {σ τ : Scope} (h : σ.Agrees τ) (table : FunctionTable) (depth : Int)
    (s : List Char) : Formula.evaluate table depth σ s = Formula.evaluate table depth τ s := by
  induction hn : letterCount s using Nat.strongRecOn generalizing s with
  | ind n ih =>
    have hresolve : resolverFor table depth σ s = resolverFor table depth τ s := by
      funext argument
      unfold resolverFor
      split
      · rename_i hlt
        exact ih _ (hn ▸ hlt) argument rfl
      · rfl
    have hprepare : prepare σ s = prepare τ s := by
      unfold prepare
      rw [h.substitute]
    rw [evaluate_eq, evaluate_eq, hprepare, hresolve]

end Agreement

section Mentions

variable {table : FunctionTable} {depth : Int} {σ τ : Scope} {resolve resolve' : Resolver}

/-- Whether a lexeme stands for the same value in two scopes. -/
def Lexeme.Same (σ τ : Scope) : Lexeme → Prop
  | .name n => n.chars ∈ σ.names → Assoc.get? σ.named n.chars = Assoc.get? τ.named n.chars
  | .line r =>
    Assoc.get? σ.lines (digitsValue r.digits) = Assoc.get? τ.lines (digitsValue r.digits)
  | _ => True

section Prepared

/-- Scopes with the same names substitute the same values for the same lexemes. -/
theorem subst_congr (hnames : ∀ n, n ∈ σ.names ↔ n ∈ τ.names) {e : Expr}
    (h : ∀ a ∈ e.lexemes, a.Same σ τ) : e.subst σ = e.subst τ := by
  unfold Expr.subst
  induction e with
  | numeral n => rw [Expr.replace, Expr.replace]
  | name n =>
    rw [Expr.lexemes, List.forall_mem_singleton] at h
    rw [Expr.replace, Expr.replace]
    by_cases hn : n.chars ∈ σ.names
    · rw [Scope.nameExpr_of_mem hn, Scope.nameExpr_of_mem ((hnames _).mp hn), h hn]
    · rw [Scope.nameExpr_of_not_mem hn,
        Scope.nameExpr_of_not_mem fun hn' => hn ((hnames _).mpr hn')]
  | line r =>
    rw [Expr.lexemes, List.forall_mem_singleton] at h
    rw [Expr.replace, Expr.replace]
    unfold Scope.lineExpr Scope.lineMeaning
    exact congrArg (fun x : Option Float => Expr.ofValue (x.getD 0)) h
  | group e ih =>
    rw [Expr.lexemes, List.cons_append, List.forall_mem_cons, List.forall_mem_append] at h
    rw [Expr.replace, Expr.replace, ih h.2.1]
  | neg spaced e ih =>
    rw [Expr.lexemes, List.forall_mem_cons] at h
    rw [Expr.replace, Expr.replace, ih h.2]
  | binary op l r ihl ihr =>
    rw [Expr.lexemes, List.forall_mem_append, List.forall_mem_cons] at h
    rw [Expr.replace, Expr.replace, ihl h.1, ihr h.2.2]
  | call f args ih =>
    rw [Expr.lexemes, List.cons_append, List.cons_append, List.forall_mem_cons,
      List.forall_mem_cons, List.forall_mem_append] at h
    have hargs := (forall_mem_joined (p := fun a => a.Same σ τ) trivial).mp h.2.2.1
    rw [Expr.replace, Expr.replace]
    exact congrArg (Expr.call f) (List.map_congr_left fun e he => ih e he (hargs e he))

theorem same_of_closed {ls : List Lexeme} (h : Closed σ ls) : ∀ a ∈ ls, a.Same σ τ := by
  intro a ha
  have hclosed := h a ha
  cases a with
  | name n => exact fun hn => absurd hn hclosed
  | line r => exact hclosed.elim
  | _ => exact trivial

end Prepared

section Rounds

/-- That two resolvers give the same outcomes for the arguments that are left of a text when its
names have been substituted. -/
def ResolveAlike (scope : Scope) (resolve resolve' : Resolver) : Prop :=
  ∀ e : Expr, e.nesting = 0 → Closed scope e.lexemes →
    resolve (textOf e.lexemes) = resolve' (textOf e.lexemes)

theorem round_congr (h : ResolveAlike σ resolve resolve') {e : Expr} (hc : Closed σ e.lexemes) :
    e.round table resolve = e.round table resolve' := by
  induction e with
  | numeral n | name n | line r => rw [Expr.round, Expr.round]
  | group e ih =>
    rw [Expr.lexemes, List.cons_append, closed_cons, closed_append] at hc
    rw [Expr.round, Expr.round, ih hc.2.1]
  | neg spaced e ih =>
    rw [Expr.lexemes, closed_cons] at hc
    rw [Expr.round, Expr.round, ih hc.2]
  | binary op l r ihl ihr =>
    rw [Expr.lexemes, closed_append, closed_cons] at hc
    rw [Expr.round, Expr.round, ihl hc.1, ihr hc.2.2]
  | call f args ih =>
    rw [Expr.lexemes, List.cons_append, List.cons_append, closed_cons, closed_cons,
      closed_append] at hc
    have hclosed := (forall_mem_joined trivial).mp hc.2.2.1
    have hrounds : (args.map fun e => e.round table resolve) =
        args.map fun e => e.round table resolve' :=
      List.map_congr_left fun e he => ih e he (hclosed e he)
    rw [Expr.round, Expr.round, hrounds]
    split
    · rename_i hflat
      have harguments : ∀ a ∈ args.map fun e => textOf e.lexemes,
          resolve (trim a) = resolve' (trim a) := by
        intro a ha
        obtain ⟨e, he, rfl⟩ := List.mem_map.mp ha
        rw [trim_textOf]
        exact h e (hflat e he) (hclosed e he)
      rw [call_congr f.chars harguments]
    · rfl

theorem rounds_congr (h : ResolveAlike σ resolve resolve') (bound : Int) (left : Nat) {e : Expr}
    (hc : Closed σ e.lexemes) :
    e.rounds table resolve bound left = e.rounds table resolve' bound left := by
  induction left generalizing e with
  | zero =>
    unfold Expr.rounds
    rfl
  | succ left ih =>
    unfold Expr.rounds
    rw [round_congr h hc]
    split
    · rfl
    · cases hround : e.round table resolve' with
      | error _ => rfl
      | ok e' => exact ih (closed_round hc hround)

end Rounds

section Evaluate

variable {e : Expr}

/-- A text without calls has the same value in both scopes. -/
theorem evaluate_congr_of_flat (hσ : σ.Regular) (hτ : τ.Regular)
    (hnames : ∀ n, n ∈ σ.names ↔ n ∈ τ.names) (h : ∀ a ∈ e.lexemes, a.Same σ τ)
    (hflat : e.nesting = 0) :
    evaluate table depth σ (textOf e.lexemes) = evaluate table depth τ (textOf e.lexemes) := by
  have hprepared : e.prepared σ = e.prepared τ := congrArg Expr.widen (subst_congr hnames h)
  have hzero : (e.prepared τ).nesting = 0 := (nesting_prepared τ e).trans hflat
  rw [evaluate_lexemes hσ, evaluate_lexemes hτ, hprepared, Expr.rounds_flat hzero,
    Expr.rounds_flat hzero]

/-- The value of a text depends on the names of the scope and the values of what the text
mentions. -/
theorem evaluate_congr (hσ : σ.Regular) (hτ : τ.Regular)
    (hnames : ∀ n, n ∈ σ.names ↔ n ∈ τ.names) (h : ∀ a ∈ e.lexemes, a.Same σ τ) :
    evaluate table depth σ (textOf e.lexemes) = evaluate table depth τ (textOf e.lexemes) := by
  have hprepared : e.prepared σ = e.prepared τ := congrArg Expr.widen (subst_congr hnames h)
  have hresolve : ResolveAlike τ (resolverFor table depth σ (textOf e.lexemes))
      (resolverFor table depth τ (textOf e.lexemes)) := by
    intro a hflat hclosed
    have hsame : ∀ b ∈ a.lexemes, b.Same τ σ := same_of_closed hclosed
    have hvalue : evaluate table depth σ (textOf a.lexemes) =
        evaluate table depth τ (textOf a.lexemes) :=
      (evaluate_congr_of_flat hτ hσ (fun n => (hnames n).symm) hsame hflat).symm
    unfold resolverFor
    rw [hvalue]
  rw [evaluate_lexemes hσ, evaluate_lexemes hτ, hprepared,
    rounds_congr hresolve depth depth.toNat (closed_prepared τ e)]

end Evaluate

end Mentions

end Reckoner.Formula
