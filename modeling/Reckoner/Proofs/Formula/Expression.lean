import Reckoner.Formula.Evaluate
import Reckoner.Proofs.Arith.Stack
import Reckoner.Proofs.Number.Numeral

/-!
Expression trees with names, line references and calls. A tree has a direct meaning in a scope and a
canonical text, in which parentheses stand wherever the grouping needs them. The text is a list of
lexemes, printed one after the other.
-/
namespace Reckoner.Formula

open Text Number Arith

structure Name where
  chars : List Char
  identifier : isIdentifier chars = true

/-- The digits of a line reference; there are no more of them than a line number can have. -/
structure LineReference where
  digits : List Char
  all_digits : AllDigits digits
  some_digit : digits ≠ []
  readable : digits.length ≤ digitLimit

/-- Expressions. A minus sign may be set apart from its operand. -/
inductive Expr
  | numeral (n : Numeral)
  | name (n : Name)
  | line (r : LineReference)
  | group (e : Expr)
  | neg (spaced : Bool) (e : Expr)
  | binary (op : Op) (l r : Expr)
  | call (f : Name) (args : List Expr)

section Meaning

/-- What a name means: its value, or zero when it is only pending. -/
def Scope.meaning (scope : Scope) (name : List Char) : Option Float :=
  match Assoc.get? scope.named name with
  | some x => some x
  | none => if name ∈ scope.pending then some 0 else none

/-- What a line reference means: the result of the line, or zero. -/
def Scope.lineMeaning (scope : Scope) (r : LineReference) : Float :=
  (Assoc.get? scope.lines (digitsValue r.digits)).getD 0

/-- A function applied to values. -/
def application (table : FunctionTable) (f : List Char) (values : List Float) : Option Float :=
  match table.find? f with
  | none => none
  | some g =>
    if (g.arityProblem? values.length).isSome then none
    else (settleResult g.name (g.apply values)).toOption

/-- The direct meaning of an expression; operators and calls are strict. -/
def Expr.value (table : FunctionTable) (scope : Scope) : Expr → Option Float
  | numeral n => (finite .literal (literalValue n.text)).toOption
  | name n => scope.meaning n.chars
  | line r => some (scope.lineMeaning r)
  | group e => e.value table scope
  | neg _ e => (e.value table scope).map fun x => -x
  | binary op l r => do
    let x ← l.value table scope
    let y ← r.value table scope
    (op.apply x y).toOption
  | call f args => do
    let values ← (args.map fun e => e.value table scope).mapM id
    application table f.chars values

/-- How deep calls nest. -/
def Expr.nesting : Expr → Nat
  | numeral _ => 0
  | name _ => 0
  | line _ => 0
  | group e => e.nesting
  | neg _ e => e.nesting
  | binary _ l r => max l.nesting r.nesting
  | call _ args => 1 + (args.map fun e => e.nesting).foldr max 0

end Meaning

section Text

inductive Lexeme
  | numeral (n : Numeral)
  | name (n : Name)
  | line (r : LineReference)
  | callee (f : Name)
  | minus (spaced : Bool)
  | operator (op : Op)
  | opening
  | closing
  | comma

def Lexeme.text : Lexeme → List Char
  | numeral n => n.text
  | name n => n.chars
  | line r => '@' :: r.digits
  | callee f => f.chars
  | minus spaced => if spaced then ['-', ' '] else ['-']
  | operator op => [' ', op.symbol, ' ']
  | opening => ['(']
  | closing => [')']
  | comma => [',', ' ']

def textOf (ls : List Lexeme) : List Char := ls.flatMap Lexeme.text

/-- The arguments of a call with commas between them. -/
def joined : List (List Lexeme) → List Lexeme
  | [] => []
  | ls :: rest => ls ++ rest.flatMap fun more => .comma :: more

def Expr.lexemes : Expr → List Lexeme
  | numeral n => [.numeral n]
  | name n => [.name n]
  | line r => [.line r]
  | group e => .opening :: e.lexemes ++ [.closing]
  | neg spaced e => .minus spaced :: e.lexemes
  | binary op l r => l.lexemes ++ .operator op :: r.lexemes
  | call f args =>
    .callee f :: .opening :: joined (args.map fun e => e.lexemes) ++ [.closing]

/-- How tight an expression holds together. -/
def Expr.level : Expr → Nat
  | binary op _ _ => op.level
  | neg _ _ => 4
  | _ => 5

def Expr.atLeast (e : Expr) (level : Nat) : Expr := if e.level < level then .group e else e

/-- The expression with the parentheses that its grouping needs. -/
def Expr.bracketed : Expr → Expr
  | numeral n => .numeral n
  | name n => .name n
  | line r => .line r
  | group e => .group e.bracketed
  | neg spaced e => .neg spaced (e.bracketed.atLeast 5)
  | binary op l r =>
    .binary op (l.bracketed.atLeast (leftLevel op)) (r.bracketed.atLeast (rightLevel op))
  | call f args => .call f (args.map fun e => e.bracketed)

/-- The canonical text. -/
def Expr.text (e : Expr) : List Char := textOf e.bracketed.lexemes

end Text

/-- Induction over expressions; the arguments of a call may be used one by one. -/
@[elab_as_elim, induction_eliminator]
theorem Expr.induct {motive : Expr → Prop}
    (numeral : ∀ n, motive (.numeral n)) (name : ∀ n, motive (.name n))
    (line : ∀ r, motive (.line r)) (group : ∀ e, motive e → motive (.group e))
    (neg : ∀ spaced e, motive e → motive (.neg spaced e))
    (binary : ∀ op l r, motive l → motive r → motive (.binary op l r))
    (call : ∀ f args, (∀ e ∈ args, motive e) → motive (.call f args)) (e : Expr) : motive e :=
  match e with
  | .numeral n => numeral n
  | .name n => name n
  | .line r => line r
  | .group e => group e (induct numeral name line group neg binary call e)
  | .neg spaced e => neg spaced e (induct numeral name line group neg binary call e)
  | .binary op l r =>
    binary op l r (induct numeral name line group neg binary call l)
      (induct numeral name line group neg binary call r)
  | .call f args => call f args fun e _ => induct numeral name line group neg binary call e

/-- Whether all operands are grouped as the levels of the operators require. -/
inductive Expr.Levelled : Expr → Prop
  | numeral (n) : Levelled (.numeral n)
  | name (n) : Levelled (.name n)
  | line (r) : Levelled (.line r)
  | group {e} : Levelled e → Levelled (.group e)
  | neg {spaced e} : 5 ≤ e.level → Levelled e → Levelled (.neg spaced e)
  | binary {op l r} : leftLevel op ≤ l.level → rightLevel op ≤ r.level → Levelled l → Levelled r →
      Levelled (.binary op l r)
  | call {f args} : (∀ e ∈ args, Levelled e) → Levelled (.call f args)

namespace Expr

variable (table : FunctionTable) (scope : Scope)

theorem level_atLeast (e : Expr) {n : Nat} (hn : n ≤ 5) : n ≤ (e.atLeast n).level := by
  unfold atLeast
  split
  · exact hn
  · omega

theorem levelled_atLeast {e : Expr} (h : e.Levelled) (n : Nat) : (e.atLeast n).Levelled := by
  unfold atLeast
  split
  · exact .group h
  · exact h

theorem value_atLeast (e : Expr) (n : Nat) :
    (e.atLeast n).value table scope = e.value table scope := by
  unfold atLeast
  split
  · rw [value]
  · rfl

theorem nesting_atLeast (e : Expr) (n : Nat) : (e.atLeast n).nesting = e.nesting := by
  unfold atLeast
  split
  · rw [nesting]
  · rfl

/-- The parentheses of the canonical text group all operands. -/
theorem levelled_bracketed (e : Expr) : e.bracketed.Levelled := by
  induction e with
  | numeral n => rw [bracketed]; exact .numeral n
  | name n => rw [bracketed]; exact .name n
  | line r => rw [bracketed]; exact .line r
  | group e ih => rw [bracketed]; exact .group ih
  | neg spaced e ih =>
    rw [bracketed]
    exact .neg (level_atLeast _ (by decide)) (levelled_atLeast ih 5)
  | binary op l r ihl ihr =>
    rw [bracketed]
    refine .binary (level_atLeast _ ?_) (level_atLeast _ ?_) (levelled_atLeast ihl _)
      (levelled_atLeast ihr _)
    · cases op <;> decide
    · cases op <;> decide
  | call f args ih =>
    rw [bracketed]
    refine .call fun e he => ?_
    obtain ⟨a, ha, rfl⟩ := List.mem_map.mp he
    exact ih a ha

/-- They change neither the meaning nor the nesting of calls. -/
theorem value_bracketed (e : Expr) : e.bracketed.value table scope = e.value table scope := by
  induction e with
  | numeral n => rw [bracketed]
  | name n => rw [bracketed]
  | line r => rw [bracketed]
  | group e ih => rw [bracketed, value, value, ih]
  | neg spaced e ih => rw [bracketed, value, value, value_atLeast, ih]
  | binary op l r ihl ihr =>
    rw [bracketed, value, value, value_atLeast, value_atLeast, ihl, ihr]
  | call f args ih =>
    have hvalues : ((args.map fun e => e.bracketed).map fun e => e.value table scope) =
        args.map fun e => e.value table scope := by
      rw [List.map_map]
      exact List.map_congr_left ih
    rw [bracketed, value, value, hvalues]

theorem nesting_bracketed (e : Expr) : e.bracketed.nesting = e.nesting := by
  induction e with
  | numeral n => rw [bracketed]
  | name n => rw [bracketed]
  | line r => rw [bracketed]
  | group e ih => rw [bracketed, nesting, nesting, ih]
  | neg spaced e ih => rw [bracketed, nesting, nesting, nesting_atLeast, ih]
  | binary op l r ihl ihr =>
    rw [bracketed, nesting, nesting, nesting_atLeast, nesting_atLeast, ihl, ihr]
  | call f args ih =>
    have hnesting : ((args.map fun e => e.bracketed).map fun e => e.nesting) =
        args.map fun e => e.nesting := by
      rw [List.map_map]
      exact List.map_congr_left ih
    rw [bracketed, nesting, nesting, hnesting]

end Expr

end Reckoner.Formula
