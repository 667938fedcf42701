import Reckoner.Proofs.Formula.Insensitive
import Reckoner.Proofs.Formula.Lexeme

/-!
Substitution as an operation on expressions. In the text of an expression the line references and
the known names are found exactly where the tree has them, and the text of the value that takes
their place is again the text of an expression. So substitution in the text is the text of the
substituted expression, and the substituted expression has the same meaning.
-/
namespace Reckoner.Formula

open Text Number Arith

section Value

private theorem finite_exists (x : Float) : ∃ n : Numeral, x.isFinite = true →
    literal x = .ok (if x < 0 then '(' :: '-' :: n.text ++ [')'] else n.text) ∧
      (literalValue n.text).isFinite = true ∧
      Alike (if x < 0 then -literalValue n.text else literalValue n.text) x := by
  by_cases h : x.isFinite = true
  · obtain ⟨n, hn⟩ := exists_literal h
    exact ⟨n, fun _ => hn⟩
  · obtain ⟨n, _⟩ := exists_digits (s := ['0']) (allDigits_cons (by decide) allDigits_nil) (by simp)
    exact ⟨n, fun h' => absurd h' h⟩

/-- The numeral for the magnitude of a value. -/
noncomputable def numeralOf (x : Float) : Numeral := (finite_exists x).choose

theorem numeralOf_spec {x : Float} (h : x.isFinite = true) :
    literal x =
        .ok (if x < 0 then '(' :: '-' :: (numeralOf x).text ++ [')'] else (numeralOf x).text) ∧
      (literalValue (numeralOf x).text).isFinite = true ∧
      Alike
        (if x < 0 then -literalValue (numeralOf x).text else literalValue (numeralOf x).text) x :=
  (finite_exists x).choose_spec h

/-- The expression for a value: a numeral, or a negated numeral in parentheses. -/
noncomputable def Expr.ofValue (x : Float) : Expr :=
  if x < 0 then .group (.neg false (.numeral (numeralOf x))) else .numeral (numeralOf x)

variable {x : Float}

theorem literal_eq_ofValue (h : x.isFinite = true) :
    literal x = .ok (textOf (Expr.ofValue x).lexemes) := by
  rw [(numeralOf_spec h).1]
  unfold Expr.ofValue
  split
  · simp [Expr.lexemes, textOf, Lexeme.text]
  · simp [Expr.lexemes, textOf, Lexeme.text]

/-- The expression for a value means the value, up to the sign of zero. -/
theorem value_ofValue (h : x.isFinite = true) (table : FunctionTable) (scope : Scope) :
    SameOutcome ((Expr.ofValue x).value table scope) (some x) := by
  obtain ⟨_, hfinite, halike⟩ := numeralOf_spec h
  have hnumeral : (Expr.numeral (numeralOf x)).value table scope =
      some (literalValue (numeralOf x).text) := by
    rw [Expr.value]
    unfold finite
    rw [if_pos hfinite]
    rfl
  unfold Expr.ofValue
  split
  · rename_i hx
    rw [if_pos hx] at halike
    rw [Expr.value, Expr.value, hnumeral]
    exact .some halike
  · rename_i hx
    rw [if_neg hx] at halike
    rw [hnumeral]
    exact .some halike

theorem nesting_ofValue (x : Float) : (Expr.ofValue x).nesting = 0 := by
  unfold Expr.ofValue
  split <;> simp [Expr.nesting]

theorem levelled_ofValue (x : Float) : (Expr.ofValue x).Levelled := by
  unfold Expr.ofValue
  split
  · exact .group (.neg (Nat.le_refl 5) (.numeral _))
  · exact .numeral _

theorem level_ofValue (x : Float) : (Expr.ofValue x).level = 5 := by
  unfold Expr.ofValue
  split <;> rfl

end Value

namespace Expr

/-- The expression with other expressions in place of its names and line references. -/
def replace (onName : Name → Expr) (onLine : LineReference → Expr) : Expr → Expr
  | numeral n => .numeral n
  | name n => onName n
  | line r => onLine r
  | group e => .group (e.replace onName onLine)
  | neg spaced e => .neg spaced (e.replace onName onLine)
  | binary op l r => .binary op (l.replace onName onLine) (r.replace onName onLine)
  | call f args => .call f (args.map fun e => e.replace onName onLine)

end Expr

/-- The lexemes that take the place of a lexeme. -/
def Lexeme.replace (onName : Name → Expr) (onLine : LineReference → Expr) : Lexeme → List Lexeme
  | .name n => (onName n).lexemes
  | .line r => (onLine r).lexemes
  | a => [a]

section Replace

variable (onName : Name → Expr) (onLine : LineReference → Expr)

private theorem flatMap_joined (f : Lexeme → List Lexeme) (hcomma : f .comma = [.comma])
    (args : List (List Lexeme)) :
    (joined args).flatMap f = joined (args.map fun ls => ls.flatMap f) := by
  cases args with
  | nil => rfl
  | cons ls rest =>
    have hrest : (rest.flatMap fun more => .comma :: more).flatMap f =
        (rest.map fun ls => ls.flatMap f).flatMap fun more => .comma :: more := by
      rw [List.flatMap_assoc, List.flatMap_map]
      simp only [List.flatMap_cons, hcomma]
      rfl
    rw [List.map_cons]
    unfold joined
    rw [List.flatMap_append, hrest]

theorem lexemes_replace (e : Expr) :
    (e.replace onName onLine).lexemes = e.lexemes.flatMap (Lexeme.replace onName onLine) := by
  induction e with
  | numeral n => simp [Expr.replace, Expr.lexemes, Lexeme.replace]
  | name n => simp [Expr.replace, Expr.lexemes, Lexeme.replace]
  | line r => simp [Expr.replace, Expr.lexemes, Lexeme.replace]
  | group e ih => simp [Expr.replace, Expr.lexemes, Lexeme.replace, ih]
  | neg spaced e ih => simp [Expr.replace, Expr.lexemes, Lexeme.replace, ih]
  | binary op l r ihl ihr => simp [Expr.replace, Expr.lexemes, Lexeme.replace, ihl, ihr]
  | call f args ih =>
    have hargs : ((args.map fun e => e.replace onName onLine).map fun e => e.lexemes) =
        (args.map fun e => e.lexemes).map fun ls => ls.flatMap (Lexeme.replace onName onLine) := by
      rw [List.map_map, List.map_map]
      exact List.map_congr_left ih
    rw [Expr.replace, Expr.lexemes, Expr.lexemes, hargs,
      ← flatMap_joined (Lexeme.replace onName onLine) rfl]
    simp [Lexeme.replace]

variable {onName onLine}

theorem nesting_replace (hn : ∀ n, (onName n).nesting = 0) (hl : ∀ r, (onLine r).nesting = 0)
    (e : Expr) : (e.replace onName onLine).nesting = e.nesting := by
  induction e with
  | numeral n => rw [Expr.replace]
  | name n => rw [Expr.replace, hn, Expr.nesting]
  | line r => rw [Expr.replace, hl, Expr.nesting]
  | group e ih => rw [Expr.replace, Expr.nesting, Expr.nesting, ih]
  | neg spaced e ih => rw [Expr.replace, Expr.nesting, Expr.nesting, ih]
  | binary op l r ihl ihr => rw [Expr.replace, Expr.nesting, Expr.nesting, ihl, ihr]
  | call f args ih =>
    have hargs : ((args.map fun e => e.replace onName onLine).map fun e => e.nesting) =
        args.map fun e => e.nesting := by
      rw [List.map_map]
      exact List.map_congr_left ih
    rw [Expr.replace, Expr.nesting, Expr.nesting, hargs]

theorem level_replace (hn : ∀ n, (onName n).level = 5) (hl : ∀ r, (onLine r).level = 5) (e : Expr) :
    (e.replace onName onLine).level = e.level := by
  cases e with
  | name n => rw [Expr.replace, hn]; rfl
  | line r => rw [Expr.replace, hl]; rfl
  | numeral n => rw [Expr.replace]
  | _ => rw [Expr.replace]; rfl

theorem levelled_replace (hn : ∀ n, (onName n).level = 5) (hl : ∀ r, (onLine r).level = 5)
    (hn' : ∀ n, (onName n).Levelled) (hl' : ∀ r, (onLine r).Levelled) {e : Expr}
    (h : e.Levelled) : (e.replace onName onLine).Levelled := by
  induction h with
  | numeral n => rw [Expr.replace]; exact .numeral n
  | name n => rw [Expr.replace]; exact hn' n
  | line r => rw [Expr.replace]; exact hl' r
  | group _ ih => rw [Expr.replace]; exact .group ih
  | neg hlevel _ ih =>
    rw [Expr.replace]
    exact .neg (by rwa [level_replace hn hl]) ih
  | binary hleft hright _ _ ihl ihr =>
    rw [Expr.replace]
    exact .binary (by rwa [level_replace hn hl]) (by rwa [level_replace hn hl]) ihl ihr
  | call _ ih =>
    rw [Expr.replace]
    refine .call fun e he => ?_
    obtain ⟨a, ha, rfl⟩ := List.mem_map.mp he
    exact ih a ha

end Replace

end Reckoner.Formula
