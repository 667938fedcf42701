import Reckoner.Proofs.Formula.Meaning
import Reckoner.Proofs.Formula.Parsed

/-!
The value of a text without calls. If a name is left, the text has no value, and neither has its
expression in the scope, where the name is unknown. Otherwise the text is arithmetic.
-/
namespace Reckoner.Formula

open Text Number Arith

variable {table : FunctionTable} {scope : Scope} {last : Option Char} {position : Nat}

section Names

theorem firstNameFrom_append {t : List Char} (ht : ∀ c ∈ t, isNameStart c = false) (s : List Char) :
    firstNameFrom last position (t ++ s) =
      firstNameFrom (Scope.lastOf last t) (position + t.length) s := by
  induction t generalizing last position with
  | nil => rfl
  | cons c t ih =>
    rw [List.cons_append, firstNameFrom, ht c List.mem_cons_self, Bool.and_false,
      if_neg Bool.false_ne_true, ih fun d hd => ht d (List.mem_cons_of_mem c hd),
      Scope.lastOf_cons, List.length_cons, Nat.add_right_comm, Nat.add_assoc]

/-- A name in a text is found. -/
theorem firstNameFrom_textOf {ls : List Lexeme} (hls : ls.IsChain Follows)
    (hlast : ∀ a ∈ ls.head?, a.named = true → Fresh last) :
    (firstNameFrom last position (textOf ls)).isSome = ls.any Lexeme.named := by
  induction ls generalizing last position with
  | nil => rfl
  | cons a ls ih =>
    rw [textOf_cons, List.any_cons]
    by_cases ha : a.named = true
    · rw [ha, Bool.true_or]
      have hstart : ∃ c r, a.text = c :: r ∧ isNameStart c = true := by
        cases a with
        | name n | callee n =>
          obtain ⟨c, r, hn, hc, _⟩ := n.exists_cons
          exact ⟨c, r, hn, hc⟩
        | _ => exact absurd ha Bool.false_ne_true
      obtain ⟨c, r, htext, hc⟩ := hstart
      rw [htext, List.cons_append, firstNameFrom, allowsName_of_fresh (hlast a rfl ha), hc]
      rfl
    · rw [Bool.not_eq_true] at ha
      rw [firstNameFrom_append (isNameStart_of_not_named ha), ha, Bool.false_or]
      refine ih (List.isChain_cons.mp hls).2 fun b hb hnamed => ?_
      rw [Scope.lastOf_of_ne_nil a.text_ne_nil]
      exact fresh_of_follows ((List.isChain_cons.mp hls).1 b hb) hnamed

end Names

section Settle

/-- An expression in which only names are unknown is arithmetic, or has a name and no meaning. -/
theorem arithmetic_or_named (table : FunctionTable) {e : Expr} (hflat : e.nesting = 0)
    (hc : Closed scope e.lexemes) :
    (e.Arithmetic ∧ e.lexemes.any Lexeme.named = false) ∨
      (e.value table scope = none ∧ e.lexemes.any Lexeme.named = true) := by
  induction e with
  | numeral n => rw [Expr.lexemes]; exact Or.inl ⟨.numeral n, rfl⟩
  | name n =>
    rw [Expr.lexemes] at hc ⊢
    rw [Expr.value]
    exact Or.inr ⟨scope.meaning_of_not_mem (hc _ List.mem_cons_self), rfl⟩
  | line r =>
    rw [Expr.lexemes] at hc
    exact absurd (hc _ List.mem_cons_self) id
  | group e ih =>
    rw [Expr.nesting] at hflat
    rw [Expr.lexemes, List.cons_append, closed_cons, closed_append] at hc
    rw [Expr.lexemes, List.cons_append, List.any_cons, List.any_append, Expr.value]
    rcases ih hflat hc.2.1 with ⟨ha, hn⟩ | ⟨hv, hn⟩
    · rw [hn]; exact Or.inl ⟨.group ha, rfl⟩
    · rw [hn]; exact Or.inr ⟨hv, rfl⟩
  | neg spaced e ih =>
    rw [Expr.nesting] at hflat
    rw [Expr.lexemes, closed_cons] at hc
    rw [Expr.lexemes, List.any_cons, Expr.value]
    rcases ih hflat hc.2 with ⟨ha, hn⟩ | ⟨hv, hn⟩
    · rw [hn]; exact Or.inl ⟨.neg ha, rfl⟩
    · rw [hn, hv]; exact Or.inr ⟨rfl, rfl⟩
  | binary op l r ihl ihr =>
    rw [Expr.nesting, Nat.max_eq_zero_iff] at hflat
    rw [Expr.lexemes, closed_append, closed_cons] at hc
    rw [Expr.lexemes, List.any_append, List.any_cons, Expr.value]
    rcases ihl hflat.1 hc.1 with ⟨hal, hnl⟩ | ⟨hvl, hnl⟩
    · rcases ihr hflat.2 hc.2.2 with ⟨har, hnr⟩ | ⟨hvr, hnr⟩
      · rw [hnl, hnr]; exact Or.inl ⟨.binary hal har, rfl⟩
      · rw [hnl, hnr, hvr]
        refine Or.inr ⟨?_, rfl⟩
        cases l.value table scope <;> rfl
    · rw [hnl, hvl]; exact Or.inr ⟨rfl, rfl⟩
  | call f args _ =>
    rw [Expr.nesting] at hflat
    exact absurd hflat (by omega)

/-- The value of a text without calls is the meaning of its expression. -/
theorem settleText_textOf {e : Expr} (hl : e.Levelled) (hflat : e.nesting = 0)
    (hc : Closed scope e.lexemes) :
    (settleText (textOf e.lexemes)).toOption = e.value table scope := by
  have hfirst : (firstNameFrom none 0 (textOf e.lexemes)).isSome = e.lexemes.any Lexeme.named :=
    firstNameFrom_textOf (operand_lexemes e).chain fun _ _ _ => fresh_none
  unfold settleText
  rcases arithmetic_or_named table hflat hc with ⟨ha, hn⟩ | ⟨hv, hn⟩
  · rw [hn] at hfirst
    rw [Option.isSome_eq_false_iff, Option.isNone_iff_eq_none] at hfirst
    rw [hfirst]
    have hvalue := evaluate_textOf ha hl table scope
    dsimp only
    rw [← hvalue]
    cases Arith.evaluate (textOf e.lexemes) <;> rfl
  · rw [hn] at hfirst
    obtain ⟨found, hfound⟩ := Option.isSome_iff_exists.mp hfirst
    rw [hfound, hv]
    rfl

end Settle

end Reckoner.Formula
