import Reckoner.Proofs.Formula.Meaning
import Reckoner.Proofs.Formula.Tidy

/-!
The canonical form of the text of an expression. It is again the text of an expression: the same
one, in which each minus sign before a name, a call or a line reference is set apart by a space.
-/
namespace Reckoner.Formula

open Text Number Arith

/-- Whether an operand starts with a name or a line reference. -/
def Lexeme.referring : Lexeme → Bool
  | .name _ | .callee _ | .line _ => true
  | _ => false

/-- Whether the first of some lexemes is a name or a line reference. -/
def refersFirst (ls : List Lexeme) : Bool := ls.head?.any Lexeme.referring

/-- A minus sign is set apart when a name comes next. -/
def Lexeme.widen (refers : Bool) : Lexeme → Lexeme
  | .minus spaced => .minus (spaced || refers)
  | a => a

/-- The lexemes with a space between each minus sign and a name. -/
def widened : List Lexeme → List Lexeme
  | [] => []
  | a :: ls => a.widen (refersFirst ls) :: widened ls

/-- The expression with a space between each minus sign and a name. -/
def Expr.widen : Expr → Expr
  | numeral n => .numeral n
  | name n => .name n
  | line r => .line r
  | group e => .group e.widen
  | neg spaced e => .neg (spaced || refersFirst e.lexemes) e.widen
  | binary op l r => .binary op l.widen r.widen
  | call f args => .call f (args.map fun e => e.widen)

section Lexemes

theorem refersFirst_append {ls ms : List Lexeme} (h : ls ≠ []) :
    refersFirst (ls ++ ms) = refersFirst ls := by
  unfold refersFirst
  rw [List.head?_append_of_ne_nil ls h]

/-- An operand never ends with a minus sign, so widening goes through it on its own. -/
theorem widened_append {ls ms : List Lexeme} (h : ∀ z ∈ ls.getLast?, z.ends = true) :
    widened (ls ++ ms) = widened ls ++ widened ms := by
  induction ls with
  | nil => rfl
  | cons a ls ih =>
    have hrest := ih fun z hz => h z (by rw [List.getLast?_cons, hz]; rfl)
    have hhead : a.widen (refersFirst (ls ++ ms)) = a.widen (refersFirst ls) := by
      cases a with
      | minus spaced =>
        have hne : ls ≠ [] := by
          rintro rfl
          exact absurd (h _ rfl) Bool.false_ne_true
        rw [refersFirst_append hne]
      | _ => rfl
    rw [List.cons_append, widened, widened, hrest, hhead, List.cons_append]

theorem widened_joined {args : List Expr} :
    widened (joined (args.map fun e => e.lexemes) ++ [.closing]) =
      joined (args.map fun e => widened e.lexemes) ++ [.closing] := by
  have hmore : ∀ rest : List Expr,
      widened
          (((rest.map fun e => e.lexemes).flatMap fun more => Lexeme.comma :: more) ++ [.closing]) =
        ((rest.map fun e => widened e.lexemes).flatMap fun more => Lexeme.comma :: more) ++
          [.closing] := by
    intro rest
    induction rest with
    | nil => rfl
    | cons e rest ih =>
      rw [List.map_cons, List.map_cons, List.flatMap_cons, List.flatMap_cons, List.append_assoc,
        List.cons_append, widened, widened_append (phrase_lexemes e).last, ih, List.append_assoc]
      rfl
  cases args with
  | nil => rfl
  | cons e rest =>
    rw [List.map_cons, List.map_cons]
    unfold joined
    rw [List.append_assoc, widened_append (phrase_lexemes e).last, hmore, List.append_assoc]

theorem lexemes_widen (e : Expr) : e.widen.lexemes = widened e.lexemes := by
  induction e with
  | numeral n => rw [Expr.widen, Expr.lexemes]; rfl
  | name n => rw [Expr.widen, Expr.lexemes]; rfl
  | line r => rw [Expr.widen, Expr.lexemes]; rfl
  | group e ih =>
    rw [Expr.widen, Expr.lexemes, Expr.lexemes, ih, List.cons_append, List.cons_append, widened,
      widened_append (phrase_lexemes e).last]
    rfl
  | neg spaced e ih => rw [Expr.widen, Expr.lexemes, Expr.lexemes, ih, widened]; rfl
  | binary op l r ihl ihr =>
    rw [Expr.widen, Expr.lexemes, Expr.lexemes, ihl, ihr, widened_append (phrase_lexemes l).last]
    rfl
  | call f args ih =>
    have hargs : ((args.map fun e => e.widen).map fun e => e.lexemes) =
        args.map fun e => widened e.lexemes := by
      rw [List.map_map]
      exact List.map_congr_left ih
    rw [Expr.widen, Expr.lexemes, Expr.lexemes, hargs, List.cons_append, List.cons_append,
      List.cons_append, List.cons_append, widened, widened, widened_joined]
    rfl

end Lexemes

section Text

/-- What the operand after an operator begins with. -/
theorem startsWith_textOf {ls : List Lexeme} (h : ∀ a ∈ ls.head?, a.starts = true) :
    startsWith startsOperand ((textOf ls).dropWhile isBlank) = refersFirst ls := by
  cases ls with
  | nil => rfl
  | cons a ls =>
    have ha := h a rfl
    have hblank : ∀ c ∈ (textOf (a :: ls)).head?, isBlank c = false := by
      intro c hc
      rw [textOf_cons, List.head?_append_of_ne_nil _ a.text_ne_nil] at hc
      exact head_starts ha hc
    rw [dropWhile_of_head hblank, textOf_cons]
    cases a with
    | numeral n =>
      cases hn : n.text with
      | nil => exact absurd hn (numeral_text_ne_nil n)
      | cons c r =>
        have hc : startsOperand c = false := by
          have hmem : c ∈ n.text := by rw [hn]; exact List.mem_cons_self
          unfold startsOperand
          rw [isNameStart_numeral n c hmem, Bool.false_or, beq_eq_false_iff_ne]
          rintro rfl
          exact Scope.at_not_mem_numeral n hmem
        change startsWith startsOperand (n.text ++ textOf ls) = false
        rw [hn]
        exact hc
    | name n | callee n =>
      obtain ⟨c, r, hn, hc, _⟩ := n.exists_cons
      change startsWith startsOperand (n.chars ++ textOf ls) = true
      rw [hn]
      change startsOperand c = true
      unfold startsOperand
      rw [hc, Bool.true_or]
    | line r => rfl
    | opening => rfl
    | minus spaced => cases spaced <;> rfl
    | _ => exact absurd ha Bool.false_ne_true

theorem spaceBeforeNames_append {t : List Char} (ht : ∀ c ∈ t, isOperator c = false)
    (s : List Char) : spaceBeforeNames false (t ++ s) = t ++ spaceBeforeNames false s := by
  induction t with
  | nil => rfl
  | cons c t ih =>
    rw [List.cons_append, spaceBeforeNames, Bool.false_and, if_neg Bool.false_ne_true,
      ht c List.mem_cons_self, Bool.false_and, if_neg Bool.false_ne_true,
      ih fun d hd => ht d (List.mem_cons_of_mem c hd), List.cons_append]

/-- An operator, at most one space, and an operand. -/
theorem spaceBeforeNames_operator {c : Char} (hc : isOperator c = true) (spaced : Bool)
    {ls : List Lexeme} (h : ∀ a ∈ ls.head?, a.starts = true) :
    spaceBeforeNames false (c :: (if spaced then ' ' :: textOf ls else textOf ls)) =
      c :: (if spaced || refersFirst ls then ' ' :: spaceBeforeNames false (textOf ls)
        else spaceBeforeNames false (textOf ls)) := by
  have hblank : ∀ d ∈ (textOf ls).head?, isBlank d = false := by
    intro d hd
    cases ls with
    | nil => exact absurd hd (by simp [textOf_nil])
    | cons a ls =>
      rw [textOf_cons, List.head?_append_of_ne_nil _ a.text_ne_nil] at hd
      exact head_starts (h a rfl) hd
  have hdrop : (if spaced then ' ' :: textOf ls else textOf ls).dropWhile isBlank =
      (textOf ls).dropWhile isBlank := by
    cases spaced
    · rfl
    · exact List.dropWhile_cons_of_pos (by decide)
  rw [spaceBeforeNames, Bool.false_and, if_neg Bool.false_ne_true, hc, Bool.true_and, hdrop,
    startsWith_textOf h]
  cases hrefers : refersFirst ls with
  | true =>
    rw [if_pos rfl, Bool.or_true, if_pos rfl]
    cases spaced
    · rw [if_neg Bool.false_ne_true, spaceBeforeNames_true hblank]
    · rw [if_pos rfl, spaceBeforeNames, Bool.true_and, if_pos (by decide),
        spaceBeforeNames_true hblank]
  | false =>
    rw [if_neg Bool.false_ne_true, Bool.or_false]
    cases spaced
    · rfl
    · rw [if_pos rfl, if_pos rfl, spaceBeforeNames, Bool.false_and, if_neg Bool.false_ne_true,
        show isOperator ' ' = false by decide, Bool.false_and, if_neg Bool.false_ne_true]

/-- The step of the canonical form that changes the text of an expression. -/
theorem spaceBeforeNames_textOf {ls : List Lexeme} (h : Phrase ls) :
    spaceBeforeNames false (textOf ls) = textOf (widened ls) := by
  induction ls with
  | nil => rfl
  | cons a ls ih =>
    have hrest := ih h.tail
    have hnext : ∀ b ∈ ls.head?, Follows a b := (List.isChain_cons.mp h.chain).1
    have hsolid : (∀ c ∈ a.text, isOperator c = false) → widened (a :: ls) = a :: widened ls →
        spaceBeforeNames false (textOf (a :: ls)) = textOf (widened (a :: ls)) := by
      intro hop hwidened
      rw [textOf_cons, spaceBeforeNames_append hop, hrest, hwidened, textOf_cons]
    cases a with
    | numeral n => exact hsolid (fun c hc => (solid_numeral n c hc).2.2) rfl
    | name n | callee n =>
      exact hsolid (fun c hc => isOperator_of_isWord (n.isWord_of_mem hc)) rfl
    | line r =>
      refine hsolid (fun c hc => ?_) rfl
      rcases List.mem_cons.mp hc with rfl | hc
      · decide
      · exact isOperator_of_isWord (isWord_of_isDigit (r.all_digits c hc))
    | opening | closing | comma =>
      exact hsolid (List.all_iff_forall_prop.mp (by decide)) rfl
    | minus spaced =>
      have hminus := spaceBeforeNames_operator (c := '-') (by decide) spaced hnext
      rw [hrest] at hminus
      rw [widened, textOf_cons, textOf_cons]
      cases spaced <;> cases hr : refersFirst ls <;> rw [hr] at hminus <;> exact hminus
    | operator op =>
      have hop := spaceBeforeNames_operator (isOperator_symbol op) true hnext
      rw [hrest] at hop
      rw [widened, textOf_cons, textOf_cons]
      change spaceBeforeNames false ([' '] ++ op.symbol :: ' ' :: textOf ls) = _
      have hspace : ∀ c ∈ [' '], isOperator c = false :=
        List.all_iff_forall_prop.mp (by decide)
      rw [spaceBeforeNames_append hspace]
      exact congrArg ([' '] ++ ·) hop

/-- The text of an expression has no blank at its ends. -/
theorem trim_textOf (e : Expr) : trim (textOf e.lexemes) = textOf e.lexemes := by
  have hoperand := operand_lexemes e
  refine trim_eq (fun c hc => ?_) fun c hc => ?_
  · obtain ⟨d, r, hd, hblank⟩ := operand_text_cons hoperand
    rw [hd] at hc
    obtain rfl := Option.some.inj hc
    exact hblank
  · obtain ⟨z, hz, hends⟩ := hoperand.last
    obtain ⟨ls, hls⟩ := List.getLast?_eq_some_iff.mp hz
    rw [hls, textOf_append, textOf_cons, textOf_nil, List.append_nil,
      getLast?_append_of_ne_nil z.text_ne_nil] at hc
    exact (last_ends hends hc).2

/-- The canonical form of the text of an expression. -/
theorem canonical_textOf (e : Expr) : canonical (textOf e.lexemes) = textOf e.widen.lexemes := by
  have hplain := plain_textOf e.lexemes
  have htidy := tidy_textOf (phrase_lexemes e).chain
  have htidy' := tidy_textOf (phrase_lexemes e.widen).chain
  unfold canonical
  dsimp only
  rw [dropTags_eq (hplain.not_mem (by decide) (by decide)), trim_textOf, dropEquals_eq hplain,
    map_operatorOf hplain, dropCurrency_eq hplain, ungroup_eq htidy.adjacent,
    spaceAfterNames_eq htidy, spaceBeforeNames_textOf (phrase_lexemes e), ← lexemes_widen,
    collapseBlanks_eq htidy', trim_textOf]

end Text

section Widen

variable {table : FunctionTable} {scope : Scope}

theorem value_widen (e : Expr) : e.widen.value table scope = e.value table scope := by
  induction e with
  | numeral n => rw [Expr.widen]
  | name n => rw [Expr.widen]
  | line r => rw [Expr.widen]
  | group e ih => rw [Expr.widen, Expr.value, Expr.value, ih]
  | neg spaced e ih => rw [Expr.widen, Expr.value, Expr.value, ih]
  | binary op l r ihl ihr => rw [Expr.widen, Expr.value, Expr.value, ihl, ihr]
  | call f args ih =>
    have hargs : ((args.map fun e => e.widen).map fun e => e.value table scope) =
        args.map fun e => e.value table scope := by
      rw [List.map_map]
      exact List.map_congr_left ih
    rw [Expr.widen, Expr.value, Expr.value, hargs]

theorem nesting_widen (e : Expr) : e.widen.nesting = e.nesting := by
  induction e with
  | numeral n => rw [Expr.widen]
  | name n => rw [Expr.widen]
  | line r => rw [Expr.widen]
  | group e ih => rw [Expr.widen, Expr.nesting, Expr.nesting, ih]
  | neg spaced e ih => rw [Expr.widen, Expr.nesting, Expr.nesting, ih]
  | binary op l r ihl ihr => rw [Expr.widen, Expr.nesting, Expr.nesting, ihl, ihr]
  | call f args ih =>
    have hargs : ((args.map fun e => e.widen).map fun e => e.nesting) =
        args.map fun e => e.nesting := by
      rw [List.map_map]
      exact List.map_congr_left ih
    rw [Expr.widen, Expr.nesting, Expr.nesting, hargs]

theorem level_widen (e : Expr) : e.widen.level = e.level := by
  cases e with
  | numeral n => rw [Expr.widen]
  | name n => rw [Expr.widen]
  | line r => rw [Expr.widen]
  | _ => rw [Expr.widen]; rfl

theorem levelled_widen {e : Expr} (h : e.Levelled) : e.widen.Levelled := by
  induction h with
  | numeral n => rw [Expr.widen]; exact .numeral n
  | name n => rw [Expr.widen]; exact .name n
  | line r => rw [Expr.widen]; exact .line r
  | group _ ih => rw [Expr.widen]; exact .group ih
  | neg hlevel _ ih => rw [Expr.widen]; exact .neg (by rwa [level_widen]) ih
  | binary hleft hright _ _ ihl ihr =>
    rw [Expr.widen]
    exact .binary (by rwa [level_widen]) (by rwa [level_widen]) ihl ihr
  | call _ ih =>
    rw [Expr.widen]
    refine .call fun e he => ?_
    obtain ⟨a, ha, rfl⟩ := List.mem_map.mp he
    exact ih a ha

theorem closed_widened {ls : List Lexeme} (h : Closed scope ls) : Closed scope (widened ls) := by
  induction ls with
  | nil => exact h
  | cons a ls ih =>
    obtain ⟨ha, hls⟩ := closed_cons.mp h
    cases a with
    | minus spaced => exact closed_cons.mpr ⟨trivial, ih hls⟩
    | _ => exact closed_cons.mpr ⟨ha, ih hls⟩

end Widen

end Reckoner.Formula
