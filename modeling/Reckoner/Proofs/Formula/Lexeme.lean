import Mathlib.Data.List.Chain
import Reckoner.Proofs.Formula.Expression
import Reckoner.Proofs.Text.Classes

/-!
Which lexemes can stand next to each other in the text of an expression, and which characters
therefore meet. After a complete operand comes the end of the text, a closing parenthesis, a comma
or an operator; an operand starts at the beginning of the text or after a space, a parenthesis or
a minus sign.
-/
namespace Reckoner.Formula

open Text Number Arith

namespace Lexeme

/-- Whether an operand may start with the lexeme. -/
def starts : Lexeme → Bool
  | operator _ | closing | comma => false
  | _ => true

/-- Whether a complete operand may end with the lexeme. -/
def ends : Lexeme → Bool
  | numeral _ | name _ | line _ | closing => true
  | _ => false

/-- Whether the lexeme may come after a complete operand. -/
def joins : Lexeme → Bool
  | operator _ | closing | comma => true
  | _ => false

end Lexeme

/-- Whether the second lexeme may come right after the first. -/
def Follows (a b : Lexeme) : Prop :=
  match a with
  | .callee _ => b = .opening
  | .opening => b.starts = true ∨ b = .closing
  | .minus _ | .operator _ | .comma => b.starts = true
  | _ => b.joins = true

/-- Lexemes of a complete operand. -/
structure Operand (ls : List Lexeme) : Prop where
  chain : ls.IsChain Follows
  head : ∃ a, ls.head? = some a ∧ a.starts = true
  last : ∃ z, ls.getLast? = some z ∧ z.ends = true

section Operand

variable {ls ms : List Lexeme}

theorem Operand.ne_nil (h : Operand ls) : ls ≠ [] := by
  rintro rfl
  obtain ⟨a, ha, _⟩ := h.head
  exact absurd ha (by simp)

theorem follows_of_ends {z b : Lexeme} (hz : z.ends = true) (hb : b.joins = true) :
    Follows z b := by
  cases z with
  | numeral n | name n | line r | closing => exact hb
  | _ => exact absurd hz Bool.false_ne_true

theorem operand_singleton {a : Lexeme} (hs : a.starts = true) (he : a.ends = true) :
    Operand [a] :=
  ⟨List.isChain_singleton a, ⟨a, rfl, hs⟩, ⟨a, rfl, he⟩⟩

/-- Something that joins operands, and then an operand. -/
theorem Operand.join (h : Operand ls) {b : Lexeme} (hb : b.joins = true) (hms : ms.IsChain Follows)
    (hnext : ∀ y ∈ ms.head?, Follows b y) : (ls ++ b :: ms).IsChain Follows := by
  obtain ⟨z, hz, hends⟩ := h.last
  refine List.isChain_append.mpr ⟨h.chain, List.isChain_cons.mpr ⟨hnext, hms⟩, ?_⟩
  intro x hx y hy
  rw [hz] at hx
  obtain rfl := Option.some.inj hx
  obtain rfl := Option.some.inj hy
  exact follows_of_ends hends hb

theorem Operand.head_starts (h : Operand ls) : ∀ y ∈ ls.head?, y.starts = true := by
  obtain ⟨a, ha, hstarts⟩ := h.head
  intro y hy
  rw [ha] at hy
  obtain rfl := Option.some.inj hy
  exact hstarts

theorem Operand.head_append (h : Operand ls) : (ls ++ ms).head? = ls.head? := by
  obtain ⟨a, ha, _⟩ := h.head
  rw [List.head?_append, ha]
  rfl

theorem getLast?_append_of_ne_nil {α : Type} {l m : List α} (hm : m ≠ []) :
    (l ++ m).getLast? = m.getLast? := by
  rw [List.getLast?_append, List.getLast?_eq_some_getLast hm]
  rfl

/-- The arguments of a call up to its closing parenthesis. -/
theorem chain_arguments {args : List (List Lexeme)} (h : ∀ ls ∈ args, Operand ls) :
    (joined args ++ [Lexeme.closing]).IsChain Follows ∧
      ∀ y ∈ (joined args ++ [Lexeme.closing]).head?, y.starts = true ∨ y = .closing := by
  have hmore : ∀ {ls : List Lexeme} {rest : List (List Lexeme)}, Operand ls →
      (∀ ms ∈ rest, Operand ms) →
      (ls ++ (rest.flatMap fun more => Lexeme.comma :: more) ++ [Lexeme.closing]).IsChain
        Follows := by
    intro ls rest hls hrest
    induction rest generalizing ls with
    | nil =>
      rw [List.flatMap_nil, List.append_nil]
      exact hls.join rfl List.IsChain.nil (by simp)
    | cons ms rest ih =>
      have hms := hrest ms List.mem_cons_self
      have htail := ih hms fun ns hns => hrest ns (List.mem_cons_of_mem ms hns)
      rw [List.flatMap_cons, List.append_assoc, List.append_assoc]
      rw [List.append_assoc] at htail
      refine hls.join rfl htail fun y hy => ?_
      exact hms.head_starts y (hms.head_append ▸ hy)
  cases args with
  | nil => exact ⟨List.isChain_singleton _, fun y hy => Or.inr (Option.some.inj hy).symm⟩
  | cons ls rest =>
    have hls := h ls List.mem_cons_self
    refine ⟨hmore hls fun ms hms => h ms (List.mem_cons_of_mem ls hms), fun y hy => Or.inl ?_⟩
    unfold joined at hy
    rw [List.append_assoc, hls.head_append] at hy
    exact hls.head_starts y hy

/-- The lexemes of an expression are those of an operand. -/
theorem operand_lexemes (e : Expr) : Operand e.lexemes := by
  induction e with
  | numeral n => rw [Expr.lexemes]; exact operand_singleton rfl rfl
  | name n => rw [Expr.lexemes]; exact operand_singleton rfl rfl
  | line r => rw [Expr.lexemes]; exact operand_singleton rfl rfl
  | group e ih =>
    rw [Expr.lexemes]
    have hinner := ih.join (b := .closing) rfl List.IsChain.nil (by simp)
    refine ⟨List.isChain_cons.mpr ⟨fun y hy => ?_, hinner⟩, ⟨_, rfl, rfl⟩, ⟨.closing, ?_, rfl⟩⟩
    · exact Or.inl (ih.head_starts y (ih.head_append ▸ hy))
    · exact List.getLast?_concat
  | neg spaced e ih =>
    rw [Expr.lexemes]
    obtain ⟨z, hz, hends⟩ := ih.last
    refine ⟨List.isChain_cons.mpr ⟨ih.head_starts, ih.chain⟩, ⟨_, rfl, rfl⟩, ⟨z, ?_, hends⟩⟩
    rw [List.getLast?_cons, hz]
    rfl
  | binary op l r ihl ihr =>
    rw [Expr.lexemes]
    obtain ⟨a, ha, hstarts⟩ := ihl.head
    obtain ⟨z, hz, hends⟩ := ihr.last
    refine ⟨ihl.join rfl ihr.chain ihr.head_starts, ⟨a, ?_, hstarts⟩, ⟨z, ?_, hends⟩⟩
    · rw [ihl.head_append, ha]
    · rw [getLast?_append_of_ne_nil (by simp), List.getLast?_cons, hz]
      rfl
  | call f args ih =>
    rw [Expr.lexemes]
    have hoperands : ∀ ls ∈ args.map fun e => e.lexemes, Operand ls := by
      intro ls hls
      obtain ⟨e, he, rfl⟩ := List.mem_map.mp hls
      exact ih e he
    obtain ⟨hchain, hhead⟩ := chain_arguments hoperands
    refine ⟨?_, ⟨_, rfl, rfl⟩, ⟨.closing, ?_, rfl⟩⟩
    · exact List.isChain_cons.mpr ⟨fun y hy => (Option.some.inj hy).symm,
        List.isChain_cons.mpr ⟨hhead, hchain⟩⟩
    · exact List.getLast?_concat

/-- Lexemes of the rest of an operand. -/
structure Phrase (ls : List Lexeme) : Prop where
  chain : ls.IsChain Follows
  last : ∀ z ∈ ls.getLast?, z.ends = true

theorem Operand.phrase (h : Operand ls) : Phrase ls := by
  obtain ⟨z, hz, hends⟩ := h.last
  refine ⟨h.chain, fun y hy => ?_⟩
  rw [hz] at hy
  obtain rfl := Option.some.inj hy
  exact hends

theorem Phrase.tail {a : Lexeme} (h : Phrase (a :: ls)) : Phrase ls := by
  refine ⟨(List.isChain_cons.mp h.chain).2, fun z hz => h.last z ?_⟩
  rw [List.getLast?_cons, hz]
  rfl

/-- The name of a call is followed by a parenthesis. -/
theorem Phrase.callee {f : Name} (h : Phrase (.callee f :: ls)) :
    ∃ rest, ls = .opening :: rest := by
  cases ls with
  | nil => exact absurd (h.last _ rfl) Bool.false_ne_true
  | cons b rest =>
    obtain rfl : b = .opening := (List.isChain_cons_cons.mp h.chain).1
    exact ⟨rest, rfl⟩

theorem phrase_lexemes (e : Expr) : Phrase e.lexemes := (operand_lexemes e).phrase

end Operand

section Characters

theorem textOf_cons (a : Lexeme) (ls : List Lexeme) : textOf (a :: ls) = a.text ++ textOf ls :=
  List.flatMap_cons

theorem textOf_append (ls ms : List Lexeme) : textOf (ls ++ ms) = textOf ls ++ textOf ms :=
  List.flatMap_append

theorem textOf_nil : textOf [] = [] := rfl

theorem Name.exists_cons (n : Name) :
    ∃ c r, n.chars = c :: r ∧ isNameStart c = true ∧ ∀ d ∈ c :: r, isWord d = true := by
  obtain ⟨chars, h⟩ := n
  cases chars with
  | nil => exact absurd h (by decide)
  | cons c r =>
    obtain ⟨hc, hr⟩ := Bool.and_eq_true_iff.mp h
    refine ⟨c, r, rfl, hc, fun d hd => ?_⟩
    rcases List.mem_cons.mp hd with rfl | hd
    · exact isWord_of_isNameStart hc
    · exact List.all_eq_true.mp hr d hd

theorem Name.isWord_of_mem (n : Name) {c : Char} (h : c ∈ n.chars) : isWord c = true := by
  obtain ⟨d, r, hn, _, hall⟩ := n.exists_cons
  exact hall c (hn ▸ h)

theorem Lexeme.text_ne_nil (a : Lexeme) : a.text ≠ [] := by
  cases a with
  | numeral n => exact numeral_text_ne_nil n
  | name n | callee n =>
    obtain ⟨c, r, hn, _⟩ := n.exists_cons
    change n.chars ≠ []
    rw [hn]
    exact List.cons_ne_nil c r
  | minus spaced => cases spaced <;> exact List.cons_ne_nil _ _
  | _ => exact List.cons_ne_nil _ _

/-- The texts that may follow a complete operand. -/
inductive Boundary : List Char → Prop
  | nil : Boundary []
  | closing (r) : Boundary (')' :: r)
  | comma (r) : Boundary (',' :: ' ' :: r)
  | operator (op : Op) (r) : Boundary (' ' :: op.symbol :: r)

theorem Phrase.boundary {a : Lexeme} {ls : List Lexeme} (h : Phrase (a :: ls))
    (ha : a.ends = true) : Boundary (textOf ls) := by
  cases ls with
  | nil => exact .nil
  | cons b ls =>
    have hb : b.joins = true := by
      have hfollows := (List.isChain_cons_cons.mp h.chain).1
      cases a with
      | numeral n | name n | line r | closing => exact hfollows
      | _ => exact absurd ha Bool.false_ne_true
    rw [textOf_cons]
    cases b with
    | closing => exact .closing _
    | comma => exact .comma _
    | operator op => exact .operator op _
    | _ => exact absurd hb Bool.false_ne_true

theorem Boundary.head_mem_marks {s : List Char} (h : Boundary s) : ∀ c ∈ s.head?, c ∈ marks := by
  intro c hc
  cases h with
  | nil => exact absurd hc (by simp)
  | closing r => obtain rfl := Option.some.inj hc; decide
  | comma r => obtain rfl := Option.some.inj hc; decide
  | operator op r => obtain rfl := Option.some.inj hc; decide

theorem Boundary.head_not_word {s : List Char} (h : Boundary s) :
    ∀ c ∈ s.head?, isWord c = false := fun c hc => isWord_of_mem_marks (h.head_mem_marks c hc)

theorem Boundary.head_not_digit {s : List Char} (h : Boundary s) :
    ∀ c ∈ s.head?, isDigit c = false := by
  intro c hc
  rw [Bool.eq_false_iff]
  intro hdigit
  exact not_mem_marks (isWord_of_isDigit hdigit) (h.head_mem_marks c hc)

theorem Boundary.head_ne_point {s : List Char} (h : Boundary s) : ∀ c ∈ s.head?, c ≠ '.' := by
  intro c hc
  cases h with
  | nil => exact absurd hc (by simp)
  | _ => obtain rfl := Option.some.inj hc; decide

/-- No parenthesis follows, with or without blanks before it. -/
theorem Boundary.head_not_opening {s : List Char} (h : Boundary s) :
    ∀ c ∈ (s.dropWhile isBlank).head?, c ≠ '(' := by
  intro c hc
  cases h with
  | nil => exact absurd hc (by simp)
  | closing r =>
    rw [List.dropWhile_cons_of_neg (by decide)] at hc
    obtain rfl := Option.some.inj hc
    decide
  | comma r =>
    rw [List.dropWhile_cons_of_neg (by decide)] at hc
    obtain rfl := Option.some.inj hc
    decide
  | operator op r =>
    rw [List.dropWhile_cons_of_pos (by decide), List.dropWhile_cons_of_neg (by cases op <;> decide)]
      at hc
    obtain rfl := Option.some.inj hc
    cases op <;> decide

/-- The characters after which an operand may start. -/
def Fresh (last : Option Char) : Prop := ∀ c ∈ last, c = ' ' ∨ c = '(' ∨ c = '-'

theorem fresh_none : Fresh none := fun c hc => absurd hc (by simp)

/-- Whether the lexeme starts with a name. -/
def Lexeme.named : Lexeme → Bool
  | .name _ | .callee _ => true
  | _ => false

theorem fresh_of_follows {a b : Lexeme} (h : Follows a b) (hb : b.named = true) :
    Fresh a.text.getLast? := by
  have hjoins : ¬ b.joins = true := by
    cases b with
    | name n | callee n => exact Bool.false_ne_true
    | _ => exact absurd hb Bool.false_ne_true
  intro c hc
  cases a with
  | numeral n | name n | line r | closing => exact absurd h hjoins
  | callee f =>
    obtain rfl : b = .opening := h
    exact absurd hb Bool.false_ne_true
  | minus spaced =>
    cases spaced
    · exact Or.inr (Or.inr (Option.some.inj hc).symm)
    · exact Or.inl (Option.some.inj hc).symm
  | operator op => exact Or.inl (Option.some.inj hc).symm
  | opening => exact Or.inr (Or.inl (Option.some.inj hc).symm)
  | comma => exact Or.inl (Option.some.inj hc).symm

theorem isNameStart_numeral (n : Numeral) : ∀ c ∈ n.text, isNameStart c = false := by
  intro c hc
  rcases mem_numeral_text hc with hdigit | rfl
  · exact isNameStart_of_isDigit hdigit
  · decide

/-- Names and names of calls are the only lexemes in which a name can start. -/
theorem isNameStart_of_not_named {a : Lexeme} (h : a.named = false) :
    ∀ c ∈ a.text, isNameStart c = false := by
  cases a with
  | name n | callee n => exact absurd h.symm Bool.false_ne_true
  | numeral n => exact isNameStart_numeral n
  | line r =>
    refine List.forall_mem_cons.mpr ⟨by decide, fun c hc => ?_⟩
    exact isNameStart_of_isDigit (r.all_digits c hc)
  | minus spaced => cases spaced <;> exact List.all_iff_forall_prop.mp (by decide)
  | operator op => cases op <;> exact List.all_iff_forall_prop.mp (by decide)
  | opening | closing | comma => exact List.all_iff_forall_prop.mp (by decide)

end Characters

end Reckoner.Formula
