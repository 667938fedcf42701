import Reckoner.Proofs.Formula.Lexeme
import Reckoner.Proofs.Formula.Segments

/-!
Dressed texts of expressions. White space and markup may stand between the lexemes, and currency
signs before numerals; operators may be typographic signs, and outside the parentheses of calls the
digits of a numeral may be set in groups. The clean-up takes these away one after the other, so a
dress says which of them are still allowed.
-/
namespace Reckoner.Formula

open Text Number Arith

/-- What a text may have beside white space. -/
structure Dress where
  markup : Bool
  glyphs : Bool
  currency : Bool
  groups : Bool

namespace Dress

def full : Dress := ⟨true, true, true, true⟩

def bare : Dress := ⟨false, false, false, false⟩

end Dress

/-- What may stand in markup. -/
def Body (t : List Char) : Prop := ∀ c ∈ t, c ≠ '<' ∧ c ≠ '>' ∧ c ≠ '@'

/-- What stands between two lexemes. -/
inductive Filling (markup currency : Bool) : List Char → Prop
  | nil : Filling markup currency []
  | blank {c s} : isBlank c = true → Filling markup currency s → Filling markup currency (c :: s)
  | tag {body s} : markup = true → Body body → Filling markup currency s →
      Filling markup currency ('<' :: body ++ '>' :: s)
  | sign {c s} : currency = true → c ∈ currencySigns → Filling markup currency s →
      Filling markup currency (c :: s)

/-- The place of a lexeme: for each open parenthesis, the last one first, whether it encloses the
arguments of a call; and whether the name of a call stands right before. -/
structure Enclosure where
  calls : List Bool
  callee : Bool

namespace Enclosure

def start : Enclosure := ⟨[], false⟩

def insideCall (o : Enclosure) : Bool := o.calls.any id

def advance (o : Enclosure) : Lexeme → Enclosure
  | .callee _ => ⟨o.calls, true⟩
  | .opening => ⟨o.callee :: o.calls, false⟩
  | .closing => ⟨o.calls.tail, false⟩
  | _ => ⟨o.calls, false⟩

end Enclosure

/-- The typographic signs with the operators that they stand for. -/
def glyphs : List (Char × Char) := [('×', '*'), ('÷', '/'), ('−', '-')]

/-- How the sign of an operator may be written. -/
def SignOf (dress : Dress) (symbol c : Char) : Prop :=
  c = symbol ∨ dress.glyphs = true ∧ (c, symbol) ∈ glyphs

/-- One to three digits and then groups of three with a comma before each. -/
def Grouping (digits w : List Char) : Prop :=
  ∃ (head : List Char) (groups : List (List Char)), 1 ≤ head.length ∧ head.length ≤ 3 ∧
    groups ≠ [] ∧ (∀ g ∈ groups, g.length = 3) ∧ digits = head ++ groups.flatten ∧
    w = head ++ groups.flatMap fun g => ',' :: g

/-- The point of a numeral and the digits after it. -/
def numeralTail (n : Numeral) : List Char :=
  match n.fraction with
  | none => []
  | some f => '.' :: f

/-- How a lexeme may be written, apart from what stands around it. -/
inductive Spelling (dress : Dress) (insideCall : Bool) : Lexeme → List Char → Prop
  | numeral (n) : Spelling dress insideCall (.numeral n) n.text
  | grouped {n w} : dress.groups = true → insideCall = false → Grouping n.whole w →
      Spelling dress insideCall (.numeral n) (w ++ numeralTail n)
  | name (n) : Spelling dress insideCall (.name n) n.chars
  | line (r) : Spelling dress insideCall (.line r) ('@' :: r.digits)
  | callee (f) : Spelling dress insideCall (.callee f) f.chars
  | minus (spaced) {c} : SignOf dress '-' c → Spelling dress insideCall (.minus spaced) [c]
  | operator (op) {c} : SignOf dress op.symbol c → Spelling dress insideCall (.operator op) [c]
  | opening : Spelling dress insideCall .opening ['(']
  | closing : Spelling dress insideCall .closing [')']
  | comma : Spelling dress insideCall .comma [',']

def Lexeme.isNumeral : Lexeme → Bool
  | .numeral _ => true
  | _ => false

/-- What may stand before a lexeme; between the name of a call and its parenthesis only spaces. -/
def Gap (dress : Dress) (o : Enclosure) (a : Lexeme) (gap : List Char) : Prop :=
  if o.callee = true then ∀ c ∈ gap, c = ' '
  else Filling dress.markup (dress.currency && a.isNumeral) gap

/-- That a text is a dressed text of lexemes at a place. -/
inductive Dressed (dress : Dress) : Enclosure → List Lexeme → List Char → Prop
  | nil {o gap} : Filling dress.markup false gap → Dressed dress o [] gap
  | cons {o a ls gap w s} : Gap dress o a gap → Spelling dress o.insideCall a w →
      Dressed dress (o.advance a) ls s → Dressed dress o (a :: ls) (gap ++ (w ++ s))

/-- The dressed texts of an expression, whose parentheses stay as they are. One equals sign may
stand before the expression. -/
def Expr.Dressing (e : Expr) (s : List Char) : Prop :=
  Dressed .full .start e.lexemes s ∨
    ∃ before after, Filling true false before ∧ s = before ++ '=' :: after ∧
      Dressed .full .start e.lexemes after

section Filling

variable {markup currency : Bool} {gap s t : List Char} {c : Char}

theorem filling_blanks (h : ∀ c ∈ s, isBlank c = true) : Filling markup currency s := by
  induction s with
  | nil => exact .nil
  | cons c s ih =>
    exact .blank (h c List.mem_cons_self) (ih fun d hd => h d (List.mem_cons_of_mem c hd))

theorem Filling.mono (h : Filling markup false s) (currency : Bool) :
    Filling markup currency s := by
  induction h with
  | nil => exact .nil
  | blank hc _ ih => exact .blank hc ih
  | tag hmarkup hbody _ ih => exact .tag hmarkup hbody ih
  | sign hcurrency _ _ _ => exact absurd hcurrency Bool.false_ne_true

theorem isOperandChar_currency (h : c ∈ currencySigns) : isOperandChar c = false :=
  (commonMark (List.mem_append_right _ h)).1

theorem at_not_mem_currency : '@' ∉ currencySigns := by decide

theorem isBlank_at : isBlank '@' = false := by decide

theorem Filling.at_not_mem (h : Filling markup currency gap) : '@' ∉ gap := by
  induction h with
  | nil => exact List.not_mem_nil
  | @blank c s hc _ ih =>
    rintro (_ | ⟨_, hmem⟩)
    · rw [isBlank_at] at hc
      exact Bool.false_ne_true hc
    · exact ih hmem
  | @tag body s _ hbody _ ih =>
    intro hmem
    rcases List.mem_append.mp hmem with hmem | hmem
    · rcases List.mem_cons.mp hmem with hc | hmem
      · exact absurd hc (by decide)
      · exact (hbody '@' hmem).2.2 rfl
    · rcases List.mem_cons.mp hmem with hc | hmem
      · exact absurd hc (by decide)
      · exact ih hmem
  | @sign c s _ hc _ ih =>
    rintro (_ | ⟨_, hmem⟩)
    · exact at_not_mem_currency hc
    · exact ih hmem

/-- A filling begins and ends with no operand character. -/
theorem Filling.head (h : Filling markup currency gap) :
    ∀ c ∈ gap.head?, isOperandChar c = false := by
  intro c hc
  cases h with
  | nil => exact absurd hc (by simp)
  | blank hblank _ => exact Option.some.inj hc ▸ isOperandChar_of_isBlank hblank
  | tag _ _ _ =>
    obtain rfl := Option.some.inj hc
    decide
  | sign _ hsign _ => exact Option.some.inj hc ▸ isOperandChar_currency hsign

theorem forall_getLast?_cons {P : Char → Prop} (hc : P c) (hs : ∀ d ∈ s.getLast?, P d) :
    ∀ d ∈ (c :: s).getLast?, P d := by
  intro d hd
  rw [List.getLast?_cons] at hd
  cases hlast : s.getLast? with
  | none =>
    rw [hlast] at hd
    exact Option.some.inj hd ▸ hc
  | some e =>
    rw [hlast] at hd
    exact hs d (hlast ▸ hd)

theorem Filling.last (h : Filling markup currency gap) :
    ∀ c ∈ gap.getLast?, isOperandChar c = false := by
  induction h with
  | nil => exact fun c hc => absurd hc (by simp)
  | blank hblank _ ih => exact forall_getLast?_cons (isOperandChar_of_isBlank hblank) ih
  | @tag body s _ _ _ ih =>
    rw [getLast?_append_of_ne_nil (List.cons_ne_nil '>' s)]
    exact forall_getLast?_cons (by decide) ih
  | sign _ hsign _ ih => exact forall_getLast?_cons (isOperandChar_currency hsign) ih

end Filling

section Spelling

variable {dress : Dress} {inside : Bool} {o : Enclosure} {a b : Lexeme} {ls : List Lexeme}
  {gap w s : List Char} {c symbol : Char}

/-- Whether the lexeme is a single mark. -/
def Lexeme.isMark : Lexeme → Bool
  | .minus _ | .operator _ | .opening | .closing | .comma => true
  | _ => false

theorem SignOf.commonMark (h : SignOf dress symbol c) (hsymbol : symbol ∈ commonMarks) :
    c ∈ commonMarks := by
  rcases h with rfl | ⟨_, hmem⟩
  · exact hsymbol
  · have hall : ∀ p ∈ glyphs, p.1 ∈ commonMarks := List.all_iff_forall_prop.mp (by decide)
    exact hall _ hmem

theorem Spelling.mark (h : Spelling dress inside a w) (ha : a.isMark = true) :
    ∃ c ∈ commonMarks, w = [c] := by
  cases h with
  | minus _ hc => exact ⟨_, hc.commonMark (by decide), rfl⟩
  | operator op hc => exact ⟨_, hc.commonMark (symbol_commonMark op), rfl⟩
  | opening | closing | comma => exact ⟨_, by decide, rfl⟩
  | _ => exact absurd ha Bool.false_ne_true

theorem Grouping.mem {digits : List Char} (h : Grouping digits w) :
    ∀ c ∈ w, c ∈ digits ∨ c = ',' := by
  obtain ⟨head, groups, _, _, _, _, rfl, rfl⟩ := h
  intro c hc
  rcases List.mem_append.mp hc with hc | hc
  · exact Or.inl (List.mem_append_left _ hc)
  · obtain ⟨g, hg, hc⟩ := List.mem_flatMap.mp hc
    rcases List.mem_cons.mp hc with rfl | hc
    · exact Or.inr rfl
    · exact Or.inl (List.mem_append_right _ (List.mem_flatten.mpr ⟨g, hg, hc⟩))

theorem numeral_text_eq (n : Numeral) : n.text = n.whole ++ numeralTail n := by
  unfold Numeral.text numeralTail
  cases n.fraction with
  | none => exact (List.append_nil _).symm
  | some f => rfl

theorem Spelling.numeral_mem {n : Numeral} (h : Spelling dress inside (.numeral n) w) :
    ∀ c ∈ w, isDigit c = true ∨ c = '.' ∨ c = ',' := by
  have htext : ∀ c ∈ n.text, isDigit c = true ∨ c = '.' ∨ c = ',' :=
    fun c hc => (mem_numeral_text hc).imp_right Or.inl
  rw [numeral_text_eq] at htext
  intro c hc
  cases h with
  | numeral =>
    rw [numeral_text_eq] at hc
    exact htext c hc
  | grouped _ _ hgrouping =>
    rcases List.mem_append.mp hc with hc | hc
    · rcases hgrouping.mem c hc with hc | rfl
      · exact Or.inl (n.whole_digits c hc)
      · exact Or.inr (Or.inr rfl)
    · exact htext c (List.mem_append_right _ hc)

/-- After a word comes a mark, and also after a closing parenthesis. -/
theorem Follows.isMark (h : Follows a b) (ha : a.isMark = false ∨ a = .closing) :
    b.isMark = true := by
  have hjoins : b.joins = true → b.isMark = true := by cases b <;> simp [Lexeme.joins, Lexeme.isMark]
  cases a with
  | numeral n | name n | line r | closing => exact hjoins h
  | callee f =>
    obtain rfl : b = .opening := h
    rfl
  | _ => exact absurd ha (by simp [Lexeme.isMark])

/-- What comes after the name of a call. -/
theorem head_of_callee (hls : Phrase (a :: ls)) (h : (o.advance a).callee = true) :
    ls.head? = some .opening := by
  cases a with
  | callee f =>
    obtain ⟨rest, rfl⟩ := hls.callee
    rfl
  | _ => exact absurd h Bool.false_ne_true

theorem Gap.head (h : Gap dress o a gap) : ∀ c ∈ gap.head?, isOperandChar c = false := by
  unfold Gap at h
  split at h
  · intro c hc
    rw [h c (List.mem_of_mem_head? hc)]
    decide
  · exact h.head

theorem Gap.last (h : Gap dress o a gap) : ∀ c ∈ gap.getLast?, isOperandChar c = false := by
  unfold Gap at h
  split at h
  · intro c hc
    rw [h c (List.mem_of_getLast? hc)]
    decide
  · exact h.last

theorem startsWith_append_of_head {p : Char → Bool} (hgap : ∀ c ∈ gap.head?, p c = false)
    (hs : startsWith p s = false) : startsWith p (gap ++ s) = false := by
  cases gap with
  | nil => exact hs
  | cons c gap => exact hgap c rfl

/-- A dressed text in which a mark comes next does not go on with a word. -/
theorem Dressed.stops (h : Dressed dress o ls s) (hls : ∀ a ∈ ls.head?, a.isMark = true) :
    startsWith isOperandChar s = false := by
  cases h with
  | nil hgap =>
    have hempty := startsWith_append_of_head hgap.head (s := []) rfl
    rwa [List.append_nil] at hempty
  | @cons _ a ls _ w s hgap hw _ =>
    obtain ⟨c, hc, rfl⟩ := hw.mark (hls a rfl)
    exact startsWith_append_of_head hgap.head (Reckoner.Formula.commonMark hc).1

end Spelling

end Reckoner.Formula
