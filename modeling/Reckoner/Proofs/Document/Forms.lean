import Reckoner.Document.Line
import Reckoner.Proofs.Formula.CanonicalText
import Reckoner.Proofs.Text.Spans

/-!
How each form of a line is written. A name or a label, a separator and an expression may have any
white space between them and around them. The forms are tried one after the other, and an
expression may itself hold separators; but a line is cut at its first separator, so what stands
before it decides. Every written form is recognised, with its name, label and expression as they
were written.
-/
namespace Reckoner.Document

open Text Number Arith Formula

def Blanks (s : List Char) : Prop := ∀ c ∈ s, isBlank c = true

/-- A trimmed text, not empty, without markup. -/
structure Solid (s : List Char) : Prop where
  visible : s ≠ []
  trimmed : trim s = s
  no_markup : '<' ∉ s

/-- A text that can stand after a separator, to the end of the line. -/
structure OnLine (s : List Char) : Prop extends Solid s where
  no_break : '\n' ∉ s

/-- A text that can stand before the first separator of a line. -/
structure Unseparated (s : List Char) : Prop extends Solid s where
  no_separator : ∀ c ∈ s, isSeparator c = false

/-- Whether an expression is more than a name in parentheses: it has a numeral, a line reference, an
operator or a call. -/
def Calculates : Expr → Prop
  | .name _ => False
  | .group e => Calculates e
  | _ => True

/-- The ways to write a form, with white space around the separator. -/
inductive WrittenAs : Form → List Char → Prop
  | assignment {n e a b : List Char} (hn : isIdentifier n = true) (he : OnLine e) (ha : Blanks a)
      (hb : Blanks b) : WrittenAs (.assignment n e) (n ++ a ++ '=' :: (b ++ e))
  | colon {l e a b : List Char} (hl : Unseparated l) (he : OnLine e) (ha : Blanks a)
      (hb : Blanks b) : WrittenAs (.labeled l e) (l ++ a ++ ':' :: (b ++ e))
  | equals {l e a b : List Char} (hl : Unseparated l) (hname : isIdentifier l = false)
      (he : OnLine e) (ha : Blanks a) (hb : Blanks b) :
      WrittenAs (.labeled l e) (l ++ a ++ '=' :: (b ++ e))
  | leading {e b : List Char} (he : OnLine e) (hb : Blanks b) :
      WrittenAs (.plain e) ('=' :: (b ++ e))
  | trailing {e a : List Char} (he : Unseparated e) (ha : Blanks a) :
      WrittenAs (.plain e) (e ++ a ++ ['='])
  | alone {e : Expr} (he : Calculates e) : WrittenAs (.plain e.text) e.text

section Solid

variable {s a b e : List Char}

theorem Solid.trimLeft_eq (h : Solid s) : trimLeft s = s := by
  have htrim : trimLeft (trimRight s) = s := (trimLeft_trimRight s).trans h.trimmed
  calc
    trimLeft s = trimLeft (trimLeft (trimRight s)) := by rw [htrim]
    _ = trimLeft (trimRight s) := List.dropWhile_idempotent isBlank _
    _ = s := htrim

theorem Solid.trimRight_eq (h : Solid s) : trimRight s = s := by
  have htrim : trimRight (trimLeft s) = s := h.trimmed
  rwa [h.trimLeft_eq] at htrim

theorem Solid.head_not_blank (h : Solid s) : ∀ c ∈ s.head?, isBlank c = false := by
  have hhead := head_dropWhile isBlank s
  have hleft : s.dropWhile isBlank = s := h.trimLeft_eq
  rwa [hleft] at hhead

theorem Solid.last_not_blank (h : Solid s) : ∀ c ∈ s.getLast?, isBlank c = false := by
  have hhead := head_dropWhile isBlank s.reverse
  have hright : s.reverse.dropWhile isBlank = s.reverse := by
    rw [← List.reverse_inj, List.reverse_reverse]
    exact h.trimRight_eq
  rwa [hright, List.head?_reverse] at hhead

/-- Blanks after a text go with what is trimmed. -/
theorem Solid.trimRight_append (h : Solid s) (ha : Blanks a) : trimRight (s ++ a) = s := by
  rw [Text.trimRight_append ha, h.trimRight_eq]

theorem blanks_nil : Blanks [] := fun _ h => absurd h List.not_mem_nil

theorem isSeparator_eq_false {p : Char → Bool} {c : Char} (h : p c = true) (hcolon : p ':' = false)
    (hequals : p '=' = false) : isSeparator c = false := by
  unfold isSeparator
  rw [Bool.or_eq_false_iff, beq_eq_false_iff_ne, beq_eq_false_iff_ne]
  constructor
  · rintro rfl
    exact Bool.false_ne_true (hcolon.symm.trans h)
  · rintro rfl
    exact Bool.false_ne_true (hequals.symm.trans h)

theorem Blanks.no_separator (ha : Blanks a) : ∀ c ∈ a, isSeparator c = false :=
  fun c hc => isSeparator_eq_false (ha c hc) (by decide) (by decide)

theorem Blanks.no_markup (ha : Blanks a) : '<' ∉ a := fun h => absurd (ha _ h) (by decide)

/-- What comes after a separator is the expression as it is written. -/
theorem restOfLine_eq (he : OnLine e) (hb : Blanks b) : restOfLine (b ++ e) = some e := by
  have hleft : trimLeft (b ++ e) = e := (trimLeft_append hb e).trans he.trimLeft_eq
  have hbreak : e.contains '\n' = false := by
    rw [Bool.eq_false_iff, ne_eq, List.contains_iff_mem]
    exact he.no_break
  have hempty : e.isEmpty = false := by
    rw [Bool.eq_false_iff, ne_eq, List.isEmpty_iff]
    exact he.visible
  unfold restOfLine
  dsimp only
  rw [hleft, hempty, hbreak]
  rfl

theorem isSeparator_of_isWord {c : Char} (h : isWord c = true) : isSeparator c = false :=
  isSeparator_eq_false h (by decide) (by decide)

/-- An identifier can stand before a separator. -/
theorem unseparated_identifier (h : isIdentifier s = true) : Unseparated s := by
  have hword := Scope.isWord_of_identifier h
  have hblank : ∀ c ∈ s, isBlank c = false := fun c hc => isBlank_of_isWord (hword c hc)
  have hne : ∀ c : Char, isWord c = false → c ∉ s := fun c hc hmem =>
    absurd ((hword c hmem).symm.trans hc) (by decide)
  refine ⟨⟨?_, trim_eq ?_ ?_, hne '<' (by decide)⟩, fun c hc => isSeparator_of_isWord (hword c hc)⟩
  · rintro rfl
    exact absurd h (by decide)
  · exact fun c hc => hblank c (List.mem_of_mem_head? hc)
  · exact fun c hc => hblank c (List.mem_of_mem_getLast? hc)

end Solid

section Separator

variable {s l a r : List Char} {c : Char} {form : Form}

/-- A line is cut at its first separator. -/
theorem cut_at_separator (hl : ∀ c ∈ l, isSeparator c = false) (ha : Blanks a)
    (hc : isSeparator c = true) :
    (l ++ a ++ c :: r).takeWhile (!isSeparator ·) = l ++ a ∧
      (l ++ a ++ c :: r).dropWhile (!isSeparator ·) = c :: r := by
  have hbefore : ∀ d ∈ l ++ a, (!isSeparator d) = true := by
    intro d hd
    rw [Bool.not_eq_true']
    exact (List.mem_append.mp hd).elim (hl d) (ha.no_separator d)
  have hstop : ∀ d ∈ (c :: r).head?, (!isSeparator d) = false := by
    intro d hd
    obtain rfl := Option.some.inj hd
    rw [hc]
    rfl
  exact ⟨takeWhile_append_stop hbefore hstop, dropWhile_append_stop hbefore hstop⟩

/-- What an assignment consists of. -/
theorem exists_of_assignment? (h : assignment? s = some form) : ∃ n a r,
    s = n ++ a ++ '=' :: r ∧ isIdentifier n = true ∧ Blanks a ∧ restOfLine r ≠ none := by
  unfold assignment? at h
  dsimp only at h
  split at h
  · rename_i r hrest
    split at h
    · rename_i hn
      obtain ⟨e, he, _⟩ := Option.map_eq_some_iff.mp h
      refine ⟨s.takeWhile isWord, (s.dropWhile isWord).takeWhile isBlank, r, ?_, hn,
        fun c hc => List.mem_takeWhile_imp hc, fun hnone => ?_⟩
      · rw [List.append_assoc, ← hrest]
        unfold trimLeft
        rw [List.takeWhile_append_dropWhile, List.takeWhile_append_dropWhile]
      · exact absurd (hnone.symm.trans he) (by simp)
    · exact absurd h (by simp)
  · exact absurd h (by simp)

/-- A label is no assigned name, unless it is an identifier before an equals sign and something
follows. -/
theorem assignment?_of_unseparated (hl : Unseparated l) (ha : Blanks a) (hc : isSeparator c = true)
    (h : c = '=' → isIdentifier l = true → restOfLine r = none) :
    assignment? (l ++ a ++ c :: r) = none := by
  cases hform : assignment? (l ++ a ++ c :: r) with
  | none => rfl
  | some form =>
    obtain ⟨n, a', r', hs, hn, ha', hr'⟩ := exists_of_assignment? hform
    have hname := unseparated_identifier hn
    have hleft := cut_at_separator (r := r) hl.no_separator ha hc
    have hright := cut_at_separator (r := r') hname.no_separator ha' (c := '=') (by decide)
    rw [hs] at hleft
    obtain ⟨hcut, hsame⟩ := hleft
    rw [hright.1] at hcut
    rw [hright.2] at hsame
    obtain ⟨rfl, rfl⟩ := List.cons.inj hsame
    have hidentifier : isIdentifier l = true := by
      rwa [← hl.trimRight_append ha, ← hcut, hname.trimRight_append ha']
    exact absurd (h rfl hidentifier) hr'

theorem assignment?_of_no_equals (h : '=' ∉ s) : assignment? s = none := by
  cases hform : assignment? s with
  | none => rfl
  | some form =>
    obtain ⟨n, a, r, rfl, _⟩ := exists_of_assignment? hform
    exact absurd (List.mem_append_right _ List.mem_cons_self) h

theorem labeled?_eq (hl : Unseparated l) (ha : Blanks a) (hc : isSeparator c = true)
    (hname : c = '=' → isIdentifier l = false) :
    labeled? (l ++ a ++ c :: r) = (restOfLine r).map (.labeled l) := by
  obtain ⟨htake, hdrop⟩ := cut_at_separator (r := r) hl.no_separator ha hc
  have hvisible : (l ++ a).isEmpty = false := by
    rw [Bool.eq_false_iff, ne_eq, List.isEmpty_iff]
    exact List.append_ne_nil_of_left_ne_nil hl.visible a
  have hnone : (c == '=' && isIdentifier l) = false := by
    rw [Bool.and_eq_false_imp]
    exact fun hequals => hname (eq_of_beq hequals)
  unfold labeled?
  dsimp only
  rw [htake, hdrop]
  dsimp only
  rw [hl.trimRight_append ha, hvisible, hnone]
  rfl

/-- Nothing is labeled when nothing comes after the first separator. -/
theorem labeled?_eq_none (hl : ∀ c ∈ l, isSeparator c = false) (ha : Blanks a)
    (hc : isSeparator c = true) (hr : restOfLine r = none) :
    labeled? (l ++ a ++ c :: r) = none := by
  obtain ⟨htake, hdrop⟩ := cut_at_separator (r := r) hl ha hc
  unfold labeled?
  dsimp only
  rw [htake, hdrop]
  dsimp only
  rw [hr]
  split <;> rfl

theorem labeled?_of_no_separator (h : ∀ c ∈ s, isSeparator c = false) : labeled? s = none := by
  have hdrop : s.dropWhile (!isSeparator ·) = [] := by
    rw [List.dropWhile_eq_nil_iff]
    intro c hc
    rw [h c hc]
    rfl
  unfold labeled?
  dsimp only
  rw [hdrop]

theorem leadingEquals?_eq_none (h : ∀ c ∈ s.head?, c ≠ '=') : leadingEquals? s = none := by
  cases s with
  | nil => rfl
  | cons c r =>
    unfold leadingEquals?
    split
    · rename_i heq
      exact absurd (List.cons.inj heq).1 (h c rfl)
    · rfl

end Separator

section Alone

theorem hasCalculation_append {s : List Char} (h : hasCalculation s = true) (t : List Char) :
    hasCalculation (t ++ s) = true := by
  induction t with
  | nil => exact h
  | cons c t ih => rw [List.cons_append, hasCalculation, ih, Bool.or_true]

theorem hasCalculation_of_mem {s : List Char} {c : Char} (hc : c ∈ s) (h : isCalculation c = true) :
    hasCalculation s = true := by
  obtain ⟨t, r, rfl⟩ := List.append_of_mem hc
  refine hasCalculation_append ?_ t
  rw [hasCalculation, h, Bool.true_or, Bool.true_or]

theorem exists_digit (n : Numeral) : ∃ c ∈ n.text, isDigit c = true := by
  obtain ⟨whole, fraction, hw, hf, hne⟩ := n
  obtain ⟨c, hc⟩ := List.exists_mem_of_ne_nil _ hne
  cases fraction with
  | none =>
    rw [Option.getD_none, List.append_nil] at hc
    exact ⟨c, hc, hw c hc⟩
  | some f =>
    rcases List.mem_append.mp hc with hc | hc
    · exact ⟨c, List.mem_append_left _ hc, hw c hc⟩
    · exact ⟨c, List.mem_append_right _ (List.mem_cons_of_mem _ hc), hf c hc⟩

theorem isCalculation_of_isDigit {c : Char} (h : isDigit c = true) : isCalculation c = true := by
  unfold isCalculation
  rw [h, Bool.true_or, Bool.true_or, Bool.true_or]

theorem isCalculation_symbol (op : Op) : isCalculation op.symbol = true := by
  cases op <;> decide

/-- The name of a call with the parenthesis after it is something to calculate. -/
theorem hasCalculation_callee (f : Name) (s : List Char) :
    hasCalculation (f.chars ++ '(' :: s) = true := by
  obtain ⟨c, r, hf, hc, hall⟩ := f.exists_cons
  have hword : (r ++ '(' :: s).dropWhile isWord = '(' :: s :=
    dropWhile_append_stop (fun d hd => hall d (List.mem_cons_of_mem c hd))
      fun d hd => (Option.some.inj hd) ▸ (by decide)
  have hblank : ('(' :: s).dropWhile isBlank = '(' :: s := List.dropWhile_cons_of_neg (by decide)
  rw [hf, List.cons_append, hasCalculation, hword, hblank, hc]
  simp [startsWith]

/-- The canonical text of more than a name has something to calculate. -/
theorem hasCalculation_text {e : Expr} (h : Calculates e) (s : List Char) :
    hasCalculation (textOf e.bracketed.lexemes ++ s) = true := by
  induction e generalizing s with
  | numeral n =>
    obtain ⟨c, hc, hdigit⟩ := exists_digit n
    rw [Expr.bracketed, Expr.lexemes, textOf_cons]
    refine hasCalculation_of_mem ?_ (isCalculation_of_isDigit hdigit)
    exact List.mem_append_left _ (List.mem_append_left _ hc)
  | name n => exact absurd h (by simp [Calculates])
  | line r =>
    rw [Expr.bracketed, Expr.lexemes]
    exact hasCalculation_of_mem (c := '@') List.mem_cons_self (by decide)
  | group e ih =>
    rw [Calculates] at h
    rw [Expr.bracketed, Expr.lexemes, List.cons_append, textOf_cons, textOf_append,
      List.append_assoc, List.append_assoc]
    exact hasCalculation_append (ih h _) _
  | neg spaced e ih =>
    rw [Expr.bracketed, Expr.lexemes, textOf_cons]
    refine hasCalculation_of_mem (c := '-') ?_ (by decide)
    refine List.mem_append_left _ (List.mem_append_left _ ?_)
    cases spaced <;> exact List.mem_cons_self
  | binary op l r ihl ihr =>
    rw [Expr.bracketed, Expr.lexemes, textOf_append, textOf_cons]
    refine hasCalculation_of_mem (c := op.symbol) ?_ (isCalculation_symbol op)
    refine List.mem_append_left _ (List.mem_append_right _ (List.mem_append_left _ ?_))
    exact List.mem_cons_of_mem _ List.mem_cons_self
  | call f args ih =>
    rw [Expr.bracketed, Expr.lexemes, List.cons_append, List.cons_append, textOf_cons, textOf_cons,
      List.append_assoc]
    exact hasCalculation_callee f _

theorem isExpressionChar_of_mem_marks {c : Char} (h : c ∈ marks) : isExpressionChar c = true := by
  have hall : ∀ d ∈ marks, isExpressionChar d = true := List.all_iff_forall_prop.mp (by decide)
  exact hall c h

theorem all_isExpressionChar_text (e : Expr) : e.text.all isExpressionChar = true := by
  rw [List.all_eq_true]
  intro c hc
  rcases plain_textOf e.bracketed.lexemes c hc with hword | hmark
  · unfold isExpressionChar
    rw [hword]
    simp
  · exact isExpressionChar_of_mem_marks hmark

/-- The canonical text of an expression has no separator. -/
theorem unseparated_text (e : Expr) : Unseparated e.text := by
  have hplain := plain_textOf e.bracketed.lexemes
  have hnone : ∀ c ∈ e.text, isSeparator c = false := by
    intro c hc
    rcases hplain c hc with hword | hmark
    · exact isSeparator_of_isWord hword
    · have hall : ∀ d ∈ marks, isSeparator d = false := List.all_iff_forall_prop.mp (by decide)
      exact hall c hmark
  refine ⟨⟨fun hnil => ?_, trim_textOf e.bracketed, hplain.not_mem (by decide) (by decide)⟩, hnone⟩
  obtain ⟨c, r, hcons, _⟩ := operand_text_cons (operand_lexemes e.bracketed)
  exact absurd (hnil.symm.trans hcons).symm (List.cons_ne_nil c r)

end Alone

section Classification

variable {s e a b l raw before after : List Char} {c : Char} {form : Form}

/-- The form of a line that is not blank: the first that fits. -/
theorem classify_visible (htrim : trim (dropTags raw) = s) (hne : s ≠ []) :
    classify raw =
      (assignment? s <|> labeled? s <|> leadingEquals? s <|> trailingEquals? s).getD
        (if s.all isExpressionChar && hasCalculation s then .plain s else .blank) := by
  unfold classify
  dsimp only
  rw [htrim, if_neg fun h => hne (List.isEmpty_iff.mp h)]
  cases assignment? s with
  | some form => rfl
  | none =>
    cases labeled? s with
    | some form => rfl
    | none =>
      cases leadingEquals? s with
      | some form => rfl
      | none => cases trailingEquals? s <;> rfl

theorem solid_separated (hl : Solid l) (he : OnLine e) (ha : Blanks a) (hb : Blanks b)
    (hc : isSeparator c = true) : Solid (l ++ a ++ c :: (b ++ e)) := by
  refine ⟨by simp, Text.trim_eq (fun d hd => ?_) fun d hd => ?_, ?_⟩
  · rw [List.append_assoc, List.head?_append_of_ne_nil l hl.visible] at hd
    exact hl.head_not_blank d hd
  · rw [← List.cons_append, ← List.append_assoc, getLast?_append_of_ne_nil he.visible] at hd
    exact he.last_not_blank d hd
  · rw [List.mem_append, List.mem_append, List.mem_cons, List.mem_append]
    rintro ((h | h) | rfl | h | h)
    · exact hl.no_markup h
    · exact ha.no_markup h
    · exact absurd hc (by decide)
    · exact hb.no_markup h
    · exact he.no_markup h

/-- A written form has no blank at its ends and no markup. -/
theorem WrittenAs.solid (h : WrittenAs form s) : Solid s := by
  have hequals : isBlank '=' = false := by decide
  cases h with
  | assignment hn he ha hb =>
    exact solid_separated (unseparated_identifier hn).toSolid he ha hb (by decide)
  | colon hl he ha hb => exact solid_separated hl.toSolid he ha hb (by decide)
  | equals hl _ he ha hb => exact solid_separated hl.toSolid he ha hb (by decide)
  | leading he hb =>
    refine ⟨by simp, Text.trim_eq (fun d hd => ?_) fun d hd => ?_, ?_⟩
    · obtain rfl := Option.some.inj hd
      exact hequals
    · rw [← List.cons_append, getLast?_append_of_ne_nil he.visible] at hd
      exact he.last_not_blank d hd
    · rw [List.mem_cons, List.mem_append]
      rintro (h | h | h)
      · exact absurd h (by decide)
      · exact hb.no_markup h
      · exact he.no_markup h
  | trailing he ha =>
    refine ⟨by simp, Text.trim_eq (fun d hd => ?_) fun d hd => ?_, ?_⟩
    · rw [List.append_assoc, List.head?_append_of_ne_nil _ he.visible] at hd
      exact he.head_not_blank d hd
    · rw [List.getLast?_concat] at hd
      obtain rfl := Option.some.inj hd
      exact hequals
    · rw [List.mem_append, List.mem_append, List.mem_singleton]
      rintro ((h | h) | h)
      · exact he.no_markup h
      · exact ha.no_markup h
      · exact absurd h (by decide)
  | alone _ => exact (unseparated_text _).toSolid

theorem assignment?_eq (hn : isIdentifier l = true) (he : OnLine e) (ha : Blanks a)
    (hb : Blanks b) : assignment? (l ++ a ++ '=' :: (b ++ e)) = some (.assignment l e) := by
  have hstop : ∀ c ∈ (a ++ '=' :: (b ++ e)).head?, isWord c = false := by
    cases a with
    | nil => exact fun c hc => (Option.some.inj hc) ▸ (by decide)
    | cons d a => exact fun c hc =>
        isWord_of_isBlank (ha c ((Option.some.inj hc) ▸ List.mem_cons_self))
  have hleft : trimLeft (a ++ '=' :: (b ++ e)) = '=' :: (b ++ e) := by
    rw [trimLeft_append ha, trimLeft_cons (by decide)]
  unfold assignment?
  dsimp only
  rw [List.append_assoc, takeWhile_append_stop (Scope.isWord_of_identifier hn) hstop,
    dropWhile_append_stop (Scope.isWord_of_identifier hn) hstop, hleft]
  exact (if_pos hn).trans (by rw [restOfLine_eq he hb]; rfl)

theorem leadingEquals?_eq (he : OnLine e) (hb : Blanks b) :
    leadingEquals? ('=' :: (b ++ e)) = some (.plain e) := by
  have htrim : trim (b ++ e) = e := by
    unfold trim
    rw [trimLeft_append hb, he.trimLeft_eq, he.trimRight_eq]
  have hempty : ¬ (trim (b ++ e)).isEmpty = true := by
    rw [htrim]
    exact fun h => he.visible (List.isEmpty_iff.mp h)
  unfold leadingEquals?
  exact congrArg some ((if_neg hempty).trans (congrArg Form.plain htrim))

/-- An expression before an equals sign at the end of the line. -/
theorem trailingEquals?_eq (he : Unseparated e) (ha : Blanks a) :
    trailingEquals? (e ++ a ++ ['=']) = some (.plain e) := by
  have hbefore : ∀ c ∈ e ++ a, (c != '=') = true := by
    intro c hc
    have hnone : isSeparator c = false :=
      (List.mem_append.mp hc).elim (he.no_separator c) (ha.no_separator c)
    rw [bne_iff_ne]
    rintro rfl
    exact absurd hnone (by decide)
  have hstop : ∀ c ∈ ['='].head?, (c != '=') = false := by
    intro c hc
    obtain rfl := Option.some.inj hc
    rfl
  have hvisible : (e ++ a).isEmpty = false := by
    rw [Bool.eq_false_iff, ne_eq, List.isEmpty_iff]
    exact List.append_ne_nil_of_left_ne_nil he.visible a
  unfold trailingEquals?
  rw [takeWhile_append_stop hbefore hstop, dropWhile_append_stop hbefore hstop]
  dsimp only
  rw [hvisible, he.trimRight_append ha]
  rfl

theorem trailingEquals?_of_no_equals (h : '=' ∉ s) : trailingEquals? s = none := by
  have hdrop : s.dropWhile (· != '=') = [] := by
    rw [List.dropWhile_eq_nil_iff]
    intro c hc
    rw [bne_iff_ne]
    rintro rfl
    exact h hc
  unfold trailingEquals?
  dsimp only
  rw [hdrop]

/-- The first form that fits is the one that was written. -/
theorem WrittenAs.first_form (h : WrittenAs form s) :
    (assignment? s <|> labeled? s <|> leadingEquals? s <|> trailingEquals? s).getD
      (if s.all isExpressionChar && hasCalculation s then .plain s else .blank) = form := by
  cases h with
  | assignment hn he ha hb =>
    rw [assignment?_eq hn he ha hb]
    rfl
  | colon hl he ha hb =>
    have hcolon : ¬ ':' = '=' := by decide
    rw [assignment?_of_unseparated hl ha (by decide) fun h => absurd h hcolon,
      labeled?_eq hl ha (by decide) fun h => absurd h hcolon, restOfLine_eq he hb]
    rfl
  | equals hl hname he ha hb =>
    rw [assignment?_of_unseparated hl ha (by decide)
        fun _ h => absurd (hname.symm.trans h) Bool.false_ne_true,
      labeled?_eq hl ha (by decide) fun _ => hname, restOfLine_eq he hb]
    rfl
  | leading he hb =>
    rw [leadingEquals?_eq he hb]
    rfl
  | @trailing e a he ha =>
    have hhead : ∀ c ∈ (e ++ a ++ ['=']).head?, c ≠ '=' := by
      intro c hc
      rw [List.append_assoc, List.head?_append_of_ne_nil _ he.visible] at hc
      rintro rfl
      exact absurd (he.no_separator _ (List.mem_of_mem_head? hc)) (by decide)
    rw [assignment?_of_unseparated he ha (by decide) fun _ _ => rfl,
      labeled?_eq_none he.no_separator ha (by decide) rfl, leadingEquals?_eq_none hhead,
      trailingEquals?_eq he ha]
    rfl
  | @alone e he =>
    have hline := unseparated_text e
    have hequals : '=' ∉ e.text := fun h => absurd (hline.no_separator _ h) (by decide)
    have hcalculates : hasCalculation e.text = true := by
      have h := hasCalculation_text he []
      rwa [List.append_nil] at h
    rw [assignment?_of_no_equals hequals, labeled?_of_no_separator hline.no_separator,
      leadingEquals?_eq_none fun c hc h => hequals (h ▸ List.mem_of_mem_head? hc),
      trailingEquals?_of_no_equals hequals, all_isExpressionChar_text, hcalculates]
    rfl

/-- White space around a written form is all that trimming takes. -/
theorem WrittenAs.trim_eq (h : WrittenAs form s) (hbefore : Blanks before)
    (hafter : Blanks after) : trim (dropTags (before ++ s ++ after)) = s := by
  have htags : '<' ∉ before ++ s ++ after := by
    rw [List.mem_append, List.mem_append]
    rintro ((hmem | hmem) | hmem)
    · exact hbefore.no_markup hmem
    · exact h.solid.no_markup hmem
    · exact hafter.no_markup hmem
  rw [dropTags_eq htags, trim_around hbefore hafter, h.solid.trimmed]

/-- Every written form is recognised, whatever white space is around it. -/
theorem classify_written (h : WrittenAs form s) (hbefore : Blanks before) (hafter : Blanks after) :
    classify (before ++ s ++ after) = form := by
  rw [classify_visible (h.trim_eq hbefore hafter) h.solid.visible]
  exact h.first_form

/-- The expression of a labeled line may look like an assignment or another labeled line. -/
theorem classify_netRate :
    WrittenAs (.labeled "net".toList "rate = 2: 3".toList) "net\t: rate = 2: 3".toList ∧
      Blanks "\t ".toList ∧ Blanks " ".toList ∧
      classify ("\t ".toList ++ "net\t: rate = 2: 3".toList ++ " ".toList) =
        .labeled "net".toList "rate = 2: 3".toList := by
  have hlabel : Unseparated "net".toList := unseparated_identifier (by decide)
  have hexpression : OnLine "rate = 2: 3".toList :=
    ⟨⟨by decide, by decide, by decide⟩, by decide⟩
  have htab : Blanks "\t".toList := List.all_eq_true.mp (by decide)
  have hspace : Blanks " ".toList := List.all_eq_true.mp (by decide)
  have hbefore : Blanks "\t ".toList := List.all_eq_true.mp (by decide)
  have hwritten : WrittenAs (.labeled "net".toList "rate = 2: 3".toList)
      "net\t: rate = 2: 3".toList := WrittenAs.colon hlabel hexpression htab hspace
  exact ⟨hwritten, hbefore, hspace, classify_written hwritten hbefore hspace⟩

end Classification

end Reckoner.Document
