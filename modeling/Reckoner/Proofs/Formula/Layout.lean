import Reckoner.Proofs.Formula.CanonicalText

/-!
Layouts of expressions: the texts of their lexemes with any number of spaces between them. The
canonical text of an expression is one of its layouts.
-/
namespace Reckoner.Formula

open Text Number Arith

/-- The layouts of an expression: the texts of its lexemes with spaces between them and around
them. -/
inductive Laid : Expr → List Char → Prop
  | numeral (n) : Laid (.numeral n) n.text
  | name (n) : Laid (.name n) n.chars
  | line (r) : Laid (.line r) ('@' :: r.digits)
  | group {e : Expr} {t : List Char} : Laid e t → Laid (.group e) ('(' :: t ++ [')'])
  | neg (spaced) {e : Expr} {t : List Char} : Laid e t → Laid (.neg spaced e) ('-' :: t)
  | binary (op) {l r : Expr} {t u : List Char} : Laid l t → Laid r u →
      Laid (.binary op l r) (t ++ op.symbol :: u)
  | call (f) {before inner : List Char} {args : List (Expr × List Char)} :
      (∀ c ∈ before, c = ' ') → (∀ c ∈ inner, c = ' ') → (∀ a ∈ args, Laid a.1 a.2) →
      Laid (.call f (args.map Prod.fst))
        (f.chars ++ (before ++ '(' :: (inner ++ [','].intercalate (args.map Prod.snd)) ++ [')']))
  | before {e : Expr} {t : List Char} : Laid e t → Laid e (' ' :: t)
  | after {e : Expr} {t : List Char} : Laid e t → Laid e (t ++ [' '])

variable {e : Expr} {gap t : List Char}

theorem Laid.spaces_before (h : Laid e t) (hgap : ∀ c ∈ gap, c = ' ') : Laid e (gap ++ t) := by
  induction gap with
  | nil => exact h
  | cons c gap ih =>
    obtain ⟨rfl, hrest⟩ := List.forall_mem_cons.mp hgap
    exact (ih hrest).before

theorem Laid.spaces_after (h : Laid e t) (hgap : ∀ c ∈ gap, c = ' ') : Laid e (t ++ gap) := by
  induction gap generalizing t with
  | nil => rwa [List.append_nil]
  | cons c gap ih =>
    obtain ⟨rfl, hrest⟩ := List.forall_mem_cons.mp hgap
    have hlaid := ih h.after hrest
    rwa [List.append_assoc] at hlaid

/-- A layout is not only white space. -/
theorem Laid.exists_not_blank (h : Laid e t) : ∃ c ∈ t, isBlank c = false := by
  have hname : ∀ (n : Name) (s : List Char), ∃ c ∈ n.chars ++ s, isBlank c = false := by
    intro n s
    obtain ⟨c, r, hn, hstart, _⟩ := n.exists_cons
    refine ⟨c, ?_, isBlank_of_isWord (isWord_of_isNameStart hstart)⟩
    rw [hn]
    exact List.mem_cons_self
  induction h with
  | numeral n =>
    obtain ⟨c, hc⟩ := List.exists_mem_of_ne_nil _ (numeral_text_ne_nil n)
    exact ⟨c, hc, (solid_numeral n c hc).2.1⟩
  | name n =>
    have hmem := hname n []
    rwa [List.append_nil] at hmem
  | line r => exact ⟨'@', List.mem_cons_self, by decide⟩
  | group _ _ => exact ⟨'(', List.mem_cons_self, by decide⟩
  | neg _ _ _ => exact ⟨'-', List.mem_cons_self, by decide⟩
  | binary op _ _ ihl _ =>
    obtain ⟨c, hc, hblank⟩ := ihl
    exact ⟨c, List.mem_append_left _ hc, hblank⟩
  | call f _ _ _ _ => exact hname f _
  | before _ ih =>
    obtain ⟨c, hc, hblank⟩ := ih
    exact ⟨c, List.mem_cons_of_mem _ hc, hblank⟩
  | after _ ih =>
    obtain ⟨c, hc, hblank⟩ := ih
    exact ⟨c, List.mem_append_left _ hc, hblank⟩

section Text

/-- The text of an operand of one lexeme. -/
theorem textOf_atom (a : Lexeme) : textOf [a] = a.text := by
  rw [textOf_cons, textOf_nil, List.append_nil]

theorem textOf_numeral (n : Numeral) : textOf (Expr.numeral n).lexemes = n.text := by
  rw [Expr.lexemes, textOf_atom]
  rfl

theorem textOf_name (n : Name) : textOf (Expr.name n).lexemes = n.chars := by
  rw [Expr.lexemes, textOf_atom]
  rfl

theorem textOf_line (r : LineReference) : textOf (Expr.line r).lexemes = '@' :: r.digits := by
  rw [Expr.lexemes, textOf_atom]
  rfl

theorem textOf_group (e : Expr) :
    textOf (Expr.group e).lexemes = '(' :: textOf e.lexemes ++ [')'] := by
  rw [Expr.lexemes, textOf_append, textOf_cons, textOf_atom]
  rfl

theorem textOf_neg (spaced : Bool) (e : Expr) :
    textOf (Expr.neg spaced e).lexemes =
      '-' :: ((if spaced then [' '] else []) ++ textOf e.lexemes) := by
  rw [Expr.lexemes, textOf_cons]
  cases spaced <;> rfl

theorem textOf_binary (op : Op) (l r : Expr) :
    textOf (Expr.binary op l r).lexemes =
      textOf l.lexemes ++ ' ' :: op.symbol :: ' ' :: textOf r.lexemes := by
  rw [Expr.lexemes, textOf_append, textOf_cons]
  rfl

/-- The text between the parentheses of a call. -/
def inside (args : List Expr) : List Char := textOf (joined (args.map fun e => e.lexemes))

theorem textOf_call (f : Name) (args : List Expr) :
    textOf (Expr.call f args).lexemes = f.chars ++ ('(' :: inside args ++ [')']) := by
  rw [Expr.lexemes, textOf_append, textOf_cons, textOf_cons, textOf_atom]
  exact List.append_assoc f.chars _ _

end Text

section Canonical

theorem intercalate_cons (t : List Char) (ts : List (List Char)) :
    [','].intercalate (t :: ts) = t ++ ts.flatMap fun u => ',' :: u := by
  induction ts generalizing t with
  | nil => simp
  | cons u ts ih =>
    rw [List.intercalate_cons_cons, ih, List.flatMap_cons, List.append_assoc]
    rfl

theorem trim_space (s : List Char) : trim (' ' :: s) = trim s := by
  unfold trim trimLeft
  rw [List.dropWhile_cons_of_pos (by decide)]

theorem trim_spaces (hgap : ∀ c ∈ gap, c = ' ') (s : List Char) : trim (gap ++ s) = trim s := by
  induction gap with
  | nil => rfl
  | cons c gap ih =>
    obtain ⟨rfl, hrest⟩ := List.forall_mem_cons.mp hgap
    rw [List.cons_append, trim_space, ih hrest]

/-- The text between the parentheses of a call, as layouts of the arguments. -/
theorem exists_parts (args : List Expr) (h : ∀ e ∈ args, Laid e (textOf e.lexemes)) :
    ∃ parts : List (Expr × List Char), parts.map Prod.fst = args ∧
      (∀ p ∈ parts, Laid p.1 p.2 ∧ trim p.2 = textOf p.1.lexemes) ∧
      inside args = [','].intercalate (parts.map Prod.snd) := by
  cases args with
  | nil => exact ⟨[], rfl, fun p hp => absurd hp List.not_mem_nil, rfl⟩
  | cons e rest =>
    obtain ⟨he, hrest⟩ := List.forall_mem_cons.mp h
    refine ⟨(e, textOf e.lexemes) :: rest.map fun e => (e, ' ' :: textOf e.lexemes), ?_, ?_, ?_⟩
    · rw [List.map_cons, List.map_map]
      exact congrArg (e :: ·) (List.map_id rest)
    · refine List.forall_mem_cons.mpr ⟨⟨he, trim_textOf e⟩, fun p hp => ?_⟩
      obtain ⟨a, ha, rfl⟩ := List.mem_map.mp hp
      exact ⟨(hrest a ha).before, (trim_space _).trans (trim_textOf a)⟩
    · unfold inside
      rw [List.map_cons, joined, textOf_append, List.map_cons, intercalate_cons]
      congr 1
      unfold textOf
      simp only [List.flatMap_assoc, List.flatMap_map, List.flatMap_cons, Lexeme.text]
      rfl

/-- The text of an expression is a layout of it. -/
theorem laid_textOf (e : Expr) : Laid e (textOf e.lexemes) := by
  induction e with
  | numeral n => rw [textOf_numeral]; exact .numeral n
  | name n => rw [textOf_name]; exact .name n
  | line r => rw [textOf_line]; exact .line r
  | group e ih => rw [textOf_group]; exact .group ih
  | neg spaced e ih =>
    rw [textOf_neg]
    cases spaced with
    | false => exact .neg false ih
    | true => exact .neg true ih.before
  | binary op l r ihl ihr =>
    have hlaid := Laid.binary op ihl.after ihr.before
    rw [List.append_assoc] at hlaid
    rw [textOf_binary]
    exact hlaid
  | call f args ih =>
    obtain ⟨parts, rfl, hlaid, htext⟩ := exists_parts args ih
    have hnone : ∀ c ∈ ([] : List Char), c = ' ' := fun c hc => absurd hc List.not_mem_nil
    rw [textOf_call, htext]
    exact Laid.call f hnone hnone fun p hp => (hlaid p hp).1

end Canonical

end Reckoner.Formula
