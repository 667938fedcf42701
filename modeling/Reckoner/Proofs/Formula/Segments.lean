import Reckoner.Proofs.Formula.Letters

/-!
The segments of a text: the words, which are its longest runs of characters that names, numbers and
line references are made of, and its other characters one by one. White space parts words and
leaves no segment of its own. A joint is where a word comes right after a closing parenthesis, with
nothing to keep the value of a call apart from the word once it takes the place of the call.
-/
namespace Reckoner.Formula

open Text Number Arith

/-- The characters of names, numbers and line references. -/
def isOperandChar (c : Char) : Bool := isWord c || c == '.' || c == '@'

inductive Segment
  | word (w : List Char)
  | mark (c : Char)
  | joint
deriving DecidableEq

/-- Puts a character in front of the word at the beginning. -/
def extendWord (c : Char) : List Segment → List Segment
  | .word w :: later => .word (c :: w) :: later
  | later => .word [c] :: later

/-- Puts a character in front of the segments of a text, where `joins` says whether the text begins
with an operand character. -/
def addChar (c : Char) (joins : Bool) (later : List Segment) : List Segment :=
  if isOperandChar c then
    if joins then extendWord c later else .word [c] :: later
  else if isBlank c then later
  else if c = ')' ∧ joins = true then .mark c :: .joint :: later
  else .mark c :: later

def segments : List Char → List Segment
  | [] => []
  | c :: r => addChar c (startsWith isOperandChar r) (segments r)

section Characters

variable {c : Char}

theorem isOperandChar_of_isWord (h : isWord c = true) : isOperandChar c = true := by
  unfold isOperandChar
  rw [h]
  rfl

theorem isOperandChar_of_isDigit (h : isDigit c = true) : isOperandChar c = true :=
  isOperandChar_of_isWord (isWord_of_isDigit h)

theorem isBlank_of_isOperandChar (h : isOperandChar c = true) : isBlank c = false := by
  unfold isOperandChar at h
  simp only [Bool.or_eq_true, beq_iff_eq] at h
  rcases h with (hword | rfl) | rfl
  · exact isBlank_of_isWord hword
  · decide
  · decide

theorem isOperandChar_of_isBlank (h : isBlank c = true) : isOperandChar c = false := by
  rw [Bool.eq_false_iff]
  intro hc
  rw [isBlank_of_isOperandChar hc] at h
  exact absurd h Bool.false_ne_true

/-- No comma and no parenthesis is part of an operand. -/
theorem solid_operand (h : isOperandChar c = true) : c ≠ ',' ∧ c ≠ '(' ∧ c ≠ ')' := by
  refine ⟨?_, ?_, ?_⟩ <;>
  · rintro rfl
    exact absurd h (by decide)

theorem solid_blank (h : isBlank c = true) : c ≠ ',' ∧ c ≠ '(' ∧ c ≠ ')' := by
  refine ⟨?_, ?_, ?_⟩ <;>
  · rintro rfl
    exact absurd h (by decide)

theorem isNameStart_of_not_operand (h : isOperandChar c = false) : isNameStart c = false := by
  rw [Bool.eq_false_iff]
  intro hstart
  rw [isOperandChar_of_isWord (isWord_of_isNameStart hstart)] at h
  exact absurd h.symm Bool.false_ne_true

/-- The marks that the program looks for are no part of a word. -/
def commonMarks : List Char :=
  ['(', ')', ',', '=', '<', '>', '+', '-', '*', '/', '%', '^', '×', '÷', '−'] ++ currencySigns

theorem commonMark (h : c ∈ commonMarks) : isOperandChar c = false ∧ isBlank c = false := by
  have hall : ∀ d ∈ commonMarks, isOperandChar d = false ∧ isBlank d = false :=
    List.all_iff_forall_prop.mp (by decide +kernel)
  exact hall c h

theorem symbol_commonMark (op : Op) : op.symbol ∈ commonMarks := by
  cases op <;> decide

theorem isOperandChar_operator (h : isOperator c = true) :
    isOperandChar c = false ∧ isBlank c = false ∧ c ≠ ')' := by
  obtain ⟨op, rfl⟩ := isOperator_iff.mp h
  obtain ⟨hc, hblank⟩ := commonMark (symbol_commonMark op)
  exact ⟨hc, hblank, by cases op <;> decide⟩

end Characters

section Segments

variable {s t w : List Char} {c : Char}

theorem startsWith_append {p : Char → Bool} (h : t ≠ []) (s : List Char) :
    startsWith p (t ++ s) = startsWith p t := by
  obtain ⟨c, r, rfl⟩ := List.exists_cons_of_ne_nil h
  rfl

theorem startsWith_of_all {p : Char → Bool} (h : t ≠ []) (ht : ∀ c ∈ t, p c = true) :
    startsWith p t = true := by
  obtain ⟨c, r, rfl⟩ := List.exists_cons_of_ne_nil h
  exact ht c List.mem_cons_self

theorem startsWith_eq_any (p : Char → Bool) (s : List Char) : startsWith p s = s.head?.any p := by
  cases s <;> rfl

theorem head_of_startsWith {p : Char → Bool} (h : startsWith p s = false) :
    ∀ c ∈ s.head?, p c = false := by
  intro c hc
  cases s with
  | nil => exact absurd hc (by simp)
  | cons d r =>
    obtain rfl := Option.some.inj hc
    exact h

theorem startsWith_of_head {p : Char → Bool} (h : ∀ c ∈ s.head?, p c = false) :
    startsWith p s = false := by
  cases s with
  | nil => rfl
  | cons c r => exact h c rfl

theorem head_not_word (h : startsWith isOperandChar s = false) :
    ∀ c ∈ s.head?, isWord c = false := by
  intro c hc
  have hnone := head_of_startsWith h c hc
  rw [Bool.eq_false_iff]
  intro hword
  rw [isOperandChar_of_isWord hword] at hnone
  exact absurd hnone.symm Bool.false_ne_true

theorem head_not_digit (h : startsWith isOperandChar s = false) :
    ∀ c ∈ s.head?, isDigit c = false := by
  intro c hc
  have hnone := head_not_word h c hc
  rw [Bool.eq_false_iff]
  intro hdigit
  rw [isWord_of_isDigit hdigit] at hnone
  exact absurd hnone.symm Bool.false_ne_true

theorem segments_cons (c : Char) (s : List Char) :
    segments (c :: s) = addChar c (startsWith isOperandChar s) (segments s) := rfl

theorem segments_blank (h : isBlank c = true) (s : List Char) :
    segments (c :: s) = segments s := by
  rw [segments_cons, addChar, if_neg (by rw [isOperandChar_of_isBlank h]; exact Bool.false_ne_true),
    if_pos h]

theorem segments_mark (hc : isOperandChar c = false) (hblank : isBlank c = false)
    (h : c = ')' → startsWith isOperandChar s = false) :
    segments (c :: s) = .mark c :: segments s := by
  rw [segments_cons, addChar, if_neg (by rw [hc]; exact Bool.false_ne_true),
    if_neg (by rw [hblank]; exact Bool.false_ne_true), if_neg]
  rintro ⟨hclosing, hs⟩
  rw [h hclosing] at hs
  exact Bool.false_ne_true hs

theorem segments_joint (h : startsWith isOperandChar s = true) :
    segments (')' :: s) = .mark ')' :: .joint :: segments s := by
  obtain ⟨hc, hblank⟩ := commonMark (c := ')') (by decide)
  rw [segments_cons, addChar, if_neg (by rw [hc]; exact Bool.false_ne_true),
    if_neg (by rw [hblank]; exact Bool.false_ne_true), if_pos ⟨rfl, h⟩]

/-- Where no joint is among the segments, no operand comes right after a closing parenthesis. -/
theorem startsWith_of_joint_not_mem (h : Segment.joint ∉ segments (c :: s)) :
    c = ')' → startsWith isOperandChar s = false := by
  rintro rfl
  rw [Bool.eq_false_iff]
  intro hstarts
  rw [segments_joint hstarts] at h
  exact h (List.mem_cons_of_mem _ List.mem_cons_self)

/-- A run of operand characters that stops where the next character is none is one word. -/
theorem segments_word (hw : w ≠ []) (hall : ∀ c ∈ w, isOperandChar c = true)
    (hs : startsWith isOperandChar s = false) :
    segments (w ++ s) = .word w :: segments s := by
  induction w with
  | nil => exact absurd rfl hw
  | cons c r ih =>
    rw [List.cons_append, segments_cons, addChar, if_pos (hall c List.mem_cons_self)]
    cases r with
    | nil =>
      rw [List.nil_append, if_neg (by rw [hs]; exact Bool.false_ne_true)]
    | cons d r =>
      have hrest : ∀ e ∈ d :: r, isOperandChar e = true :=
        fun e he => hall e (List.mem_cons_of_mem c he)
      rw [if_pos (by rw [startsWith_append (List.cons_ne_nil d r)]; exact hrest d List.mem_cons_self),
        ih (List.cons_ne_nil d r) hrest]
      rfl

/-- Induction over a text by its segments. -/
theorem segments_induct {motive : List Char → Prop} (nil : motive [])
    (mark : ∀ c r, isOperandChar c = false → motive r → motive (c :: r))
    (word : ∀ w r, w ≠ [] → (∀ c ∈ w, isOperandChar c = true) →
      startsWith isOperandChar r = false → (∀ t, t.length ≤ r.length → motive t) → motive (w ++ r))
    (s : List Char) : motive s :=
  runs_induct isOperandChar nil mark
    (fun w r hw hall hr ih => word w r hw hall (startsWith_of_head hr) ih) s

/-- That no word and no joint forms where two texts meet. -/
def Parted (s t : List Char) : Prop :=
  startsWith isOperandChar t = true → ∀ c ∈ s.getLast?, isOperandChar c = false ∧ c ≠ ')'

theorem parted_of_stop (h : startsWith isOperandChar t = false) : Parted s t := by
  intro ht
  rw [h] at ht
  exact absurd ht Bool.false_ne_true

theorem segments_ne_nil (h : startsWith isOperandChar s = true) : segments s ≠ [] := by
  cases s with
  | nil => exact absurd h Bool.false_ne_true
  | cons c r =>
    have hc : isOperandChar c = true := h
    rw [segments_cons, addChar, if_pos hc]
    split
    · unfold extendWord
      split <;> exact List.cons_ne_nil _ _
    · exact List.cons_ne_nil _ _

theorem addChar_append {joins : Bool} {ps : List Segment} (h : joins = true → ps ≠ []) (c : Char)
    (qs : List Segment) : addChar c joins (ps ++ qs) = addChar c joins ps ++ qs := by
  unfold addChar
  split
  · split
    · rename_i hjoins
      obtain ⟨p, ps, rfl⟩ := List.exists_cons_of_ne_nil (h hjoins)
      cases p <;> rfl
    · rfl
  · split
    · rfl
    · split <;> rfl

/-- Only operand characters and closing parentheses join with the word after them. -/
theorem addChar_apart (hc : isOperandChar c = false) (hclosing : c ≠ ')') (joins : Bool)
    (ps : List Segment) : addChar c joins ps = addChar c false ps := by
  unfold addChar
  rw [hc, if_neg fun h : c = ')' ∧ joins = true => hclosing h.1,
    if_neg fun h : c = ')' ∧ false = true => hclosing h.1]
  rfl

theorem segments_append (h : Parted s t) : segments (s ++ t) = segments s ++ segments t := by
  induction s with
  | nil => rfl
  | cons c r ih =>
    cases r with
    | nil =>
      change addChar c (startsWith isOperandChar t) (segments t) = addChar c false [] ++ segments t
      rw [← addChar_append (fun h => absurd h Bool.false_ne_true) c (segments t)]
      cases ht : startsWith isOperandChar t with
      | false => rfl
      | true => exact addChar_apart (h ht c rfl).1 (h ht c rfl).2 true _
    | cons d r =>
      have hrest := ih fun ht e he => h ht e (by rwa [List.getLast?_cons_cons])
      change addChar c (startsWith isOperandChar (d :: r)) (segments (d :: r ++ t)) = _
      rw [hrest]
      exact addChar_append segments_ne_nil c _

end Segments

section Marks

variable {s : List Char} {c : Char}

/-- The character of a mark. -/
def Segment.char? : Segment → Option Char
  | mark c => some c
  | _ => none

def isMark (c : Char) : Bool := !isOperandChar c && !isBlank c

theorem isMark_common (h : c ∈ commonMarks) : isMark c = true := by
  unfold isMark
  rw [(commonMark h).1, (commonMark h).2]
  rfl

/-- The marks of a text are its segments that are marks, in their order. -/
theorem marks_segments (s : List Char) : (segments s).filterMap Segment.char? = s.filter isMark := by
  induction s using segments_induct with
  | nil => rfl
  | mark c r hc ih =>
    cases hblank : isBlank c with
    | true =>
      rw [segments_blank hblank, ih, List.filter_cons_of_neg]
      unfold isMark
      rw [hblank, Bool.not_true, Bool.and_false]
      exact Bool.false_ne_true
    | false =>
      have hmark : isMark c = true := by
        unfold isMark
        rw [hc, hblank]
        rfl
      rw [List.filter_cons_of_pos hmark, ← ih]
      by_cases hjoint : c = ')' ∧ startsWith isOperandChar r = true
      · obtain ⟨rfl, hr⟩ := hjoint
        rw [segments_joint hr]
        rfl
      · rw [segments_mark hc hblank fun h => Bool.eq_false_iff.mpr fun hr => hjoint ⟨h, hr⟩]
        rfl
  | word w r hw hall hr ih =>
    rw [segments_word hw hall hr, List.filter_append, List.filter_eq_nil_iff.mpr, List.nil_append,
      ← ih r (Nat.le_refl _)]
    · rfl
    · intro c hc hmark
      unfold isMark at hmark
      rw [hall c hc] at hmark
      exact Bool.false_ne_true hmark

theorem mark_mem_segments : .mark c ∈ segments s ↔ c ∈ s ∧ isMark c = true := by
  rw [← List.mem_filter, ← marks_segments, List.mem_filterMap]
  constructor
  · exact fun h => ⟨_, h, rfl⟩
  · rintro ⟨p, hp, hc⟩
    cases p with
    | mark d =>
      obtain rfl := Option.some.inj hc
      exact hp
    | word w => exact absurd hc (by simp [Segment.char?])
    | joint => exact absurd hc (by simp [Segment.char?])

end Marks

end Reckoner.Formula
