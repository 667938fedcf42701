import Reckoner.Proofs.Formula.Sentence

/-!
Values in the places of names, line references and calls. A value takes such a place as plain text,
so it may run together with what stands next to it, unless operands stand apart. Where they do, they
still do so afterwards, and what is read from the segments with the values is read from the segments
with the operands: the parentheses of a negative value hold nothing but the value, and they make no
call of a name before them.
-/
namespace Reckoner.Formula

open Text Number Arith

section Apart

/-- What the segments before a place say about it: for each open parenthesis, the last one first,
whether it comes after a name, as that of a call does; and the segment right before. -/
structure Place where
  opened : List Bool
  before : Option Segment

namespace Place

def start : Place := ⟨[], none⟩

def followsName (place : Place) : Bool :=
  match place.before with
  | some (.word w) => isIdentifier w
  | _ => false

def advance (place : Place) (p : Segment) : Place :=
  let opened :=
    if p = .mark '(' then place.followsName :: place.opened
    else if p = .mark ')' then place.opened.tail
    else place.opened
  ⟨opened, some p⟩

def after (place : Place) (ps : List Segment) : Place := ps.foldl advance place

/-- Whether parentheses here would make a call. -/
def FollowsFunction (table : FunctionTable) (place : Place) : Prop :=
  ∃ f, place.before = some (.word f) ∧ IsFunction table f

/-- What a segment must satisfy at its place. -/
structure Allows (table : FunctionTable) (place : Place) (p : Segment) : Prop where
  /-- No line reference runs together with another, or with a number or a name. -/
  reference : ∀ w, p = .word w → '@' ∈ w → IsReference w
  /-- No name runs together with a decimal point. -/
  name : ∀ w, p = .word w → startsWith isNameStart w = true → isIdentifier w = true
  /-- The parentheses of a negative value make no call of a name before them. -/
  operand : ∀ w, p = .word w → startsWith startsOperand w = true → ¬ place.FollowsFunction table
  /-- The value of a call does not run together with a word after it. -/
  joint : p ≠ .joint
  /-- A comma in the arguments of a call separates arguments; it is none that clean-up drops. -/
  comma : p = .mark ',' → place.opened.head? = some false → true ∉ place.opened
  /-- An argument does not begin with an equals sign, which clean-up drops. -/
  equals : p = .mark '=' → place.before ≠ some (.mark '(') ∧ place.before ≠ some (.mark ',')

end Place

/-- That the operands among segments stand apart. -/
inductive Apart (table : FunctionTable) : Place → List Segment → Prop
  | nil {place} : Apart table place []
  | cons {place p ps} : place.Allows table p → Apart table (place.advance p) ps →
      Apart table place (p :: ps)

section Places

variable {table : FunctionTable} {place : Place} {ps qs rest : List Segment} {p : Segment}

theorem apart_cons :
    Apart table place (p :: ps) ↔ place.Allows table p ∧ Apart table (place.advance p) ps := by
  refine ⟨fun h => ?_, fun h => .cons h.1 h.2⟩
  cases h with
  | cons hp hps => exact ⟨hp, hps⟩

theorem Apart.head (h : Apart table place (p :: ps)) : place.Allows table p := (apart_cons.mp h).1

theorem Apart.tail (h : Apart table place (p :: ps)) : Apart table (place.advance p) ps :=
  (apart_cons.mp h).2

theorem apart_append :
    Apart table place (ps ++ qs) ↔ Apart table place ps ∧ Apart table (place.after ps) qs := by
  induction ps generalizing place with
  | nil => exact ⟨fun h => ⟨.nil, h⟩, fun h => h.2⟩
  | cons p ps ih =>
    have hafter : place.after (p :: ps) = (place.advance p).after ps := rfl
    rw [List.cons_append, apart_cons, apart_cons, ih, and_assoc, hafter]

theorem after_append (place : Place) (ps qs : List Segment) :
    place.after (ps ++ qs) = (place.after ps).after qs := List.foldl_append

/-- Only parentheses matter for what is open. -/
theorem advance_opened (ho : p ≠ .mark '(') (hc : p ≠ .mark ')') :
    (place.advance p).opened = place.opened := by
  unfold Place.advance
  rw [if_neg ho, if_neg hc]

theorem operator_ne_parenthesis (op : Op) :
    Segment.mark op.symbol ≠ .mark '(' ∧ Segment.mark op.symbol ≠ .mark ')' := by
  cases op <;> decide

/-- What is read closes the parentheses that it opens. -/
theorem Reads.opened {reading : Reading} (h : Reads table reading ps rest) :
    ∃ as, ps = as ++ rest ∧ ∀ place : Place, (place.after as).opened = place.opened := by
  induction h with
  | @operand w rest h => exact ⟨[.word w], rfl, fun place => advance_opened (by simp) (by simp)⟩
  | group _ ih =>
    obtain ⟨as, rfl, h⟩ := ih
    refine ⟨.mark '(' :: as ++ [.mark ')'], by simp, fun place => ?_⟩
    rw [after_append]
    change ((place.advance (.mark '(')).after as).opened.tail = _
    rw [h]
    rfl
  | @empty f rest hf => exact ⟨[.word f, .mark '(', .mark ')'], rfl, fun place => rfl⟩
  | @call f _ rest hf _ ih =>
    obtain ⟨as, rfl, h⟩ := ih
    refine ⟨.word f :: .mark '(' :: as ++ [.mark ')'], by simp, fun place => ?_⟩
    rw [after_append]
    change (((place.advance (.word f)).advance (.mark '(')).after as).opened.tail = _
    rw [h]
    rfl
  | plain _ ih | last _ ih | argument _ ih => exact ih
  | neg _ ih =>
    obtain ⟨as, rfl, h⟩ := ih
    exact ⟨.mark '-' :: as, rfl, fun place => (h _).trans (advance_opened (by simp) (by simp))⟩
  | chain op _ _ ihl ihr =>
    obtain ⟨us, rfl, hu⟩ := ihl
    obtain ⟨as, rfl, h⟩ := ihr
    obtain ⟨ho, hc⟩ := operator_ne_parenthesis op
    refine ⟨us ++ .mark op.symbol :: as, by simp, fun place => ?_⟩
    rw [after_append]
    exact (h _).trans ((advance_opened ho hc).trans (hu place))
  | comma _ _ ihl ihr =>
    obtain ⟨us, rfl, hu⟩ := ihl
    obtain ⟨as, rfl, h⟩ := ihr
    refine ⟨us ++ .mark ',' :: as, by simp, fun place => ?_⟩
    rw [after_append]
    exact (h _).trans ((advance_opened (by simp) (by simp)).trans (hu place))

/-- Places after which nothing is refused for what stands before it. -/
structure Place.Quiet (table : FunctionTable) (place : Place) : Prop where
  function : ¬ place.FollowsFunction table
  opening : place.before ≠ some (.mark '(')
  comma : place.before ≠ some (.mark ',')

theorem Place.Allows.move {place' : Place} (h : place.Allows table p) (hquiet : place'.Quiet table)
    (hopened : place'.opened = place.opened) : place'.Allows table p :=
  ⟨h.reference, h.name, fun _ _ _ => hquiet.function, h.joint, hopened ▸ h.comma,
    fun _ => ⟨hquiet.opening, hquiet.comma⟩⟩

/-- What stands before segments may change to something after which nothing is refused. -/
theorem Apart.move {place' : Place} (h : Apart table place ps) (hquiet : place'.Quiet table)
    (hopened : place'.opened = place.opened)
    (hname : ps.head? = some (.mark '(') → place'.followsName = place.followsName) :
    Apart table place' ps := by
  cases ps with
  | nil => exact .nil
  | cons p ps =>
    refine .cons (h.head.move hquiet hopened) ?_
    have hadvance : place'.advance p = place.advance p := by
      unfold Place.advance
      rw [hopened]
      split
      · rename_i hp
        rw [hname (congrArg some hp)]
      · rfl
    rw [hadvance]
    exact h.tail

theorem Place.Allows.reopen {opened : List Bool} (h : place.Allows table p) (hp : p ≠ .mark ',') :
    Place.Allows table ⟨opened, place.before⟩ p :=
  ⟨h.reference, h.name, h.operand, h.joint, fun h => absurd h hp, h.equals⟩

/-- What is open does not matter where there are no commas. -/
theorem Apart.reopen (h : Apart table place ps) (hps : .mark ',' ∉ ps) (opened : List Bool) :
    Apart table ⟨opened, place.before⟩ ps := by
  induction ps generalizing place opened with
  | nil => exact .nil
  | cons p ps ih =>
    obtain ⟨hp, hrest⟩ := List.ne_and_not_mem_of_not_mem_cons hps
    exact .cons (h.head.reopen hp.symm) (ih h.tail hrest _)

/-- Segments without commas stand apart also by themselves. -/
theorem Apart.alone (h : Apart table place ps) (hps : .mark ',' ∉ ps) :
    Apart table Place.start ps := by
  cases ps with
  | nil => exact .nil
  | cons p ps =>
    obtain ⟨hp, hrest⟩ := List.ne_and_not_mem_of_not_mem_cons hps
    have hallows : Place.start.Allows table p :=
      ⟨h.head.reference, h.head.name, fun _ _ _ ⟨_, hf, _⟩ => absurd hf (by simp [Place.start]),
        h.head.joint, fun h => absurd h.symm hp,
        fun _ => ⟨by simp [Place.start], by simp [Place.start]⟩⟩
    exact .cons hallows (h.tail.reopen hrest _)

end Places

end Apart

section Spliced

/-- The segments of the text of a value. -/
inductive IsValue : List Segment → Prop
  | plain {n} : IsLiteral n → IsValue [.word n]
  | negative {n} : IsLiteral n → IsValue [.mark '(', .mark '-', .word n, .mark ')']

/-- That values take the places of operands: of line references, of names that no parenthesis
follows, and of calls. -/
inductive Spliced (table : FunctionTable) : List Segment → List Segment → Prop
  | nil : Spliced table [] []
  | same (p) {ps qs} : Spliced table ps qs → Spliced table (p :: ps) (p :: qs)
  | reference {w vs ps qs} : IsReference w → IsValue vs → Spliced table ps qs →
      Spliced table (.word w :: ps) (vs ++ qs)
  | name {w vs ps qs} : isIdentifier w = true → ps.head? ≠ some (.mark '(') → IsValue vs →
      Spliced table ps qs → Spliced table (.word w :: ps) (vs ++ qs)
  | call {f args vs ps qs} : isIdentifier f = true →
      (∀ rest, Reads table .primary
        (.word f :: .mark '(' :: args ++ .mark ')' :: rest) rest) →
      IsValue vs → Spliced table ps qs →
      Spliced table (.word f :: .mark '(' :: args ++ .mark ')' :: ps) (vs ++ qs)

section Words

variable {w : List Char}

theorem literal_head (h : IsLiteral w) : startsWith startsOperand w = false := by
  obtain ⟨n, rfl⟩ := h
  obtain ⟨c, r, hcons⟩ := List.exists_cons_of_ne_nil (numeral_text_ne_nil n)
  have hc : c ∈ n.text := by rw [hcons]; exact List.mem_cons_self
  rw [hcons]
  change startsOperand c = false
  unfold startsOperand
  rcases mem_numeral_text hc with hdigit | rfl
  · rw [isNameStart_of_isDigit hdigit, Bool.false_or, beq_eq_false_iff_ne]
    rintro rfl
    exact absurd hdigit (by decide)
  · decide

theorem isNameStart_head (h : startsWith startsOperand w = false) :
    startsWith isNameStart w = false := by
  cases w with
  | nil => rfl
  | cons c r => exact (Bool.or_eq_false_iff.mp h).1

theorem startsWith_of_identifier (h : isIdentifier w = true) :
    startsWith startsOperand w = true := by
  cases w with
  | nil => exact absurd h Bool.false_ne_true
  | cons c r =>
    change startsOperand c = true
    unfold startsOperand
    rw [(Bool.and_eq_true_iff.mp h).1, Bool.true_or]

theorem startsWith_of_reference (h : IsReference w) : startsWith startsOperand w = true := by
  obtain ⟨digits, _, _, rfl⟩ := h
  rfl

theorem not_identifier (h : startsWith startsOperand w = false) : isIdentifier w = false := by
  rw [Bool.eq_false_iff]
  intro hw
  rw [startsWith_of_identifier hw] at h
  exact absurd h.symm Bool.false_ne_true

theorem not_identifier_of_reference (h : IsReference w) : isIdentifier w = false := by
  obtain ⟨digits, _, _, rfl⟩ := h
  rfl

theorem at_not_mem_literal (h : IsLiteral w) : '@' ∉ w := by
  obtain ⟨n, rfl⟩ := h
  exact Scope.at_not_mem_numeral n

end Words

section Values

variable {table : FunctionTable} {place : Place} {vs : List Segment} {n : List Char}

theorem allows_word (hreference : '@' ∈ n → IsReference n)
    (hname : startsWith isNameStart n = true → isIdentifier n = true)
    (hoperand : startsWith startsOperand n = true → ¬ place.FollowsFunction table) :
    place.Allows table (.word n) :=
  ⟨fun _ h => Segment.word.inj h ▸ hreference, fun _ h => Segment.word.inj h ▸ hname,
    fun _ h => Segment.word.inj h ▸ hoperand, by simp, fun h => absurd h (by simp),
    fun h => absurd h (by simp)⟩

theorem allows_literal (h : IsLiteral n) (place : Place) : place.Allows table (.word n) := by
  have hhead := literal_head h
  refine allows_word (fun hat => absurd hat (at_not_mem_literal h)) (fun hname => ?_)
    fun hoperand => ?_
  · rw [isNameStart_head hhead] at hname
    exact absurd hname Bool.false_ne_true
  · rw [hhead] at hoperand
    exact absurd hoperand Bool.false_ne_true

theorem allows_mark {c : Char} (hcomma : c ≠ ',') (hequals : c ≠ '=') (place : Place) :
    place.Allows table (.mark c) :=
  ⟨fun _ h => absurd h (by simp), fun _ h => absurd h (by simp), fun _ h => absurd h (by simp),
    by simp, fun h => absurd (Segment.mark.inj h) hcomma,
    fun h => absurd (Segment.mark.inj h) hequals⟩

theorem quiet_word (h : isIdentifier n = false) (opened : List Bool) :
    Place.Quiet table ⟨opened, some (.word n)⟩ := by
  refine ⟨?_, by simp, by simp⟩
  rintro ⟨f, hf, hfunction⟩
  obtain rfl := Segment.word.inj (Option.some.inj hf)
  have hidentifier := hfunction.1
  rw [h] at hidentifier
  exact Bool.false_ne_true hidentifier

theorem quiet_closing (opened : List Bool) : Place.Quiet table ⟨opened, some (.mark ')')⟩ :=
  ⟨fun ⟨_, hf, _⟩ => absurd hf (by simp), by simp, by simp⟩

/-- A value may stand anywhere, and nothing is refused after it. -/
theorem IsValue.apart (h : IsValue vs) (table : FunctionTable) (place : Place) :
    Apart table place vs ∧ (place.after vs).opened = place.opened ∧
      (place.after vs).Quiet table ∧ (place.after vs).followsName = false := by
  cases h with
  | @plain n h =>
    have hn := not_identifier (literal_head h)
    exact ⟨.cons (allows_literal h place) .nil, rfl, quiet_word hn _, hn⟩
  | @negative n h =>
    have happart : Apart table place [.mark '(', .mark '-', .word n, .mark ')'] :=
      .cons (allows_mark (by decide) (by decide) _) <|
        .cons (allows_mark (by decide) (by decide) _) <| .cons (allows_literal h _) <|
          .cons (allows_mark (by decide) (by decide) _) .nil
    exact ⟨happart, rfl, quiet_closing _, rfl⟩

end Values

section Splices

variable {table : FunctionTable} {place : Place} {ps qs rest : List Segment} {q : Segment}

/-- Where operands stand apart, they do so with values in the places of some of them. -/
theorem Spliced.apart (h : Spliced table ps qs) (ha : Apart table place ps) :
    Apart table place qs := by
  have hvalue : ∀ {vs ps qs : List Segment} {place place' : Place}, IsValue vs →
      (∀ {place}, Apart table place ps → Apart table place qs) → Apart table place' ps →
      place'.opened = place.opened →
      (ps.head? = some (.mark '(') → place'.followsName = false) →
      Apart table place (vs ++ qs) := by
    intro vs ps qs place place' hv ih ha hopened hname
    obtain ⟨hvs, hafter, hquiet, hnone⟩ := hv.apart table place
    refine apart_append.mpr ⟨hvs, ih (ha.move hquiet (hafter.trans hopened.symm) fun hhead => ?_)⟩
    rw [hnone, hname hhead]
  induction h generalizing place with
  | nil => exact .nil
  | same p _ ih => exact .cons ha.head (ih ha.tail)
  | @reference w vs ps qs hw hv _ ih =>
    exact hvalue hv ih ha.tail (advance_opened (by simp) (by simp))
      fun _ => not_identifier_of_reference hw
  | @name w vs ps qs hw hhead hv _ ih =>
    exact hvalue hv ih ha.tail (advance_opened (by simp) (by simp)) fun h => absurd h hhead
  | @call f args vs ps qs hf hreads hv _ ih =>
    obtain ⟨as, has, hopened⟩ := (hreads ps).opened
    have hcall : Segment.word f :: .mark '(' :: args ++ [.mark ')'] = as := by
      have hboth : (Segment.word f :: .mark '(' :: args ++ [.mark ')']) ++ ps = as ++ ps := by
        rw [← has]
        simp
      exact List.append_cancel_right hboth
    have hsplit : Segment.word f :: .mark '(' :: args ++ .mark ')' :: ps =
        (.word f :: .mark '(' :: args ++ [.mark ')']) ++ ps := by simp
    rw [hsplit] at ha
    refine hvalue hv ih (apart_append.mp ha).2 (hcall ▸ hopened place) fun _ => ?_
    rw [after_append]
    rfl

/-- That an operand, which is a word or starts with one, can be read at the beginning. -/
def StartsPrimary (table : FunctionTable) (ps rest : List Segment) : Prop :=
  Reads table .primary ps rest ∧
    ∃ w later, ps = .word w :: later ∧ startsWith startsOperand w = true

/-- A segment is kept, or a value begins with it. -/
theorem Spliced.cases_cons (h : Spliced table ps (q :: qs)) :
    (∃ later, ps = q :: later ∧ Spliced table later qs) ∨
    (∃ n later, IsLiteral n ∧ q = .word n ∧ StartsPrimary table ps later ∧
      Spliced table later qs) ∨
    ∃ n later qs', IsLiteral n ∧ q = .mark '(' ∧ qs = .mark '-' :: .word n :: .mark ')' :: qs' ∧
      StartsPrimary table ps later ∧ Spliced table later qs' := by
  have hvalue : ∀ {vs later qs' : List Segment}, IsValue vs → q :: qs = vs ++ qs' →
      StartsPrimary table ps later → Spliced table later qs' →
      (∃ n later, IsLiteral n ∧ q = .word n ∧ StartsPrimary table ps later ∧
        Spliced table later qs) ∨
      ∃ n later qs', IsLiteral n ∧ q = .mark '(' ∧ qs = .mark '-' :: .word n :: .mark ')' :: qs' ∧
        StartsPrimary table ps later ∧ Spliced table later qs' := by
    intro vs later qs' hv hq hstarts hlater
    cases hv with
    | @plain n hn =>
      obtain ⟨rfl, rfl⟩ := List.cons.inj hq
      exact Or.inl ⟨n, later, hn, rfl, hstarts, hlater⟩
    | @negative n hn =>
      obtain ⟨rfl, rfl⟩ := List.cons.inj hq
      exact Or.inr ⟨n, later, qs', hn, rfl, rfl, hstarts, hlater⟩
  generalize hq : q :: qs = qs₀ at h
  cases h with
  | nil => exact absurd hq (List.cons_ne_nil q qs)
  | @same p ps' qs' h =>
    obtain ⟨rfl, rfl⟩ := List.cons.inj hq
    exact Or.inl ⟨ps', rfl, h⟩
  | @reference w vs ps' qs' hw hv h =>
    exact Or.inr (hvalue hv hq
      ⟨.operand (Or.inr (Or.inr hw)), w, ps', rfl, startsWith_of_reference hw⟩ h)
  | @name w vs ps' qs' hw _ hv h =>
    exact Or.inr (hvalue hv hq
      ⟨.operand (Or.inr (Or.inl hw)), w, ps', rfl, startsWith_of_identifier hw⟩ h)
  | @call f args vs ps' qs' hf hreads hv h =>
    exact Or.inr (hvalue hv hq ⟨hreads ps', f, _, rfl, startsWith_of_identifier hf⟩ h)

/-- A mark that is no opening parenthesis is kept. -/
theorem Spliced.of_mark {c : Char} (h : Spliced table ps (.mark c :: qs)) (hc : c ≠ '(') :
    ∃ later, ps = .mark c :: later ∧ Spliced table later qs := by
  rcases h.cases_cons with h | ⟨n, _, _, hq, _⟩ | ⟨_, _, _, _, hq, _⟩
  · exact h
  · exact absurd hq (by simp)
  · exact absurd (Segment.mark.inj hq) hc

/-- A name is kept. -/
theorem Spliced.of_name {f : List Char} (h : Spliced table ps (.word f :: qs))
    (hf : isIdentifier f = true) : ∃ later, ps = .word f :: later ∧ Spliced table later qs := by
  rcases h.cases_cons with h | ⟨n, _, hn, hq, _⟩ | ⟨_, _, _, _, hq, _⟩
  · exact h
  · obtain rfl := Segment.word.inj hq
    rw [not_identifier (literal_head hn)] at hf
    exact absurd hf Bool.false_ne_true
  · exact absurd hq (by simp)

/-- The parenthesis of a call is kept, where operands stand apart. -/
theorem Spliced.of_call {f : List Char} (h : Spliced table ps (.word f :: .mark '(' :: qs))
    (hf : IsFunction table f) (ha : Apart table place ps) :
    ∃ later, ps = .word f :: .mark '(' :: later ∧ Spliced table later qs := by
  obtain ⟨ms, rfl, hms⟩ := h.of_name hf.1
  rcases hms.cases_cons with ⟨later, rfl, hlater⟩ | ⟨n, _, _, hq, _⟩ |
    ⟨_, _, _, _, _, _, hstarts, _⟩
  · exact ⟨later, rfl, hlater⟩
  · exact absurd hq (by simp)
  · -- the parenthesis would be that of a negative value
    obtain ⟨_, w, _, rfl, hw⟩ := hstarts
    exact absurd ⟨f, rfl, hf⟩ (ha.tail.head.operand w rfl hw)

/-- In the parentheses of a negative value nothing is read but the value. -/
theorem reads_negative {n : List Char}
    (h : Reads table .expr (.mark '-' :: .word n :: .mark ')' :: qs) (.mark ')' :: rest)) :
    rest = qs := by
  have hunary : ∀ {rest : List Segment},
      Reads table .unary (.mark '-' :: .word n :: .mark ')' :: qs) rest →
      rest = .mark ')' :: qs := by
    intro rest h
    cases h with
    | plain h => cases h
    | neg h => cases h with
      | operand _ => rfl
  cases h with
  | last h => exact (List.cons.inj (hunary h)).2
  | chain op h _ =>
    have hmark := Segment.mark.inj (List.cons.inj (hunary h)).1
    exact absurd hmark (by cases op <;> decide)

/-- What is read with values in the places of operands is read without them. -/
theorem Spliced.reads {reading : Reading} (h : Reads table reading qs rest)
    (hs : Spliced table ps qs) (ha : Apart table place ps) :
    ∃ later, Reads table reading ps later ∧ Spliced table later rest := by
  have hrest : ∀ {reading : Reading} {ps later : List Segment} {place : Place},
      Reads table reading ps later → Apart table place ps → ∃ place, Apart table place later := by
    intro reading ps later place h ha
    obtain ⟨as, rfl, _⟩ := h.opened
    exact ⟨_, (apart_append.mp ha).2⟩
  induction h generalizing ps place with
  | @operand w rest hw =>
    rcases hs.cases_cons with ⟨later, rfl, h⟩ | ⟨_, later, _, _, hstarts, h⟩ | ⟨_, _, _, _, hq, _⟩
    · exact ⟨later, .operand hw, h⟩
    · exact ⟨later, hstarts.1, h⟩
    · exact absurd hq (by simp)
  | @group qs rest hinner ih =>
    rcases hs.cases_cons with ⟨later, rfl, h⟩ | ⟨_, _, _, hq, _⟩ |
      ⟨n, later, qs', _, _, rfl, hstarts, h⟩
    · obtain ⟨inner, hreads, hclosing⟩ := ih h ha.tail
      obtain ⟨later, rfl, h⟩ := hclosing.of_mark (by decide)
      exact ⟨later, .group hreads, h⟩
    · exact absurd hq (by simp)
    · obtain rfl := reads_negative hinner
      exact ⟨later, hstarts.1, h⟩
  | @empty f rest hf =>
    obtain ⟨ms, rfl, hms⟩ := hs.of_call hf ha
    obtain ⟨later, rfl, h⟩ := hms.of_mark (by decide)
    exact ⟨later, .empty hf, h⟩
  | @call f qs rest hf _ ih =>
    obtain ⟨later, rfl, h⟩ := hs.of_call hf ha
    obtain ⟨inner, hreads, hclosing⟩ := ih h ha.tail.tail
    obtain ⟨later, rfl, h⟩ := hclosing.of_mark (by decide)
    exact ⟨later, .call hf hreads, h⟩
  | plain _ ih =>
    obtain ⟨later, hreads, h⟩ := ih hs ha
    exact ⟨later, .plain hreads, h⟩
  | neg _ ih =>
    obtain ⟨ms, rfl, hms⟩ := hs.of_mark (by decide)
    obtain ⟨later, hreads, h⟩ := ih hms ha.tail
    exact ⟨later, .neg hreads, h⟩
  | last _ ih =>
    obtain ⟨later, hreads, h⟩ := ih hs ha
    exact ⟨later, .last hreads, h⟩
  | chain op _ _ ihl ihr =>
    obtain ⟨middle, hleft, hmiddle⟩ := ihl hs ha
    obtain ⟨ms, rfl, hms⟩ := hmiddle.of_mark (by cases op <;> decide)
    obtain ⟨_, hmark⟩ := hrest hleft ha
    obtain ⟨later, hright, h⟩ := ihr hms hmark.tail
    exact ⟨later, .chain op hleft hright, h⟩
  | argument _ ih =>
    obtain ⟨later, hreads, h⟩ := ih hs ha
    exact ⟨later, .argument hreads, h⟩
  | comma _ _ ihl ihr =>
    obtain ⟨middle, hleft, hmiddle⟩ := ihl hs ha
    obtain ⟨ms, rfl, hms⟩ := hmiddle.of_mark (by decide)
    obtain ⟨_, hmark⟩ := hrest hleft ha
    obtain ⟨later, hright, h⟩ := ihr hms hmark.tail
    exact ⟨later, .comma hleft hright, h⟩

/-- Values bring no segments of their own but words, parentheses and minus signs. -/
theorem Spliced.sublist {l : List Segment} (h : Spliced table ps qs)
    (hl : ∀ p ∈ l, ∀ vs, IsValue vs → p ∉ vs) (hsub : l.Sublist qs) : l.Sublist ps := by
  have hvalue : ∀ {vs qs l : List Segment}, IsValue vs → (∀ p ∈ l, ∀ vs, IsValue vs → p ∉ vs) →
      l.Sublist (vs ++ qs) → l.Sublist qs := by
    intro vs qs l hv hl hsub
    obtain ⟨l₁, l₂, rfl, h₁, h₂⟩ := List.sublist_append_iff.mp hsub
    obtain rfl : l₁ = [] := List.eq_nil_iff_forall_not_mem.mpr fun p hp =>
      hl p (List.mem_append_left _ hp) vs hv (h₁.subset hp)
    exact h₂
  induction h generalizing l with
  | nil => exact hsub
  | same p _ ih =>
    cases hsub with
    | cons _ h => exact (ih hl h).cons p
    | cons_cons _ h => exact (ih (fun q hq => hl q (List.mem_cons_of_mem p hq)) h).cons_cons p
  | reference _ hv _ ih | name _ _ hv _ ih => exact (ih hl (hvalue hv hl hsub)).cons _
  | @call f args vs ps qs _ _ hv _ ih =>
    have hps : l.Sublist ps := ih hl (hvalue hv hl hsub)
    exact hps.trans ((List.sublist_cons_self _ ps).trans
      (List.sublist_append_right (.word f :: .mark '(' :: args) (.mark ')' :: ps)))

/-- Marks that no value has. -/
theorem not_mem_value {c : Char} (hc : c ∉ ['(', '-', ')']) {vs : List Segment} (h : IsValue vs) :
    .mark c ∉ vs := by
  cases h <;> simp_all

end Splices

end Spliced

end Reckoner.Formula
