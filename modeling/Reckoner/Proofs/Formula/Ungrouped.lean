import Reckoner.Proofs.Formula.Undressed

/-!
The scan for thousands separators in dressed texts. What the scan knows about the text before it
fits the place of the next lexeme: it has the same parentheses open around it, and a name of a call
before a parenthesis exactly if there is one. So the commas go exactly from the numerals that are
set in groups.
-/
namespace Reckoner.Formula

open Text Number Arith

variable {dress : Dress} {around : Surroundings} {o : Enclosure} {a : Lexeme} {ls ms : List Lexeme}
  {inside : Bool} {gap s t w digits : List Char} {c : Char}

section Surroundings

namespace Surroundings

/-- What is known after more text. -/
def after (around : Surroundings) (t : List Char) : Surroundings := t.foldl advance around

theorem after_cons (around : Surroundings) (c : Char) (t : List Char) :
    around.after (c :: t) = (around.advance c).after t := rfl

theorem after_append (around : Surroundings) (s t : List Char) :
    around.after (s ++ t) = (around.after s).after t := List.foldl_append ..

theorem advance_parens (hopening : c ≠ '(') (hclosing : c ≠ ')') :
    (around.advance c).parens = around.parens := by
  unfold advance
  rw [if_neg hopening, if_neg hclosing]
  split
  · rfl
  · split <;> rfl

theorem after_parens (h : ∀ c ∈ t, c ≠ '(' ∧ c ≠ ')') :
    (around.after t).parens = around.parens := by
  induction t generalizing around with
  | nil => rfl
  | cons c t ih =>
    obtain ⟨hc, ht⟩ := List.forall_mem_cons.mp h
    rw [after_cons, ih ht, advance_parens hc.1 hc.2]

theorem insideCall_eq {around' : Surroundings} (h : around.parens = around'.parens) :
    around.insideCall = around'.insideCall := by
  unfold insideCall
  rw [h]

/-- After a mark no word is known. -/
theorem advance_mark (around : Surroundings) (hc : isOperandChar c = false) (hblank : isBlank c = false) :
    (around.advance c).word = none ∧ (around.advance c).last = some c := by
  have hword : isWord c = false := by
    rw [Bool.eq_false_iff]
    exact fun h => Bool.false_ne_true (hc.symm.trans (isOperandChar_of_isWord h))
  have hspace : c ≠ ' ' := by
    rintro rfl
    exact absurd hblank (by decide)
  unfold advance
  rw [hword, if_neg Bool.false_ne_true, if_neg hspace]
  exact ⟨rfl, rfl⟩

theorem advance_blank (around : Surroundings) (hc : isBlank c = true) :
    (around.word = none → (around.advance c).word = none) ∧ (around.advance c).last = some c := by
  unfold advance
  rw [isWord_of_isBlank hc, if_neg Bool.false_ne_true]
  split
  · exact ⟨id, rfl⟩
  · exact ⟨fun _ => rfl, rfl⟩

/-- Spaces change nothing about the word before. -/
theorem after_spaces (around : Surroundings) (h : ∀ c ∈ gap, c = ' ') : (around.after gap).word = around.word := by
  induction gap generalizing around with
  | nil => rfl
  | cons c gap ih =>
    obtain ⟨rfl, hgap⟩ := List.forall_mem_cons.mp h
    rw [after_cons, ih _ hgap]
    unfold advance
    rw [if_neg (by decide), if_pos rfl]

/-- A word is known by its first character. -/
theorem after_word (hc : isWord c = true) (ht : ∀ d ∈ t, isWord d = true)
    (hword : around.spaced = true ∨ around.word = none) :
    (around.after (c :: t)).word = some c := by
  have hrest : ∀ {around : Surroundings}, around.word = some c ∧ around.spaced = false →
      (around.after t).word = some c := by
    induction t with
    | nil => exact fun h => h.1
    | cons d t ih =>
      intro around h
      obtain ⟨hd, ht⟩ := List.forall_mem_cons.mp ht
      rw [after_cons]
      refine ih ht ?_
      unfold advance
      rw [if_pos hd, h.1, h.2]
      exact ⟨rfl, rfl⟩
  rw [after_cons]
  refine hrest ?_
  unfold advance
  rw [if_pos hc]
  refine ⟨if_pos ?_, rfl⟩
  rcases hword with hspaced | hnone
  · rw [hspaced, Bool.true_or]
  · rw [hnone, Option.isNone_none, Bool.or_true]

end Surroundings

theorem isAlphabetic_of_isNameStart (h : isNameStart c = true) :
    (isAlphabetic c || c == '_') = true := by
  have hascii := (isNameStart_ascii h).1
  unfold isAlphabetic
  rw [if_pos hascii]
  exact h

end Surroundings

section Scan

theorem ungroupFrom_other (hc : isDigitOrComma c = false) (within : Bool) (s : List Char) :
    ungroupFrom around within (c :: s) = c :: ungroupFrom (around.advance c) false s := by
  rw [ungroupFrom, hc, if_neg Bool.false_ne_true, Bool.false_and, if_neg Bool.false_ne_true]

/-- Where no grouped number starts, the character is kept. -/
theorem ungroupFrom_kept (h : (around.allowsNumber && !around.insideCall
      && isGrouped ((c :: s).takeWhile isDigitOrComma)) = false) :
    ungroupFrom around false (c :: s) = c :: ungroupFrom (around.advance c) false s := by
  rw [ungroupFrom, h, Bool.false_or, ite_self, Bool.false_and, if_neg Bool.false_ne_true]

theorem ungroupFrom_inside (h : around.insideCall = true) (c : Char) (s : List Char) :
    ungroupFrom around false (c :: s) = c :: ungroupFrom (around.advance c) false s :=
  ungroupFrom_kept (by rw [h, Bool.not_true, Bool.and_false, Bool.false_and])

/-- Digits alone are no grouped number. -/
theorem isGrouped_digits (h : ',' ∉ s) (hs : ∀ c ∈ s, isDigitOrComma c = true) :
    isGrouped s = false := by
  have hdigits : ∀ c ∈ s, isDigit c = true := by
    intro c hc
    have hchar := hs c hc
    unfold isDigitOrComma at hchar
    rcases Bool.or_eq_true_iff.mp hchar with hdigit | hcomma
    · exact hdigit
    · exact absurd (eq_of_beq hcomma ▸ hc) h
  have hnone : s.dropWhile isDigit = [] := List.dropWhile_eq_nil_iff.mpr hdigits
  unfold isGrouped
  dsimp only
  rw [hnone]
  simp

theorem takeWhile_sublist_left {p : Char → Bool} (hs : ∀ c ∈ s.head?, p c = false) (t : List Char) :
    ((t ++ s).takeWhile p).Sublist t := by
  have hnone : s.takeWhile p = [] := by
    cases s with
    | nil => rfl
    | cons c s => rw [takeWhile_cons_of_false (hs c rfl)]
  rw [List.takeWhile_append, hnone, List.append_nil]
  split
  · exact List.Sublist.refl _
  · exact List.takeWhile_sublist _

/-- A text without commas and parentheses is kept. -/
theorem ungroupFrom_solid (ht : ∀ c ∈ t, c ≠ ',' ∧ c ≠ '(' ∧ c ≠ ')')
    (hs : around.insideCall = true ∨ ∀ c ∈ s.head?, isDigitOrComma c = false) :
    ungroupFrom around false (t ++ s) = t ++ ungroupFrom (around.after t) false s := by
  induction t generalizing around with
  | nil => rfl
  | cons c t ih =>
    obtain ⟨hc, ht'⟩ := List.forall_mem_cons.mp ht
    have hparens : (around.advance c).insideCall = around.insideCall :=
      Surroundings.insideCall_eq (Surroundings.advance_parens hc.2.1 hc.2.2)
    have hrest : ungroupFrom (around.advance c) false (t ++ s) = _ := ih ht' (hparens ▸ hs)
    rw [List.cons_append, List.cons_append, Surroundings.after_cons, ← hrest]
    rcases hs with hs | hs
    · exact ungroupFrom_inside hs c (t ++ s)
    · have hrun := takeWhile_sublist_left hs (c :: t)
      have hnone := isGrouped_digits (fun hmem => (ht _ (hrun.subset hmem)).1 rfl)
        fun d hd => List.mem_takeWhile_imp hd
      exact ungroupFrom_kept (by rw [← List.cons_append, hnone, Bool.and_false])

/-- In a grouped number the commas go. -/
theorem ungroupFrom_within (ht : ∀ c ∈ t, isDigitOrComma c = true)
    (hs : ∀ c ∈ s.head?, isDigitOrComma c = false) :
    ungroupFrom around true (t ++ s) =
      t.filter (· != ',') ++ ungroupFrom (around.after t) false s := by
  induction t generalizing around with
  | nil =>
    cases s with
    | nil => rfl
    | cons c s =>
      rw [List.nil_append, ungroupFrom_other (hs c rfl), List.filter_nil, List.nil_append]
      exact (ungroupFrom_other (hs c rfl) false s).symm
  | cons c t ih =>
    obtain ⟨hc, ht⟩ := List.forall_mem_cons.mp ht
    rw [List.cons_append, ungroupFrom, hc, if_pos rfl, Bool.true_or, Bool.true_and, ih ht,
      Surroundings.after_cons]
    by_cases hcomma : c = ','
    · subst hcomma
      rw [beq_self_eq_true, if_pos rfl, List.filter_cons_of_neg (by decide)]
    · rw [beq_eq_false_iff_ne.mpr hcomma, if_neg Bool.false_ne_true,
        List.filter_cons_of_pos (by simpa using hcomma), List.cons_append]

end Scan

section Grouping

theorem isDigit_comma : isDigit ',' = false := by decide

theorem isGroups_flatMap {groups : List (List Char)}
    (h : ∀ g ∈ groups, g.length = 3 ∧ AllDigits g) :
    isGroups (groups.flatMap fun g => ',' :: g) = true := by
  induction groups with
  | nil => rfl
  | cons g groups ih =>
    obtain ⟨⟨hlength, hdigits⟩, hgroups⟩ := List.forall_mem_cons.mp h
    obtain ⟨x, y, z, rfl⟩ := List.length_eq_three.mp hlength
    have hx := hdigits x (by simp)
    have hy := hdigits y (by simp)
    have hz := hdigits z (by simp)
    rw [List.flatMap_cons]
    change isGroups (',' :: x :: y :: z :: groups.flatMap fun g => ',' :: g) = true
    rw [isGroups, hx, hy, hz, ih hgroups]
    rfl

/-- Digits that are set in groups are a grouped number, and without the commas they are the
digits. -/
theorem Grouping.isGrouped (h : Grouping digits w) (hdigits : AllDigits digits) :
    Formula.isGrouped w = true := by
  obtain ⟨head, groups, hleast, hmost, hne, hthree, rfl, rfl⟩ := h
  have hhead : ∀ c ∈ head, isDigit c = true := fun c hc => hdigits c (List.mem_append_left _ hc)
  have hgroups : ∀ g ∈ groups, g.length = 3 ∧ AllDigits g := fun g hg =>
    ⟨hthree g hg, fun c hc =>
      hdigits c (List.mem_append_right _ (List.mem_flatten.mpr ⟨g, hg, hc⟩))⟩
  have hstop : ∀ c ∈ (groups.flatMap fun g => ',' :: g).head?, isDigit c = false := by
    obtain ⟨g, rest, rfl⟩ := List.exists_cons_of_ne_nil hne
    intro c hc
    obtain rfl := Option.some.inj hc
    exact isDigit_comma
  have hnonempty : (groups.flatMap fun g => ',' :: g).isEmpty = false := by
    obtain ⟨g, rest, rfl⟩ := List.exists_cons_of_ne_nil hne
    rfl
  unfold Formula.isGrouped
  dsimp only
  rw [takeWhile_append_stop hhead hstop, dropWhile_append_stop hhead hstop, hnonempty,
    isGroups_flatMap hgroups]
  simp [hleast, hmost]

theorem Grouping.filter (h : Grouping digits w) (hdigits : AllDigits digits) :
    w.filter (· != ',') = digits := by
  obtain ⟨head, groups, _, _, _, _, rfl, rfl⟩ := h
  have hkept : ∀ t : List Char, AllDigits t → t.filter (· != ',') = t := by
    intro t ht
    refine List.filter_eq_self.mpr fun c hc => ?_
    have hne : c ≠ ',' := by
      rintro rfl
      exact absurd ((ht _ hc).symm.trans isDigit_comma) (by decide)
    simpa using hne
  rw [List.filter_append, hkept head fun c hc => hdigits c (List.mem_append_left _ hc)]
  congr 1
  have hgroups : AllDigits groups.flatten := fun c hc => hdigits c (List.mem_append_right _ hc)
  rw [← hkept _ hgroups, List.filter_flatMap, List.filter_flatten, List.flatMap_def]
  rfl

theorem Grouping.digits_or_commas (h : Grouping digits w) (hdigits : AllDigits digits) :
    ∀ c ∈ w, isDigitOrComma c = true := by
  intro c hc
  unfold isDigitOrComma
  rcases h.mem c hc with hc | rfl
  · rw [hdigits c hc, Bool.true_or]
  · rfl

theorem Grouping.exists_cons (h : Grouping digits w) (hdigits : AllDigits digits) :
    ∃ c r, w = c :: r ∧ isDigit c = true := by
  obtain ⟨head, groups, hleast, _, _, _, rfl, rfl⟩ := h
  obtain ⟨c, r, rfl⟩ := List.exists_cons_of_length_pos hleast
  exact ⟨c, _, rfl, hdigits c List.mem_cons_self⟩

/-- The commas of a numeral that is set in groups are removed. -/
theorem ungroupFrom_grouping (h : Grouping digits w) (hdigits : AllDigits digits)
    (hallowed : around.allowsNumber = true) (hinside : around.insideCall = false)
    (hs : ∀ c ∈ s.head?, isDigitOrComma c = false) :
    ungroupFrom around false (w ++ s) = digits ++ ungroupFrom (around.after w) false s := by
  have hgrouped := h.isGrouped hdigits
  have hchars := h.digits_or_commas hdigits
  have hrun := takeWhile_append_stop hchars hs
  have hfilter := h.filter hdigits
  obtain ⟨c, r, rfl, hc⟩ := h.exists_cons hdigits
  obtain ⟨hchar, hrest⟩ := List.forall_mem_cons.mp hchars
  have hne : c ≠ ',' := by
    rintro rfl
    exact absurd (hc.symm.trans isDigit_comma) (by decide)
  rw [List.filter_cons_of_pos (by simpa using hne)] at hfilter
  rw [List.cons_append] at hrun ⊢
  rw [ungroupFrom, hchar, if_pos rfl, hrun, hgrouped, hallowed, hinside, Surroundings.after_cons,
    ← hfilter, beq_eq_false_iff_ne.mpr hne]
  change c :: ungroupFrom _ true (r ++ s) = _
  rw [ungroupFrom_within hrest hs]
  rfl

end Grouping

section Commas

/-- That every comma lies within a call. -/
def CommasInCalls : Enclosure → List Lexeme → Prop
  | _, [] => True
  | o, a :: ls => (a = .comma → o.insideCall = true) ∧ CommasInCalls (o.advance a) ls

theorem CommasInCalls.cons (ha : a ≠ .comma) (h : CommasInCalls (o.advance a) ls) :
    CommasInCalls o (a :: ls) :=
  ⟨fun hcomma => absurd hcomma ha, h⟩

theorem commasInCalls_joined {args : List Expr} {calls : List Bool}
    (h : ∀ e ∈ args, ∀ ls, CommasInCalls ⟨true :: calls, false⟩ ls →
      CommasInCalls ⟨true :: calls, false⟩ (e.lexemes ++ ls))
    (hls : CommasInCalls ⟨true :: calls, false⟩ ls) :
    CommasInCalls ⟨true :: calls, false⟩ (joined (args.map fun e => e.lexemes) ++ ls) := by
  have hmore : ∀ rest : List Expr, (∀ e ∈ rest, ∀ ls, CommasInCalls ⟨true :: calls, false⟩ ls →
      CommasInCalls ⟨true :: calls, false⟩ (e.lexemes ++ ls)) →
      CommasInCalls ⟨true :: calls, false⟩
        (((rest.map fun e => e.lexemes).flatMap fun more => .comma :: more) ++ ls) := by
    intro rest hrest
    induction rest with
    | nil => exact hls
    | cons e rest ih =>
      obtain ⟨he, hrest⟩ := List.forall_mem_cons.mp hrest
      rw [List.map_cons, List.flatMap_cons, List.cons_append, List.cons_append, List.append_assoc]
      exact ⟨fun _ => rfl, he _ (ih hrest)⟩
  cases args with
  | nil => exact hls
  | cons e rest =>
    obtain ⟨he, hrest⟩ := List.forall_mem_cons.mp h
    rw [List.map_cons, joined, List.append_assoc]
    exact he _ (hmore rest hrest)

/-- The commas of an expression lie within its calls. -/
theorem commasInCalls_lexemes (e : Expr) {calls : List Bool} {ls : List Lexeme}
    (h : CommasInCalls ⟨calls, false⟩ ls) : CommasInCalls ⟨calls, false⟩ (e.lexemes ++ ls) := by
  induction e generalizing calls ls with
  | numeral n => rw [Expr.lexemes]; exact .cons (by simp) h
  | name n => rw [Expr.lexemes]; exact .cons (by simp) h
  | line r => rw [Expr.lexemes]; exact .cons (by simp) h
  | group e ih =>
    have hinner : CommasInCalls ⟨false :: calls, false⟩ (.closing :: ls) := .cons (by simp) h
    rw [Expr.lexemes, List.cons_append, List.cons_append, List.append_assoc]
    exact .cons (by simp) (ih hinner)
  | neg spaced e ih =>
    rw [Expr.lexemes]
    exact .cons (by simp) (ih h)
  | binary op l r ihl ihr =>
    have hright : CommasInCalls ⟨calls, false⟩ (.operator op :: (r.lexemes ++ ls)) :=
      .cons (by simp) (ihr h)
    rw [Expr.lexemes, List.append_assoc]
    exact ihl hright
  | call f args ih =>
    have hinner : CommasInCalls ⟨true :: calls, false⟩ (.closing :: ls) := .cons (by simp) h
    rw [Expr.lexemes, List.cons_append, List.cons_append, List.cons_append, List.cons_append,
      List.append_assoc]
    exact .cons (by simp) (.cons (by simp)
      (commasInCalls_joined (fun e he _ hls => ih e he hls) hinner))

end Commas

section Places

/-- That what the scan knows fits the place of the next lexeme. -/
structure Fits (around : Surroundings) (o : Enclosure) (ls : List Lexeme) : Prop where
  parens : around.parens = o.calls
  callee : o.callee = true → around.followsName = true
  fresh : o.callee = false → ∀ a ∈ ls.head?, a.starts = true →
    around.word = none ∧ (around.insideCall = false → around.allowsNumber = true)

theorem Fits.insideCall (h : Fits around o ls) : around.insideCall = o.insideCall := by
  unfold Surroundings.insideCall Enclosure.insideCall
  rw [h.parens]

theorem fits_start (ls : List Lexeme) : Fits .start .start ls :=
  ⟨rfl, fun h => absurd h Bool.false_ne_true, fun _ _ _ _ => ⟨rfl, fun _ => rfl⟩⟩

theorem allowsNumber_of_last (h : around.last = some c)
    (hc : isDigitOrComma c = false) (hpoint : c ≠ '.') : around.allowsNumber = true := by
  unfold Surroundings.allowsNumber
  rw [h]
  change (!(isDigitOrComma c || c == '.')) = true
  rw [hc, beq_eq_false_iff_ne.mpr hpoint]
  rfl

theorem isDigitOrComma_blank (h : isBlank c = true) : isDigitOrComma c = false ∧ c ≠ '.' := by
  refine ⟨?_, ?_⟩
  · unfold isDigitOrComma
    rw [Bool.or_eq_false_iff]
    refine ⟨Bool.eq_false_iff.mpr fun hdigit => ?_, beq_eq_false_iff_ne.mpr ?_⟩
    · rw [isBlank_of_isWord (isWord_of_isDigit hdigit)] at h
      exact Bool.false_ne_true h
    · rintro rfl
      exact absurd h (by decide)
  · rintro rfl
    exact absurd h (by decide)

theorem not_parens_blank (h : ∀ c ∈ gap, isBlank c = true) : ∀ c ∈ gap, c ≠ '(' ∧ c ≠ ')' :=
  fun c hc => (solid_blank (h c hc)).2

/-- White space before a lexeme changes nothing for it. -/
theorem Fits.after_gap (h : Fits around o (a :: ls)) (hblank : ∀ c ∈ gap, isBlank c = true)
    (hspaces : o.callee = true → ∀ c ∈ gap, c = ' ') : Fits (around.after gap) o (a :: ls) := by
  refine ⟨?_, fun ho => ?_, fun ho b hb hstarts => ?_⟩
  · rw [Surroundings.after_parens (not_parens_blank hblank)]
    exact h.parens
  · have hword := Surroundings.after_spaces around (hspaces ho)
    unfold Surroundings.followsName
    rw [hword]
    exact h.callee ho
  · obtain ⟨hword, hallowed⟩ := h.fresh ho b hb hstarts
    clear h hspaces
    induction gap generalizing around with
    | nil => exact ⟨hword, hallowed⟩
    | cons c gap ih =>
      obtain ⟨hc, hgap⟩ := List.forall_mem_cons.mp hblank
      obtain ⟨hword', hlast⟩ := Surroundings.advance_blank around hc
      obtain ⟨hchar, hpoint⟩ := isDigitOrComma_blank hc
      exact ih hgap (hword' hword) fun _ => allowsNumber_of_last hlast hchar hpoint

/-- After a word comes something that joins operands. -/
theorem Fits.word {around' : Surroundings} (hparens : around'.parens = o.calls)
    (hnext : ∀ b ∈ ls.head?, b.joins = true) : Fits around' ⟨o.calls, false⟩ ls := by
  refine ⟨hparens, fun h => absurd h Bool.false_ne_true, fun _ b hb hstarts => ?_⟩
  have hjoins := hnext b hb
  cases b <;> first | exact absurd hstarts Bool.false_ne_true | exact absurd hjoins Bool.false_ne_true

/-- After a mark a word or a number may start. -/
theorem Fits.mark {o' : Enclosure} (hc : c ∈ commonMarks) (hcomma : c = ',' → o'.insideCall = true)
    (hparens : (around.advance c).parens = o'.calls) (ho : o'.callee = false) :
    Fits (around.advance c) o' ls := by
  obtain ⟨hoperand, hblank⟩ := commonMark hc
  obtain ⟨hword, hlast⟩ := Surroundings.advance_mark around hoperand hblank
  refine ⟨hparens, fun h => absurd (ho.symm.trans h) Bool.false_ne_true, fun _ _ _ _ =>
    ⟨hword, fun hinside => ?_⟩⟩
  have hne : c ≠ ',' := by
    intro h
    unfold Surroundings.insideCall at hinside
    rw [hparens] at hinside
    exact Bool.false_ne_true (hinside.symm.trans (hcomma h))
  refine allowsNumber_of_last hlast ?_ ?_
  · unfold isDigitOrComma
    rw [Bool.or_eq_false_iff]
    refine ⟨Bool.eq_false_iff.mpr fun hdigit => ?_, beq_eq_false_iff_ne.mpr hne⟩
    exact Bool.false_ne_true (hoperand.symm.trans (isOperandChar_of_isDigit hdigit))
  · rintro rfl
    exact absurd hoperand (by decide)

theorem Spelling.not_parens (h : Spelling dress inside a w) (ha : a.isMark = false) :
    ∀ c ∈ w, c ≠ '(' ∧ c ≠ ')' := by
  intro c hc
  rcases h.word_mem ha c hc with hoperand | rfl
  · exact (solid_operand hoperand).2
  · decide

theorem Fits.parens_of_not_paren (h : Fits around o (a :: ls)) (hopening : c ≠ '(')
    (hclosing : c ≠ ')') : (around.advance c).parens = o.calls :=
  (Surroundings.advance_parens hopening hclosing).trans h.parens

/-- After a sign, as it may be written, a word or a number may start. -/
theorem Fits.sign {symbol : Char} (h : Fits around o (a :: ls)) (hc : SignOf dress symbol c)
    (hsymbol : symbol ∈ ['+', '-', '*', '/', '%', '^']) :
    Fits (around.advance c) ⟨o.calls, false⟩ ls := by
  have hmarks : ∀ d ∈ ['+', '-', '*', '/', '%', '^'] ++ glyphs.map Prod.fst,
      d ∈ commonMarks ∧ d ≠ ',' ∧ d ≠ '(' ∧ d ≠ ')' := List.all_iff_forall_prop.mp (by decide)
  have hmem : c ∈ ['+', '-', '*', '/', '%', '^'] ++ glyphs.map Prod.fst := by
    rcases hc with rfl | ⟨_, hglyph⟩
    · exact List.mem_append_left _ hsymbol
    · exact List.mem_append_right _ (List.mem_map_of_mem hglyph)
  obtain ⟨hcommon, hcomma, hopening, hclosing⟩ := hmarks c hmem
  exact .mark hcommon (fun h => absurd h hcomma) (h.parens_of_not_paren hopening hclosing) rfl

/-- After the name of a call the scan knows that a name has come. -/
theorem Fits.callee_after {f : Name} (h : Fits around o (.callee f :: ls)) (ho : o.callee = false)
    (hparens : (around.after f.chars).parens = o.calls) :
    Fits (around.after f.chars) ⟨o.calls, true⟩ ls := by
  obtain ⟨c, r, hf, hstart, hall⟩ := f.exists_cons
  obtain ⟨hnone, _⟩ := h.fresh ho _ rfl rfl
  refine ⟨hparens, fun _ => ?_, fun ho => absurd ho.symm Bool.false_ne_true⟩
  have hknown := Surroundings.after_word (hall c List.mem_cons_self)
    (fun d hd => hall d (List.mem_cons_of_mem c hd)) (Or.inr hnone)
  unfold Surroundings.followsName
  rw [hf, hknown]
  exact isAlphabetic_of_isNameStart hstart

/-- Before a parenthesis the scan knows whether a name has come. -/
theorem Fits.followsName_eq (h : Fits around o (.opening :: ls)) :
    around.followsName = o.callee := by
  cases hcallee : o.callee with
  | true => exact h.callee hcallee
  | false =>
    unfold Surroundings.followsName
    rw [(h.fresh hcallee _ rfl rfl).1]

/-- What the scan knows fits the next place when it has gone over a lexeme. -/
theorem Fits.after (h : Fits around o (a :: ls)) (hls : Phrase (a :: ls))
    (ho : o.callee = true → (a :: ls).head? = some .opening)
    (hcommas : CommasInCalls o (a :: ls)) (hw : Spelling dress inside a w) :
    Fits (around.after w) (o.advance a) ls := by
  have hnext : ∀ b ∈ ls.head?, Follows a b := (List.isChain_cons.mp hls.chain).1
  have hword : a.isMark = false → (around.after w).parens = o.calls := fun ha =>
    (Surroundings.after_parens (hw.not_parens ha)).trans h.parens
  cases a with
  | numeral n | name n | line r => exact .word (hword rfl) hnext
  | callee f =>
    cases hw
    exact h.callee_after (callee_eq_false ho (by simp)) (hword rfl)
  | minus spaced =>
    cases hw with
    | minus _ hc => exact h.sign hc (by decide)
  | operator op =>
    cases hw with
    | operator _ hc => exact h.sign hc (by cases op <;> decide)
  | opening =>
    cases hw
    change Fits (around.advance '(') _ _
    refine .mark (by decide) (fun h => absurd h (by decide)) ?_ rfl
    change around.followsName :: around.parens = o.callee :: o.calls
    rw [h.followsName_eq, h.parens]
  | closing =>
    cases hw
    change Fits (around.advance ')') _ _
    refine .mark (by decide) (fun h => absurd h (by decide)) ?_ rfl
    change around.parens.tail = o.calls.tail
    rw [h.parens]
  | comma =>
    cases hw
    change Fits (around.advance ',') _ _
    exact .mark (by decide) (fun _ => hcommas.1 rfl)
      (h.parens_of_not_paren (by decide) (by decide)) rfl

end Places

section Dressed

variable {groups : Bool}

theorem Gap.blank (h : Gap ⟨false, false, false, groups⟩ o a gap) : ∀ c ∈ gap, isBlank c = true := by
  unfold Gap at h
  split at h
  · exact fun c hc => h c hc ▸ by decide
  · exact filling_blank h

theorem Gap.spaces (h : Gap dress o a gap) (ho : o.callee = true) : ∀ c ∈ gap, c = ' ' := by
  unfold Gap at h
  rwa [if_pos ho] at h

theorem head_blanks (hgap : ∀ c ∈ gap, isBlank c = true)
    (hs : ∀ c ∈ s.head?, isDigitOrComma c = false) :
    ∀ c ∈ (gap ++ s).head?, isDigitOrComma c = false := by
  cases gap with
  | nil => exact hs
  | cons d gap =>
    intro c hc
    obtain rfl := Option.some.inj hc
    exact (isDigitOrComma_blank (hgap _ List.mem_cons_self)).1

theorem Spelling.sign (hw : Spelling ⟨false, false, false, groups⟩ inside (.operator op) w) :
    w = [op.symbol] := by
  cases hw with
  | operator _ hsign =>
    rcases hsign with rfl | ⟨hglyphs, _⟩
    · rfl
    · exact absurd hglyphs Bool.false_ne_true

/-- Outside calls no digit and no comma comes after a word. -/
theorem Dressed.head_not_grouping (h : Dressed ⟨false, false, false, groups⟩ o ls s)
    (hls : ∀ b ∈ ls.head?, b.joins = true ∨ b = .opening) (hcommas : CommasInCalls o ls)
    (hinside : o.insideCall = false) : ∀ c ∈ s.head?, isDigitOrComma c = false := by
  cases h with
  | nil hgap =>
    have hempty := head_blanks (filling_blank hgap) (s := []) fun c hc => absurd hc (by simp)
    rwa [List.append_nil] at hempty
  | @cons _ a ls gap w s hgap hw _ =>
    refine head_blanks hgap.blank fun c hc => ?_
    have hmarks : ∀ d ∈ ['+', '-', '*', '/', '%', '^', '(', ')'], isDigitOrComma d = false :=
      List.all_iff_forall_prop.mp (by decide)
    cases a with
    | operator op =>
      rw [hw.sign] at hc
      obtain rfl := Option.some.inj hc
      exact hmarks _ (by cases op <;> decide)
    | closing | opening =>
      cases hw
      obtain rfl := Option.some.inj hc
      exact hmarks _ (by decide)
    | comma => exact absurd (hinside.symm.trans (hcommas.1 rfl)) Bool.false_ne_true
    | _ => exact absurd (hls _ rfl) (by simp [Lexeme.joins])

theorem ungroupFrom_blanks (hgap : ∀ c ∈ gap, isBlank c = true) (s : List Char) :
    ungroupFrom around false (gap ++ s) = gap ++ ungroupFrom (around.after gap) false s := by
  induction gap generalizing around with
  | nil => rfl
  | cons c gap ih =>
    obtain ⟨hc, hgap⟩ := List.forall_mem_cons.mp hgap
    rw [List.cons_append, ungroupFrom_other (isDigitOrComma_blank hc).1, ih hgap]
    rfl

/-- No character of an operand is a comma or a parenthesis, so the scan keeps operands. -/
theorem ungroupFrom_operand (ht : ∀ c ∈ t, isOperandChar c = true)
    (hs : around.insideCall = true ∨ ∀ c ∈ s.head?, isDigitOrComma c = false) :
    ungroupFrom around false (t ++ s) = t ++ ungroupFrom (around.after t) false s :=
  ungroupFrom_solid (fun c hc => solid_operand (ht c hc)) hs

/-- Outside calls no digit and no comma comes after a lexeme that is a word. -/
theorem Fits.stop (h : Fits around o (a :: ls))
    (hs : Dressed ⟨false, false, false, groups⟩ (o.advance a) ls s)
    (hls : ∀ b ∈ ls.head?, b.joins = true ∨ b = .opening) (hcommas : CommasInCalls o (a :: ls))
    (hcalls : (o.advance a).calls = o.calls) :
    around.insideCall = true ∨ ∀ c ∈ s.head?, isDigitOrComma c = false := by
  cases hinside : around.insideCall with
  | true => exact Or.inl rfl
  | false =>
    refine Or.inr (hs.head_not_grouping hls hcommas.2 ?_)
    unfold Enclosure.insideCall
    rw [hcalls]
    exact h.insideCall.symm.trans hinside

/-- The scan keeps a numeral, except for its commas when it is set in groups. -/
theorem ungroupFrom_numeral {n : Numeral}
    (hw : Spelling ⟨false, false, false, groups⟩ inside (.numeral n) w)
    (hinside : around.insideCall = inside) (hallowed : inside = false → around.allowsNumber = true)
    (hs : around.insideCall = true ∨ ∀ c ∈ s.head?, isDigitOrComma c = false) :
    ungroupFrom around false (w ++ s) = n.text ++ ungroupFrom (around.after w) false s := by
  cases hw with
  | numeral _ => exact ungroupFrom_operand (isOperandChar_numeral n) hs
  | @grouped _ w _ houtside hgrouping =>
    have hinside := hinside.trans houtside
    have hstop : ∀ c ∈ s.head?, isDigitOrComma c = false :=
      hs.resolve_left fun h => Bool.false_ne_true (hinside.symm.trans h)
    have htail : ∀ c ∈ numeralTail n, isOperandChar c = true := fun c hc =>
      isOperandChar_numeral n c (by rw [numeral_text_eq]; exact List.mem_append_right _ hc)
    have hpoint : ∀ c ∈ (numeralTail n ++ s).head?, isDigitOrComma c = false := by
      unfold numeralTail
      cases n.fraction with
      | none => exact hstop
      | some f =>
        intro c hc
        obtain rfl := Option.some.inj hc
        decide
    rw [List.append_assoc, ungroupFrom_grouping hgrouping n.whole_digits (hallowed houtside) hinside
      hpoint, ungroupFrom_operand htail (Or.inr hstop), Surroundings.after_append, numeral_text_eq,
      List.append_assoc]

/-- The scan keeps a lexeme, except for the commas of a numeral that is set in groups. -/
theorem ungroupFrom_spelling (hw : Spelling ⟨false, false, false, groups⟩ o.insideCall a w)
    (hs : Dressed ⟨false, false, false, groups⟩ (o.advance a) ls s) (hls : Phrase (a :: ls))
    (ho : o.callee = true → (a :: ls).head? = some .opening) (hcommas : CommasInCalls o (a :: ls))
    (hfits : Fits around o (a :: ls)) :
    ∃ w', Spelling .bare o.insideCall a w' ∧
      ungroupFrom around false (w ++ s) = w' ++ ungroupFrom (around.after w) false s := by
  have hnext : ∀ b ∈ ls.head?, Follows a b := (List.isChain_cons.mp hls.chain).1
  have hmark : ∀ {c : Char}, isDigitOrComma c = false → ungroupFrom around false ([c] ++ s) =
      [c] ++ ungroupFrom (around.after [c]) false s := fun hc => ungroupFrom_other hc false s
  cases a with
  | numeral n =>
    refine ⟨n.text, .numeral n, ungroupFrom_numeral hw hfits.insideCall (fun hinside => ?_)
      (hfits.stop hs (fun b hb => Or.inl (hnext b hb)) hcommas rfl)⟩
    obtain ⟨_, hallowed⟩ := hfits.fresh (callee_eq_false ho (by simp)) _ rfl rfl
    exact hallowed (hfits.insideCall.trans hinside)
  | name n =>
    cases hw
    exact ⟨_, .name n, ungroupFrom_operand
      (fun c hc => isOperandChar_of_isWord (n.isWord_of_mem hc))
      (hfits.stop hs (fun b hb => Or.inl (hnext b hb)) hcommas rfl)⟩
  | line r =>
    cases hw
    refine ⟨_, .line r, ungroupFrom_operand (List.forall_mem_cons.mpr ⟨by decide, fun c hc => ?_⟩)
      (hfits.stop hs (fun b hb => Or.inl (hnext b hb)) hcommas rfl)⟩
    exact isOperandChar_of_isDigit (r.all_digits c hc)
  | callee f =>
    cases hw
    exact ⟨_, .callee f, ungroupFrom_operand
      (fun c hc => isOperandChar_of_isWord (f.isWord_of_mem hc))
      (hfits.stop hs (fun b hb => Or.inr (hnext b hb)) hcommas rfl)⟩
  | minus spaced =>
    cases hw with
    | minus _ hsign =>
      rcases hsign with rfl | ⟨hglyphs, _⟩
      · exact ⟨_, .minus spaced (Or.inl rfl), hmark (by decide)⟩
      · exact absurd hglyphs Bool.false_ne_true
  | operator op =>
    rw [hw.sign]
    exact ⟨_, .operator op (Or.inl rfl), hmark (by cases op <;> decide)⟩
  | opening =>
    cases hw
    exact ⟨_, .opening, hmark (by decide)⟩
  | closing =>
    cases hw
    exact ⟨_, .closing, hmark (by decide)⟩
  | comma =>
    cases hw
    exact ⟨_, .comma, ungroupFrom_inside (hfits.insideCall.trans (hcommas.1 rfl)) ',' s⟩

/-- The scan removes the commas of the numerals that are set in groups, and only these. -/
theorem ungroup_dressed (h : Dressed ⟨false, false, false, groups⟩ o ls s)
    (hls : Phrase ls) (ho : o.callee = true → ls.head? = some .opening)
    (hcommas : CommasInCalls o ls) (hfits : Fits around o ls) :
    Dressed .bare o ls (ungroupFrom around false s) := by
  induction h generalizing around with
  | @nil o gap hgap =>
    have hkept : ungroupFrom around false (gap ++ []) = _ :=
      ungroupFrom_blanks (filling_blank hgap) []
    rw [List.append_nil] at hkept
    rw [hkept, ungroupFrom, List.append_nil]
    exact .nil hgap
  | @cons o a ls gap w s hgap hw hs ih =>
    have hfits' := hfits.after_gap hgap.blank hgap.spaces
    obtain ⟨w', hw', heq⟩ := ungroupFrom_spelling hw hs hls ho hcommas hfits'
    have hgap' : Gap .bare o a gap := hgap
    rw [ungroupFrom_blanks hgap.blank, heq]
    exact .cons hgap' hw' (ih hls.tail (head_of_callee hls) hcommas.2
      (hfits'.after hls ho hcommas hw))

end Dressed

end Reckoner.Formula
