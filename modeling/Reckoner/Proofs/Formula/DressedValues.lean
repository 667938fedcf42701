import Reckoner.Proofs.Formula.Dressed
import Reckoner.Proofs.Formula.SplicedNames

/-!
Substitution in dressed texts. Both passes meet the line references and the names of the expression
and keep all other lexemes. Between the lexemes they find only names in the markup, and the values
that take their places there are markup again. So a dressed text of an expression becomes a dressed
text of the expression with its values.
-/
namespace Reckoner.Formula

open Text Number Arith

variable {scope : Scope} {dress : Dress} {o : Enclosure} {a : Lexeme} {ls : List Lexeme}
  {markup currency inside : Bool} {gap body s t w : List Char} {last : Option Char}

section Values

theorem gap_of_filling (ho : o.callee = false) (h : Filling dress.markup false gap) :
    Gap dress o a gap := by
  unfold Gap
  rw [if_neg (by rw [ho]; exact Bool.false_ne_true)]
  exact h.mono _

/-- The text of a value may stand where an operand does. -/
theorem dressed_value (ho : o.callee = false) (hgap : Filling dress.markup false gap) (x : Float)
    (h : Dressed dress ⟨o.calls, false⟩ ls s) :
    Dressed dress o ((Expr.ofValue x).lexemes ++ ls)
      (gap ++ (textOf (Expr.ofValue x).lexemes ++ s)) := by
  have hnone : ∀ (calls : List Bool) (a : Lexeme), Gap dress ⟨calls, false⟩ a [] :=
    fun calls a => gap_of_filling rfl .nil
  unfold Expr.ofValue
  split
  · have htext : textOf (Expr.group (.neg false (.numeral (numeralOf x)))).lexemes ++ s =
        ['('] ++ ([] ++ (['-'] ++ ([] ++ ((numeralOf x).text ++ ([] ++ ([')'] ++ s)))))) := by
      simp [Expr.lexemes, textOf, Lexeme.text]
    have hclosed := Dressed.cons (hnone (o.callee :: o.calls) .closing) .closing h
    have hnumeral := Dressed.cons (hnone (o.callee :: o.calls) _) (.numeral (numeralOf x)) hclosed
    have hminus := Dressed.cons (hnone (o.callee :: o.calls) _) (.minus false (Or.inl rfl)) hnumeral
    rw [htext]
    simp only [Expr.lexemes]
    exact .cons (gap_of_filling ho hgap) .opening hminus
  · simp only [Expr.lexemes, textOf_cons, textOf_nil, List.append_nil]
    exact .cons (gap_of_filling ho hgap) (.numeral _) h

/-- The characters of which the text of a value is made. -/
theorem mem_literal {x : Float} (h : literal x = .ok t) :
    ∀ c ∈ t, isDigit c = true ∨ c ∈ ['.', '(', '-', ')'] := by
  have hnumeral : ∀ n : Numeral, ∀ c ∈ n.text, isDigit c = true ∨ c ∈ ['.', '(', '-', ')'] := by
    intro n c hc
    rcases mem_numeral_text hc with hdigit | rfl
    · exact Or.inl hdigit
    · exact Or.inr List.mem_cons_self
  obtain ⟨n, rfl | rfl⟩ := literal_cases h
  · exact hnumeral n
  · intro c hc
    rcases List.mem_append.mp hc with hc | hc
    · rcases List.mem_cons.mp hc with rfl | hc
      · exact Or.inr (by decide)
      · rcases List.mem_cons.mp hc with rfl | hc
        · exact Or.inr (by decide)
        · exact hnumeral n c hc
    · rw [List.mem_singleton.mp hc]
      exact Or.inr (by decide)

theorem literal_of_not_finite {x : Float} (h : x.isFinite = false) :
    (literal x).toOption = none := by
  unfold literal numeral
  cases hx : Binary.ofFloat? x with
  | none => rfl
  | some b =>
    rw [isFinite_of_ofFloat? hx] at h
    exact absurd h.symm Bool.false_ne_true

end Values

section Lines

theorem at_not_mem_spelling (h : Spelling dress inside a w) (ha : ∀ r, a ≠ .line r) :
    '@' ∉ w := by
  have hmark : ∀ {c : Char}, c ∈ commonMarks → '@' ∉ [c] := by
    intro c hc hmem
    rw [← List.mem_singleton.mp hmem] at hc
    exact absurd hc (by decide)
  cases a with
  | numeral n =>
    intro hmem
    rcases h.numeral_mem '@' hmem with hdigit | hc | hc
    · exact absurd hdigit (by decide)
    · exact absurd hc (by decide)
    · exact absurd hc (by decide)
  | name n | callee n =>
    cases h
    exact Scope.at_not_mem_name n
  | line r => exact absurd rfl (ha r)
  | _ =>
    obtain ⟨c, hc, rfl⟩ := h.mark rfl
    exact hmark hc

theorem Gap.at_not_mem (h : Gap dress o a gap) : '@' ∉ gap := by
  unfold Gap at h
  split at h
  · exact fun hmem => absurd (h '@' hmem) (by decide)
  · exact h.at_not_mem

theorem Gap.filling (h : Gap dress o a gap) (ho : o.callee = false) (ha : a.isNumeral = false) :
    Filling dress.markup false gap := by
  unfold Gap at h
  rwa [if_neg (by rw [ho]; exact Bool.false_ne_true), ha, Bool.and_false] at h

/-- Only a parenthesis comes after the name of a call. -/
theorem callee_eq_false (ho : o.callee = true → (a :: ls).head? = some .opening)
    (ha : a ≠ .opening) : o.callee = false := by
  rw [Bool.eq_false_iff]
  exact fun h => ha (Option.some.inj (ho h))

/-- A line reference ends where its lexeme does. -/
theorem Dressed.head_not_digit {r : LineReference} (h : Dressed dress o ls s)
    (hls : Phrase (.line r :: ls)) : ∀ c ∈ s.head?, isDigit c = false :=
  Reckoner.Formula.head_not_digit <| h.stops fun b hb =>
    ((List.isChain_cons.mp hls.chain).1 b hb).isMark (Or.inl rfl)

/-- The first pass puts the values of the lines in the places of the references. -/
theorem substituteLines_dressed (h : Dressed dress o ls s) (hls : Phrase ls)
    (ho : o.callee = true → ls.head? = some .opening)
    (hlines : ∀ r, .line r ∈ ls → (scope.lineMeaning r).isFinite = true) :
    ∃ t, scope.substituteLines false s = .ok t ∧
      Dressed dress o (ls.flatMap (Lexeme.replace .name scope.lineExpr)) t := by
  induction h with
  | @nil o gap hgap =>
    refine ⟨gap, ?_, .nil hgap⟩
    have hkept := scope.substituteLines_append hgap.at_not_mem []
    rw [List.append_nil] at hkept
    rw [hkept, Scope.substituteLines]
    exact congrArg Except.ok (List.append_nil gap)
  | @cons o a ls gap w s hgap hw hs ih =>
    obtain ⟨t, ht, hdressed⟩ := ih hls.tail (head_of_callee hls)
      fun r hr => hlines r (List.mem_cons_of_mem a hr)
    rw [Scope.substituteLines_append hgap.at_not_mem, List.flatMap_cons]
    by_cases ha : ∃ r, a = .line r
    · obtain ⟨r, rfl⟩ := ha
      cases hw
      have hcallee := callee_eq_false ho (by simp)
      rw [Scope.substituteLines_line r (hs.head_not_digit hls),
        Scope.lineLiteral_eq (hlines r List.mem_cons_self), ht]
      exact ⟨_, rfl, dressed_value hcallee (hgap.filling hcallee rfl) _ hdressed⟩
    · have hline : ∀ r, a ≠ .line r := fun r hr => ha ⟨r, hr⟩
      have hsame : Lexeme.replace .name scope.lineExpr a = [a] := by
        cases a with
        | line r => exact absurd rfl (hline r)
        | _ => simp [Lexeme.replace, Expr.lexemes]
      rw [Scope.substituteLines_append (at_not_mem_spelling hw hline), ht, hsame]
      exact ⟨_, rfl, .cons hgap hw hdressed⟩

theorem lineLiteral_of_not_finite {r : LineReference}
    (h : (scope.lineMeaning r).isFinite = false) : (scope.lineLiteral r.digits).toOption = none := by
  unfold Scope.lineMeaning at h
  unfold Scope.lineLiteral
  rw [if_neg (Nat.not_lt.mpr r.readable)]
  cases hr : Assoc.get? scope.lines (digitsValue r.digits) with
  | none =>
    rw [hr, Option.getD_none, isFinite_zero] at h
    exact absurd h.symm Bool.false_ne_true
  | some x =>
    rw [hr, Option.getD_some] at h
    exact literal_of_not_finite h

/-- Without a value for one of the lines the first pass fails. -/
theorem substituteLines_dressed_none {r : LineReference} (h : Dressed dress o ls s)
    (hls : Phrase ls) (hr : .line r ∈ ls) (hfinite : (scope.lineMeaning r).isFinite = false) :
    (scope.substituteLines false s).toOption = none := by
  induction h with
  | nil _ => exact absurd hr List.not_mem_nil
  | @cons o a ls gap w s hgap hw hs ih =>
    rw [Scope.substituteLines_append hgap.at_not_mem, toOption_map]
    by_cases ha : ∃ r', a = .line r'
    · obtain ⟨r', rfl⟩ := ha
      cases hw
      rw [Scope.substituteLines_line r' (hs.head_not_digit hls)]
      have hnone : ((scope.lineLiteral r'.digits).bind fun value =>
          (scope.substituteLines false s).map fun rest => value ++ rest).toOption = none := by
        refine (toOption_bind _ _).trans ?_
        rcases List.mem_cons.mp hr with heq | hr
        · obtain rfl := Lexeme.line.inj heq
          rw [lineLiteral_of_not_finite hfinite]
          rfl
        · simp only [toOption_map, ih hls.tail hr]
          cases (scope.lineLiteral r'.digits).toOption <;> rfl
      rw [hnone]
      rfl
    · have hline : ∀ r, a ≠ .line r := fun r hr => ha ⟨r, hr⟩
      rw [Scope.substituteLines_append (at_not_mem_spelling hw hline), toOption_map,
        ih hls.tail ((List.mem_cons.mp hr).resolve_left fun h => ha ⟨r, h.symm⟩)]
      rfl

end Lines

section Names

variable {names : List (List Char)}

theorem lastOf_append (last : Option Char) (s t : List Char) :
    Scope.lastOf last (s ++ t) = Scope.lastOf (Scope.lastOf last s) t := by
  unfold Scope.lastOf
  rw [List.getLast?_append, Option.or_assoc]

theorem not_operand_lastOf (hlast : ∀ c ∈ last, isOperandChar c = false)
    (hgap : ∀ c ∈ gap.getLast?, isOperandChar c = false) :
    ∀ c ∈ Scope.lastOf last gap, isOperandChar c = false := by
  unfold Scope.lastOf
  intro c hc
  cases h : gap.getLast? with
  | none =>
    rw [h] at hc
    exact hlast c hc
  | some d =>
    rw [h] at hc
    exact hgap c (h ▸ hc)

theorem body_literal {x : Float} (h : literal x = .ok t) : Body t := by
  have hmarks : ∀ d ∈ ['.', '(', '-', ')'], d ≠ '<' ∧ d ≠ '>' ∧ d ≠ '@' :=
    List.all_iff_forall_prop.mp (by decide)
  intro c hc
  rcases mem_literal h c hc with hdigit | hmark
  · refine ⟨?_, ?_, ?_⟩ <;>
    · rintro rfl
      exact absurd hdigit (by decide)
  · exact hmarks c hmark

theorem nameAt?_eq_some {n : List Char} (h : Scope.nameAt? names last s = some n) :
    n ∈ names ∧ n <+: s := by
  unfold Scope.nameAt? at h
  split at h
  · have hmatch := List.find?_some h
    exact ⟨List.mem_of_find?_eq_some h,
      List.isPrefixOf_iff_prefix.mp (Bool.and_eq_true_iff.mp hmatch).1⟩
  · exact absurd h (by simp)

theorem initial_of_not_mem {n : List Char} {c : Char} (h : n <+: t ++ c :: s) (hc : c ∉ n) :
    n <+: t := by
  obtain ⟨u, hu⟩ := h
  rcases List.append_eq_append_iff.mp hu with ⟨v, hv, _⟩ | ⟨v, hv, hrest⟩
  · exact ⟨v, hv.symm⟩
  · cases v with
    | nil => exact ⟨[], by rw [hv, List.append_nil, List.append_nil]⟩
    | cons d v =>
      obtain ⟨rfl, _⟩ := List.cons.inj hrest
      exact absurd (hv ▸ List.mem_append_right t List.mem_cons_self) hc

/-- In markup values take the places of names. -/
theorem substituteNames_body (hnames : ∀ n ∈ names, isIdentifier n = true)
    (hfinite : ∀ e ∈ scope.named, e.2.isFinite = true) (last : Option Char) (hbody : Body body)
    (s : List Char) : ∃ body', Body body' ∧ scope.substituteNames names last 0 (body ++ '>' :: s) =
      (scope.substituteNames names (some '>') 0 s).map fun rest => body' ++ '>' :: rest := by
  induction hn : body.length using Nat.strong_induction_on generalizing body last with
  | _ n ih =>
    subst hn
    cases body with
    | nil =>
      have hnone : Scope.nameAt? names last ('>' :: s) = none :=
        Scope.nameAt?_of_head hnames fun c hc => by
          obtain rfl := Option.some.inj hc
          decide
      exact ⟨[], hbody, Scope.substituteNames_cons hnone⟩
    | cons c r =>
      obtain ⟨hc, hr⟩ := List.forall_mem_cons.mp hbody
      rw [List.cons_append]
      cases hat : Scope.nameAt? names last (c :: (r ++ '>' :: s)) with
      | none =>
        obtain ⟨r', hr', heq⟩ := ih r.length (Nat.lt_succ_self _) (some c) hr rfl
        refine ⟨c :: r', List.forall_mem_cons.mpr ⟨hc, hr'⟩, ?_⟩
        rw [Scope.substituteNames_cons hat, heq]
        cases scope.substituteNames names (some '>') 0 s <;> rfl
      | some n =>
        obtain ⟨hn, hbegins⟩ := nameAt?_eq_some hat
        obtain ⟨r', hsplit⟩ := initial_of_not_mem (t := c :: r) hbegins fun hmem =>
          absurd (Scope.isWord_of_identifier (hnames n hn) '>' hmem) (by decide)
        cases n with
        | nil => exact absurd (hnames [] hn) Bool.false_ne_true
        | cons d more =>
          obtain ⟨rfl, hmore⟩ := List.cons.inj hsplit
          obtain rfl : more ++ r' = r := hmore
          have hvalue := literal_eq_ofValue (Scope.named_getD_finite hfinite (d :: more))
          obtain ⟨body', hbody', heq⟩ := ih r'.length (by simp only [List.length_cons, List.length_append]; omega)
            (Scope.lastOf (some d) more) (fun e he => hr e (List.mem_append_right _ he)) rfl
          refine ⟨textOf (Expr.ofValue _).lexemes ++ body',
            List.forall_mem_append.mpr ⟨body_literal hvalue, hbody'⟩, ?_⟩
          rw [Scope.substituteNames, hat]
          dsimp only
          unfold Scope.nameLiteral
          rw [hvalue, List.append_assoc, Scope.substituteNames_skip, heq]
          cases scope.substituteNames names (some '>') 0 s with
          | error _ => rfl
          | ok rest => exact congrArg Except.ok (List.append_assoc _ _ _).symm

/-- What stands between two lexemes stays something that may stand there. -/
theorem Filling.substituteNames (h : Filling markup currency gap)
    (hnames : ∀ n ∈ names, isIdentifier n = true)
    (hfinite : ∀ e ∈ scope.named, e.2.isFinite = true) (last : Option Char) (s : List Char) :
    ∃ gap', Filling markup currency gap' ∧ scope.substituteNames names last 0 (gap ++ s) =
      (scope.substituteNames names (Scope.lastOf last gap) 0 s).map fun rest => gap' ++ rest := by
  have hone : ∀ {c : Char} {last : Option Char} {r : List Char}, isNameStart c = false →
      scope.substituteNames names last 0 (c :: r) =
        (scope.substituteNames names (some c) 0 r).map fun rest => c :: rest := fun hc =>
    Scope.substituteNames_cons <| Scope.nameAt?_of_head hnames fun d hd => Option.some.inj hd ▸ hc
  have htwo : ∀ {r : Except Breakdown (List Char)} (t u : List Char),
      (r.map fun rest => u ++ rest).map (fun rest => t ++ rest) =
        r.map fun rest => (t ++ u) ++ rest := by
    intro r t u
    cases r with
    | error _ => rfl
    | ok rest => exact congrArg Except.ok (List.append_assoc t u rest).symm
  induction h generalizing last with
  | nil =>
    refine ⟨[], .nil, ?_⟩
    change scope.substituteNames names last 0 s = _
    unfold Scope.lastOf
    cases hs : scope.substituteNames names last 0 s <;> simp [hs, Except.map]
  | @blank c r hc _ ih =>
    obtain ⟨gap', hgap', heq⟩ := ih (some c)
    refine ⟨c :: gap', .blank hc hgap', ?_⟩
    rw [List.cons_append, hone (isNameStart_of_not_operand (isOperandChar_of_isBlank hc)), heq,
      Scope.lastOf_cons]
    exact htwo [c] gap'
  | @tag body r hmarkup hbody _ ih =>
    obtain ⟨gap', hgap', heq⟩ := ih (some '>')
    obtain ⟨body', hbody', hinside⟩ :=
      substituteNames_body hnames hfinite (some '<') hbody (r ++ s)
    refine ⟨'<' :: body' ++ '>' :: gap', .tag hmarkup hbody' hgap', ?_⟩
    have hlast : Scope.lastOf last ('<' :: body ++ '>' :: r) = Scope.lastOf (some '>') r := by
      rw [lastOf_append, Scope.lastOf_cons]
    rw [hlast, List.append_assoc, List.cons_append, List.cons_append, hone (by decide), hinside, heq]
    cases scope.substituteNames names (Scope.lastOf (some '>') r) 0 s with
    | error _ => rfl
    | ok rest =>
      change Except.ok ('<' :: (body' ++ '>' :: (gap' ++ rest))) =
        Except.ok ('<' :: body' ++ '>' :: gap' ++ rest)
      rw [List.append_assoc, List.cons_append, List.cons_append]
  | @sign c r hcurrency hc _ ih =>
    obtain ⟨gap', hgap', heq⟩ := ih (some c)
    refine ⟨c :: gap', .sign hcurrency hc hgap', ?_⟩
    rw [List.cons_append, hone (isNameStart_of_not_operand (isOperandChar_currency hc)), heq,
      Scope.lastOf_cons]
    exact htwo [c] gap'

theorem Gap.substituteNames (h : Gap dress o a gap) (hnames : ∀ n ∈ names, isIdentifier n = true)
    (hfinite : ∀ e ∈ scope.named, e.2.isFinite = true) (last : Option Char) (s : List Char) :
    ∃ gap', Gap dress o a gap' ∧ scope.substituteNames names last 0 (gap ++ s) =
      (scope.substituteNames names (Scope.lastOf last gap) 0 s).map fun rest => gap' ++ rest := by
  unfold Gap at h ⊢
  by_cases ho : o.callee = true
  · rw [if_pos ho] at h
    refine ⟨gap, (if_pos ho).mpr h, Scope.substituteNames_plain hnames (fun c hc => ?_) s⟩
    rw [h c hc]
    decide
  · rw [if_neg ho] at h
    obtain ⟨gap', hgap', heq⟩ := h.substituteNames hnames hfinite last s
    exact ⟨gap', (if_neg ho).symm ▸ hgap', heq⟩

theorem isNameStart_spelling (h : Spelling dress inside a w) (ha : a.named = false) :
    ∀ c ∈ w, isNameStart c = false := by
  intro c hc
  cases a with
  | numeral n =>
    rcases h.numeral_mem c hc with hdigit | rfl | rfl
    · exact isNameStart_of_isDigit hdigit
    · decide
    · decide
  | line r =>
    cases h
    exact isNameStart_of_not_named ha c hc
  | name n | callee n => exact absurd ha.symm Bool.false_ne_true
  | _ =>
    obtain ⟨d, hd, rfl⟩ := h.mark rfl
    rw [List.mem_singleton.mp hc]
    exact isNameStart_of_not_operand (commonMark hd).1

/-- A name may start where a lexeme with a name does. -/
theorem not_operand_before {b : Lexeme} (hw : Spelling dress inside a w) (h : Follows a b)
    (hb : b.named = true) : ∀ c ∈ Scope.lastOf last w, isOperandChar c = false := by
  have ha : a.isMark = true := by
    rw [← Bool.not_eq_false]
    intro ha
    have hmark := h.isMark (Or.inl ha)
    cases b <;> first | exact Bool.false_ne_true hmark | exact Bool.false_ne_true hb
  obtain ⟨c, hc, rfl⟩ := hw.mark ha
  intro d hd
  rw [← Option.some.inj hd]
  exact (commonMark hc).1

theorem endsName_eq (s : List Char) : Scope.endsName s =
    (!startsWith isWord s && !startsWith (· == '(') (s.dropWhile isBlank)) := by
  unfold Scope.endsName
  congr 1
  · cases s <;> rfl
  · cases hs : s.dropWhile isBlank with
    | nil => rfl
    | cons c r =>
      by_cases hc : c = '('
      · subst hc
        rfl
      · split
        · rename_i heq
          exact absurd (List.cons.inj heq).1 hc
        · exact (congrArg not (beq_eq_false_iff_ne.mpr hc)).symm

/-- What stands between two lexemes ends with no parenthesis. -/
theorem Filling.not_opening (h : Filling markup currency gap)
    (hs : startsWith (· == '(') (s.dropWhile isBlank) = false) :
    startsWith (· == '(') ((gap ++ s).dropWhile isBlank) = false := by
  induction h with
  | nil => exact hs
  | blank hc _ ih =>
    rw [List.cons_append, List.dropWhile_cons_of_pos hc]
    exact ih
  | @tag body r _ _ _ _ =>
    rw [List.append_assoc, List.cons_append, List.dropWhile_cons_of_neg (by decide)]
    rfl
  | @sign c r _ hc _ _ =>
    have hmark := commonMark (List.mem_append_right _ hc)
    rw [List.cons_append, dropWhile_cons_of_false hmark.2]
    refine beq_eq_false_iff_ne.mpr ?_
    rintro rfl
    exact absurd hc (by decide)

theorem Spelling.ne_opening {c : Char} (h : Spelling dress inside a [c]) (ha : a.joins = true) :
    c ≠ '(' := by
  rintro rfl
  cases a with
  | operator op =>
    cases h with
    | operator _ hc =>
      rcases hc with hc | ⟨_, hc⟩
      · cases op <;> exact absurd hc (by decide)
      · cases op <;> exact absurd hc (by decide)
  | closing | comma => cases h
  | _ => exact Bool.false_ne_true ha

/-- A name ends where an operand does. -/
theorem Dressed.endsName (h : Dressed dress o ls s) (ho : o.callee = false)
    (hls : ∀ a ∈ ls.head?, a.joins = true) : Scope.endsName s = true := by
  have hmark : ∀ a ∈ ls.head?, a.isMark = true := by
    intro a ha
    have hjoins := hls a ha
    cases a <;> first | rfl | exact absurd hjoins Bool.false_ne_true
  have hword : startsWith isWord s = false := by
    cases hs : s with
    | nil => rfl
    | cons c r => exact head_not_word (h.stops hmark) c (by rw [hs]; rfl)
  have hopening : startsWith (· == '(') (s.dropWhile isBlank) = false := by
    cases h with
    | nil hgap =>
      have hempty := hgap.not_opening (s := []) rfl
      rwa [List.append_nil] at hempty
    | @cons _ a ls gap w s hgap hw _ =>
      have hjoins := hls a rfl
      have hgap := hgap.filling ho (by cases a <;> first | rfl | exact absurd hjoins Bool.false_ne_true)
      obtain ⟨c, hc, rfl⟩ := hw.mark (hmark a rfl)
      refine hgap.not_opening ?_
      rw [List.singleton_append,
        dropWhile_cons_of_false (commonMark hc).2]
      exact beq_eq_false_iff_ne.mpr (hw.ne_opening hjoins)
  rw [endsName_eq, hword, hopening]
  rfl

/-- The name of a call is not the end of a name. -/
theorem Dressed.endsName_callee (h : Dressed dress o ls s) (ho : o.callee = true)
    (hls : ls.head? = some .opening) : Scope.endsName s = false := by
  cases h with
  | nil _ => exact absurd hls (by simp)
  | @cons _ a ls gap w s hgap hw _ =>
    obtain rfl := Option.some.inj hls
    cases hw
    unfold Gap at hgap
    rw [if_pos ho] at hgap
    have hblank : ∀ c ∈ gap, isBlank c = true := fun c hc => hgap c hc ▸ by decide
    rw [endsName_eq, List.dropWhile_append_of_pos hblank, List.singleton_append,
      List.dropWhile_cons_of_neg (by decide)]
    exact Bool.and_false _

/-- The second pass puts values in the places of the known names. -/
theorem substituteNames_dressed (hs : scope.Identifiers)
    (hfinite : ∀ e ∈ scope.named, e.2.isFinite = true) (last : Option Char)
    (h : Dressed dress o ls s)
    (hls : Phrase ls) (ho : o.callee = true → ls.head? = some .opening)
    (hlast : ∀ a ∈ ls.head?, a.named = true → ∀ c ∈ last, isOperandChar c = false) :
    ∃ t, scope.substituteNames scope.names last 0 s = .ok t ∧
      Dressed dress o (ls.flatMap (Lexeme.replace scope.nameExpr .line)) t := by
  have hnames := hs.names
  induction h generalizing last with
  | @nil o gap hgap =>
    obtain ⟨gap', hgap', heq⟩ := hgap.substituteNames hnames hfinite last []
    refine ⟨gap', ?_, .nil hgap'⟩
    rw [List.append_nil, Scope.substituteNames, Scope.nameAt?_of_head hnames (by simp)] at heq
    rw [heq]
    exact congrArg Except.ok (List.append_nil gap')
  | @cons o a ls gap w s hgap hw hs ih =>
    have hnext : ∀ b ∈ ls.head?, Follows a b := (List.isChain_cons.mp hls.chain).1
    obtain ⟨gap', hgap', heq⟩ := hgap.substituteNames hnames hfinite last (w ++ s)
    obtain ⟨t, ht, hdressed⟩ := ih (Scope.lastOf (Scope.lastOf last gap) w) hls.tail
      (head_of_callee hls) fun b hb hnamed => not_operand_before hw (hnext b hb) hnamed
    rw [heq, List.flatMap_cons]
    have hallows : a.named = true → Scope.allowsNameAfter (Scope.lastOf last gap) = true :=
      fun hnamed => allowsNameAfter_of_not_operand
        (not_operand_lastOf (hlast a rfl hnamed) hgap.last)
    have hplain : a.named = false → Lexeme.replace scope.nameExpr .line a = [a] →
        ∃ t, (scope.substituteNames scope.names (Scope.lastOf last gap) 0 (w ++ s)).map
            (gap' ++ ·) = .ok t ∧
          Dressed dress o (Lexeme.replace scope.nameExpr .line a ++
            ls.flatMap (Lexeme.replace scope.nameExpr .line)) t := by
      intro hnamed hsame
      rw [Scope.substituteNames_plain hnames (isNameStart_spelling hw hnamed), ht, hsame]
      exact ⟨_, rfl, .cons hgap' hw hdressed⟩
    cases a with
    | name n =>
      cases hw
      have hcallee := callee_eq_false ho (by simp)
      have hjoins : ∀ b ∈ ls.head?, b.joins = true := hnext
      have hends := hs.endsName rfl hjoins
      have hstop : ∀ c ∈ s.head?, isWord c = false :=
        head_not_word (hs.stops fun b hb => (hnext b hb).isMark (Or.inl rfl))
      by_cases hn : n.chars ∈ scope.names
      · have hvalue := literal_eq_ofValue (Scope.named_getD_finite hfinite n.chars)
        rw [Scope.substituteNames_known hnames (hallows rfl) hstop ⟨hn, hends⟩ hvalue, ht]
        refine ⟨_, rfl, ?_⟩
        rw [Lexeme.replace, Scope.nameExpr_of_mem hn]
        exact dressed_value hcallee (hgap'.filling hcallee rfl) _ hdressed
      · rw [Scope.substituteNames_unknown hnames (hallows rfl) hstop (fun hn' => hn hn'.1), ht]
        refine ⟨_, rfl, ?_⟩
        rw [Lexeme.replace, Scope.nameExpr_of_not_mem hn, Expr.lexemes]
        exact .cons hgap' (.name n) hdressed
    | callee f =>
      cases hw
      have hstop : ∀ c ∈ s.head?, isWord c = false :=
        head_not_word (hs.stops fun b hb => (hnext b hb).isMark (Or.inl rfl))
      have hends := hs.endsName_callee rfl (head_of_callee (o := o) hls rfl)
      rw [Scope.substituteNames_unknown hnames (hallows rfl) hstop
        (fun hn => Bool.false_ne_true (hends.symm.trans hn.2)), ht]
      exact ⟨_, rfl, .cons hgap' (.callee f) hdressed⟩
    | _ => exact hplain rfl (by simp [Lexeme.replace, Expr.lexemes])

end Names

section Expressions

variable {e : Expr}

/-- Both passes over a dressed text of an expression. -/
theorem substituteBoth_dressed (hs : scope.Identifiers)
    (hfinite : ∀ e ∈ scope.named, e.2.isFinite = true) (last : Option Char)
    (h : Dressed dress .start e.lexemes s)
    (hlines : ∀ r, .line r ∈ e.lexemes → (scope.lineMeaning r).isFinite = true)
    (hlast : ∀ c ∈ last, isOperandChar c = false) :
    ∃ t u, scope.substituteLines false s = .ok t ∧
      scope.substituteNames scope.names last 0 t = .ok u ∧
      Dressed dress .start (e.subst scope).lexemes u := by
  obtain ⟨t, ht, hdressed⟩ := substituteLines_dressed h (phrase_lexemes e)
    (fun h => absurd h Bool.false_ne_true) hlines
  rw [← lexemes_replace] at hdressed
  obtain ⟨u, hu, hdressed⟩ := substituteNames_dressed hs hfinite last hdressed (phrase_lexemes _)
    (fun h => absurd h Bool.false_ne_true) fun _ _ _ => hlast
  rw [lexemes_subst] at hdressed
  exact ⟨t, u, ht, hu, hdressed⟩

/-- Substitution makes a dressed text of the expression with its values. -/
theorem substitute_dressing (hs : scope.Identifiers)
    (hfinite : ∀ e ∈ scope.named, e.2.isFinite = true) (h : e.Dressing s)
    (hlines : ∀ r, .line r ∈ e.lexemes → (scope.lineMeaning r).isFinite = true) :
    ∃ t, scope.substitute s = .ok t ∧ (e.subst scope).Dressing t := by
  unfold Scope.substitute
  rcases h with h | ⟨before, after, hbefore, rfl, h⟩
  · obtain ⟨t, u, ht, hu, hdressed⟩ := substituteBoth_dressed hs hfinite none h hlines
      fun c hc => absurd hc (by simp)
    refine ⟨u, ?_, Or.inl hdressed⟩
    rw [ht]
    exact hu
  · obtain ⟨t, u, ht, hu, hdressed⟩ := substituteBoth_dressed hs hfinite (some '=') h hlines
      fun c hc => Option.some.inj hc ▸ by decide
    obtain ⟨before', hbefore', heq⟩ := hbefore.substituteNames hs.names hfinite none ('=' :: t)
    have hequals : Scope.nameAt? scope.names (Scope.lastOf none before) ('=' :: t) = none :=
      Scope.nameAt?_of_head hs.names fun c hc => Option.some.inj hc ▸ by decide
    rw [Scope.substituteNames_cons hequals, hu] at heq
    refine ⟨before' ++ '=' :: u, ?_, Or.inr ⟨before', u, hbefore', rfl, hdressed⟩⟩
    rw [Scope.substituteLines_append hbefore.at_not_mem, ← List.singleton_append,
      Scope.substituteLines_append (by decide), ht]
    exact heq

/-- Substitution fails when a line has no value that can be written. -/
theorem substitute_dressing_none {r : LineReference} (h : e.Dressing s) (hr : .line r ∈ e.lexemes)
    (hfinite : (scope.lineMeaning r).isFinite = false) :
    (scope.substitute s).toOption = none := by
  have hnone : (scope.substituteLines false s).toOption = none := by
    rcases h with h | ⟨before, after, hbefore, rfl, h⟩
    · exact substituteLines_dressed_none h (phrase_lexemes e) hr hfinite
    · rw [Scope.substituteLines_append hbefore.at_not_mem, ← List.singleton_append,
        Scope.substituteLines_append (by decide), toOption_map, toOption_map,
        substituteLines_dressed_none h (phrase_lexemes e) hr hfinite]
      rfl
  unfold Scope.substitute
  rw [toOption_bind, hnone]
  rfl

end Expressions

end Reckoner.Formula
