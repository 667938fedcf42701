import Reckoner.Proofs.Formula.CallPlaces
import Reckoner.Proofs.Formula.Ungrouped

/-!
The commas of calls in any text. The scan for thousands separators has its own view of calls: it
takes a parenthesis for that of a call if only spaces stand between it and a word before. Between the
parentheses of such a call, and of anything that stands in one, it keeps every character. A call
whose name is followed by other white space is no call to the scan, so its arguments are treated like
a text of their own: what looks like a grouped number in them loses its commas.
-/
namespace Reckoner.Formula

open Text

variable {around other : Surroundings} {low q : List Bool} {within : Bool} {gap s t : List Char}
  {c : Char} {d e : Nat}

section Cutting

/-- Whether a character lies in a grouped number, given whether the one before it does. -/
def groupedAt (around : Surroundings) (within : Bool) (c : Char) (r : List Char) : Bool :=
  if isDigitOrComma c then
    within || (around.allowsNumber && !around.insideCall
      && isGrouped ((c :: r).takeWhile isDigitOrComma))
  else false

theorem ungroupFrom_cons (around : Surroundings) (within : Bool) (c : Char) (r : List Char) :
    ungroupFrom around within (c :: r) =
      if groupedAt around within c r && c == ',' then
        ungroupFrom (around.advance c) (groupedAt around within c r) r
      else c :: ungroupFrom (around.advance c) (groupedAt around within c r) r := rfl

/-- The scan of a text that no run of digits and commas joins to the text before. -/
theorem ungroupFrom_append (hs : ∀ c ∈ s.head?, isDigitOrComma c = false) (t : List Char) :
    ungroupFrom around within (t ++ s) =
      ungroupFrom around within t ++ ungroupFrom (around.after t) false s := by
  induction t generalizing around within with
  | nil =>
    cases s with
    | nil => rfl
    | cons c s =>
      have hc := hs c rfl
      rw [List.nil_append, ungroupFrom_other hc, ← ungroupFrom_other hc false]
      rfl
  | cons c t ih =>
    have hrun : (c :: (t ++ s)).takeWhile isDigitOrComma = (c :: t).takeWhile isDigitOrComma :=
      takeWhile_append_of_head hs (c :: t)
    have hgrouped : groupedAt around within c (t ++ s) = groupedAt around within c t := by
      unfold groupedAt
      rw [hrun]
    rw [List.cons_append, ungroupFrom_cons, ungroupFrom_cons, hgrouped, ih]
    split <;> rfl

/-- The parentheses of a text are kept. -/
theorem depthThrough_ungroupFrom (around : Surroundings) (within : Bool) (d : Nat) (t : List Char) :
    depthThrough d (ungroupFrom around within t) = depthThrough d t := by
  induction t generalizing around within d with
  | nil => rfl
  | cons c t ih =>
    rw [ungroupFrom_cons]
    split
    · rename_i hdropped
      obtain rfl := eq_of_beq (Bool.and_eq_true_iff.mp hdropped).2
      rw [ih, depthThrough_other (by decide)]
    · rw [depthThrough_cons, depthThrough_cons d c t]
      exact congrArg _ (funext fun e => ih _ _ e)

theorem getLast?_of_isGroups (h : isGroups t = true) : ∀ c ∈ t.getLast?, c ≠ ',' := by
  fun_induction isGroups t with
  | case1 => exact nofun
  | case2 c x y z rest ih =>
    obtain ⟨h, hrest⟩ := Bool.and_eq_true_iff.mp h
    have hz : isDigit z = true := (Bool.and_eq_true_iff.mp h).2
    cases rest with
    | nil =>
      intro d hd
      obtain rfl : z = d := Option.some.inj hd
      rintro rfl
      exact absurd (hz.symm.trans isDigit_comma) (by decide)
    | cons w rest => exact ih hrest
  | case3 => exact absurd h Bool.false_ne_true

/-- A grouped number does not end in a comma. -/
theorem getLast?_of_isGrouped (h : isGrouped t = true) : ∀ c ∈ t.getLast?, c ≠ ',' := by
  obtain ⟨h, hgroups⟩ := Bool.and_eq_true_iff.mp h
  have hne : t.dropWhile isDigit ≠ [] := by
    intro hnil
    have hsome := (Bool.and_eq_true_iff.mp h).2
    rw [hnil] at hsome
    exact absurd hsome (by decide)
  have hlast : t.getLast? = (t.dropWhile isDigit).getLast? := by
    rw [← List.getLast?_append_of_ne_nil (t.takeWhile isDigit) hne, List.takeWhile_append_dropWhile]
  rw [hlast]
  exact getLast?_of_isGroups hgroups

/-- No text loses its last character. -/
theorem getLast?_ungroupFrom (around : Surroundings)
    (hwithin : within = true → ∀ c ∈ (t.takeWhile isDigitOrComma).getLast?, c ≠ ',') :
    (ungroupFrom around within t).getLast? = t.getLast? := by
  induction t generalizing around within with
  | nil => rfl
  | cons c t ih =>
    have hgrouped : groupedAt around within c t = true → isDigitOrComma c = true ∧
        ∀ d ∈ ((c :: t).takeWhile isDigitOrComma).getLast?, d ≠ ',' := by
      unfold groupedAt
      intro h
      split at h
      · rename_i hc
        refine ⟨hc, ?_⟩
        rcases Bool.or_eq_true_iff.mp h with hw | hstart
        · exact hwithin hw
        · exact getLast?_of_isGrouped (Bool.and_eq_true_iff.mp hstart).2
      · exact absurd h Bool.false_ne_true
    have hrest : (ungroupFrom (around.advance c) (groupedAt around within c t) t).getLast? =
        t.getLast? := by
      apply ih
      intro h d hd
      obtain ⟨hc, hlast⟩ := hgrouped h
      rw [List.takeWhile_cons_of_pos hc] at hlast
      exact hlast d (List.mem_getLast?_cons hd)
    rw [ungroupFrom_cons]
    split
    · rename_i hdropped
      obtain ⟨h, hcomma⟩ := Bool.and_eq_true_iff.mp hdropped
      obtain rfl := eq_of_beq hcomma
      rw [hrest]
      cases t with
      | nil => exact absurd rfl ((hgrouped h).2 ',' rfl)
      | cons d t => rw [List.getLast?_cons_cons]
    · rw [List.getLast?_cons, hrest, List.getLast?_cons]

end Cutting

section Enclosed

theorem advance_opening (around : Surroundings) :
    around.advance '(' = ⟨around.followsName :: around.parens, none, false, some '('⟩ := by
  unfold Surroundings.advance
  rw [if_neg (by decide), if_neg (by decide)]
  rfl

theorem advance_parens_eq (around : Surroundings) (c : Char) : (around.advance c).parens =
    if c = '(' then around.followsName :: around.parens
    else if c = ')' then around.parens.tail else around.parens := by
  by_cases hopen : c = '('
  · subst hopen
    rw [advance_opening, if_pos rfl]
  by_cases hclose : c = ')'
  · subst hclose
    unfold Surroundings.advance
    rw [if_neg (by decide), if_neg (by decide)]
  · rw [Surroundings.advance_parens hopen hclose, if_neg hopen, if_neg hclose]

theorem advance_last (around : Surroundings) (c : Char) : (around.advance c).last = some c := by
  unfold Surroundings.advance
  split
  · rfl
  · split <;> rfl

/-- A character between parentheses changes what is open above them only. -/
theorem advance_above (h : around.parens = q ++ low)
    (hdepth : depthThrough q.length (c :: t) = some e) :
    ∃ q', (around.advance c).parens = q' ++ low ∧ depthThrough q'.length t = some e := by
  rw [advance_parens_eq, h]
  by_cases hopen : c = '('
  · rw [if_pos hopen]
    rw [hopen] at hdepth
    exact ⟨around.followsName :: q, rfl, hdepth⟩
  rw [if_neg hopen]
  by_cases hclose : c = ')'
  · rw [if_pos hclose]
    subst hclose
    cases q with
    | nil => exact absurd hdepth (by simp [depthThrough])
    | cons p q => exact ⟨q, rfl, hdepth⟩
  · rw [if_neg hclose]
    rw [depthThrough_other ⟨hopen, hclose⟩] at hdepth
    exact ⟨q, rfl, hdepth⟩

/-- Within a call every character is kept. -/
theorem ungroupFrom_enclosed (hlow : low.any id = true) (h : around.parens = q ++ low)
    (hdepth : depthThrough q.length t = some e) (s : List Char) :
    ungroupFrom around false (t ++ s) = t ++ ungroupFrom (around.after t) false s := by
  induction t generalizing around q with
  | nil => rfl
  | cons c t ih =>
    have hinside : around.insideCall = true := by
      unfold Surroundings.insideCall
      rw [h, List.any_append, hlow, Bool.or_true]
    obtain ⟨q', hq', hdepth'⟩ := advance_above h hdepth
    rw [List.cons_append, ungroupFrom_inside hinside, ih hq' hdepth']
    rfl

/-- Surroundings that differ in parentheses further out, none of which is that of a call. -/
structure Outside (low : List Bool) (around other : Surroundings) : Prop where
  parens : around.parens = other.parens ++ low
  word : around.word = other.word
  spaced : around.spaced = other.spaced
  number : around.allowsNumber = other.allowsNumber

theorem Outside.advance (h : Outside low around other)
    (hdepth : depthThrough other.parens.length (c :: t) = some e) :
    Outside low (around.advance c) (other.advance c) ∧
      depthThrough (other.advance c).parens.length t = some e := by
  have hname : around.followsName = other.followsName := by
    unfold Surroundings.followsName
    rw [h.word]
  obtain ⟨q, hq, hdepth'⟩ := advance_above (List.append_nil other.parens).symm hdepth
  rw [List.append_nil] at hq
  refine ⟨⟨?_, ?_, ?_, ?_⟩, by rwa [hq]⟩
  · rw [advance_parens_eq, advance_parens_eq, h.parens, hname]
    split
    · rfl
    · split
      · rename_i hclose
        subst hclose
        cases hparens : other.parens with
        | nil =>
          rw [hparens] at hdepth
          exact absurd hdepth (by simp [depthThrough])
        | cons p q => rfl
      · rfl
  · unfold Surroundings.advance
    rw [h.word, h.spaced]
    split
    · rfl
    · split <;> rfl
  · unfold Surroundings.advance
    split
    · rfl
    · split <;> rfl
  · unfold Surroundings.allowsNumber
    rw [advance_last, advance_last]

/-- What is open further out does not matter if no call is. -/
theorem ungroupFrom_outside (hlow : low.any id = false) (h : Outside low around other)
    (hdepth : depthThrough other.parens.length t = some e) :
    ungroupFrom around within t = ungroupFrom other within t := by
  induction t generalizing around other within with
  | nil => rfl
  | cons c t ih =>
    have hinside : around.insideCall = other.insideCall := by
      unfold Surroundings.insideCall
      rw [h.parens, List.any_append, hlow, Bool.or_false]
    obtain ⟨hnext, hdepth'⟩ := h.advance hdepth
    rw [ungroupFrom, ungroupFrom, hinside, h.number, ih hnext hdepth']

end Enclosed

section Names

/-- Where a name may start, a word begins anew. -/
theorem spaced_or_none (hlast : allowsName t.getLast? = true) :
    (Surroundings.start.after t).spaced = true ∨ (Surroundings.start.after t).word = none := by
  induction t using List.reverseRecOn with
  | nil => exact Or.inr rfl
  | append_singleton t c _ =>
    have hc : ¬ isWord c = true := by
      intro hword
      rw [List.getLast?_concat] at hlast
      unfold allowsName at hlast
      dsimp only at hlast
      rw [hword] at hlast
      exact absurd hlast Bool.false_ne_true
    rw [Surroundings.after_append, Surroundings.after_cons]
    unfold Surroundings.advance
    rw [if_neg hc]
    split
    · exact Or.inl rfl
    · exact Or.inr rfl

/-- White space that is no space ends the word before it. -/
theorem after_blanks (hblank : ∀ c ∈ gap, isBlank c = true) (hmark : ∃ c ∈ gap, c ≠ ' ') :
    (around.after gap).word = none := by
  have hnone : ∀ {around : Surroundings} {gap : List Char}, (∀ c ∈ gap, isBlank c = true) →
      around.word = none → (around.after gap).word = none := by
    intro around gap hblank hword
    induction gap generalizing around with
    | nil => exact hword
    | cons c gap ih =>
      obtain ⟨hc, hgap⟩ := List.forall_mem_cons.mp hblank
      exact ih hgap ((around.advance_blank hc).1 hword)
  induction gap generalizing around with
  | nil =>
    obtain ⟨c, hc, -⟩ := hmark
    exact absurd hc List.not_mem_nil
  | cons c gap ih =>
    obtain ⟨hc, hgap⟩ := List.forall_mem_cons.mp hblank
    rw [Surroundings.after_cons]
    by_cases hspace : c = ' '
    · apply ih hgap
      obtain ⟨d, hd, hne⟩ := hmark
      rcases List.mem_cons.mp hd with rfl | hd
      · exact absurd hspace hne
      · exact ⟨d, hd, hne⟩
    · apply hnone hgap
      unfold Surroundings.advance
      rw [isWord_of_isBlank hc, if_neg Bool.false_ne_true, if_neg hspace]

/-- A name makes the parenthesis after it one of a call, if only spaces stand between them. -/
theorem followsName_after_iff (f : Name) (hword : around.spaced = true ∨ around.word = none)
    (hblank : ∀ c ∈ gap, isBlank c = true) :
    (around.after (f.chars ++ gap)).followsName = true ↔ ∀ c ∈ gap, c = ' ' := by
  obtain ⟨c, r, hchars, hc, hall⟩ := f.exists_cons
  have hname : (around.after f.chars).word = some c := by
    rw [hchars]
    exact Surroundings.after_word (hall c List.mem_cons_self)
      (fun d hd => hall d (List.mem_cons_of_mem c hd)) hword
  rw [Surroundings.after_append]
  unfold Surroundings.followsName
  constructor
  · intro hfollows
    by_contra hspaces
    push Not at hspaces
    rw [after_blanks hblank hspaces] at hfollows
    exact absurd hfollows Bool.false_ne_true
  · intro hspaces
    rw [Surroundings.after_spaces _ hspaces, hname]
    exact isAlphabetic_of_isNameStart hc

end Names

section Calls

variable {text before arguments after : List Char} {f : Name} {call : CallStart} {stop : Nat}

/-- Whether the scan takes what stands between the parentheses of a call for arguments: only spaces
stand before the parenthesis, or the call stands in one that the scan knows. -/
def Recognised (before gap : List Char) : Prop :=
  (∀ c ∈ gap, c = ' ') ∨ (Surroundings.start.after before).insideCall = true

instance (before gap : List Char) : Decidable (Recognised before gap) :=
  inferInstanceAs (Decidable (_ ∨ _))

/-- No grouped number starts with a name. -/
theorem Name.head_not_grouping (f : Name) (r : List Char) :
    ∀ d ∈ (f.chars ++ r).head?, isDigitOrComma d = false := by
  obtain ⟨c, s, hchars, hc, -⟩ := f.exists_cons
  have hcomma : c ≠ ',' := by
    rintro rfl
    exact absurd hc (by decide)
  rw [hchars]
  rintro _ ⟨⟩
  unfold isDigitOrComma
  rw [isDigit_of_isNameStart hc, beq_eq_false_iff_ne.mpr hcomma]
  rfl

/-- A name and white space have no commas and no parentheses. -/
theorem CallIn.callee_solid (h : CallIn text before f gap arguments after) :
    ∀ d ∈ f.chars ++ gap, d ≠ ',' ∧ d ≠ '(' ∧ d ≠ ')' := by
  intro d hd
  rcases List.mem_append.mp hd with hd | hd
  · exact solid_operand (isOperandChar_of_isWord (f.isWord_of_mem hd))
  · exact solid_blank (h.blank d hd)

/-- What the scan knows at the first argument of a call. -/
theorem CallIn.opened (h : CallIn text before f gap arguments after) : ∃ around : Surroundings,
    ungroup text = ungroup before ++ (f.chars ++ (gap ++ '(' ::
      ungroupFrom around false (arguments ++ ')' :: after))) ∧
    Outside around.parens around .start ∧ (around.insideCall = true ↔ Recognised before gap) := by
  have hparens : ((Surroundings.start.after before).after (f.chars ++ gap)).parens =
      (Surroundings.start.after before).parens :=
    Surroundings.after_parens fun d hd => (h.callee_solid d hd).2
  refine ⟨((Surroundings.start.after before).after (f.chars ++ gap)).advance '(', ?_, ?_, ?_⟩
  · have hcallee : f.chars ++ (gap ++ '(' :: (arguments ++ ')' :: after)) =
        (f.chars ++ gap) ++ '(' :: (arguments ++ ')' :: after) := (List.append_assoc _ _ _).symm
    have hparen : ∀ d ∈ ('(' :: (arguments ++ ')' :: after)).head?, isDigitOrComma d = false := by
      rintro _ ⟨⟩
      decide
    rw [h.text_eq]
    unfold ungroup
    rw [ungroupFrom_append (f.head_not_grouping _), hcallee,
      ungroupFrom_solid h.callee_solid (Or.inr hparen), ungroupFrom_other (by decide),
      List.append_assoc]
  · have hnumber : (!(isDigitOrComma '(' || '(' == '.')) = true := by decide
    rw [advance_opening]
    exact ⟨rfl, rfl, rfl, hnumber⟩
  · have hnamed := followsName_after_iff f (spaced_or_none h.last) h.blank
    rw [advance_opening, hparens]
    unfold Recognised Surroundings.insideCall
    rw [List.any_cons, Bool.or_eq_true, id, hnamed]

/-- A call is in the text again when the grouped numbers have been joined. If the scan knows the call
its arguments are kept; otherwise the grouped numbers in them are joined as in a text of their own. -/
theorem CallIn.ungrouped (h : CallIn text before f gap arguments after) :
    ∃ after', CallIn (ungroup text) (ungroup before) f gap
      (if Recognised before gap then arguments else ungroup arguments) after' := by
  obtain ⟨around, htext, houtside, hinside⟩ := h.opened
  have hdepth := closing_iff.mp h.closed
  have hlast : allowsName (ungroup before).getLast? = true := by
    unfold ungroup
    rw [getLast?_ungroupFrom .start (fun h => absurd h Bool.false_ne_true)]
    exact h.last
  have hclosing : ∀ {within : Bool}, ungroupFrom (around.after arguments) within (')' :: after) =
      ')' :: ungroupFrom ((around.after arguments).advance ')') false after :=
    fun {_} => ungroupFrom_other (by decide) _ _
  have harguments : ungroupFrom around false (arguments ++ ')' :: after) =
      (if Recognised before gap then arguments else ungroup arguments) ++
        ')' :: ungroupFrom ((around.after arguments).advance ')') false after := by
    by_cases hknown : Recognised before gap
    · rw [if_pos hknown, ungroupFrom_enclosed (hinside.mpr hknown) (List.nil_append _).symm hdepth,
        hclosing]
    · have hlow : around.parens.any id = false :=
        Bool.eq_false_iff.mpr fun h => hknown (hinside.mp h)
      have hparen : ∀ d ∈ (')' :: after).head?, isDigitOrComma d = false := by
        rintro _ ⟨⟩
        decide
      rw [if_neg hknown, ungroupFrom_append hparen, ungroupFrom_outside hlow houtside hdepth,
        hclosing]
      rfl
  refine ⟨ungroupFrom ((around.after arguments).advance ')') false after, ?_, h.blank, hlast, ?_⟩
  · rw [htext, harguments]
  · apply closing_iff.mpr
    split
    · exact hdepth
    · unfold ungroup
      rw [depthThrough_ungroupFrom, hdepth]

/-- Every call of a text that has its closing parenthesis is found again when the grouped numbers of
the text have been joined, with the arguments that were written if the scan knows the call. A call
that the scan does not know keeps its commas only where they belong to no grouped number. -/
theorem ungroup_call (h : call ∈ callStarts text)
    (hstop : closingPosition text call.paren = some stop) :
    ∃ before f gap arguments after after', CallIn text before f gap arguments after ∧
      call = callStart before.length f gap (arguments ++ ')' :: after) ∧
      stop = call.paren + (arguments.length + 1) ∧
      CallIn (ungroup text) (ungroup before) f gap
        (if Recognised before gap then arguments else ungroup arguments) after' := by
  obtain ⟨before, f, gap, arguments, after, hin, hcall, hlength⟩ := exists_callIn h hstop
  obtain ⟨after', hungrouped⟩ := hin.ungrouped
  exact ⟨before, f, gap, arguments, after, after', hin, hcall, hlength, hungrouped⟩

/-- The arguments of a call with a tab before its parenthesis become one number. -/
theorem ungroup_call_after_tab : ∃ f gap after',
    CallIn (ungroup "max\t(1,234)".toList) [] f gap "1234".toList after' := by
  have hmem : (⟨"max".toList, 0, 4, "(1,234)".toList⟩ : CallStart) ∈
      callStarts "max\t(1,234)".toList := by
    have hstarts : callStarts "max\t(1,234)".toList =
        [⟨"max".toList, 0, 4, "(1,234)".toList⟩] := rfl
    rw [hstarts]
    exact List.mem_singleton_self _
  have hstop : closingPosition "max\t(1,234)".toList 4 = some 10 := rfl
  obtain ⟨before, f, gap, arguments, after, after', hin, hcall, hlength, hout⟩ :=
    ungroup_call hmem hstop
  have hbefore : before = [] :=
    List.length_eq_zero_iff.mp (congrArg CallStart.start hcall).symm
  subst hbefore
  have hname : f.chars = "max".toList := (congrArg CallStart.name hcall).symm
  have hgap : 4 = 0 + f.chars.length + gap.length := congrArg CallStart.paren hcall
  have hrest : "1,234".toList ++ [')'] = arguments ++ ')' :: after :=
    (List.cons.inj (congrArg CallStart.rest hcall)).2
  have harguments : arguments = "1,234".toList := by
    dsimp only at hlength
    refine (List.append_inj hrest ?_).1.symm
    change 5 = arguments.length
    omega
  have htab : gap = ['\t'] := by
    have htext : "max".toList ++ (['\t'] ++ "(1,234)".toList) =
        f.chars ++ (gap ++ '(' :: (arguments ++ ')' :: after)) := hin.text_eq
    rw [hname, List.append_right_inj] at htext
    rw [hname] at hgap
    refine (List.append_inj htext ?_).1.symm
    change 4 = 0 + 3 + gap.length at hgap
    change 1 = gap.length
    omega
  have hunknown : ¬ Recognised [] ['\t'] := by
    rintro (hspaces | hinside)
    · exact absurd (hspaces '\t' List.mem_cons_self) (by decide)
    · exact absurd hinside Bool.false_ne_true
  rw [harguments, htab, if_neg hunknown] at hout
  exact ⟨f, ['\t'], after', hout⟩

end Calls

end Reckoner.Formula
