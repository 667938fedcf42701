import Reckoner.Proofs.Formula.Cleaned
import Reckoner.Proofs.Formula.DressedLayout
import Reckoner.Proofs.Formula.GroupedRuns

/-!
The canonical form of a canonical form. Markup, typographic signs, currency signs and blanks at the
ends do not come back. Setting spaces moves white space around operators only, and words and numbers
keep what stands right around them, so no grouped number comes up whose commas had been kept and all
spaces stay as they have been set. One equals sign is dropped each time, and apart from it nothing
changes.
-/
namespace Reckoner.Formula

open Text Arith

/-- How setting spaces changes a text. The flag says that no word and no number goes on from what
stands before, so that white space may be dropped. -/
inductive Respaced : Bool → List Char → List Char → Prop
  | ending {b s} : (∀ c ∈ s, isBlank c = true) → Respaced b s []
  | keep {b s t} (c : Char) : Respaced false s t → Respaced b (c :: s) (c :: t)
  | space {b c s t} : isBlank c = true → Respaced true s t → Respaced b (c :: s) (' ' :: t)
  | drop {c s t} : isBlank c = true → Respaced true s t → Respaced true (c :: s) t
  | after {b c s t} : isOperator c = true → Respaced true s t → Respaced b (c :: s) (c :: ' ' :: t)
  | before {b gap c s t} : (∀ d ∈ gap, isBlank d = true) → isOperator c = true →
      Respaced false s t → Respaced b (gap ++ c :: s) (' ' :: c :: t)

variable {around other : Surroundings} {gap s t : List Char} {c : Char} {b : Bool}

section Steps

theorem respaced_spaceAfterNames (s : List Char) :
    (∀ named, Respaced false s (spaceAfterNames named s)) ∧
      (startsWith isOperator (s.dropWhile isBlank) = true → ∀ gap, (∀ c ∈ gap, isBlank c = true) →
        Respaced false (gap ++ s) (spaceAfterNames true s)) := by
  induction s with
  | nil => exact ⟨fun _ => .ending (by simp), fun h => absurd h Bool.false_ne_true⟩
  | cons c r ih =>
    obtain ⟨hany, hlead⟩ := ih
    constructor
    · intro named
      unfold spaceAfterNames
      split
      · exact .keep c (hany _)
      · split
        · rename_i hop
          have hgap : ∀ d ∈ ([] : List Char), isBlank d = true := by simp
          exact .before hgap (Bool.and_eq_true_iff.mp hop).2 (hany false)
        · split
          · rename_i hblank
            obtain ⟨hblank, hstarts⟩ := Bool.and_eq_true_iff.mp hblank
            have hc := (Bool.and_eq_true_iff.mp hblank).2
            exact hlead hstarts [c] (by simpa using hc)
          · exact .keep c (hany false)
    · intro hstarts gap hgap
      unfold spaceAfterNames
      cases hc : isBlank c with
      | true =>
        rw [List.dropWhile_cons_of_pos hc] at hstarts
        have hall : ∀ d ∈ gap ++ [c], isBlank d = true :=
          List.forall_mem_append.mpr ⟨hgap, by simpa using hc⟩
        have hrest := hlead hstarts (gap ++ [c]) hall
        rw [List.append_assoc] at hrest
        rw [isWord_of_isBlank hc, isOperator_of_isBlank hc, Bool.and_false, hstarts]
        exact hrest
      | false =>
        rw [dropWhile_cons_of_false hc] at hstarts
        have hop : isOperator c = true := hstarts
        rw [isWord_of_isOperator hop, hop]
        exact .before hgap hop (hany false)

theorem respaced_spaceBeforeNames (spaced : Bool) (s : List Char) :
    Respaced spaced s (spaceBeforeNames spaced s) := by
  induction s generalizing spaced with
  | nil => exact .ending (by simp)
  | cons c r ih =>
    unfold spaceBeforeNames
    split
    · rename_i hblank
      obtain ⟨rfl, hc⟩ := Bool.and_eq_true_iff.mp hblank
      exact .drop hc (ih true)
    · split
      · rename_i hop
        exact .after (Bool.and_eq_true_iff.mp hop).1 (ih true)
      · exact .keep c (ih false)

theorem respaced_collapseBlanks (after : Bool) (s : List Char) :
    Respaced after s (collapseBlanks after s) := by
  induction s generalizing after with
  | nil => exact .ending (by simp)
  | cons c r ih =>
    unfold collapseBlanks
    split
    · rename_i hc
      split
      · rename_i hafter
        rw [hafter]
        exact .drop hc (ih true)
      · exact .space hc (ih true)
    · exact .keep c (ih false)

theorem respaced_trim (s : List Char) : Respaced true s (trim s) := by
  have hkept : ∀ {b : Bool} (t : List Char) {after : List Char}, (∀ c ∈ after, isBlank c = true) →
      Respaced b (t ++ after) t := by
    intro b t after hafter
    induction t generalizing b with
    | nil => exact .ending hafter
    | cons c t ih => exact .keep c ih
  obtain ⟨before, after, hsplit, hbefore, hafter⟩ := exists_around_trim s
  have hinner := hkept (b := true) (trim s) hafter
  generalize trim s = t at hsplit hinner
  subst hsplit
  rw [List.append_assoc]
  induction before with
  | nil => exact hinner
  | cons c before ih =>
    obtain ⟨hc, hbefore⟩ := List.forall_mem_cons.mp hbefore
    exact .drop hc (ih hbefore)

end Steps

section Grouped

theorem isDigitOrComma_operator (hc : isOperator c = true) : isDigitOrComma c = false ∧ c ≠ '.' := by
  obtain ⟨op, rfl⟩ := isOperator_iff.mp hc
  cases op <;> decide

/-- Spaces are set at no place where digits and commas meet. -/
theorem Respaced.takeWhile_eq (h : Respaced false s t) :
    t.takeWhile isDigitOrComma = s.takeWhile isDigitOrComma := by
  have hnone : ∀ {s : List Char}, (∀ c ∈ s.head?, isDigitOrComma c = false) →
      s.takeWhile isDigitOrComma = [] := fun hs =>
    takeWhile_append_stop (fun _ h => absurd h List.not_mem_nil) hs
  have hspace : isDigitOrComma ' ' = false := by decide
  generalize hb : false = b at h
  induction h with
  | @ending _ s hs =>
    have hhead := head_blanks hs (s := []) (by simp)
    rw [List.append_nil] at hhead
    rw [hnone hhead, List.takeWhile_nil]
  | keep c _ ih =>
    rw [List.takeWhile_cons, List.takeWhile_cons, ih rfl]
  | space hc _ _ => rw [hnone (by simp [hspace]), hnone (by simp [(isDigitOrComma_blank hc).1])]
  | drop _ _ _ => exact absurd hb Bool.false_ne_true
  | after hc _ _ =>
    obtain ⟨hchar, _⟩ := isDigitOrComma_operator hc
    rw [hnone (by simp [hchar]), hnone (by simp [hchar])]
  | @before _ _ c s _ hgap hc _ _ =>
    have hhead := head_blanks hgap (s := c :: s) (by simp [(isDigitOrComma_operator hc).1])
    rw [hnone (by simp [hspace]), hnone hhead]

namespace Surroundings

/-- That no word and no number goes on. -/
def Ended (around : Surroundings) : Prop := around.inWord = false ∧ around.allowsNumber = true

theorem ended_advance (around : Surroundings) (hword : isWord c = false)
    (hnumber : isDigitOrComma c = false ∧ c ≠ '.') : (around.advance c).Ended := by
  refine ⟨by rw [inWord_advance, hword], ?_⟩
  rw [allowsNumber_advance, hnumber.1, beq_eq_false_iff_ne.mpr hnumber.2]
  rfl

theorem ended_blank (around : Surroundings) (hc : isBlank c = true) : (around.advance c).Ended :=
  ended_advance around (isWord_of_isBlank hc) (isDigitOrComma_blank hc)

theorem ended_operator (around : Surroundings) (hc : isOperator c = true) :
    (around.advance c).Ended :=
  ended_advance around (isWord_of_isOperator hc) (isDigitOrComma_operator hc)

theorem parens_blank (around : Surroundings) (hc : isBlank c = true) :
    (around.advance c).parens = around.parens := by
  apply advance_parens <;>
  · rintro rfl
    exact absurd hc (by decide)

/-- After white space no name ends here that did not before. -/
theorem followsName_blank (hc : isBlank c = true) (h : (around.advance c).followsName = true) :
    around.followsName = true := by
  by_cases hspace : c = ' '
  · subst hspace
    unfold followsName at h ⊢
    rwa [(advance_space around).1] at h
  · unfold followsName at h
    rw [(advance_stop around (isWord_of_isBlank hc) hspace).1] at h
    exact absurd h Bool.false_ne_true

theorem followsName_space (around : Surroundings) :
    (around.advance ' ').followsName = around.followsName := by
  unfold followsName
  rw [(advance_space around).1]

/-- White space is dropped where nothing goes on. -/
theorem Covers.drop (h : Covers around other) (hended : around.Ended) (hc : isBlank c = true) :
    Covers around (other.advance c) := by
  obtain ⟨hword, hnumber⟩ := ended_blank other hc
  refine ⟨?_, fun hname => h.name (followsName_blank hc hname), ?_, ?_⟩
  · rw [parens_blank other hc]
    exact h.parens
  · rw [hended.1, hword]
  · rw [hended.2, hnumber]

/-- A space is put in where nothing goes on. -/
theorem Covers.pad (h : Covers around other) (hended : other.Ended) :
    Covers (around.advance ' ') other := by
  obtain ⟨hword, hnumber⟩ := ended_blank around (c := ' ') (by decide)
  refine ⟨?_, fun hname => ?_, ?_, ?_⟩
  · rw [parens_blank around (by decide)]
    exact h.parens
  · rw [followsName_space]
    exact h.name hname
  · rw [hended.1, hword]
  · rw [hended.2, hnumber]

/-- A space takes the place of other white space. -/
theorem Covers.space (h : Covers around other) (hc : isBlank c = true) :
    Covers (around.advance ' ') (other.advance c) := by
  obtain ⟨hword, hnumber⟩ := ended_blank other hc
  obtain ⟨hword', hnumber'⟩ := ended_blank around (c := ' ') (by decide)
  refine ⟨?_, fun hname => ?_, by rw [hword, hword'], by rw [hnumber, hnumber']⟩
  · rw [parens_blank around (by decide), parens_blank other hc]
    exact h.parens
  · rw [followsName_space]
    exact h.name (followsName_blank hc hname)

/-- Before an operator all white space is alike. -/
theorem Covers.operator (h : Covers around other) (hgap : ∀ d ∈ gap, isBlank d = true)
    (hc : isOperator c = true) :
    Covers ((around.advance ' ').advance c) ((other.after gap).advance c) := by
  obtain ⟨hblank, hclosing⟩ := (isOperandChar_operator hc).2
  have hopening : c ≠ '(' := by
    rintro rfl
    exact absurd hc (by decide)
  have hspace : c ≠ ' ' := by
    rintro rfl
    exact absurd hblank (by decide)
  refine ⟨?_, fun hname => ?_, ?_, ?_⟩
  · rw [advance_parens hopening hclosing, advance_parens hopening hclosing,
      parens_blank around (by decide), after_parens (not_parens_blank hgap)]
    exact h.parens
  · unfold followsName at hname
    rw [(advance_stop _ (isWord_of_isOperator hc) hspace).1] at hname
    exact absurd hname Bool.false_ne_true
  · rw [inWord_advance, inWord_advance]
  · rw [allowsNumber_advance, allowsNumber_advance]

end Surroundings

open Surroundings

theorem Ungrouped.right (h : Ungrouped around (s ++ t)) : Ungrouped (around.after s) t := by
  induction s generalizing around with
  | nil => exact h
  | cons c s ih => exact ih h.rest

/-- Setting spaces brings up no grouped number. -/
theorem Respaced.ungrouped (h : Respaced b s t) (hcovers : Covers around other)
    (hended : b = true → around.Ended) (hs : Ungrouped other s) : Ungrouped around t := by
  have hspace : ∀ (around : Surroundings) (r : List Char), startsGrouped around (' ' :: r) = false :=
    startsGrouped_other (by decide)
  have hspaced : ∀ around : Surroundings, (around.advance ' ').Ended := fun around =>
    ended_blank around (by decide)
  induction h generalizing around other with
  | ending _ => exact .nil
  | keep c hrest ih =>
    refine .cons (startsGrouped_of_covers hcovers ?_) (ih (hcovers.advance c) nofun hs.rest)
    have hfirst := hs.first
    unfold startsGrouped at hfirst ⊢
    rwa [List.takeWhile_cons, hrest.takeWhile_eq, ← List.takeWhile_cons]
  | space hc _ ih =>
    exact .cons (hspace _ _) (ih (hcovers.space hc) (fun _ => hspaced around) hs.rest)
  | drop hc _ ih => exact ih (hcovers.drop (hended rfl) hc) hended hs.rest
  | @after _ c s t hc _ ih =>
    have hnext := (hcovers.advance c).pad (ended_operator other hc)
    exact .cons (startsGrouped_other (isDigitOrComma_operator hc).1 _ _)
      (.cons (hspace _ _) (ih hnext (fun _ => hspaced _) hs.rest))
  | before hgap hc _ ih =>
    exact .cons (hspace _ _) (.cons (startsGrouped_other (isDigitOrComma_operator hc).1 _ _)
      (ih (hcovers.operator hgap hc) nofun hs.right.rest))

theorem Respaced.ungrouped_start (h : Respaced b s t) (hs : Ungrouped .start s) :
    Ungrouped .start t := h.ungrouped (.refl .start) (fun _ => ⟨rfl, rfl⟩) hs

/-- The steps of the canonical form that set spaces. -/
def spacing (s : List Char) : List Char :=
  trim (collapseBlanks false (spaceBeforeNames false (spaceAfterNames false s)))

theorem canonical_eq (s : List Char) : canonical s = spacing (bare s) := rfl

theorem Ungrouped.spacing (h : Ungrouped .start s) : Ungrouped .start (spacing s) := by
  have hnames := ((respaced_spaceAfterNames s).1 false).ungrouped_start h
  have hoperators := (respaced_spaceBeforeNames false _).ungrouped_start hnames
  have hblanks := (respaced_collapseBlanks false _).ungrouped_start hoperators
  exact (respaced_trim _).ungrouped_start hblanks

/-- In a canonical form no grouped number starts. -/
theorem ungrouped_canonical (s : List Char) : Ungrouped .start (canonical s) := by
  have hbare : Ungrouped .start (bare s) := ungrouped_ungroupFrom (.refl .start) _
  rw [canonical_eq]
  exact hbare.spacing

end Grouped

section Avoids

variable {w : Watch} {on on' : Bool}

/-- White space is not forbidden, and after it nothing is. -/
def Watch.ResetsAtBlanks (w : Watch) : Prop :=
  ∀ c, isBlank c = true → w.forbidden c = false ∧ ∀ on, w.step on c = false

theorem nameWatch_resets : nameWatch.ResetsAtBlanks := by
  intro c hc
  refine ⟨isOperator_of_isBlank hc, fun on => ?_⟩
  change (isWord c && (on || isNameStart c)) = false
  rw [isWord_of_isBlank hc, Bool.false_and]

theorem operatorWatch_resets : operatorWatch.ResetsAtBlanks := by
  intro c hc
  refine ⟨?_, fun _ => isOperator_of_isBlank hc⟩
  change (isNameStart c || c == '@') = false
  rw [Bool.or_eq_false_iff]
  constructor
  · exact isNameStart_of_not_operand (isOperandChar_of_isBlank hc)
  · apply beq_eq_false_iff_ne.mpr
    rintro rfl
    exact absurd hc (by decide)

/-- What does not stand right after something does not come to stand there when spaces are set. -/
theorem Respaced.avoids (hw : w.ResetsAtBlanks) (h : Respaced b s t) (hb : b = true → on = false)
    (hs : w.Avoids on s) : w.Avoids on t := by
  obtain ⟨hfree, hreset⟩ := hw ' ' (by decide)
  induction h generalizing on with
  | ending _ => exact .nil
  | keep c _ ih => exact .cons hs.first (ih nofun hs.rest)
  | @space _ c s t hc _ ih =>
    have hrest := hs.rest
    rw [(hw c hc).2] at hrest
    refine .cons (fun _ => hfree) ?_
    rw [hreset]
    exact ih (fun _ => rfl) hrest
  | @drop c s t hc _ ih =>
    have hrest := hs.rest
    rw [(hw c hc).2] at hrest
    rw [hb rfl]
    exact ih (fun _ => rfl) hrest
  | after hc _ ih =>
    refine .cons hs.first (.cons (fun _ => hfree) ?_)
    rw [hreset]
    exact ih (fun _ => rfl) (hs.rest.weaken nofun)
  | before hgap hc _ ih =>
    obtain ⟨on', hright⟩ := hs.right
    have hrest : w.Avoids false _ := hright.weaken nofun
    refine .cons (fun _ => hfree) ?_
    rw [hreset]
    exact .cons nofun (ih nofun hrest.rest)

theorem avoids_spaceAfterNames (named : Bool) (s : List Char) :
    nameWatch.Avoids named (spaceAfterNames named s) := by
  induction s generalizing named with
  | nil => exact .nil
  | cons c r ih =>
    have hstep : ∀ {named : Bool} {c : Char}, ¬ isWord c = true → nameWatch.step named c = false :=
      fun hword => Bool.eq_false_iff.mpr fun hstep => hword (Bool.and_eq_true_iff.mp hstep).1
    unfold spaceAfterNames
    split
    · rename_i hword
      refine .cons (fun _ => isOperator_of_isWord hword) ?_
      change nameWatch.Avoids (isWord c && (named || isNameStart c)) _
      rw [hword, Bool.true_and]
      exact ih _
    · rename_i hword
      split
      · refine .cons (fun _ => by decide) ?_
        rw [hstep (by decide)]
        refine .cons (fun h => absurd h Bool.false_ne_true) ?_
        rw [hstep hword]
        exact ih false
      · rename_i hop
        split
        · rename_i hlead
          have hnamed := (Bool.and_eq_true_iff.mp (Bool.and_eq_true_iff.mp hlead).1).1
          rw [hnamed]
          exact ih true
        · refine .cons (fun hnamed => ?_) ?_
          · rw [hnamed, Bool.true_and] at hop
            exact Bool.eq_false_iff.mpr hop
          · rw [hstep hword]
            exact ih false

theorem avoids_spaceBeforeNames (spaced : Bool) (s : List Char)
    (hon : on = true → spaced = false ∧ startsWith startsOperand (s.dropWhile isBlank) = false) :
    operatorWatch.Avoids on (spaceBeforeNames spaced s) := by
  induction s generalizing spaced on with
  | nil => exact .nil
  | cons c r ih =>
    -- A character that starts an operand is no blank, so it would be the one after all blanks.
    have hfirst : on = true → startsOperand c = false := by
      intro h
      by_contra hstart
      have hblank : isBlank c = false := by
        rw [Bool.eq_false_iff]
        exact fun hc => hstart (operatorWatch_resets c hc).1
      have hnone := (hon h).2
      rw [dropWhile_cons_of_false hblank] at hnone
      exact hstart hnone
    unfold spaceBeforeNames
    split
    · rename_i hblank
      have hspaced := (Bool.and_eq_true_iff.mp hblank).1
      apply ih
      intro h
      exact absurd ((hon h).1.symm.trans hspaced) Bool.false_ne_true
    · split
      · exact .cons hfirst
          (.cons (fun _ => by decide) (ih true fun h => absurd h Bool.false_ne_true))
      · rename_i hlead
        refine .cons hfirst (ih false fun hop => ⟨rfl, ?_⟩)
        have hop : isOperator c = true := hop
        rw [hop, Bool.true_and] at hlead
        exact Bool.eq_false_iff.mpr hlead

theorem avoids_collapseBlanks (after : Bool) (s : List Char) (hon : on = true → after = true) :
    blankWatch.Avoids on (collapseBlanks after s) := by
  induction s generalizing after on with
  | nil => exact .nil
  | cons c r ih =>
    unfold collapseBlanks
    split
    · split
      · exact ih true fun _ => rfl
      · rename_i hafter
        exact .cons (fun h => absurd (hon h) hafter) (ih true fun _ => rfl)
    · rename_i hc
      exact .cons (fun _ => Bool.eq_false_iff.mpr hc) (ih false fun h => absurd h hc)

/-- Where spaces have been set all of them are. -/
theorem avoids_spacing (s : List Char) :
    nameWatch.Avoids false (spacing s) ∧ operatorWatch.Avoids false (spacing s) ∧
      blankWatch.Avoids false (spacing s) := by
  have hnames := avoids_spaceAfterNames false s
  have hnames := (respaced_spaceBeforeNames false _).avoids nameWatch_resets nofun hnames
  have hnames := (respaced_collapseBlanks false _).avoids nameWatch_resets nofun hnames
  have hoperators : operatorWatch.Avoids false _ :=
    avoids_spaceBeforeNames false (spaceAfterNames false s) nofun
  have hoperators := (respaced_collapseBlanks false _).avoids operatorWatch_resets nofun hoperators
  have hblanks : blankWatch.Avoids false _ :=
    avoids_collapseBlanks false (spaceBeforeNames false (spaceAfterNames false s)) nofun
  exact ⟨hnames.trim, hoperators.trim, hblanks.trim⟩

/-- Setting spaces once more changes nothing. -/
theorem spacing_of_avoids (hnames : nameWatch.Avoids false s)
    (hoperators : operatorWatch.Avoids false s) (hblanks : blankWatch.Avoids false s)
    (hspaces : OnlySpaces s) : spacing s = trim s := by
  unfold spacing
  rw [spaceAfterNames_of_avoids hnames hblanks hspaces,
    spaceBeforeNames_of_avoids hoperators hblanks hspaces,
    collapseBlanks_of_avoids hblanks hspaces]

end Avoids

section Again

/-- A canonical form that does not begin with an equals sign has nothing that is taken away. -/
theorem bare_canonical (h : (canonical s).head? ≠ some '=') : bare (canonical s) = canonical s := by
  have hclean := clean_canonical s
  have htrim : trim (canonical s) = canonical s := trim_trim _
  have hequals : dropEquals (canonical s) = canonical s := by
    unfold dropEquals
    split
    · rename_i r heq
      rw [heq] at h
      exact absurd rfl h
    · rfl
  unfold bare
  rw [dropTags_eq_self hclean.not_sublist, htrim, hequals,
    map_operatorOf_self fun c hc => (hclean.chars c hc).1,
    dropCurrency_eq_self fun c hc => (hclean.chars c hc).2]
  exact (ungrouped_canonical s).kept

/-- A canonical form is its own canonical form, unless there is another equals sign to drop. -/
theorem canonical_canonical (h : (canonical s).head? ≠ some '=') :
    canonical (canonical s) = canonical s := by
  have hspaces := avoids_spacing (bare s)
  rw [← canonical_eq] at hspaces
  obtain ⟨hnames, hoperators, hblanks⟩ := hspaces
  calc canonical (canonical s)
      = spacing (bare (canonical s)) := canonical_eq _
    _ = spacing (canonical s) := by rw [bare_canonical h]
    _ = trim (canonical s) :=
      spacing_of_avoids hnames hoperators hblanks (onlySpaces_canonical s)
    _ = canonical s := trim_trim _

/-- A line with markup, a typographic sign, currency, grouped numbers in a call and outside it, and
uneven spaces. -/
def pastedLine : List Char := "<b>= f (1,234)*x  − $2,345</b> ".toList

theorem canonical_pastedLine : (canonical pastedLine).head? ≠ some '=' ∧
    canonical pastedLine = "f (1,234)* x - 2345".toList ∧
    canonical (canonical pastedLine) = canonical pastedLine := by
  have h : (canonical pastedLine).head? ≠ some '=' := by decide +kernel
  exact ⟨h, by decide +kernel, canonical_canonical h⟩

end Again

end Reckoner.Formula
