import Reckoner.Proofs.Formula.Splices

/-!
Clean-up and the segments of a text. Spacing names, collapsing white space and trimming change no
segments. Where nothing is left to clean up, as in the arguments of calls in a text that has been
cleaned, the canonical form has the segments of the text.
-/
namespace Reckoner.Formula

open Text Number Arith

/-- That no typographic signs, currency signs and markup are among segments. -/
structure Clean (ps : List Segment) : Prop where
  signs : ∀ c, .mark c ∈ ps → operatorOf c = c ∧ c ∉ currencySigns
  tags : ¬ [Segment.mark '<', .mark '>'].Sublist ps

section Clean

variable {table : FunctionTable} {ps qs : List Segment}

theorem Clean.sublist (h : Clean ps) (hqs : qs.Sublist ps) : Clean qs :=
  ⟨fun c hc => h.signs c (hqs.subset hc), fun hsub => h.tags (hsub.trans hqs)⟩

theorem Spliced.clean (h : Spliced table ps qs) (hps : Clean ps) : Clean qs := by
  constructor
  · intro c hc
    by_cases hvalue : c ∈ ['(', '-', ')']
    · have hall : ∀ d ∈ ['(', '-', ')'], operatorOf d = d ∧ d ∉ currencySigns :=
        List.all_iff_forall_prop.mp (by decide +kernel)
      exact hall c hvalue
    · have hsub := h.sublist (l := [.mark c])
        (fun _ hp _ hvs => List.mem_singleton.mp hp ▸ not_mem_value hvalue hvs)
        (List.singleton_sublist.mpr hc)
      exact hps.signs c (List.singleton_sublist.mp hsub)
  · intro hsub
    refine hps.tags (h.sublist (fun p hp vs hvs => ?_) hsub)
    rcases List.mem_cons.mp hp with rfl | hp
    · exact not_mem_value (by decide) hvs
    · obtain rfl := List.mem_singleton.mp hp
      exact not_mem_value (by decide) hvs

/-- No mark but the parentheses and signs of values is new. -/
theorem Spliced.not_mem {c : Char} (h : Spliced table ps qs) (hc : c ∉ ['(', '-', ')'])
    (hps : .mark c ∉ ps) : .mark c ∉ qs := fun hmem =>
  hps (List.singleton_sublist.mp (h.sublist (l := [.mark c])
    (fun _ hp _ hvs => List.mem_singleton.mp hp ▸ not_mem_value hc hvs)
    (List.singleton_sublist.mpr hmem)))

theorem Spliced.head_ne {c : Char} (h : Spliced table ps qs) (hc : c ≠ '(')
    (hps : ps.head? ≠ some (.mark c)) : qs.head? ≠ some (.mark c) := by
  intro hqs
  cases qs with
  | nil => exact absurd hqs (by simp)
  | cons q qs =>
    obtain rfl := Option.some.inj hqs
    obtain ⟨later, rfl, _⟩ := h.of_mark hc
    exact hps rfl

end Clean

section Spacing

variable {s t : List Char} {c : Char}

/-- That two texts have the same segments and join alike with what comes before. -/
structure Same (s t : List Char) : Prop where
  segments : segments s = segments t
  starts : startsWith isOperandChar s = startsWith isOperandChar t

theorem Same.cons (h : Same s t) (c : Char) : Same (c :: s) (c :: t) := by
  refine ⟨?_, rfl⟩
  rw [segments_cons, segments_cons, h.segments, h.starts]

theorem segments_blanks (h : ∀ c ∈ t, isBlank c = true) : segments t = [] := by
  induction t with
  | nil => rfl
  | cons c r ih =>
    rw [segments_blank (h c List.mem_cons_self)]
    exact ih fun d hd => h d (List.mem_cons_of_mem c hd)

theorem segments_trimLeft (s : List Char) : segments (trimLeft s) = segments s := by
  unfold trimLeft
  induction s with
  | nil => rfl
  | cons c r ih =>
    cases hc : isBlank c with
    | true => rw [List.dropWhile_cons_of_pos hc, ih, segments_blank hc]
    | false => rw [dropWhile_cons_of_false hc]

theorem segments_trimRight (s : List Char) : segments (trimRight s) = segments s := by
  have hsplit : trimRight s ++ (s.reverse.takeWhile isBlank).reverse = s := by
    unfold trimRight
    rw [← List.reverse_append, List.takeWhile_append_dropWhile, List.reverse_reverse]
  have hblank : ∀ c ∈ (s.reverse.takeWhile isBlank).reverse, isBlank c = true :=
    fun c hc => List.mem_takeWhile_imp (List.mem_reverse.mp hc)
  have hparted : Parted (trimRight s) (s.reverse.takeWhile isBlank).reverse := by
    refine parted_of_stop ?_
    cases hb : (s.reverse.takeWhile isBlank).reverse with
    | nil => rfl
    | cons c r => exact isOperandChar_of_isBlank (hblank c (by rw [hb]; exact List.mem_cons_self))
  conv_rhs => rw [← hsplit]
  rw [segments_append hparted, segments_blanks hblank, List.append_nil]

theorem segments_trim (s : List Char) : segments (trim s) = segments s := by
  unfold trim
  rw [segments_trimRight, segments_trimLeft]

theorem startsWith_blank (h : isBlank c = true) (s : List Char) :
    startsWith isOperandChar (c :: s) = false := isOperandChar_of_isBlank h

theorem collapseBlanks_same (after : Bool) (s : List Char) :
    segments (collapseBlanks after s) = segments s ∧
      (after = false → Same (collapseBlanks after s) s) := by
  induction s generalizing after with
  | nil => exact ⟨rfl, fun _ => ⟨rfl, rfl⟩⟩
  | cons c r ih =>
    unfold collapseBlanks
    split
    · rename_i hc
      have hblank : segments (' ' :: collapseBlanks true r) = segments (c :: r) := by
        rw [segments_blank (by decide), segments_blank hc, (ih true).1]
      split
      · rename_i hafter
        refine ⟨(ih true).1.trans (segments_blank hc r).symm, fun h => ?_⟩
        rw [h] at hafter
        exact absurd hafter Bool.false_ne_true
      · exact ⟨hblank, fun _ => ⟨hblank, (startsWith_blank hc r).symm⟩⟩
    · have hcons := ((ih false).2 rfl).cons c
      exact ⟨hcons.segments, fun _ => hcons⟩

/-- After white space comes an operator, so no operand. -/
theorem startsWith_of_dropWhile (h : startsWith isOperator (s.dropWhile isBlank) = true) :
    startsWith isOperandChar s = false := by
  cases s with
  | nil => rfl
  | cons c r =>
    cases hc : isBlank c with
    | true => exact isOperandChar_of_isBlank hc
    | false =>
      rw [dropWhile_cons_of_false hc] at h
      exact (isOperandChar_operator h).1

theorem spaceAfterNames_same (named : Bool) (s : List Char) : Same (spaceAfterNames named s) s := by
  induction s generalizing named with
  | nil => exact ⟨rfl, rfl⟩
  | cons c r ih =>
    unfold spaceAfterNames
    split
    · exact (ih _).cons c
    · split
      · rename_i hop
        obtain ⟨hop, _⟩ := isOperandChar_operator (Bool.and_eq_true_iff.mp hop).2
        refine ⟨?_, hop.symm⟩
        rw [segments_blank (by decide)]
        exact ((ih false).cons c).segments
      · split
        · rename_i hblank
          obtain ⟨hblank, hop⟩ := Bool.and_eq_true_iff.mp hblank
          have hc := (Bool.and_eq_true_iff.mp hblank).2
          refine ⟨(ih true).segments.trans (segments_blank hc r).symm, ?_⟩
          rw [(ih true).starts, startsWith_of_dropWhile hop, startsWith_blank hc]
        · exact (ih false).cons c

theorem spaceBeforeNames_same (spaced : Bool) (s : List Char) :
    segments (spaceBeforeNames spaced s) = segments s ∧
      (spaced = false → Same (spaceBeforeNames spaced s) s) := by
  induction s generalizing spaced with
  | nil => exact ⟨rfl, fun _ => ⟨rfl, rfl⟩⟩
  | cons c r ih =>
    unfold spaceBeforeNames
    split
    · rename_i hblank
      obtain ⟨hspaced, hc⟩ := Bool.and_eq_true_iff.mp hblank
      refine ⟨(ih true).1.trans (segments_blank hc r).symm, fun h => ?_⟩
      rw [h] at hspaced
      exact absurd hspaced Bool.false_ne_true
    · split
      · rename_i hop
        obtain ⟨hc, hblank, hclosing⟩ :=
          isOperandChar_operator (Bool.and_eq_true_iff.mp hop).1
        have hsame : segments (c :: ' ' :: spaceBeforeNames true r) = segments (c :: r) := by
          rw [segments_mark hc hblank fun h => absurd h hclosing,
            segments_mark hc hblank fun h => absurd h hclosing, segments_blank (by decide),
            (ih true).1]
        exact ⟨hsame, fun _ => ⟨hsame, rfl⟩⟩
      · have hcons := ((ih false).2 rfl).cons c
        exact ⟨hcons.segments, fun _ => hcons⟩

theorem ungroup_eq_self (h : ',' ∉ s) : ungroup s = s := by
  have hfrom : ∀ (around : Surroundings) (within : Bool), ungroupFrom around within s = s := by
    induction s with
    | nil => exact fun _ _ => rfl
    | cons c r ih =>
      intro around within
      obtain ⟨hc, hr⟩ := List.ne_and_not_mem_of_not_mem_cons h
      have hcomma : (c == ',') = false := beq_eq_false_iff_ne.mpr hc.symm
      unfold ungroupFrom
      dsimp only
      rw [hcomma, Bool.and_false, if_neg Bool.false_ne_true, ih hr]
  exact hfrom .start false

theorem dropTags_eq_self (h : ¬ ['<', '>'].Sublist s) : dropTags s = s := by
  unfold dropTags
  induction s with
  | nil => rfl
  | cons c r ih =>
    have hr : ¬ ['<', '>'].Sublist r := fun hsub => h (hsub.cons c)
    have hopen : ¬ (c == '<' && r.contains '>') = true := by
      intro hc
      obtain ⟨hc, hmem⟩ := Bool.and_eq_true_iff.mp hc
      obtain rfl := eq_of_beq hc
      exact h ((List.singleton_sublist.mpr (List.contains_iff_mem.mp hmem)).cons_cons '<')
    unfold dropTagsFrom
    rw [if_neg Bool.false_ne_true, if_neg hopen, ih hr]

/-- What the clean-up removes or changes is a mark. -/
theorem isMark_signs : ∀ c ∈ ['×', '÷', '−'] ++ currencySigns, isMark c = true := by
  intro c hc
  refine isMark_common ?_
  rcases List.mem_append.mp hc with hc | hc
  · exact List.mem_append_left _ (List.mem_append_right
      ['(', ')', ',', '=', '<', '>', '+', '-', '*', '/', '%', '^'] hc)
  · exact List.mem_append_right _ hc

theorem Clean.chars (h : Clean (segments s)) : ∀ c ∈ s, operatorOf c = c ∧ c ∉ currencySigns := by
  intro c hc
  cases hmark : isMark c with
  | true => exact h.signs c (mark_mem_segments.mpr ⟨hc, hmark⟩)
  | false =>
    have hne : c ∉ ['×', '÷', '−'] ++ currencySigns := fun hmem =>
      Bool.false_ne_true (hmark.symm.trans (isMark_signs c hmem))
    rw [List.mem_append, not_or] at hne
    obtain ⟨hne, hcurrency⟩ := hne
    simp only [List.mem_cons, List.not_mem_nil, or_false, not_or] at hne
    refine ⟨?_, hcurrency⟩
    unfold operatorOf
    rw [if_neg hne.1, if_neg hne.2.1, if_neg hne.2.2]

theorem marks_sublist (ps : List Segment) :
    ((ps.filterMap Segment.char?).map Segment.mark).Sublist ps := by
  induction ps with
  | nil => exact List.nil_sublist _
  | cons p ps ih =>
    cases p with
    | mark c => exact ih.cons_cons _
    | word w => exact ih.cons _
    | joint => exact ih.cons _

theorem filter_tags : ['<', '>'].filter isMark = ['<', '>'] :=
  List.filter_eq_self.mpr fun c hc => isMark_common (by
    have hall : ∀ d ∈ ['<', '>'], d ∈ commonMarks := List.all_iff_forall_prop.mp (by decide)
    exact hall c hc)

theorem Clean.not_sublist (h : Clean (segments s)) : ¬ ['<', '>'].Sublist s := by
  intro hsub
  have hmarks := hsub.filter isMark
  rw [filter_tags, ← marks_segments] at hmarks
  exact h.tags ((hmarks.map Segment.mark).trans (marks_sublist _))

theorem dropEquals_eq_self (h : (segments s).head? ≠ some (.mark '=')) :
    dropEquals (trim s) = trim s := by
  unfold dropEquals
  split
  · rename_i r heq
    obtain ⟨hc, hblank⟩ := commonMark (c := '=') (by decide)
    rw [← segments_trim, heq, segments_mark hc hblank fun h => absurd h (by decide)] at h
    exact absurd rfl h
  · rfl

theorem map_operatorOf_self (h : ∀ c ∈ s, operatorOf c = c) : s.map operatorOf = s := by
  conv_rhs => rw [← List.map_id s]
  exact List.map_congr_left h

theorem dropCurrency_eq_self (h : ∀ c ∈ s, c ∉ currencySigns) : dropCurrency s = s := by
  refine List.filter_eq_self.mpr fun c hc => ?_
  rw [Bool.not_eq_true', Bool.eq_false_iff]
  exact fun hcontains => h c hc (List.contains_iff_mem.mp hcontains)

/-- The text that is left before names are spaced. -/
def bare (s : List Char) : List Char :=
  ungroup (dropCurrency ((dropEquals (trim (dropTags s))).map operatorOf))

/-- Spacing changes no segments. -/
theorem segments_spaced (s : List Char) : segments (canonical s) = segments (bare s) := by
  unfold canonical
  dsimp only
  rw [segments_trim, (collapseBlanks_same false _).1, (spaceBeforeNames_same false _).1,
    (spaceAfterNames_same false _).segments]
  rfl

/-- Where there is nothing to clean up, the canonical form has the segments of the text. -/
theorem segments_canonical (h : Clean (segments s)) (hcomma : .mark ',' ∉ segments s)
    (hequals : (segments s).head? ≠ some (.mark '=')) :
    segments (canonical s) = segments s := by
  have hchars : ∀ c ∈ trim s, operatorOf c = c ∧ c ∉ currencySigns :=
    fun c hc => h.chars c ((trim_sublist s).subset hc)
  have hungrouped : ',' ∉ trim s := fun hc => hcomma
    (mark_mem_segments.mpr ⟨(trim_sublist s).subset hc, isMark_common (by decide)⟩)
  have hbare : bare s = trim s := by
    unfold bare
    rw [dropTags_eq_self h.not_sublist, dropEquals_eq_self hequals,
      map_operatorOf_self fun c hc => (hchars c hc).1,
      dropCurrency_eq_self fun c hc => (hchars c hc).2, ungroup_eq_self hungrouped]
  rw [segments_spaced, hbare, segments_trim]

theorem clean_segments (hchars : ∀ c ∈ s, operatorOf c = c ∧ c ∉ currencySigns)
    (htags : ¬ ['<', '>'].Sublist s) : Clean (segments s) := by
  refine ⟨fun c hc => hchars c (mark_mem_segments.mp hc).1, fun hsub => htags ?_⟩
  have hmarks := hsub.filterMap Segment.char?
  rw [marks_segments] at hmarks
  exact hmarks.trans List.filter_sublist

theorem operatorOf_idempotent (c : Char) : operatorOf (operatorOf c) = operatorOf c := by
  by_cases h : c = '×' ∨ c = '÷' ∨ c = '−'
  · rcases h with rfl | rfl | rfl <;> decide
  · simp only [not_or] at h
    have hsame : operatorOf c = c := by
      unfold operatorOf
      rw [if_neg h.1, if_neg h.2.1, if_neg h.2.2]
    rw [hsame, hsame]

/-- Typographic signs stand for operators only. -/
theorem eq_of_operatorOf_eq {d : Char} (hd : d ∉ ['*', '/', '-']) (h : operatorOf c = d) :
    c = d := by
  simp only [List.mem_cons, List.not_mem_nil, or_false, not_or] at hd
  unfold operatorOf at h
  split at h
  · exact absurd h.symm hd.1
  · split at h
    · exact absurd h.symm hd.2.1
    · split at h
      · exact absurd h.symm hd.2.2
      · exact h

/-- What is left after dropping markup holds no more of it. -/
theorem dropTags_not_sublist (inside : Bool) (s : List Char) :
    ¬ ['<', '>'].Sublist (dropTagsFrom inside s) := by
  induction s generalizing inside with
  | nil => exact fun h => absurd (List.sublist_nil.mp h) (List.cons_ne_nil _ _)
  | cons c r ih =>
    unfold dropTagsFrom
    split
    · exact ih _
    · split
      · exact ih true
      · rename_i hopen
        intro hsub
        cases hsub with
        | cons _ h => exact ih false h
        | cons_cons _ h =>
          refine hopen (Bool.and_eq_true_iff.mpr ⟨rfl, List.contains_iff_mem.mpr ?_⟩)
          exact (dropTagsFrom_sublist false r).subset (List.singleton_sublist.mp h)

/-- The canonical form is clean. -/
theorem clean_canonical (s : List Char) : Clean (segments (canonical s)) := by
  have hsub : (bare s).Sublist
      (dropCurrency ((dropEquals (trim (dropTags s))).map operatorOf)) :=
    ungroupFrom_sublist .start false _
  rw [segments_spaced]
  refine clean_segments (fun c hc => ?_) fun htags => ?_
  · obtain ⟨hmem, hcurrency⟩ := List.mem_filter.mp (hsub.subset hc)
    obtain ⟨d, _, rfl⟩ := List.mem_map.mp hmem
    refine ⟨operatorOf_idempotent d, fun hmem => ?_⟩
    rw [List.contains_iff_mem.mpr hmem] at hcurrency
    exact Bool.false_ne_true hcurrency
  · obtain ⟨l, hl, hmap⟩ :=
      List.sublist_map_iff.mp ((htags.trans hsub).trans List.filter_sublist)
    obtain ⟨a, l, rfl, ha, hrest⟩ := List.map_eq_cons_iff.mp hmap.symm
    obtain ⟨b, l, rfl, hb, hnil⟩ := List.map_eq_cons_iff.mp hrest
    obtain rfl := List.map_eq_nil_iff.mp hnil
    obtain rfl := eq_of_operatorOf_eq (by decide) ha
    obtain rfl := eq_of_operatorOf_eq (by decide) hb
    exact dropTags_not_sublist false s
      (hl.trans ((dropEquals_sublist _).trans (trim_sublist _)))

end Spacing

end Reckoner.Formula
