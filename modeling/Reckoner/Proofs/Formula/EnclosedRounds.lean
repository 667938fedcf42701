import Reckoner.Proofs.Formula.Enclosed
import Reckoner.Proofs.Formula.Kept
import Reckoner.Proofs.Formula.Unnamed
import Reckoner.Proofs.Formula.Unreferenced

/-!
Rounds between the parentheses of a call. A round does there what it does with the text alone, until
no call is left; the next round evaluates the call itself. So a call takes exactly one round more
than the text between its parentheses. Whether calls are left is seen from the segments of a text,
where no line is referred to; the value of a text without calls in which no name is known is read
from its canonical form, whatever the bound on calls.
-/
namespace Reckoner.Formula

open Text Number Arith

section Flat

variable {last : Option Char} {position : Nat} {r s t w : List Char} {c : Char}
  {ps : List Segment}

/-- That a name comes before a parenthesis. -/
def HasCall (ps : List Segment) : Prop :=
  ∃ f, isIdentifier f = true ∧ [.word f, .mark '('] <:+: ps

section Segments

theorem hasCall_cons {p : Segment} : HasCall (p :: ps) ↔
    (∃ f, isIdentifier f = true ∧ p = .word f ∧ ps.head? = some (.mark '(')) ∨ HasCall ps := by
  constructor
  · rintro ⟨f, hf, hinfix⟩
    rcases List.infix_cons_iff.mp hinfix with ⟨qs, hqs⟩ | hinfix
    · obtain ⟨rfl, rfl⟩ := List.cons.inj hqs
      exact Or.inl ⟨f, hf, rfl, rfl⟩
    · exact Or.inr ⟨f, hf, hinfix⟩
  · rintro (⟨f, hf, rfl, hhead⟩ | ⟨f, hf, hinfix⟩)
    · obtain ⟨qs, rfl⟩ := List.head?_eq_some_iff.mp hhead
      exact ⟨f, hf, ⟨[], qs, rfl⟩⟩
    · exact ⟨f, hf, hinfix.trans (List.suffix_cons p ps).isInfix⟩

theorem hasCall_mark : HasCall (.mark c :: ps) ↔ HasCall ps := by
  rw [hasCall_cons]
  refine ⟨fun h => h.resolve_left ?_, Or.inr⟩
  rintro ⟨f, _, h, _⟩
  exact Segment.noConfusion h

theorem hasCall_joint : HasCall (.joint :: ps) ↔ HasCall ps := by
  rw [hasCall_cons]
  refine ⟨fun h => h.resolve_left ?_, Or.inr⟩
  rintro ⟨f, _, h, _⟩
  exact Segment.noConfusion h

theorem hasCall_word : HasCall (.word w :: ps) ↔
    isIdentifier w = true ∧ ps.head? = some (.mark '(') ∨ HasCall ps := by
  rw [hasCall_cons]
  refine or_congr_left ⟨?_, fun h => ⟨w, h.1, rfl, h.2⟩⟩
  rintro ⟨f, hf, h, hhead⟩
  obtain rfl := Segment.word.inj h
  exact ⟨hf, hhead⟩

/-- A parenthesis comes next in the segments when one does after white space. -/
theorem head_segments_iff :
    (segments s).head? = some (.mark '(') ↔ ∃ rest, s.dropWhile isBlank = '(' :: rest := by
  refine ⟨exists_opening, ?_⟩
  rintro ⟨rest, hrest⟩
  obtain ⟨hopening, hblank⟩ := commonMark (c := '(') (by decide)
  have htrim : segments (s.dropWhile isBlank) = segments s := segments_trimLeft s
  rw [← htrim, hrest, segments_mark hopening hblank fun h => absurd h (by decide)]
  rfl

/-- A call starts with a name when a parenthesis comes next. -/
theorem callStartAt?_eq_none_iff_head (hw : isIdentifier w = true)
    (hr : startsWith isOperandChar r = false) :
    callStartAt? position (w ++ r) = none ↔ (segments r).head? ≠ some (.mark '(') := by
  rw [Ne, head_segments_iff]
  constructor
  · rintro h ⟨rest, hrest⟩
    rw [callStartAt?_word hw hr hrest] at h
    exact absurd h (by simp)
  · intro h
    by_contra hsome
    obtain ⟨start, hstart⟩ := Option.ne_none_iff_exists'.mp hsome
    exact h (exists_opening_of_start hw hr hstart)

end Segments

section Texts

theorem callStartsFrom_eq_nil_iff (hat : '@' ∉ t)
    (hlast : startsWith isOperandChar t = true → ∀ c ∈ last, isOperandChar c = false) :
    callStartsFrom last position t = [] ↔ ¬ HasCall (segments t) := by
  induction t using segments_induct generalizing last position with
  | nil =>
    refine ⟨?_, fun _ => rfl⟩
    rintro _ ⟨f, _, hinfix⟩
    exact absurd (List.infix_nil.mp hinfix) (List.cons_ne_nil _ _)
  | mark c r hc ih =>
    obtain ⟨_, hr⟩ := List.ne_and_not_mem_of_not_mem_cons hat
    have hrest := @ih (some c) (position + 1) hr
      fun _ d hd => Option.some.inj hd ▸ hc
    rw [callStartsFrom_mark hc, hrest]
    cases hblank : isBlank c with
    | true => rw [segments_blank hblank]
    | false =>
      by_cases hjoint : c = ')' ∧ startsWith isOperandChar r = true
      · obtain ⟨rfl, hstarts⟩ := hjoint
        rw [segments_joint hstarts, hasCall_mark, hasCall_joint]
      · rw [segments_mark hc hblank fun h => Bool.eq_false_iff.mpr fun h' => hjoint ⟨h, h'⟩,
          hasCall_mark]
  | word w r hw hall hr ih =>
    have hrest := @ih r (Nat.le_refl _) none (position + w.length)
      (fun h => hat (List.mem_append_right w h)) fun _ d hd => absurd hd (by simp)
    have hplain : ∀ c ∈ w, isOperandChar c = true ∧ c ≠ '@' := fun c hc =>
      ⟨hall c hc, fun h => hat (List.mem_append_left r (h ▸ hc))⟩
    have hfree : ∀ c ∈ last, isOperandChar c = false :=
      hlast (by rw [startsWith_append hw]; exact startsWith_of_all hw hall)
    rw [callStartsFrom_plainWord hw hplain hr hfree, segments_word hw hall hr, hasCall_word,
      List.append_eq_nil_iff, hrest, not_or]
    refine and_congr_left fun _ => ?_
    by_cases hname : isIdentifier w = true
    · rw [if_pos hname, Option.toList_eq_nil_iff, callStartAt?_eq_none_iff_head hname hr]
      exact ⟨fun h h' => h h'.2, fun h h' => h ⟨hname, h'⟩⟩
    · rw [if_neg hname]
      exact ⟨fun _ h => hname h.1, fun _ => rfl⟩

/-- The segments of a text without line references show whether it holds a call. -/
theorem callStarts_eq_nil_iff (hat : '@' ∉ t) : callStarts t = [] ↔ ¬ HasCall (segments t) :=
  callStartsFrom_eq_nil_iff hat fun _ _ h => absurd h (by simp)

end Texts

section Canonical

/-- One equals sign in front is what clean-up drops from a clean text. -/
theorem segments_canonical_equals (hclean : Clean (segments s)) (hcomma : ',' ∉ s)
    (h : segments s = .mark '=' :: ps) : segments (canonical s) = ps := by
  obtain ⟨hequals, hblank⟩ := commonMark (c := '=') (by decide)
  obtain ⟨r, hr⟩ : ∃ r, trim s = '=' :: r := by
    obtain ⟨rest, hrest⟩ := exists_mark (congrArg List.head? h)
    have hleft : trimLeft s = '=' :: rest := hrest
    exact ⟨trimRight rest, (congrArg trimRight hleft).trans (trimRight_cons hblank rest)⟩
  have hmem : ∀ c ∈ r, c ∈ s := fun c hc =>
    (trim_sublist s).subset (hr ▸ List.mem_cons_of_mem '=' hc)
  have hbare : bare s = r := by
    unfold bare
    rw [dropTags_eq_self hclean.not_sublist, hr, dropEquals,
      map_operatorOf_self fun c hc => (hclean.chars c (hmem c hc)).1,
      dropCurrency_eq_self fun c hc => (hclean.chars c (hmem c hc)).2,
      ungroup_eq_self fun hc => hcomma (hmem ',' hc)]
  rw [← segments_trim, hr, segments_mark hequals hblank fun h => absurd h (by decide)] at h
  rw [segments_spaced, hbare, (List.cons.inj h).2]

/-- A text that stays as it is when it is read again: it holds no markup, no typographic signs, no
commas and no line references. -/
structure Washed (s : List Char) : Prop where
  clean : Clean (segments s)
  commas : ',' ∉ s
  lines : '@' ∉ s

theorem callStarts_canonical (hs : Washed s) (h : callStarts s = []) :
    callStarts (canonical s) = [] := by
  rw [callStarts_eq_nil_iff hs.lines] at h
  rw [callStarts_eq_nil_iff (not_mem_canonical (by decide) hs.lines)]
  by_cases hequals : (segments s).head? = some (.mark '=')
  · obtain ⟨ps, hps⟩ := List.head?_eq_some_iff.mp hequals
    rwa [segments_canonical_equals hs.clean hs.commas hps, ← hasCall_mark (c := '='), ← hps]
  · rwa [segments_canonical hs.clean
      (fun hmem => hs.commas (mark_mem_segments.mp hmem).1) hequals]

end Canonical

section Value

variable {table : FunctionTable} {resolve : Resolver} {scope : Scope}

theorem prepare_unnamed (hs : scope.Identifiers) (hat : '@' ∉ s)
    (h : Unnamed scope.names none s) : prepare scope s = .ok (canonical s) := by
  unfold prepare Scope.substitute
  rw [substituteLines_unreferenced hat]
  change (asBreakdown (scope.substituteNames scope.names none 0 s)).bind _ = _
  rw [substituteNames_of_unnamed hs.names h]
  rfl

/-- A text without calls in which nothing is known has the value of its canonical form. -/
theorem evaluate_unnamed (hs : scope.Identifiers) (hwashed : Washed s)
    (hnames : Unnamed scope.names none s) (hflat : callStarts s = []) (depth : Int) :
    evaluate table depth scope s = settleText (canonical s) := by
  rw [evaluate_rounds, prepare_unnamed hs hwashed.lines hnames]
  change (resolveCalls table _ depth (canonical s)).bind settleText = _
  unfold resolveCalls
  rw [replaceRounds_flat (callStarts_canonical hwashed hflat)]
  rfl

end Value

end Flat

section EnclosedRounds

variable {table : FunctionTable} {resolve : Resolver} {flat : Prop} {f : Name}
  {lead trail t u v : List Char} {r : Except Failure (List Char)} {bound bound' : Int} {left : Nat}

section Around

theorem Lead.mem (h : Lead lead) : ∀ c ∈ lead, c = ' ' ∨ c = '=' := by
  cases h with
  | spaces hgap => exact fun c hc => Or.inl (hgap c hc)
  | equals hgap hmore =>
    exact List.forall_mem_append.mpr ⟨fun c hc => Or.inl (hgap c hc),
      List.forall_mem_cons.mpr ⟨Or.inr rfl, fun c hc => Or.inl (hmore c hc)⟩⟩

/-- White space and an equals sign around a text do not change its depth. -/
theorem depthThrough_around (hlead : Lead lead) (htrail : ∀ c ∈ trail, c = ' ') (d : Nat)
    (t : List Char) : depthThrough d (lead ++ t ++ trail) = depthThrough d t := by
  have hsolid : ∀ c ∈ lead, c ≠ '(' ∧ c ≠ ')' := by
    intro c hc
    rcases hlead.mem c hc with rfl | rfl <;> decide
  have htrailing : ∀ d, depthThrough d trail = some d := by
    intro d
    have hplain := depthThrough_solid (t := trail) (fun c hc => htrail c hc ▸ by decide) d []
    rwa [List.append_nil] at hplain
  rw [List.append_assoc, depthThrough_solid hsolid, depthThrough_append]
  cases depthThrough d t with
  | none => rfl
  | some e => exact htrailing e

theorem stop_spaces {gap s : List Char} (hgap : ∀ c ∈ gap, c = ' ') (hs : Stop s) :
    Stop (gap ++ s) := by
  induction gap with
  | nil => exact hs
  | cons c gap ih =>
    obtain ⟨rfl, hrest⟩ := List.forall_mem_cons.mp hgap
    exact (ih hrest).space

/-- White space and an equals sign around a text stay as they are in a round. -/
theorem Rewritten.around (hlead : Lead lead) (htrail : ∀ c ∈ trail, c = ' ')
    (h : Rewritten table resolve flat t r) :
    Rewritten table resolve flat (lead ++ t ++ trail) (r.map fun u => lead ++ u ++ trail) := by
  have hspace : ∀ c ∈ trail, isNameStart c = false := fun c hc => htrail c hc ▸ by decide
  have htail : Rewritten table resolve flat (t ++ trail) (r.map (· ++ trail)) :=
    (h.append (rewritten_unnamed hspace) fun hs => stop_spaces htrail hs).congr
      (iff_of_eq (and_true flat)) (by cases r <;> rfl)
  rw [List.append_assoc]
  cases hlead with
  | spaces hgap =>
    refine (htail.spaces hgap).congr Iff.rfl ?_
    cases r with
    | error _ => rfl
    | ok u => exact congrArg Except.ok (List.append_assoc lead u trail).symm
  | @equals gap more hgap hmore =>
    have hequals := ((htail.spaces hmore).cons (c := '=') (by decide)).spaces hgap
    have hsplit : gap ++ '=' :: more ++ (t ++ trail) = gap ++ '=' :: (more ++ (t ++ trail)) := by
      simp
    rw [hsplit]
    refine hequals.congr Iff.rfl ?_
    cases r with
    | error _ => rfl
    | ok u => simp [Except.map]

end Around

section Rounds

theorem Rewritten.replaceRounds_zero (h : Rewritten table resolve False t r) :
    replaceRounds table resolve bound 0 t = .error (.within (.tooDeep bound) t) := by
  obtain ⟨calls, hcalls, hempty, _⟩ := h.innermostCalls
  exact replaceRounds_exhausted hcalls fun hnil => hempty.mp (List.isEmpty_iff.mpr hnil)

theorem Rewritten.replaceRounds_succ (h : Rewritten table resolve False t r) :
    replaceRounds table resolve bound (left + 1) t =
      r.bind (replaceRounds table resolve bound left) := by
  obtain ⟨calls, hcalls, hempty, rfl⟩ := h.innermostCalls
  exact replaceRounds_step hcalls fun hnil => hempty.mp (List.isEmpty_iff.mpr hnil)

/-- What a round does with a call: it goes on between the parentheses or takes the value. -/
theorem rewritten_called (f : Name) (hlead : Lead lead) (htrail : ∀ c ∈ trail, c = ' ')
    (ht : depthThrough 0 t = some 0) (h : Rewritten table resolve flat t r) :
    (flat → Rewritten table resolve False (callText f [] (lead ++ t ++ trail))
      ((call table resolve f.chars (splitArguments (lead ++ t ++ trail))).map fun x =>
        textOf (Expr.ofValue x).lexemes)) ∧
    (¬ flat → Rewritten table resolve False (callText f [] (lead ++ t ++ trail))
      (r.map fun u => callText f [] (lead ++ u ++ trail))) := by
  have hnone : ∀ c ∈ ([] : List Char), c = ' ' := fun c hc => absurd hc List.not_mem_nil
  have hbalanced : Balanced (lead ++ t ++ trail) :=
    balanced_of_depthThrough ((depthThrough_around hlead htrail 0 t).trans ht)
  have haround := h.around hlead htrail
  refine ⟨rewritten_innermost f hnone hbalanced haround, fun hflat => ?_⟩
  exact (haround.call f hnone hbalanced hflat).congr Iff.rfl (by cases r <;> rfl)

theorem callStarts_ofValue (x : Float) : callStarts (textOf (Expr.ofValue x).lexemes) = [] :=
  (rewritten_textOf [] (fun _ => .ok 0) (Expr.ofValue x)).callStarts_eq_nil.mpr (nesting_ofValue x)

/-- Without rounds a call stays a call. -/
theorem replaceRounds_called_zero (f : Name) (hlead : Lead lead) (htrail : ∀ c ∈ trail, c = ' ')
    (ht : depthThrough 0 t = some 0) (v : List Char) :
    replaceRounds table resolve bound 0 (callText f [] (lead ++ t ++ trail)) ≠ .ok v := by
  obtain ⟨calls, hcalls⟩ := exists_innermostCalls ht
  have hround : Rewritten table resolve (callStarts t = []) t _ :=
    (rewritten_of_innermostCalls hcalls).1
  obtain ⟨hflat, hdeep⟩ := rewritten_called f hlead htrail ht hround
  by_cases hstarts : callStarts t = []
  · rw [(hflat hstarts).replaceRounds_zero]
    simp [Failure.within]
  · rw [(hdeep hstarts).replaceRounds_zero]
    simp [Failure.within]

/-- A call on a text without calls takes one round. -/
theorem replaceRounds_called_flat (f : Name) (hlead : Lead lead) (htrail : ∀ c ∈ trail, c = ' ')
    (bound : Int) (left : Nat) (ht : depthThrough 0 t = some 0) (hflat : callStarts t = [])
    (v : List Char) :
    replaceRounds table resolve bound (left + 1) (callText f [] (lead ++ t ++ trail)) = .ok v ↔
      ∃ x, call table resolve f.chars (splitArguments (lead ++ t ++ trail)) = .ok x ∧
        textOf (Expr.ofValue x).lexemes = v := by
  obtain ⟨calls, hcalls⟩ := exists_innermostCalls ht
  have hround : Rewritten table resolve (callStarts t = []) t _ :=
    (rewritten_of_innermostCalls hcalls).1
  rw [((rewritten_called f hlead htrail ht hround).1 hflat).replaceRounds_succ]
  cases hcall : call table resolve f.chars (splitArguments (lead ++ t ++ trail)) with
  | error _ => simp [Except.map, Except.bind]
  | ok x =>
    change replaceRounds table resolve bound left (textOf (Expr.ofValue x).lexemes) = .ok v ↔ _
    rw [replaceRounds_flat (callStarts_ofValue x)]
    simp

/-- With one round more, a call becomes the value of the call on what the rounds make of the text
between its parentheses. -/
theorem replaceRounds_called (f : Name) (hlead : Lead lead) (htrail : ∀ c ∈ trail, c = ' ')
    (bound bound' : Int) (left : Nat) (ht : depthThrough 0 t = some 0) (v : List Char) :
    replaceRounds table resolve bound (left + 1) (callText f [] (lead ++ t ++ trail)) = .ok v ↔
      ∃ u, replaceRounds table resolve bound' left t = .ok u ∧
        ∃ x, call table resolve f.chars (splitArguments (lead ++ u ++ trail)) = .ok x ∧
          textOf (Expr.ofValue x).lexemes = v := by
  induction left generalizing t with
  | zero =>
    by_cases hflat : callStarts t = []
    · rw [replaceRounds_called_flat f hlead htrail bound 0 ht hflat, replaceRounds_flat hflat]
      simp
    obtain ⟨calls, hcalls⟩ := exists_innermostCalls ht
    obtain ⟨hr, hreplacement⟩ := @rewritten_of_innermostCalls table resolve t calls hcalls
    have hround := (rewritten_called f hlead htrail ht hr).2 hflat
    rw [hround.replaceRounds_succ,
      (hr.congr (iff_false_intro hflat) rfl).replaceRounds_zero]
    cases hresult : replaceCalls table resolve t calls with
    | error _ => simp [Except.map, Except.bind, Failure.within]
    | ok u =>
      have hu := ((hreplacement u hresult).depthThrough_eq 0).trans ht
      have hnot : replaceRounds table resolve bound 0 (callText f [] (lead ++ u ++ trail)) ≠ .ok v :=
        replaceRounds_called_zero f hlead htrail hu v
      refine iff_of_false hnot ?_
      simp [Failure.within]
  | succ left ih =>
    by_cases hflat : callStarts t = []
    · rw [replaceRounds_called_flat f hlead htrail bound (left + 1) ht hflat,
        replaceRounds_flat hflat]
      simp
    obtain ⟨calls, hcalls⟩ := exists_innermostCalls ht
    obtain ⟨hr, hreplacement⟩ := @rewritten_of_innermostCalls table resolve t calls hcalls
    have hround := (rewritten_called f hlead htrail ht hr).2 hflat
    rw [hround.replaceRounds_succ,
      (hr.congr (iff_false_intro hflat) rfl).replaceRounds_succ]
    cases hresult : replaceCalls table resolve t calls with
    | error _ => simp [Except.map, Except.bind]
    | ok u => exact ih (((hreplacement u hresult).depthThrough_eq 0).trans ht)

end Rounds

end EnclosedRounds

end Reckoner.Formula
