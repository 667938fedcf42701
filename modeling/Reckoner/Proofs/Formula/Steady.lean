import Reckoner.Proofs.Formula.EnclosedRounds

/-!
Texts that mean the same when they are prepared once more. Nothing in them is a reference, a known
name, markup or a sign to clean up. Rounds keep them so, and their arguments are such texts without
calls, whose values do not depend on how many rounds are allowed.
-/
namespace Reckoner.Formula

open Text Number Arith

variable {table : FunctionTable} {resolve : Resolver} {scope : Scope} {names : List (List Char)}
  {lead trail s t u : List Char} {c : Char} {calls : List Call}

section Washed

theorem operatorOf_of_value (hc : isDigit c = true ∨ c ∈ ['.', '(', '-', ')']) :
    operatorOf c = c ∧ c ∉ currencySigns := by
  have hsigns : ∀ d ∈ glyphs.map Prod.fst ++ currencySigns,
      isDigit d = false ∧ d ∉ ['.', '(', '-', ')'] := List.all_iff_forall_prop.mp (by decide)
  have hnot : c ∉ glyphs.map Prod.fst ++ currencySigns := by
    intro hmem
    obtain ⟨hdigit, hmark⟩ := hsigns c hmem
    rcases hc with hc | hc
    · exact Bool.false_ne_true (hdigit.symm.trans hc)
    · exact hmark hc
  rw [List.mem_append, not_or] at hnot
  exact ⟨operatorOf_of_not_glyph hnot.1, hnot.2⟩

theorem Replacement.clean {last : Option Char} (h : Replacement table resolve last t u)
    (ht : Clean (segments t)) : Clean (segments u) := by
  refine clean_segments (fun c hc => ?_) fun htags => ?_
  · rcases h.mem c hc with hc | hc
    · exact ht.chars c hc
    · exact operatorOf_of_value hc
  · have hkept := h.filter_sublist (p := fun c => c == '<' || c == '>') fun c hc => by
      rcases hc with hc | hc
      · simp only [Bool.or_eq_false_iff, beq_eq_false_iff_ne]
        constructor <;>
        · rintro rfl
          exact absurd hc (by decide)
      · have hall : ∀ d ∈ ['.', '(', '-', ')'], (d == '<' || d == '>') = false :=
          List.all_iff_forall_prop.mp (by decide)
        exact hall c hc
    exact ht.not_sublist
      (((htags.filter fun c => c == '<' || c == '>').trans hkept).trans List.filter_sublist)

theorem Replacement.washed {last : Option Char} (h : Replacement table resolve last t u)
    (ht : Washed t) : Washed u :=
  ⟨h.clean ht.clean, h.not_mem (by decide) (by decide) ht.commas,
    h.not_mem (by decide) (by decide) ht.lines⟩

theorem Washed.sublist (ht : Washed t) (hs : s.Sublist t) : Washed s :=
  ⟨clean_segments (fun c hc => ht.clean.chars c (hs.subset hc))
      fun htags => ht.clean.not_sublist (htags.trans hs),
    fun hc => ht.commas (hs.subset hc), fun hc => ht.lines (hs.subset hc)⟩

theorem callStarts_trim (hat : '@' ∉ t) (h : callStarts t = []) : callStarts (trim t) = [] := by
  rw [callStarts_eq_nil_iff hat] at h
  rwa [callStarts_eq_nil_iff fun hmem => hat ((trim_sublist t).subset hmem), segments_trim]

end Washed

section Around

/-- The segments of a text with white space and an equals sign around it. -/
theorem segments_around (hlead : Lead lead) (htrail : ∀ c ∈ trail, c = ' ') (t : List Char) :
    segments (lead ++ t ++ trail) = segments t ∨
      segments (lead ++ t ++ trail) = .mark '=' :: segments t := by
  have hblank : ∀ {gap : List Char}, (∀ c ∈ gap, c = ' ') → ∀ c ∈ gap, isBlank c = true :=
    fun hgap c hc => hgap c hc ▸ by decide
  have hspaces : ∀ {gap : List Char}, (∀ c ∈ gap, c = ' ') →
      segments (gap ++ t ++ trail) = segments t := fun hgap => by
    rw [← segments_trim, trim_around (hblank hgap) (hblank htrail), segments_trim]
  cases hlead with
  | spaces hgap => exact Or.inl (hspaces hgap)
  | @equals gap more hgap hmore =>
    obtain ⟨hequals, hnot⟩ := commonMark (c := '=') (by decide)
    have hsplit : gap ++ '=' :: more ++ t ++ trail = gap ++ '=' :: (more ++ t ++ trail) := by simp
    rw [hsplit, segments_blanks_append (hblank hgap),
      segments_mark hequals hnot fun h => absurd h (by decide), hspaces hmore]
    exact Or.inr rfl

theorem Clean.equals {ps : List Segment} (h : Clean ps) : Clean (.mark '=' :: ps) := by
  refine ⟨fun c hc => ?_, fun hsub => ?_⟩
  · rcases List.mem_cons.mp hc with heq | hc
    · obtain rfl := Segment.mark.inj heq
      decide
    · exact h.signs c hc
  · cases hsub with
    | cons _ hsub => exact h.tags hsub

theorem Lead.not_mem (hlead : Lead lead) (hspace : c ≠ ' ') (hequals : c ≠ '=') : c ∉ lead :=
  fun hc => (hlead.mem c hc).elim hspace hequals

theorem Washed.around (hlead : Lead lead) (htrail : ∀ c ∈ trail, c = ' ') (h : Washed t) :
    Washed (lead ++ t ++ trail) := by
  have hfree : ∀ {c}, c ∉ t → c ≠ ' ' → c ≠ '=' → c ∉ lead ++ t ++ trail := by
    intro c hc hspace hequals
    simp only [List.mem_append, not_or]
    exact ⟨⟨hlead.not_mem hspace hequals, hc⟩, fun hmem => hspace (htrail c hmem)⟩
  refine ⟨?_, hfree h.commas (by decide) (by decide), hfree h.lines (by decide) (by decide)⟩
  rcases segments_around hlead htrail t with hsame | hsame
  · rw [hsame]
    exact h.clean
  · rw [hsame]
    exact h.clean.equals

theorem callStarts_around (hlead : Lead lead) (htrail : ∀ c ∈ trail, c = ' ') (h : Washed t)
    (hflat : callStarts t = []) : callStarts (lead ++ t ++ trail) = [] := by
  rw [callStarts_eq_nil_iff h.lines] at hflat
  rw [callStarts_eq_nil_iff (h.around hlead htrail).lines]
  rcases segments_around hlead htrail t with hsame | hsame
  · rwa [hsame]
  · rwa [hsame, hasCall_mark]

theorem Unnamed.around (hnames : ∀ n ∈ names, isIdentifier n = true) (hlead : Lead lead)
    (htrail : ∀ c ∈ trail, c = ' ') (h : Unnamed names none t) :
    Unnamed names none (lead ++ t ++ trail) := by
  have hstart : ∀ c ∈ lead, isNameStart c = false := by
    intro c hc
    rcases hlead.mem c hc with rfl | rfl <;> decide
  have htail := h.append_blanks hnames fun c hc => htrail c hc ▸ by decide
  rw [List.append_assoc]
  exact unnamed_append hnames hstart (htail.after rfl _)

end Around

/-- A text in which preparing it once more changes no more than its spacing. -/
structure Steady (names : List (List Char)) (t : List Char) : Prop where
  washed : Washed t
  unnamed : Unnamed names none t
  equals : (t.dropWhile isBlank).head? ≠ some '='
  spaces : OnlySpaces t

section Steady

theorem Replacement.onlySpaces {last : Option Char} (h : Replacement table resolve last t u)
    (ht : OnlySpaces t) : OnlySpaces u := by
  intro c hc hblank
  rcases h.mem c hc with hc | hc | hc
  · exact ht c hc hblank
  · rw [isBlank_of_isWord (isWord_of_isDigit hc)] at hblank
    exact absurd hblank Bool.false_ne_true
  · have hall : ∀ d ∈ ['.', '(', '-', ')'], isBlank d = false :=
      List.all_iff_forall_prop.mp (by decide)
    rw [hall c hc] at hblank
    exact absurd hblank Bool.false_ne_true

theorem Replacement.steady (hnames : ∀ n ∈ names, isIdentifier n = true)
    (h : Replacement table resolve none t u) (ht : Steady names t) : Steady names u :=
  ⟨h.washed ht.washed, h.unnamed hnames ht.unnamed, h.equals ht.equals, h.onlySpaces ht.spaces⟩

/-- Arithmetic is steady. -/
theorem steady_of_lexed {ts : List Token} (hnames : ∀ n ∈ names, isIdentifier n = true)
    (h : Lexed t ts) (ht : OnlySpaces t) : Steady names t := by
  have hsigns : ∀ d ∈ glyphs.map Prod.fst ++ currencySigns ++ [',', '@', '=', '<'],
      isGap d = false ∧ isDigit d = false ∧ d ∉ tokenMarks := List.all_iff_forall_prop.mp (by decide)
  have hfree : ∀ d ∈ glyphs.map Prod.fst ++ currencySigns ++ [',', '@', '=', '<'], d ∉ t := by
    intro d hd hmem
    obtain ⟨hgap, hdigit, hmark⟩ := hsigns d hd
    rcases mem_lexed h d hmem with h' | h' | h'
    · exact Bool.false_ne_true (hgap.symm.trans h')
    · exact Bool.false_ne_true (hdigit.symm.trans h')
    · exact hmark h'
  refine ⟨⟨clean_segments (fun c hc => ⟨operatorOf_of_not_glyph fun hmem => ?_, fun hmem => ?_⟩)
      fun htags => ?_, hfree _ (by decide), hfree _ (by decide)⟩, ?_, fun hhead => ?_, ht⟩
  · exact hfree c (List.mem_append_left _ (List.mem_append_left _ hmem)) hc
  · exact hfree c (List.mem_append_left _ (List.mem_append_right _ hmem)) hc
  · exact hfree '<' (by decide) (htags.subset List.mem_cons_self)
  · have hunnamed : Unnamed names none (t ++ []) :=
      unnamed_append hnames (not_isNameStart_of_lexed h) (unnamed_nil hnames)
    rwa [List.append_nil] at hunnamed
  · exact hfree '=' (by decide)
      ((List.dropWhile_sublist isBlank).subset (List.mem_of_mem_head? hhead))

/-- The canonical form of a text without calls has its segments, but for an equals sign. -/
theorem Steady.segments_canonical_around (ht : Steady names t) (hlead : Lead lead)
    (htrail : ∀ c ∈ trail, c = ' ') :
    segments (canonical (trim (lead ++ t ++ trail))) = segments t := by
  have hwashed := (ht.washed.around hlead htrail).sublist (trim_sublist _)
  have hequals : (segments t).head? ≠ some (.mark '=') := by
    intro hhead
    obtain ⟨rest, hrest⟩ := exists_mark hhead
    exact ht.equals (by rw [hrest]; rfl)
  have htrim := segments_trim (lead ++ t ++ trail)
  rcases segments_around hlead htrail t with hsame | hsame
  · rw [hsame] at htrim
    rw [segments_canonical hwashed.clean (fun hmem => hwashed.commas (mark_mem_segments.mp hmem).1)
      (htrim ▸ hequals), htrim]
  · exact segments_canonical_equals hwashed.clean hwashed.commas (htrim.trans hsame)

/-- A text without calls means on its own what it is settled to. -/
theorem Steady.evaluate_around (hs : scope.Identifiers) (ht : Steady scope.names t)
    (hflat : callStarts t = []) (hlead : Lead lead) (htrail : ∀ c ∈ trail, c = ' ') (depth : Int) :
    (evaluate table depth scope (trim (lead ++ t ++ trail))).toOption =
      (settleText t).toOption := by
  have hwashed := ht.washed.around hlead htrail
  rw [evaluate_unnamed hs (hwashed.sublist (trim_sublist _))
    ((ht.unnamed.around hs.names hlead htrail).trim hs.names)
    (callStarts_trim hwashed.lines (callStarts_around hlead htrail ht.washed hflat))]
  exact settleText_congr (ht.segments_canonical_around hlead htrail) (onlySpaces_canonical _)
    ht.spaces

theorem piecesFrom_of_no_comma (h : ',' ∉ s) (depth : Int) : piecesFrom depth s = [s] := by
  induction s generalizing depth with
  | nil => rfl
  | cons c r ih =>
    obtain ⟨hc, hr⟩ := List.ne_and_not_mem_of_not_mem_cons h
    rw [piecesFrom, if_neg fun hcomma => hc hcomma.1.symm]
    dsimp only
    rw [ih hr]

/-- A text without commas holds at most one argument. -/
theorem splitArguments_of_no_comma (h : ',' ∉ s) :
    splitArguments s = if s.all isBlank then [] else [trim s] := by
  unfold splitArguments
  rw [piecesFrom_of_no_comma h]
  rfl

/-- The values of the arguments in a round do not depend on how many rounds are allowed. -/
theorem Steady.replaceCalls_eq (hs : scope.Identifiers) (ht : Steady scope.names t)
    (hcalls : innermostCalls t = .ok calls) (depth depth' : Int) :
    replaceCalls table (evaluate table depth scope) t calls =
      replaceCalls table (evaluate table depth' scope) t calls := by
  refine replaceCalls_congr (fun call hcall a ha => ?_) t
  obtain ⟨x, y, hsplit, hflat⟩ := exists_around_arguments hcalls hcall
  have hwashed : Washed call.arguments := ht.washed.sublist (arguments_sublist hcalls hcall)
  have hunnamed : Unnamed scope.names none call.arguments :=
    (hsplit ▸ ht.unnamed).inside hs.names
  rw [splitArguments_of_no_comma hwashed.commas] at ha
  split at ha
  · exact absurd ha List.not_mem_nil
  · obtain rfl := List.mem_singleton.mp ha
    rw [trim_trim]
    have hvalue : ∀ depth, evaluate table depth scope (trim call.arguments) =
        settleText (canonical (trim call.arguments)) :=
      evaluate_unnamed hs (hwashed.sublist (trim_sublist _)) (hunnamed.trim hs.names)
        (callStarts_trim hwashed.lines hflat)
    rw [hvalue, hvalue]

theorem Steady.replaceRounds_eq (hs : scope.Identifiers) (ht : Steady scope.names t)
    (bound depth depth' : Int) (left : Nat) :
    replaceRounds table (evaluate table depth scope) bound left t =
      replaceRounds table (evaluate table depth' scope) bound left t := by
  refine replaceRounds_eq_of_step (fun t calls ht hcalls => ?_)
    (fun t calls u ht hcalls hround => ?_) ht bound left
  · exact ht.replaceCalls_eq hs hcalls depth depth'
  · exact ((rewritten_of_innermostCalls hcalls).2 u hround).steady hs.names ht

/-- What every round keeps, all rounds together keep. -/
theorem replaceRounds_induction {P : List Char → Prop}
    (hstep : ∀ {t u}, Replacement table resolve none t u → P t → P u) {bound : Int} {left : Nat}
    (ht : P t) (h : replaceRounds table resolve bound left t = .ok u) :
    P u ∧ callStarts u = [] := by
  induction left generalizing t with
  | zero =>
    obtain ⟨hcalls, rfl⟩ | ⟨_, _, _, hleft, _⟩ := replaceRounds_eq_ok h
    · exact ⟨ht, callStarts_of_innermostCalls hcalls rfl⟩
    · exact absurd hleft nofun
  | succ left ih =>
    obtain ⟨hcalls, rfl⟩ | ⟨_, _, v, hleft, _, hcalls, hv, h⟩ := replaceRounds_eq_ok h
    · exact ⟨ht, callStarts_of_innermostCalls hcalls rfl⟩
    · obtain rfl := Nat.succ.inj hleft
      exact ih (hstep ((rewritten_of_innermostCalls hcalls).2 v hv) ht) h

end Steady

end Reckoner.Formula
