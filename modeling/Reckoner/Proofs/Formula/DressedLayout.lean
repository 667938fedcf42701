import Reckoner.Proofs.Formula.Ungrouped

/-!
Dressed texts and layouts. What the clean-up leaves of a dressed text has the segments that the
lexemes stand for, so it is a text of these lexemes with white space between them. Such a text falls
into layouts of the parts of the expression.
-/
namespace Reckoner.Formula

open Text Number Arith

variable {o : Enclosure} {a : Lexeme} {ls ms : List Lexeme} {inside : Bool}
  {gap s t u w : List Char} {c : Char} {e : Expr}

section Segments

/-- The segment of a lexeme. -/
def Lexeme.segment : Lexeme → Segment
  | .numeral n => .word n.text
  | .name n | .callee n => .word n.chars
  | .line r => .word ('@' :: r.digits)
  | .minus _ => .mark '-'
  | .operator op => .mark op.symbol
  | .opening => .mark '('
  | .closing => .mark ')'
  | .comma => .mark ','

theorem segment_ne_joint (a : Lexeme) : a.segment ≠ .joint := by
  cases a <;> exact Segment.noConfusion

/-- Without dress a lexeme is written in one way. -/
theorem Spelling.segment (h : Spelling .bare inside a w) :
    a.isMark = false ∧ a.segment = .word w ∨
      a.isMark = true ∧ ∃ c, w = [c] ∧ a.segment = .mark c := by
  cases h with
  | numeral | name | line | callee => exact Or.inl ⟨rfl, rfl⟩
  | grouped hgroups => exact absurd hgroups Bool.false_ne_true
  | minus _ hc | operator _ hc =>
    rcases hc with rfl | ⟨hglyphs, _⟩
    · exact Or.inr ⟨rfl, _, rfl, rfl⟩
    · exact absurd hglyphs Bool.false_ne_true
  | opening | closing | comma => exact Or.inr ⟨rfl, _, rfl, rfl⟩

theorem spelling_of_word (h : a.segment = .word w) : Spelling .bare inside a w := by
  cases a with
  | numeral n => obtain rfl := Segment.word.inj h; exact .numeral n
  | name n => obtain rfl := Segment.word.inj h; exact .name n
  | line r => obtain rfl := Segment.word.inj h; exact .line r
  | callee f => obtain rfl := Segment.word.inj h; exact .callee f
  | _ => exact absurd h (by simp [Lexeme.segment])

theorem spelling_of_mark (h : a.segment = .mark c) : Spelling .bare inside a [c] := by
  cases a with
  | minus spaced => obtain rfl := Segment.mark.inj h; exact .minus spaced (Or.inl rfl)
  | operator op => obtain rfl := Segment.mark.inj h; exact .operator op (Or.inl rfl)
  | opening => obtain rfl := Segment.mark.inj h; exact .opening
  | closing => obtain rfl := Segment.mark.inj h; exact .closing
  | comma => obtain rfl := Segment.mark.inj h; exact .comma
  | _ => exact absurd h (by simp [Lexeme.segment])

theorem segments_blanks_append (hgap : ∀ c ∈ gap, isBlank c = true) (s : List Char) :
    segments (gap ++ s) = segments s := by
  induction gap with
  | nil => rfl
  | cons c gap ih =>
    obtain ⟨hc, hgap⟩ := List.forall_mem_cons.mp hgap
    rw [List.cons_append, segments_blank hc, ih hgap]

theorem Spelling.word_operand (h : Spelling .bare inside a w) (ha : a.isMark = false) :
    ∀ c ∈ w, isOperandChar c = true := by
  cases h with
  | numeral n => exact isOperandChar_numeral n
  | grouped hgroups => exact absurd hgroups Bool.false_ne_true
  | name n | callee n => exact fun c hc => isOperandChar_of_isWord (n.isWord_of_mem hc)
  | line r =>
    exact List.forall_mem_cons.mpr
      ⟨by decide, fun c hc => isOperandChar_of_isDigit (r.all_digits c hc)⟩
  | _ => exact absurd ha.symm Bool.false_ne_true

theorem eq_closing (h : a.segment = .mark ')') : a = .closing := by
  cases a with
  | closing => rfl
  | operator op =>
    have hsymbol := Segment.mark.inj h
    cases op <;> exact absurd hsymbol (by decide)
  | _ => exact absurd h (by simp [Lexeme.segment])

/-- The segments of a text without dress are those of the lexemes. -/
theorem Dressed.segments (h : Dressed .bare o ls s) (hls : Phrase ls) :
    segments s = ls.map Lexeme.segment := by
  induction h with
  | nil hgap => exact segments_blanks (filling_blank hgap)
  | @cons o a ls gap w s hgap hw hs ih =>
    have hnext : ∀ b ∈ ls.head?, Follows a b := (List.isChain_cons.mp hls.chain).1
    have hstops : a.isMark = false ∨ a = .closing → startsWith isOperandChar s = false :=
      fun ha => hs.stops fun b hb => (hnext b hb).isMark ha
    rw [segments_blanks_append (Gap.blank hgap), List.map_cons, ← ih hls.tail]
    rcases hw.segment with ⟨ha, hsegment⟩ | ⟨ha, c, rfl, hsegment⟩
    · rw [segments_word hw.ne_nil (hw.word_operand ha) (hstops (Or.inl ha)), hsegment]
    · obtain ⟨d, hd, heq⟩ := hw.mark ha
      obtain rfl := List.singleton_inj.mp heq
      obtain ⟨hc, hblank⟩ := commonMark hd
      have hjoint : c = ')' → startsWith isOperandChar s = false := by
        rintro rfl
        exact hstops (Or.inr (eq_closing hsegment))
      rw [List.singleton_append, segments_mark hc hblank hjoint, hsegment]

theorem Dressed.space (h : Dressed .bare o ls s) : Dressed .bare o ls (' ' :: s) := by
  cases h with
  | nil hgap => exact .nil (.blank (by decide) hgap)
  | @cons _ a ls gap w s hgap hw hs =>
    have hgap' : Gap .bare o a (' ' :: gap) := by
      unfold Gap at hgap ⊢
      split at hgap
      · rename_i ho
        rw [if_pos ho]
        exact List.forall_mem_cons.mpr ⟨rfl, hgap⟩
      · rename_i ho
        rw [if_neg ho]
        exact .blank (by decide) hgap
    exact .cons hgap' hw hs

theorem gap_nil (dress : Dress) (o : Enclosure) (a : Lexeme) : Gap dress o a [] := by
  unfold Gap
  split
  · exact fun c hc => absurd hc List.not_mem_nil
  · exact .nil

/-- A text with the segments of lexemes is a text of them without dress, when its only blanks are
spaces. -/
theorem dressed_of_segments (h : segments s = ls.map Lexeme.segment)
    (hs : ∀ c ∈ s, isBlank c = true → c = ' ') : Dressed .bare o ls s := by
  induction s using segments_induct generalizing o ls with
  | nil =>
    obtain rfl := List.map_eq_nil_iff.mp h.symm
    exact .nil .nil
  | mark c r hc ih =>
    obtain ⟨hspace, hr⟩ := List.forall_mem_cons.mp hs
    cases hblank : isBlank c with
    | true =>
      rw [segments_blank hblank] at h
      rw [hspace hblank]
      exact (ih h hr).space
    | false =>
      have hjoint : Segment.joint ∉ segments (c :: r) := by
        rw [h]
        intro hmem
        obtain ⟨a, _, ha⟩ := List.mem_map.mp hmem
        exact segment_ne_joint a ha
      rw [segments_mark hc hblank (startsWith_of_joint_not_mem hjoint)] at h
      obtain ⟨a, ms, rfl, ha, hms⟩ := List.map_eq_cons_iff.mp h.symm
      exact .cons (gap_nil _ _ _) (spelling_of_mark ha) (ih hms.symm hr)
  | word w r hw hall hr ih =>
    rw [segments_word hw hall hr] at h
    obtain ⟨a, ms, rfl, ha, hms⟩ := List.map_eq_cons_iff.mp h.symm
    exact .cons (gap_nil _ _ _) (spelling_of_word ha) (ih r (Nat.le_refl _) hms.symm
      fun c hc => hs c (List.mem_append_right _ hc))

/-- The clean-up leaves no white space but spaces. -/
theorem blank_collapseBlanks (after : Bool) (s : List Char) :
    ∀ c ∈ collapseBlanks after s, isBlank c = true → c = ' ' := by
  induction s generalizing after with
  | nil => exact fun c hc => absurd hc List.not_mem_nil
  | cons c s ih =>
    unfold collapseBlanks
    split
    · split
      · exact ih true
      · exact List.forall_mem_cons.mpr ⟨fun _ => rfl, ih true⟩
    · rename_i hc
      exact List.forall_mem_cons.mpr ⟨fun h => absurd h hc, ih false⟩

theorem onlySpaces_canonical (s : List Char) : OnlySpaces (canonical s) := fun c hc =>
  blank_collapseBlanks false _ c ((trim_sublist _).subset hc)

/-- The clean-up leaves the lexemes of a dressed text, without their dress. -/
theorem canonical_dressing (h : e.Dressing s) : Dressed .bare .start e.lexemes (canonical s) := by
  have hoperators := (undresses_operatorOf true true).dressed (dropEquals_dressing h)
  have hcurrency := (undresses_dropCurrency false true).dressed hoperators
  have hcommas : CommasInCalls .start (e.lexemes ++ []) := commasInCalls_lexemes e trivial
  rw [List.append_nil] at hcommas
  have hbare : Dressed .bare .start e.lexemes (bare s) :=
    ungroup_dressed hcurrency (phrase_lexemes e) (fun h => absurd h Bool.false_ne_true) hcommas
      (fits_start _)
  refine dressed_of_segments ?_ (onlySpaces_canonical s)
  rw [segments_spaced, hbare.segments (phrase_lexemes e)]

end Segments

section Layouts

variable {calls : List Bool}

theorem OnlySpaces.left (h : OnlySpaces (s ++ t)) : OnlySpaces s :=
  fun c hc => h c (List.mem_append_left t hc)

theorem OnlySpaces.right (h : OnlySpaces (s ++ t)) : OnlySpaces t :=
  fun c hc => h c (List.mem_append_right s hc)

/-- A text without dress that begins with a lexeme. -/
theorem Dressed.exists_cons (h : Dressed .bare o (a :: ls) s) (hs : OnlySpaces s) :
    ∃ gap w u, s = gap ++ (w ++ u) ∧ (∀ c ∈ gap, c = ' ') ∧ Spelling .bare o.insideCall a w ∧
      Dressed .bare (o.advance a) ls u ∧ OnlySpaces u := by
  cases h with
  | @cons _ _ _ gap w u hgap hw hu =>
    exact ⟨gap, w, u, rfl, fun c hc => hs.left c hc (Gap.blank hgap c hc), hw, hu, hs.right.right⟩

/-- The text of the arguments of a call. -/
theorem Dressed.exists_arguments {args : List Expr}
    (hargs : ∀ e ∈ args, ∀ {ls : List Lexeme} {s : List Char},
      Dressed .bare ⟨true :: calls, false⟩ (e.lexemes ++ ls) s → OnlySpaces s →
      ∃ t u, s = t ++ u ∧ Laid e t ∧ Dressed .bare ⟨true :: calls, false⟩ ls u ∧ OnlySpaces u)
    (h : Dressed .bare ⟨true :: calls, false⟩
      (joined (args.map fun e => e.lexemes) ++ .closing :: ls) s) (hs : OnlySpaces s) :
    ∃ (inner : List Char) (parts : List (Expr × List Char)) (u : List Char),
      parts.map Prod.fst = args ∧ (∀ c ∈ inner, c = ' ') ∧ (∀ p ∈ parts, Laid p.1 p.2) ∧
      s = inner ++ [','].intercalate (parts.map Prod.snd) ++ ')' :: u ∧
      Dressed .bare ⟨calls, false⟩ ls u ∧ OnlySpaces u := by
  have hmore : ∀ (rest : List Expr) (e : Expr) (s : List Char), (∀ a ∈ e :: rest, a ∈ args) →
      Dressed .bare ⟨true :: calls, false⟩ (e.lexemes ++
        (((rest.map fun e => e.lexemes).flatMap fun more => .comma :: more) ++ .closing :: ls)) s →
      OnlySpaces s → ∃ (p : Expr × List Char) (parts : List (Expr × List Char)) (u : List Char),
        (p :: parts).map Prod.fst = e :: rest ∧ (∀ q ∈ p :: parts, Laid q.1 q.2) ∧
        s = [','].intercalate ((p :: parts).map Prod.snd) ++ ')' :: u ∧
        Dressed .bare ⟨calls, false⟩ ls u ∧ OnlySpaces u := by
    intro rest
    induction rest with
    | nil =>
      intro e s hmem h hs
      obtain ⟨t, m, rfl, ht, hm, hm'⟩ := hargs e (hmem e List.mem_cons_self) h hs
      obtain ⟨gap, w, u, rfl, hgap, hw, hu, hu'⟩ := hm.exists_cons hm'
      cases hw
      have hlaid : ∀ p ∈ [(e, t ++ gap)], Laid p.1 p.2 := fun p hp =>
        List.mem_singleton.mp hp ▸ ht.spaces_after hgap
      exact ⟨(e, t ++ gap), [], u, rfl, hlaid, by simp, hu, hu'⟩
    | cons e' rest ih =>
      intro e s hmem h hs
      obtain ⟨he, hrest⟩ := List.forall_mem_cons.mp hmem
      rw [List.map_cons, List.flatMap_cons, List.cons_append, List.cons_append,
        List.append_assoc] at h
      obtain ⟨t, m, rfl, ht, hm, hm'⟩ := hargs e he h hs
      obtain ⟨gap, w, n, rfl, hgap, hw, hn, hn'⟩ := hm.exists_cons hm'
      cases hw
      obtain ⟨p, parts, u, hparts, hlaid, rfl, hu, hu'⟩ := ih e' n hrest hn hn'
      have hlaid' : ∀ q ∈ (e, t ++ gap) :: p :: parts, Laid q.1 q.2 :=
        List.forall_mem_cons.mpr ⟨ht.spaces_after hgap, hlaid⟩
      refine ⟨(e, t ++ gap), p :: parts, u, by rw [List.map_cons, hparts], hlaid', ?_, hu, hu'⟩
      simp [List.intercalate_cons_cons]
  cases args with
  | nil =>
    obtain ⟨gap, w, u, rfl, hgap, hw, hu, hu'⟩ := h.exists_cons hs
    cases hw
    exact ⟨gap, [], u, rfl, hgap, fun p hp => absurd hp List.not_mem_nil, by simp, hu, hu'⟩
  | cons e rest =>
    rw [List.map_cons, joined, List.append_assoc] at h
    obtain ⟨p, parts, u, hparts, hlaid, rfl, hu, hu'⟩ := hmore rest e s (fun _ h => h) h hs
    exact ⟨[], p :: parts, u, hparts, fun c hc => absurd hc List.not_mem_nil, hlaid, rfl, hu, hu'⟩

/-- A text of the lexemes of an expression begins with a layout of it. -/
theorem Dressed.exists_laid (h : Dressed .bare ⟨calls, false⟩ (e.lexemes ++ ls) s)
    (hs : OnlySpaces s) :
    ∃ t u, s = t ++ u ∧ Laid e t ∧ Dressed .bare ⟨calls, false⟩ ls u ∧ OnlySpaces u := by
  induction e generalizing calls ls s with
  | numeral n =>
    rw [Expr.lexemes] at h
    obtain ⟨gap, w, u, rfl, hgap, hw, hu, hu'⟩ := h.exists_cons hs
    cases hw with
    | numeral _ =>
      exact ⟨gap ++ n.text, u, (List.append_assoc ..).symm, (Laid.numeral n).spaces_before hgap, hu, hu'⟩
    | grouped hgroups => exact absurd hgroups Bool.false_ne_true
  | name n =>
    rw [Expr.lexemes] at h
    obtain ⟨gap, w, u, rfl, hgap, hw, hu, hu'⟩ := h.exists_cons hs
    cases hw
    exact ⟨gap ++ n.chars, u, (List.append_assoc ..).symm, (Laid.name n).spaces_before hgap, hu, hu'⟩
  | line r =>
    rw [Expr.lexemes] at h
    obtain ⟨gap, w, u, rfl, hgap, hw, hu, hu'⟩ := h.exists_cons hs
    cases hw
    exact ⟨gap ++ '@' :: r.digits, u, (List.append_assoc ..).symm,
      (Laid.line r).spaces_before hgap, hu, hu'⟩
  | group e ih =>
    rw [Expr.lexemes, List.cons_append, List.cons_append, List.append_assoc] at h
    obtain ⟨gap, w, m, rfl, hgap, hw, hm, hm'⟩ := h.exists_cons hs
    cases hw
    obtain ⟨t, v, rfl, ht, hv, hv'⟩ := ih hm hm'
    obtain ⟨gap', w, u, rfl, hgap', hw, hu, hu'⟩ := hv.exists_cons hv'
    cases hw
    refine ⟨gap ++ ('(' :: (t ++ gap') ++ [')']), u, by simp, ?_, hu, hu'⟩
    exact (Laid.group (ht.spaces_after hgap')).spaces_before hgap
  | neg spaced e ih =>
    rw [Expr.lexemes, List.cons_append] at h
    obtain ⟨gap, w, u, rfl, hgap, hw, hu, hu'⟩ := h.exists_cons hs
    obtain ⟨t, v, rfl, ht, hv, hv'⟩ := ih hu hu'
    obtain rfl : w = ['-'] := by
      cases hw with
      | minus _ hsign => exact hsign.elim (fun h => h ▸ rfl) fun h => absurd h.1 Bool.false_ne_true
    exact ⟨gap ++ '-' :: t, v, by simp, (Laid.neg spaced ht).spaces_before hgap, hv, hv'⟩
  | binary op l r ihl ihr =>
    rw [Expr.lexemes, List.append_assoc, List.cons_append] at h
    obtain ⟨t, m, rfl, ht, hm, hm'⟩ := ihl h hs
    obtain ⟨gap, w, n, rfl, hgap, hw, hn, hn'⟩ := hm.exists_cons hm'
    obtain ⟨v, u, rfl, hv, hu, hu'⟩ := ihr hn hn'
    obtain rfl : w = [op.symbol] := Spelling.sign hw
    refine ⟨(t ++ gap) ++ op.symbol :: v, u, by simp, ?_, hu, hu'⟩
    exact Laid.binary op (ht.spaces_after hgap) hv
  | call f args ih =>
    rw [Expr.lexemes, List.cons_append, List.cons_append, List.cons_append, List.cons_append,
      List.append_assoc] at h
    obtain ⟨gap, w, u, rfl, hgap, hw, hu, hu'⟩ := h.exists_cons hs
    cases hw
    obtain ⟨gap', w, m, rfl, hgap', hw, hm, hm'⟩ := hu.exists_cons hu'
    cases hw
    obtain ⟨inner, parts, v, rfl, hinner, hparts, rfl, hv, hv'⟩ :=
      hm.exists_arguments (fun e he => ih e he) hm'
    refine ⟨gap ++ (f.chars ++ (gap' ++ '(' :: (inner ++ [','].intercalate (parts.map Prod.snd)) ++
      [')'])), v, by simp, ?_, hv, hv'⟩
    exact (Laid.call f hgap' hinner hparts).spaces_before hgap

theorem Dressed.spaces (h : Dressed .bare o ls s) (hgap : ∀ c ∈ gap, c = ' ') :
    Dressed .bare o ls (gap ++ s) := by
  induction gap with
  | nil => exact h
  | cons c gap ih =>
    obtain ⟨rfl, hrest⟩ := List.forall_mem_cons.mp hgap
    exact (ih hrest).space

theorem Dressed.lexeme {o' : Enclosure} (h : Dressed .bare o' ls s)
    (hw : Spelling .bare o.insideCall a w) (ho : o.advance a = o') :
    Dressed .bare o (a :: ls) (w ++ s) :=
  .cons (gap_nil _ o a) hw (ho ▸ h)

/-- The arguments of a call, up to its closing parenthesis. -/
theorem dressed_arguments {args : List (Expr × List Char)}
    (h : ∀ p ∈ args, ∀ {ls : List Lexeme} {u : List Char},
      Dressed .bare ⟨true :: calls, false⟩ ls u →
      Dressed .bare ⟨true :: calls, false⟩ (p.1.lexemes ++ ls) (p.2 ++ u))
    (hls : Dressed .bare ⟨true :: calls, false⟩ ls u) :
    Dressed .bare ⟨true :: calls, false⟩ (joined ((args.map Prod.fst).map fun e => e.lexemes) ++ ls)
      ([','].intercalate (args.map Prod.snd) ++ u) := by
  have hmore : ∀ (rest : List (Expr × List Char)) (p : Expr × List Char),
      (∀ q ∈ p :: rest, q ∈ args) →
      Dressed .bare ⟨true :: calls, false⟩ (p.1.lexemes ++
        ((((rest.map Prod.fst).map fun e => e.lexemes).flatMap fun more => .comma :: more) ++ ls))
        ([','].intercalate ((p :: rest).map Prod.snd) ++ u) := by
    intro rest
    induction rest with
    | nil =>
      intro p hmem
      rw [List.map_singleton, List.intercalate_singleton]
      exact h p (hmem p List.mem_cons_self) hls
    | cons q rest ih =>
      intro p hmem
      obtain ⟨hp, hrest⟩ := List.forall_mem_cons.mp hmem
      have hcomma : Dressed .bare ⟨true :: calls, false⟩ (.comma :: _) ([','] ++ _) :=
        (ih q hrest).lexeme .comma rfl
      have hfirst := h p hp hcomma
      simpa [List.intercalate_cons_cons] using hfirst
  cases args with
  | nil => exact hls
  | cons p rest =>
    rw [List.map_cons, List.map_cons, joined, List.append_assoc]
    exact hmore rest p fun _ h => h

/-- A layout of an expression is a text of its lexemes. -/
theorem Laid.dressed (h : Laid e t) (hls : Dressed .bare ⟨calls, false⟩ ls u) :
    Dressed .bare ⟨calls, false⟩ (e.lexemes ++ ls) (t ++ u) := by
  induction h generalizing calls ls u with
  | numeral n => rw [Expr.lexemes]; exact hls.lexeme (.numeral n) rfl
  | name n => rw [Expr.lexemes]; exact hls.lexeme (.name n) rfl
  | line r => rw [Expr.lexemes]; exact hls.lexeme (.line r) rfl
  | @group e t _ ih =>
    have hclosing : Dressed .bare ⟨false :: calls, false⟩ (.closing :: ls) ([')'] ++ u) :=
      hls.lexeme .closing rfl
    have hopening : Dressed .bare ⟨calls, false⟩ (.opening :: _) (['('] ++ _) :=
      (ih hclosing).lexeme .opening rfl
    rw [Expr.lexemes]
    simpa using hopening
  | @neg spaced e t _ ih =>
    rw [Expr.lexemes]
    exact (ih hls).lexeme (.minus spaced (Or.inl rfl)) rfl
  | @binary op l r t v _ _ ihl ihr =>
    have hop : Dressed .bare ⟨calls, false⟩ (.operator op :: _) ([op.symbol] ++ _) :=
      (ihr hls).lexeme (.operator op (Or.inl rfl)) rfl
    rw [Expr.lexemes, List.append_assoc, List.append_assoc]
    exact ihl hop
  | @call f before inner args hbefore hinner _ ih =>
    have hclosing : Dressed .bare ⟨true :: calls, false⟩ (.closing :: ls) ([')'] ++ u) :=
      hls.lexeme .closing rfl
    have hinside := (dressed_arguments (fun p hp => ih p hp) hclosing).spaces hinner
    have hopening : Dressed .bare ⟨calls, true⟩ (.opening :: _) (['('] ++ _) :=
      hinside.lexeme .opening rfl
    have hcallee : Dressed .bare ⟨calls, false⟩ (.callee f :: _) (f.chars ++ _) :=
      (hopening.spaces hbefore).lexeme (.callee f) rfl
    rw [Expr.lexemes]
    simpa using hcallee
  | before _ ih => exact (ih hls).space
  | @after e t _ ih =>
    rw [List.append_assoc]
    exact ih hls.space

theorem Laid.dressed_alone (h : Laid e t) : Dressed .bare .start e.lexemes t := by
  have hnil : Dressed .bare ⟨[], false⟩ [] [] := .nil .nil
  have hdressed := h.dressed hnil
  rwa [List.append_nil, List.append_nil] at hdressed

theorem onlySpaces_append (hs : OnlySpaces s) (ht : OnlySpaces t) : OnlySpaces (s ++ t) :=
  List.forall_mem_append.mpr ⟨hs, ht⟩

theorem onlySpaces_solid (h : ∀ c ∈ s, isBlank c = false) : OnlySpaces s := fun c hc hblank =>
  absurd ((h c hc).symm.trans hblank) Bool.false_ne_true

theorem onlySpaces_spaces (h : ∀ c ∈ s, c = ' ') : OnlySpaces s := fun c hc _ => h c hc

theorem onlySpaces_cons (hc : isBlank c = false) (hs : OnlySpaces s) : OnlySpaces (c :: s) :=
  List.forall_mem_cons.mpr ⟨fun h => absurd (hc.symm.trans h) Bool.false_ne_true, hs⟩

theorem onlySpaces_intercalate {ts : List (List Char)} (h : ∀ t ∈ ts, OnlySpaces t) :
    OnlySpaces ([','].intercalate ts) := by
  induction ts with
  | nil => exact fun c hc => absurd hc List.not_mem_nil
  | cons t rest ih =>
    obtain ⟨ht, hrest⟩ := List.forall_mem_cons.mp h
    cases rest with
    | nil => rwa [List.intercalate_singleton]
    | cons u rest =>
      rw [List.intercalate_cons_cons, List.append_assoc]
      exact onlySpaces_append ht (onlySpaces_cons (by decide) (ih hrest))

theorem Laid.onlySpaces (h : Laid e t) : OnlySpaces t := by
  have hword : ∀ n : Name, OnlySpaces n.chars := fun n =>
    onlySpaces_solid fun c hc => isBlank_of_isWord (n.isWord_of_mem hc)
  have hclosing : OnlySpaces [')'] := onlySpaces_solid (List.forall_mem_singleton.mpr (by decide))
  induction h with
  | numeral n =>
    exact onlySpaces_solid fun c hc => isBlank_of_isOperandChar (isOperandChar_numeral n c hc)
  | name n => exact hword n
  | line r =>
    exact onlySpaces_cons (by decide)
      (onlySpaces_solid fun c hc => isBlank_of_isWord (isWord_of_isDigit (r.all_digits c hc)))
  | group _ ih => exact onlySpaces_append (onlySpaces_cons (by decide) ih) hclosing
  | neg _ _ ih => exact onlySpaces_cons (by decide) ih
  | binary op _ _ ihl ihr =>
    exact onlySpaces_append ihl (onlySpaces_cons (commonMark (symbol_commonMark op)).2 ihr)
  | call f hbefore hinner _ ih =>
    have harguments := onlySpaces_intercalate (List.forall_mem_map.mpr ih)
    have hinside := onlySpaces_append (onlySpaces_spaces hinner) harguments
    refine onlySpaces_append (hword f) (onlySpaces_append ?_ hclosing)
    exact onlySpaces_append (onlySpaces_spaces hbefore) (onlySpaces_cons (by decide) hinside)
  | before _ ih => exact List.forall_mem_cons.mpr ⟨fun _ => rfl, ih⟩
  | after _ ih => exact onlySpaces_append ih (onlySpaces_spaces (List.forall_mem_singleton.mpr rfl))

end Layouts

section Texts

theorem Spelling.mono (h : Spelling .bare inside a w) (dress : Dress) :
    Spelling dress inside a w := by
  cases h with
  | numeral n => exact .numeral n
  | grouped hgroups => exact absurd hgroups Bool.false_ne_true
  | name n => exact .name n
  | line r => exact .line r
  | callee f => exact .callee f
  | minus spaced hc =>
    exact .minus spaced (Or.inl (hc.resolve_right fun h => Bool.false_ne_true h.1))
  | operator op hc =>
    exact .operator op (Or.inl (hc.resolve_right fun h => Bool.false_ne_true h.1))
  | opening => exact .opening
  | closing => exact .closing
  | comma => exact .comma

/-- A text without dress is also a dressed text. -/
theorem Dressed.mono (h : Dressed .bare o ls s) (dress : Dress) : Dressed dress o ls s := by
  induction h with
  | nil hgap => exact .nil (filling_blanks (filling_blank hgap))
  | @cons o a ls gap w s hgap hw _ ih =>
    have hgap' : Gap dress o a gap := by
      unfold Gap at hgap ⊢
      split at hgap
      · rename_i ho
        rwa [if_pos ho]
      · rename_i ho
        rw [if_neg ho]
        exact filling_blanks (filling_blank hgap)
    exact .cons hgap' (hw.mono dress) ih

/-- The text of an expression is a dressed text of it. -/
theorem dressing_textOf (e : Expr) : e.Dressing (textOf e.lexemes) :=
  Or.inl ((laid_textOf e).dressed_alone.mono .full)

end Texts

end Reckoner.Formula
