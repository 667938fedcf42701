import Reckoner.Proofs.Formula.DressedValues
import Reckoner.Proofs.Text.Spans

/-!
The clean-up of dressed texts. Each step takes away one part of the dress and keeps the lexemes:
first the markup and the equals sign, then the typographic signs, the currency signs and the commas
in numerals. The scan for these commas sees the same parentheses around a numeral as the lexemes
have. What is left has nothing but white space between the lexemes.
-/
namespace Reckoner.Formula

open Text Number Arith

variable {dress dress' : Dress} {o : Enclosure} {a : Lexeme} {ls : List Lexeme}
  {markup currency inside : Bool} {gap body s t w : List Char} {c : Char}

section Characters

/-- The marks that stand in no lexeme. -/
def outsideMarks : List Char := '<' :: '=' :: currencySigns

theorem Spelling.word_mem (h : Spelling dress inside a w) (ha : a.isMark = false) :
    ∀ c ∈ w, isOperandChar c = true ∨ c = ',' := by
  intro c hc
  cases a with
  | numeral n =>
    rcases h.numeral_mem c hc with hdigit | rfl | rfl
    · exact Or.inl (isOperandChar_of_isDigit hdigit)
    · exact Or.inl (by decide)
    · exact Or.inr rfl
  | name n | callee n =>
    cases h
    exact Or.inl (isOperandChar_of_isWord (n.isWord_of_mem hc))
  | line r =>
    cases h
    rcases List.mem_cons.mp hc with rfl | hc
    · exact Or.inl (by decide)
    · exact Or.inl (isOperandChar_of_isDigit (r.all_digits c hc))
  | _ => exact absurd ha.symm Bool.false_ne_true

theorem Spelling.not_mem_outside (h : Spelling dress inside a w) : ∀ c ∈ w, c ∉ outsideMarks := by
  have hsigns : ∀ d ∈ outsideMarks, isOperandChar d = false ∧ d ≠ ',' :=
    List.all_iff_forall_prop.mp (by decide +kernel)
  intro c hc hmem
  cases ha : a.isMark with
  | false =>
    rcases h.word_mem ha c hc with hoperand | rfl
    · rw [(hsigns c hmem).1] at hoperand
      exact Bool.false_ne_true hoperand
    · exact (hsigns _ hmem).2 rfl
  | true =>
    have hsign : ∀ {symbol : Char}, SignOf dress symbol c → symbol ∈ marks → c ∉ outsideMarks := by
      have hmarks : ∀ d ∈ marks ++ glyphs.map Prod.fst, d ∉ outsideMarks :=
        List.all_iff_forall_prop.mp (by decide)
      rintro symbol (rfl | ⟨_, hglyph⟩) hsymbol
      · exact hmarks _ (List.mem_append_left _ hsymbol)
      · exact hmarks _ (List.mem_append_right _ (List.mem_map_of_mem hglyph))
    cases a with
    | minus spaced =>
      cases h with
      | minus _ hc' => exact hsign (List.mem_singleton.mp hc ▸ hc') (by decide) hmem
    | operator op =>
      cases h with
      | operator _ hc' =>
        exact hsign (List.mem_singleton.mp hc ▸ hc') (symbol_mem_marks op) hmem
    | opening | closing | comma =>
      cases h
      obtain rfl := List.mem_singleton.mp hc
      exact absurd hmem (by decide)
    | _ => exact Bool.false_ne_true ha

theorem Spelling.ne_nil (h : Spelling dress inside a w) : w ≠ [] := by
  cases h with
  | numeral n => exact numeral_text_ne_nil n
  | grouped _ _ hgrouping =>
    obtain ⟨head, groups, hhead, _, _, _, _, rfl⟩ := hgrouping
    intro hnil
    rw [List.append_eq_nil_iff, List.append_eq_nil_iff] at hnil
    rw [hnil.1.1] at hhead
    exact absurd hhead (by decide)
  | name n | callee n =>
    obtain ⟨c, r, hn, _⟩ := n.exists_cons
    rw [hn]
    exact List.cons_ne_nil c r
  | _ => exact List.cons_ne_nil _ _

theorem Spelling.not_blank (h : Spelling dress inside a w) : ∀ c ∈ w, isBlank c = false := by
  intro c hc
  cases ha : a.isMark with
  | false =>
    rcases h.word_mem ha c hc with hoperand | rfl
    · exact isBlank_of_isOperandChar hoperand
    · decide
  | true =>
    obtain ⟨d, hd, rfl⟩ := h.mark ha
    rw [List.mem_singleton.mp hc]
    exact (commonMark hd).2

/-- Without markup, white space and currency signs are all that stands between lexemes. -/
theorem filling_iff : Filling false currency gap ↔
    ∀ c ∈ gap, isBlank c = true ∨ currency = true ∧ c ∈ currencySigns := by
  constructor
  · intro h
    induction h with
    | nil => exact fun c hc => absurd hc List.not_mem_nil
    | blank hc _ ih => exact List.forall_mem_cons.mpr ⟨Or.inl hc, ih⟩
    | tag hmarkup _ _ _ => exact absurd hmarkup Bool.false_ne_true
    | sign hcurrency hc _ ih => exact List.forall_mem_cons.mpr ⟨Or.inr ⟨hcurrency, hc⟩, ih⟩
  · intro h
    induction gap with
    | nil => exact .nil
    | cons c s ih =>
      obtain ⟨hc, hs⟩ := List.forall_mem_cons.mp h
      rcases hc with hc | ⟨hcurrency, hc⟩
      · exact .blank hc (ih hs)
      · exact .sign hcurrency hc (ih hs)

theorem filling_blank (h : Filling false false gap) : ∀ c ∈ gap, isBlank c = true :=
  fun c hc => (filling_iff.mp h c hc).resolve_right fun h => Bool.false_ne_true h.1

theorem operatorOf_of_not_glyph (h : c ∉ glyphs.map Prod.fst) : operatorOf c = c := by
  simp only [glyphs, List.map_cons, List.map_nil, List.mem_cons, List.not_mem_nil, or_false,
    not_or] at h
  unfold operatorOf
  rw [if_neg h.1, if_neg h.2.1, if_neg h.2.2]

theorem SignOf.operatorOf {symbol : Char} (h : SignOf dress symbol c) (hsymbol : symbol ∈ marks) :
    Formula.operatorOf c = symbol := by
  have hmarks : ∀ d ∈ marks, Formula.operatorOf d = d := List.all_iff_forall_prop.mp (by decide)
  have hglyphs : ∀ p ∈ glyphs, Formula.operatorOf p.1 = p.2 :=
    List.all_iff_forall_prop.mp (by decide)
  rcases h with rfl | ⟨_, hglyph⟩
  · exact hmarks c hsymbol
  · exact hglyphs _ hglyph

end Characters

section Steps

/-- What a step of the clean-up does: it goes over a text part by part and leaves parts of another
dress. -/
structure Undresses (dress dress' : Dress) (f : List Char → List Char) : Prop where
  filling : ∀ {currency gap}, Filling dress.markup (dress.currency && currency) gap →
    Filling dress'.markup (dress'.currency && currency) (f gap) ∧ ∀ s, f (gap ++ s) = f gap ++ f s
  spelling : ∀ {inside a w}, Spelling dress inside a w →
    Spelling dress' inside a (f w) ∧ ∀ s, f (w ++ s) = f w ++ f s
  spaces : ∀ {gap}, (∀ c ∈ gap, c = ' ') → f gap = gap

theorem Undresses.dressed {f : List Char → List Char} (hf : Undresses dress dress' f)
    (h : Dressed dress o ls s) : Dressed dress' o ls (f s) := by
  induction h with
  | nil hgap =>
    rw [← Bool.and_false dress.currency] at hgap
    have hfilling := (hf.filling hgap).1
    rw [Bool.and_false] at hfilling
    exact .nil hfilling
  | @cons o a ls gap w s hgap hw _ ih =>
    obtain ⟨hw', hwappend⟩ := hf.spelling hw
    unfold Gap at hgap
    split at hgap
    · rename_i ho
      have hblanks : Filling dress.markup (dress.currency && false) gap :=
        filling_blanks fun c hc => hgap c hc ▸ by decide
      have hgap' : Gap dress' o a gap := by
        unfold Gap
        rwa [if_pos ho]
      rw [(hf.filling hblanks).2, hwappend, hf.spaces hgap]
      exact .cons hgap' hw' ih
    · rename_i ho
      obtain ⟨hfilling, happend⟩ := hf.filling hgap
      have hgap' : Gap dress' o a (f gap) := by
        unfold Gap
        rwa [if_neg ho]
      rw [happend, hwappend]
      exact .cons hgap' hw' ih

theorem dropTags_cons (hc : c ≠ '<') (s : List Char) : dropTags (c :: s) = c :: dropTags s := by
  unfold dropTags
  rw [dropTagsFrom, if_neg Bool.false_ne_true, beq_eq_false_iff_ne.mpr hc, Bool.false_and,
    if_neg Bool.false_ne_true]

theorem dropTags_append (ht : '<' ∉ t) (s : List Char) : dropTags (t ++ s) = t ++ dropTags s := by
  induction t with
  | nil => rfl
  | cons c t ih =>
    obtain ⟨hc, ht⟩ := List.ne_and_not_mem_of_not_mem_cons ht
    rw [List.cons_append, dropTags_cons hc.symm, ih ht, List.cons_append]

theorem dropTags_tag (hbody : Body body) (s : List Char) :
    dropTags ('<' :: body ++ '>' :: s) = dropTags s := by
  have hinside : dropTagsFrom true (body ++ '>' :: s) = dropTagsFrom false s := by
    induction body with
    | nil => rw [List.nil_append, dropTagsFrom, if_pos rfl]; rfl
    | cons c body ih =>
      obtain ⟨hc, hbody⟩ := List.forall_mem_cons.mp hbody
      rw [List.cons_append, dropTagsFrom, if_pos rfl, bne_iff_ne.mpr hc.2.1, ih hbody]
  have hcloses : (body ++ '>' :: s).contains '>' = true :=
    List.contains_iff_mem.mpr (List.mem_append_right _ List.mem_cons_self)
  unfold dropTags
  rw [List.cons_append, dropTagsFrom, if_neg Bool.false_ne_true, hcloses, Bool.and_true,
    beq_self_eq_true, if_pos rfl, hinside]

theorem dropTags_filling (h : Filling markup currency gap) :
    Filling false currency (dropTags gap) ∧ ∀ s, dropTags (gap ++ s) = dropTags gap ++ dropTags s := by
  induction h with
  | nil => exact ⟨.nil, fun _ => rfl⟩
  | @blank c s hc _ ih =>
    have hne : c ≠ '<' := by
      rintro rfl
      exact absurd hc (by decide)
    rw [dropTags_cons hne]
    exact ⟨.blank hc ih.1, fun t => by
      rw [List.cons_append, dropTags_cons hne, ih.2, List.cons_append]⟩
  | @tag body s _ hbody _ ih =>
    rw [dropTags_tag hbody]
    exact ⟨ih.1, fun t => by
      rw [List.append_assoc, List.cons_append (a := '>'), dropTags_tag hbody, ih.2]⟩
  | @sign c s hcurrency hc _ ih =>
    have hne : c ≠ '<' := by
      rintro rfl
      exact absurd hc (by decide)
    rw [dropTags_cons hne]
    exact ⟨.sign hcurrency hc ih.1, fun t => by
      rw [List.cons_append, dropTags_cons hne, ih.2, List.cons_append]⟩

theorem Spelling.redress (h : Spelling dress inside a w) (hglyphs : dress.glyphs = dress'.glyphs)
    (hgroups : dress.groups = dress'.groups) : Spelling dress' inside a w := by
  have hsign : ∀ {symbol c : Char}, SignOf dress symbol c → SignOf dress' symbol c :=
    fun hc => hc.imp_right fun hc => hglyphs ▸ hc
  cases h with
  | numeral n => exact .numeral n
  | grouped hg hi hw => exact .grouped (hgroups ▸ hg) hi hw
  | name n => exact .name n
  | line r => exact .line r
  | callee f => exact .callee f
  | minus spaced hc => exact .minus spaced (hsign hc)
  | operator op hc => exact .operator op (hsign hc)
  | opening => exact .opening
  | closing => exact .closing
  | comma => exact .comma

/-- The markup is dropped. -/
theorem undresses_dropTags (glyphs currency groups : Bool) :
    Undresses ⟨true, glyphs, currency, groups⟩ ⟨false, glyphs, currency, groups⟩ dropTags where
  filling h := dropTags_filling h
  spelling h := by
    have hnone : '<' ∉ _ := fun hmem => h.not_mem_outside _ hmem List.mem_cons_self
    rw [dropTags_eq hnone]
    exact ⟨h.redress rfl rfl, dropTags_append hnone⟩
  spaces h := dropTags_eq fun hmem => absurd (h _ hmem) (by decide)

theorem not_glyph_of_filling (h : Filling false currency gap) :
    ∀ c ∈ gap, c ∉ glyphs.map Prod.fst := by
  have hglyphs : ∀ d ∈ glyphs.map Prod.fst, isBlank d = false ∧ d ∉ currencySigns :=
    List.all_iff_forall_prop.mp (by decide)
  intro c hc hmem
  rcases filling_iff.mp h c hc with hblank | ⟨_, hsign⟩
  · rw [(hglyphs c hmem).1] at hblank
    exact Bool.false_ne_true hblank
  · exact (hglyphs c hmem).2 hsign

theorem map_operatorOf_of_not_glyph (h : ∀ c ∈ s, c ∉ glyphs.map Prod.fst) :
    s.map operatorOf = s :=
  map_operatorOf_self fun c hc => operatorOf_of_not_glyph (h c hc)

theorem not_glyph_of_word (h : Spelling dress inside a w) (ha : a.isMark = false) :
    ∀ c ∈ w, c ∉ glyphs.map Prod.fst := by
  have hglyphs : ∀ d ∈ glyphs.map Prod.fst, isOperandChar d = false ∧ d ≠ ',' :=
    List.all_iff_forall_prop.mp (by decide +kernel)
  intro c hc hmem
  rcases h.word_mem ha c hc with hoperand | hcomma
  · rw [(hglyphs c hmem).1] at hoperand
    exact Bool.false_ne_true hoperand
  · exact (hglyphs c hmem).2 hcomma

/-- The typographic signs become operators. -/
theorem undresses_operatorOf (currency groups : Bool) :
    Undresses ⟨false, true, currency, groups⟩ ⟨false, false, currency, groups⟩
      (List.map operatorOf) where
  filling h := by
    rw [map_operatorOf_of_not_glyph (not_glyph_of_filling h)]
    refine ⟨h, fun s => ?_⟩
    rw [List.map_append, map_operatorOf_of_not_glyph (not_glyph_of_filling h)]
  spelling {_ a _} h := by
    refine ⟨?_, fun s => List.map_append⟩
    have hword : a.isMark = false → _ := fun ha => map_operatorOf_of_not_glyph (not_glyph_of_word h ha)
    cases h with
    | numeral n => rw [hword rfl]; exact .numeral n
    | grouped hg hi hw => rw [hword rfl]; exact .grouped hg hi hw
    | name n => rw [hword rfl]; exact .name n
    | line r => rw [hword rfl]; exact .line r
    | callee f => rw [hword rfl]; exact .callee f
    | minus spaced hc => exact .minus spaced (Or.inl (hc.operatorOf (by decide)))
    | operator op hc => exact .operator op (Or.inl (hc.operatorOf (symbol_mem_marks op)))
    | opening => exact .opening
    | closing => exact .closing
    | comma => exact .comma
  spaces h := map_operatorOf_of_not_glyph fun c hc => h c hc ▸ by decide

theorem dropCurrency_append (s t : List Char) :
    dropCurrency (s ++ t) = dropCurrency s ++ dropCurrency t := List.filter_append ..

/-- The currency signs are dropped. -/
theorem undresses_dropCurrency (glyphs groups : Bool) :
    Undresses ⟨false, glyphs, true, groups⟩ ⟨false, glyphs, false, groups⟩ dropCurrency where
  filling h := by
    refine ⟨filling_iff.mpr fun c hc => ?_, dropCurrency_append _⟩
    obtain ⟨hc, hkept⟩ := List.mem_filter.mp hc
    rcases filling_iff.mp h c hc with hblank | ⟨_, hsign⟩
    · exact Or.inl hblank
    · rw [List.contains_iff_mem.mpr hsign] at hkept
      exact absurd hkept Bool.false_ne_true
  spelling h := by
    have hkept := dropCurrency_eq_self fun c hc hmem => h.not_mem_outside c hc
      (List.mem_cons_of_mem _ (List.mem_cons_of_mem _ hmem))
    rw [hkept]
    refine ⟨h.redress rfl rfl, fun s => ?_⟩
    rw [dropCurrency_append, hkept]
  spaces h := dropCurrency_eq_self fun c hc => h c hc ▸ by decide

end Steps

section Ends

theorem Gap.tail (hmarkup : dress.markup = false) (h : Gap dress o a (c :: gap)) :
    Gap dress o a gap := by
  unfold Gap at h ⊢
  rw [hmarkup] at h ⊢
  split at h
  · rename_i ho
    rw [if_pos ho]
    exact fun d hd => h d (List.mem_cons_of_mem c hd)
  · rename_i ho
    rw [if_neg ho]
    exact filling_iff.mpr fun d hd => filling_iff.mp h d (List.mem_cons_of_mem c hd)

/-- White space before a dressed text. -/
theorem Dressed.tail (hmarkup : dress.markup = false) (hc : isBlank c = true)
    (h : Dressed dress o ls (c :: s)) : Dressed dress o ls s := by
  generalize ht : c :: s = t at h
  cases h with
  | nil hgap =>
    subst ht
    rw [hmarkup] at hgap
    refine .nil ?_
    rw [hmarkup]
    exact filling_iff.mpr fun d hd => filling_iff.mp hgap d (List.mem_cons_of_mem c hd)
  | @cons _ a ls gap w s' hgap hw hs =>
    cases gap with
    | nil =>
      obtain ⟨d, w', rfl⟩ := List.exists_cons_of_ne_nil hw.ne_nil
      obtain ⟨rfl, _⟩ := List.cons.inj ht
      rw [hw.not_blank c List.mem_cons_self] at hc
      exact absurd hc Bool.false_ne_true
    | cons d gap =>
      obtain ⟨_, rfl⟩ := List.cons.inj ht
      exact .cons (hgap.tail hmarkup) hw hs

theorem Dressed.trimLeft (hmarkup : dress.markup = false) (h : Dressed dress o ls s) :
    Dressed dress o ls (trimLeft s) := by
  unfold Text.trimLeft
  induction s with
  | nil => exact h
  | cons c s ih =>
    cases hc : isBlank c with
    | true =>
      rw [List.dropWhile_cons_of_pos hc]
      exact ih (h.tail hmarkup hc)
    | false =>
      rw [dropWhile_cons_of_false hc]
      exact h

/-- White space after a dressed text. -/
theorem Dressed.front (hmarkup : dress.markup = false) (hc : isBlank c = true)
    (h : Dressed dress o ls (s ++ [c])) : Dressed dress o ls s := by
  generalize ht : s ++ [c] = t at h
  induction h generalizing s with
  | nil hgap =>
    subst ht
    rw [hmarkup] at hgap
    refine .nil ?_
    rw [hmarkup]
    exact filling_iff.mpr fun d hd => filling_iff.mp hgap d (List.mem_append_left [c] hd)
  | @cons o a ls gap w s' hgap hw hs ih =>
    rcases List.eq_nil_or_concat s' with rfl | ⟨r, d, rfl⟩
    · obtain ⟨w', d, rfl⟩ := (List.eq_nil_or_concat w).resolve_left hw.ne_nil
      rw [List.append_nil, List.concat_eq_append, ← List.append_assoc] at ht
      obtain ⟨_, heq⟩ := List.append_inj' ht rfl
      obtain rfl := List.singleton_inj.mp heq
      have hsolid := hw.not_blank c (by rw [List.concat_eq_append]; simp)
      rw [hsolid] at hc
      exact absurd hc Bool.false_ne_true
    · rw [List.concat_eq_append, ← List.append_assoc, ← List.append_assoc] at ht
      obtain ⟨rfl, heq⟩ := List.append_inj' ht rfl
      obtain rfl := List.singleton_inj.mp heq
      rw [List.append_assoc]
      exact .cons hgap hw (ih (List.concat_eq_append ..).symm)

theorem Dressed.trimRight (hmarkup : dress.markup = false) (h : Dressed dress o ls s) :
    Dressed dress o ls (trimRight s) := by
  change Dressed dress o ls (s.rdropWhile isBlank)
  induction s using List.reverseRecOn with
  | nil => exact h
  | append_singleton s c ih =>
    cases hc : isBlank c with
    | true =>
      rw [List.rdropWhile_concat_pos _ _ _ hc]
      exact ih (h.front hmarkup hc)
    | false =>
      rw [List.rdropWhile_concat_neg _ _ _ (by rw [hc]; exact Bool.false_ne_true)]
      exact h

theorem Dressed.not_equals (hmarkup : dress.markup = false) (h : Dressed dress o ls s) :
    '=' ∉ s := by
  have hfilling : ∀ {currency gap}, Filling false currency gap → '=' ∉ gap := by
    intro currency gap hgap hmem
    rcases filling_iff.mp hgap _ hmem with hblank | ⟨_, hsign⟩
    · exact absurd hblank (by decide)
    · exact absurd hsign (by decide)
  induction h with
  | nil hgap => exact hfilling (hmarkup ▸ hgap)
  | @cons o a ls gap w s hgap hw _ ih =>
    have hgap' : '=' ∉ gap := by
      unfold Gap at hgap
      split at hgap
      · exact fun hmem => absurd (hgap _ hmem) (by decide)
      · exact hfilling (hmarkup ▸ hgap)
    have hw' : '=' ∉ w := fun hmem =>
      hw.not_mem_outside _ hmem (List.mem_cons_of_mem _ List.mem_cons_self)
    simp only [List.mem_append, not_or]
    exact ⟨hgap', hw', ih⟩

/-- The text of an expression without markup and without the equals sign before it. -/
theorem dropEquals_dressing {e : Expr} (h : e.Dressing s) :
    Dressed ⟨false, true, true, true⟩ .start e.lexemes (dropEquals (trim (dropTags s))) := by
  rcases h with h | ⟨before, after, hbefore, rfl, h⟩
  · have hdressed := (((undresses_dropTags true true true).dressed h).trimLeft rfl).trimRight rfl
    have hequals := hdressed.not_equals rfl
    have hsame : dropEquals (trim (dropTags s)) = trim (dropTags s) := by
      unfold dropEquals
      split
      · rename_i r heq
        unfold trim at heq
        rw [heq] at hequals
        exact absurd List.mem_cons_self hequals
      · rfl
    rw [hsame]
    exact hdressed
  · have hdressed := ((undresses_dropTags true true true).dressed h).trimRight rfl
    have hblank := filling_blank (dropTags_filling hbefore).1
    have htext : dropEquals (trim (dropTags (before ++ '=' :: after))) =
        trimRight (dropTags after) := by
      rw [(dropTags_filling hbefore).2, dropTags_cons (by decide)]
      unfold trim Text.trimLeft
      rw [List.dropWhile_append_of_pos hblank, List.dropWhile_cons_of_neg (by decide),
        trimRight_cons (by decide)]
      rfl
    rw [htext]
    exact hdressed

end Ends

end Reckoner.Formula
