import Mathlib.Data.List.TakeWhile
import Reckoner.Proofs.Formula.Lexeme
import Reckoner.Proofs.Text.Spans

/-!
Tidy texts. The text of an expression is made of word characters and punctuation; its only blanks
are single spaces, a comma is followed by a space, and an operator never follows a word directly.
Every step of the canonical form leaves such a text alone, except for the space between a minus
sign and a name. More generally, each step that sets spaces keeps the texts in which it finds all of
them set; which these are is said by what may not come right after what.
-/
namespace Reckoner.Formula

open Text Number Arith

/-- What two characters that stand next to each other must satisfy. -/
structure Adjacent (a b : Char) : Prop where
  comma : a = ',' → b = ' '
  blank : isBlank a = true → isBlank b = false
  word : isWord a = true → isOperator b = false

/-- The characters of expressions. -/
def Plain (s : List Char) : Prop := ∀ c ∈ s, isWord c = true ∨ c ∈ marks

structure Tidy (s : List Char) : Prop where
  plain : Plain s
  adjacent : s.IsChain Adjacent

/-- What is forbidden right after some characters, and after which: going over a text, `step` says
whether it is forbidden after the next character. -/
structure Watch where
  step : Bool → Char → Bool
  forbidden : Char → Bool
  step_mono : ∀ c, step false c = true → step true c = true

/-- That no forbidden character stands in a text; the flag says whether one could come first. -/
inductive Watch.Avoids (w : Watch) : Bool → List Char → Prop
  | nil {on} : w.Avoids on []
  | cons {on c r} : (on = true → w.forbidden c = false) → w.Avoids (w.step on c) r →
      w.Avoids on (c :: r)

/-- No operator right after a word with a name in it. -/
def nameWatch : Watch where
  step named c := isWord c && (named || isNameStart c)
  forbidden := isOperator
  step_mono c h := by
    rw [Bool.true_or, Bool.and_true]
    exact (Bool.and_eq_true_iff.mp h).1

/-- No name or line reference right after an operator. -/
def operatorWatch : Watch := ⟨fun _ c => isOperator c, startsOperand, fun _ h => h⟩

/-- No white space right after white space. -/
def blankWatch : Watch := ⟨fun _ c => isBlank c, isBlank, fun _ h => h⟩

/-- That the only white space in a text is spaces. -/
def OnlySpaces (s : List Char) : Prop := ∀ c ∈ s, isBlank c = true → c = ' '

section Plain

theorem plain_numeral (n : Numeral) : Plain n.text := by
  intro c hc
  rcases mem_numeral_text hc with hdigit | rfl
  · exact Or.inl (isWord_of_isDigit hdigit)
  · exact Or.inr (by decide)

theorem plain_lexeme (a : Lexeme) : Plain a.text := by
  cases a with
  | numeral n => exact plain_numeral n
  | name n | callee n => exact fun c hc => Or.inl (n.isWord_of_mem hc)
  | line r =>
    intro c hc
    rcases List.mem_cons.mp hc with rfl | hc
    · exact Or.inr (by decide)
    · exact Or.inl (isWord_of_isDigit (r.all_digits c hc))
  | minus spaced =>
    intro c hc
    cases spaced
    · exact Or.inr (by rw [List.mem_singleton.mp hc]; decide)
    · rcases List.mem_cons.mp hc with rfl | hc
      · exact Or.inr (by decide)
      · exact Or.inr (by rw [List.mem_singleton.mp hc]; decide)
  | operator op =>
    intro c hc
    rcases List.mem_cons.mp hc with rfl | hc
    · exact Or.inr (by decide)
    · rcases List.mem_cons.mp hc with rfl | hc
      · exact Or.inr (symbol_mem_marks op)
      · exact Or.inr (by rw [List.mem_singleton.mp hc]; decide)
  | opening | closing => exact fun c hc => Or.inr (by rw [List.mem_singleton.mp hc]; decide)
  | comma =>
    intro c hc
    rcases List.mem_cons.mp hc with rfl | hc
    · exact Or.inr (by decide)
    · exact Or.inr (by rw [List.mem_singleton.mp hc]; decide)

theorem plain_textOf (ls : List Lexeme) : Plain (textOf ls) := by
  intro c hc
  obtain ⟨a, _, hca⟩ := List.mem_flatMap.mp hc
  exact plain_lexeme a c hca

/-- A character that is neither a word character nor a mark does not occur. -/
theorem Plain.not_mem {s : List Char} (h : Plain s) {c : Char} (hword : isWord c = false)
    (hmark : c ∉ marks) : c ∉ s := by
  intro hc
  rcases h c hc with hw | hm
  · rw [hword] at hw
    exact absurd hw (by decide)
  · exact hmark hm

theorem Plain.blank {s : List Char} (h : Plain s) {c : Char} (hc : c ∈ s)
    (hblank : isBlank c = true) : c = ' ' := by
  have hmarks : ∀ d ∈ marks, isBlank d = true → d = ' ' :=
    List.all_iff_forall_prop.mp (by decide)
  rcases h c hc with hw | hm
  · rw [isBlank_of_isWord hw] at hblank
    exact absurd hblank (by decide)
  · exact hmarks c hm hblank

end Plain

section Adjacent

/-- Characters that are no blanks, commas or operators may stand anywhere. -/
private theorem isChain_solid {t : List Char}
    (h : ∀ c ∈ t, c ≠ ',' ∧ isBlank c = false ∧ isOperator c = false) : t.IsChain Adjacent := by
  induction t with
  | nil => exact .nil
  | cons c t ih =>
    refine List.isChain_cons.mpr ⟨fun d hd => ?_, ih fun d hd => h d (List.mem_cons_of_mem c hd)⟩
    obtain ⟨hcomma, hblank, _⟩ := h c List.mem_cons_self
    obtain ⟨_, _, hop⟩ := h d (List.mem_cons_of_mem c (List.mem_of_mem_head? hd))
    refine ⟨fun h => absurd h hcomma, fun h => ?_, fun _ => hop⟩
    rw [hblank] at h
    exact absurd h (by decide)

theorem solid_of_isWord {c : Char} (h : isWord c = true) :
    c ≠ ',' ∧ isBlank c = false ∧ isOperator c = false :=
  ⟨fun hc => not_mem_marks h (hc ▸ by decide), isBlank_of_isWord h, isOperator_of_isWord h⟩

theorem solid_numeral (n : Numeral) :
    ∀ c ∈ n.text, c ≠ ',' ∧ isBlank c = false ∧ isOperator c = false := by
  intro c hc
  rcases mem_numeral_text hc with hdigit | rfl
  · exact solid_of_isWord (isWord_of_isDigit hdigit)
  · decide

private theorem isChain_lexeme (a : Lexeme) : a.text.IsChain Adjacent := by
  have hpair : ∀ c d : Char, c ≠ ',' → isBlank c = false → isWord c = false → Adjacent c d := by
    intro c d hcomma hblank hword
    refine ⟨fun h => absurd h hcomma, fun h => ?_, fun h => ?_⟩
    · rw [hblank] at h
      exact absurd h (by decide)
    · rw [hword] at h
      exact absurd h (by decide)
  cases a with
  | numeral n => exact isChain_solid (solid_numeral n)
  | name n | callee n => exact isChain_solid fun c hc => solid_of_isWord (n.isWord_of_mem hc)
  | line r =>
    refine isChain_solid fun c hc => ?_
    rcases List.mem_cons.mp hc with rfl | hc
    · decide
    · exact solid_of_isWord (isWord_of_isDigit (r.all_digits c hc))
  | minus spaced =>
    cases spaced
    · exact List.isChain_singleton _
    · exact List.isChain_pair.mpr (hpair _ _ (by decide) (by decide) (by decide))
  | operator op =>
    have hop : op.symbol ≠ ',' ∧ isBlank op.symbol = false ∧ isWord op.symbol = false := by
      cases op <;> decide
    refine List.isChain_cons_cons.mpr
      ⟨⟨fun h => absurd h (by decide), fun _ => hop.2.1, fun h => ?_⟩,
      List.isChain_pair.mpr (hpair _ _ hop.1 hop.2.1 hop.2.2)⟩
    exact absurd h (by decide)
  | opening | closing => exact List.isChain_singleton _
  | comma =>
    exact List.isChain_pair.mpr
      ⟨fun _ => rfl, fun h => absurd h (by decide), fun h => absurd h (by decide)⟩

/-- How the text of a lexeme begins. -/
theorem head_starts {a : Lexeme} (h : a.starts = true) {c : Char} (hc : c ∈ a.text.head?) :
    isBlank c = false := by
  cases a with
  | numeral n => exact (solid_numeral n c (List.mem_of_mem_head? hc)).2.1
  | name n | callee n => exact isBlank_of_isWord (n.isWord_of_mem (List.mem_of_mem_head? hc))
  | line r | opening =>
    obtain rfl := Option.some.inj hc
    decide
  | minus spaced =>
    cases spaced <;>
    · obtain rfl := Option.some.inj hc
      decide
  | _ => exact absurd h Bool.false_ne_true

/-- The text of an operand does not start with white space. -/
theorem operand_text_cons {ls : List Lexeme} (h : Operand ls) :
    ∃ c r, textOf ls = c :: r ∧ isBlank c = false := by
  obtain ⟨a, ha, hstarts⟩ := h.head
  obtain ⟨ms, rfl⟩ := List.head?_eq_some_iff.mp ha
  obtain ⟨c, r, hc⟩ := List.exists_cons_of_ne_nil a.text_ne_nil
  refine ⟨c, r ++ textOf ms, ?_, head_starts hstarts (by rw [hc]; rfl)⟩
  rw [textOf_cons, hc, List.cons_append]

theorem head_joins {a : Lexeme} (h : a.joins = true) {c : Char} (hc : c ∈ a.text.head?) :
    isOperator c = false := by
  cases a with
  | operator op | closing | comma =>
    obtain rfl := Option.some.inj hc
    decide
  | _ => exact absurd h Bool.false_ne_true

/-- How the text of a complete operand ends. -/
theorem last_ends {a : Lexeme} (h : a.ends = true) {c : Char} (hc : c ∈ a.text.getLast?) :
    c ≠ ',' ∧ isBlank c = false := by
  have hsolid : ∀ d : Char, d ≠ ',' ∧ isBlank d = false ∧ isOperator d = false →
      d ≠ ',' ∧ isBlank d = false := fun d hd => ⟨hd.1, hd.2.1⟩
  have hmem := List.mem_of_mem_getLast? hc
  cases a with
  | numeral n => exact hsolid c (solid_numeral n c hmem)
  | name n => exact hsolid c (solid_of_isWord (n.isWord_of_mem hmem))
  | line r =>
    rcases List.mem_cons.mp hmem with rfl | hdigit
    · decide
    · exact hsolid c (solid_of_isWord (isWord_of_isDigit (r.all_digits c hdigit)))
  | closing =>
    obtain rfl := Option.some.inj hc
    decide
  | _ => exact absurd h Bool.false_ne_true

/-- The characters where two lexemes meet. -/
private theorem adjacent_of_follows {a b : Lexeme} (h : Follows a b) {c d : Char}
    (hc : c ∈ a.text.getLast?) (hd : d ∈ b.text.head?) : Adjacent c d := by
  have hjoined : a.ends = true → b.joins = true → Adjacent c d := by
    intro ha hb
    obtain ⟨hcomma, hblank⟩ := last_ends ha hc
    refine ⟨fun h => absurd h hcomma, fun h => ?_, fun _ => head_joins hb hd⟩
    rw [hblank] at h
    exact absurd h (by decide)
  have hspace : c = ' ' → b.starts = true → Adjacent c d := by
    rintro rfl hb
    exact ⟨fun h => absurd h (by decide), fun _ => head_starts hb hd,
      fun h => absurd h (by decide)⟩
  have hmark : (c = '(' ∨ c = '-') → Adjacent c d := by
    rintro (rfl | rfl) <;>
    exact ⟨fun h => absurd h (by decide), fun h => absurd h (by decide),
      fun h => absurd h (by decide)⟩
  cases a with
  | numeral n | name n | line r | closing => exact hjoined rfl h
  | callee f =>
    obtain rfl : b = .opening := h
    obtain rfl := Option.some.inj hd
    obtain ⟨hcomma, hblank, _⟩ := solid_of_isWord (f.isWord_of_mem (List.mem_of_mem_getLast? hc))
    refine ⟨fun h => absurd h hcomma, fun _ => by decide, fun _ => by decide⟩
  | minus spaced =>
    cases spaced
    · exact hmark (Or.inr (Option.some.inj hc).symm)
    · exact hspace (Option.some.inj hc).symm h
  | operator op | comma => exact hspace (Option.some.inj hc).symm h
  | opening => exact hmark (Or.inl (Option.some.inj hc).symm)

theorem tidy_textOf {ls : List Lexeme} (h : ls.IsChain Follows) : Tidy (textOf ls) := by
  refine ⟨plain_textOf ls, ?_⟩
  induction ls with
  | nil => exact .nil
  | cons a ls ih =>
    obtain ⟨hnext, hchain⟩ := List.isChain_cons.mp h
    rw [textOf_cons]
    refine List.isChain_append.mpr ⟨isChain_lexeme a, ih hchain, fun c hc d hd => ?_⟩
    cases ls with
    | nil => exact absurd hd (by simp [textOf_nil])
    | cons b ls =>
      rw [textOf_cons, List.head?_append_of_ne_nil _ b.text_ne_nil] at hd
      exact adjacent_of_follows (hnext b rfl) hc hd

end Adjacent

section Watch

variable {w : Watch} {on on' : Bool} {s t : List Char} {c : Char}

theorem Watch.Avoids.first (h : w.Avoids on (c :: s)) (hon : on = true) : w.forbidden c = false := by
  cases h with
  | cons hfirst _ => exact hfirst hon

theorem Watch.Avoids.rest (h : w.Avoids on (c :: s)) : w.Avoids (w.step on c) s := by
  cases h with
  | cons _ hrest => exact hrest

theorem Watch.Avoids.weaken (h : w.Avoids on s) (hon : on' = true → on = true) : w.Avoids on' s := by
  induction h generalizing on' with
  | nil => exact .nil
  | @cons on c r hfirst _ ih =>
    refine .cons (fun h' => hfirst (hon h')) (ih ?_)
    intro hstep
    cases on' with
    | true => rwa [hon rfl]
    | false =>
      cases on with
      | true => exact w.step_mono c hstep
      | false => exact hstep

theorem Watch.Avoids.left (h : w.Avoids on (s ++ t)) : w.Avoids on s := by
  induction s generalizing on with
  | nil => exact .nil
  | cons c s ih => exact .cons h.first (ih h.rest)

theorem Watch.Avoids.right (h : w.Avoids on (s ++ t)) : ∃ on', w.Avoids on' t := by
  induction s generalizing on with
  | nil => exact ⟨on, h⟩
  | cons c s ih => exact ih h.rest

/-- Trimming a text brings no forbidden character. -/
theorem Watch.Avoids.trim (h : w.Avoids on s) : w.Avoids false (Text.trim s) := by
  obtain ⟨before, after, hsplit, _, _⟩ := exists_around_trim s
  rw [hsplit] at h
  obtain ⟨on', hright⟩ := h.left.right
  exact hright.weaken nofun

theorem Watch.avoids_of_isChain {R : Char → Char → Prop} (h : s.IsChain R)
    (hR : ∀ a b on, R a b → w.step on a = true → w.forbidden b = false)
    (hhead : on = true → ∀ c ∈ s.head?, w.forbidden c = false) : w.Avoids on s := by
  induction s generalizing on with
  | nil => exact .nil
  | cons c r ih =>
    obtain ⟨hnext, hchain⟩ := List.isChain_cons.mp h
    exact .cons (fun hon => hhead hon c rfl)
      (ih hchain fun hstep d hd => hR c d on (hnext d hd) hstep)

theorem OnlySpaces.tail (h : OnlySpaces (c :: s)) : OnlySpaces s := fun d hd =>
  h d (List.mem_cons_of_mem c hd)

/-- After a single blank comes something else. -/
theorem head_not_blank (h : blankWatch.Avoids on (c :: s)) (hc : isBlank c = true) :
    ∀ d ∈ s.head?, isBlank d = false := by
  cases s with
  | nil => simp
  | cons d s =>
    intro e he
    obtain rfl := Option.some.inj he
    exact h.rest.first hc

/-- Single spaces between names and operators are kept. -/
theorem spaceAfterNames_of_avoids {named : Bool} (hnames : nameWatch.Avoids named s)
    (hblanks : blankWatch.Avoids on s) (hspaces : OnlySpaces s) : spaceAfterNames named s = s := by
  induction s generalizing named on with
  | nil => rfl
  | cons c r ih =>
    have hrest : ∀ {named}, nameWatch.Avoids named r → spaceAfterNames named r = r := fun h =>
      ih h hblanks.rest hspaces.tail
    have hstep := hnames.rest
    unfold nameWatch at hstep
    dsimp only at hstep
    unfold spaceAfterNames
    cases hword : isWord c with
    | true =>
      rw [hword, Bool.true_and] at hstep
      rw [if_pos rfl, hrest hstep]
    | false =>
      rw [hword, Bool.false_and] at hstep
      rw [if_neg Bool.false_ne_true, hrest hstep]
      split
      · rename_i hop
        obtain ⟨hnamed, hop⟩ := Bool.and_eq_true_iff.mp hop
        exact absurd ((hnames.first hnamed).symm.trans hop) Bool.false_ne_true
      · split
        · rename_i hlead
          obtain ⟨hnamed, hlead⟩ := Bool.and_eq_true_iff.mp hlead
          have hc := (Bool.and_eq_true_iff.mp hnamed).2
          -- The space is the only one, so the operator comes next.
          rw [dropWhile_of_head (head_not_blank hblanks hc)] at hlead
          cases r with
          | nil => exact absurd hlead Bool.false_ne_true
          | cons d r =>
            have hop : isOperator d = true := hlead
            have hkept := hrest hstep
            unfold spaceAfterNames at hkept ⊢
            rw [isWord_of_isOperator hop, if_neg Bool.false_ne_true] at hkept ⊢
            rw [Bool.false_and, if_neg Bool.false_ne_true, Bool.false_and, Bool.false_and,
              if_neg Bool.false_ne_true] at hkept
            rw [Bool.true_and, if_pos hop, hkept, hspaces c List.mem_cons_self hc]
        · rfl

theorem spaceBeforeNames_true (hs : ∀ c ∈ s.head?, isBlank c = false) :
    spaceBeforeNames true s = spaceBeforeNames false s := by
  cases s with
  | nil => rfl
  | cons c r =>
    rw [spaceBeforeNames, spaceBeforeNames, hs c rfl, Bool.and_false, Bool.and_false]

/-- Single spaces between operators and names are kept. -/
theorem spaceBeforeNames_of_avoids {on' : Bool} (hoperators : operatorWatch.Avoids on s)
    (hblanks : blankWatch.Avoids on' s) (hspaces : OnlySpaces s) : spaceBeforeNames false s = s := by
  induction s generalizing on on' with
  | nil => rfl
  | cons c r ih =>
    have hrest := ih hoperators.rest hblanks.rest hspaces.tail
    rw [spaceBeforeNames, Bool.false_and, if_neg Bool.false_ne_true, hrest]
    split
    · rename_i hlead
      obtain ⟨hop, hlead⟩ := Bool.and_eq_true_iff.mp hlead
      cases r with
      | nil => exact absurd hlead Bool.false_ne_true
      | cons d r =>
        have hd : isBlank d = true := by
          by_contra hd
          rw [List.dropWhile_cons_of_neg hd] at hlead
          exact Bool.false_ne_true ((hoperators.rest.first hop).symm.trans hlead)
        have hspace := hspaces d (List.mem_cons_of_mem c List.mem_cons_self) hd
        have hnone : isOperator d = false := by
          rw [hspace]
          decide
        rw [spaceBeforeNames, Bool.false_and, if_neg Bool.false_ne_true, hnone, Bool.false_and,
          if_neg Bool.false_ne_true] at hrest
        rw [spaceBeforeNames, hd, Bool.and_self, if_pos rfl,
          spaceBeforeNames_true (head_not_blank hblanks.rest hd), (List.cons.inj hrest).2, hspace]
    · rfl

/-- Single spaces are kept. -/
theorem collapseBlanks_of_avoids (hblanks : blankWatch.Avoids on s) (hspaces : OnlySpaces s) :
    collapseBlanks on s = s := by
  induction s generalizing on with
  | nil => rfl
  | cons c r ih =>
    have hrest := ih hblanks.rest hspaces.tail
    change collapseBlanks (isBlank c) r = r at hrest
    unfold collapseBlanks
    split
    · rename_i hc
      rw [hc] at hrest
      rw [hrest, hspaces c List.mem_cons_self hc]
      split
      · rename_i hon
        exact absurd ((hblanks.first hon).symm.trans hc) Bool.false_ne_true
      · rfl
    · rename_i hc
      rw [Bool.eq_false_iff.mpr hc] at hrest
      rw [hrest]

end Watch

section Steps

variable {s : List Char}

theorem dropTags_eq (h : '<' ∉ s) : dropTags s = s := by
  unfold dropTags
  induction s with
  | nil => rfl
  | cons c r ih =>
    have hc : c ≠ '<' := fun hc => h (hc ▸ List.mem_cons_self)
    unfold dropTagsFrom
    rw [if_neg Bool.false_ne_true, beq_eq_false_iff_ne.mpr hc, Bool.false_and,
      if_neg Bool.false_ne_true, ih fun hr => h (List.mem_cons_of_mem c hr)]

theorem map_operatorOf (h : Plain s) : s.map operatorOf = s := by
  conv_rhs => rw [← List.map_id s]
  refine List.map_congr_left fun c hc => ?_
  have hne : ∀ d : Char, isWord d = false → d ∉ marks → c ≠ d := fun d hword hmark hcd =>
    h.not_mem hword hmark (hcd ▸ hc)
  unfold operatorOf
  rw [if_neg (hne '×' (by decide +kernel) (by decide)),
    if_neg (hne '÷' (by decide +kernel) (by decide)),
    if_neg (hne '−' (by decide +kernel) (by decide))]
  rfl

theorem dropCurrency_eq (h : Plain s) : dropCurrency s = s := by
  have hsigns : ∀ d ∈ currencySigns, isWord d = false ∧ d ∉ marks :=
    List.all_iff_forall_prop.mp (by decide +kernel)
  refine List.filter_eq_self.mpr fun c hc => ?_
  rw [Bool.not_eq_true', Bool.eq_false_iff]
  intro hcontains
  obtain ⟨hword, hmark⟩ := hsigns c (List.contains_iff_mem.mp hcontains)
  exact h.not_mem hword hmark hc

theorem dropEquals_eq (h : Plain s) : dropEquals s = s := by
  unfold dropEquals
  split
  · exact absurd List.mem_cons_self (h.not_mem (by decide) (by decide))
  · rfl

/-- A comma that a space follows belongs to no grouped number. -/
private theorem isGrouped_eq_false {run : List Char} (hrun : run.IsChain Adjacent)
    (hchars : ∀ c ∈ run, isDigitOrComma c = true) : isGrouped run = false := by
  have hgroups : (run.dropWhile isDigit).IsChain Adjacent :=
    hrun.suffix (List.dropWhile_suffix _)
  unfold isGrouped
  dsimp only
  cases hd : run.dropWhile isDigit with
  | nil => simp
  | cons g gs =>
    rw [hd] at hgroups
    have hg := head_dropWhile isDigit run g (by rw [hd]; rfl)
    have hcomma : g = ',' := by
      have hmem : g ∈ run := (List.dropWhile_suffix isDigit).subset (by rw [hd]; simp)
      have hchar := hchars g hmem
      unfold isDigitOrComma at hchar
      rw [hg, Bool.false_or] at hchar
      exact eq_of_beq hchar
    have hnone : isGroups (g :: gs) = false := by
      unfold isGroups
      split
      · rename_i heq
        exact absurd heq (by simp)
      · rename_i x y z rest heq
        obtain ⟨rfl, rfl⟩ := List.cons.inj heq
        have hx : x = ' ' := (List.isChain_cons_cons.mp hgroups).1.comma hcomma
        rw [hx]
        simp [show isDigit ' ' = false by decide]
      · rfl
    rw [hnone, Bool.and_false]

theorem ungroup_eq (h : s.IsChain Adjacent) : ungroup s = s := by
  have hfrom : ∀ around : Surroundings, ungroupFrom around false s = s := by
    induction s with
    | nil => exact fun _ => rfl
    | cons c r ih =>
      intro around
      have hrun : ((c :: r).takeWhile isDigitOrComma).IsChain Adjacent :=
        h.prefix (List.takeWhile_prefix _)
      have hgrouped := isGrouped_eq_false hrun fun d hd => List.mem_takeWhile_imp hd
      unfold ungroupFrom
      dsimp only
      rw [hgrouped, Bool.and_false, Bool.or_false, ite_self, Bool.false_and,
        if_neg Bool.false_ne_true, ih (List.isChain_cons.mp h).2]
  exact hfrom .start

theorem Tidy.avoids (h : Tidy s) : nameWatch.Avoids false s ∧ blankWatch.Avoids false s := by
  constructor
  · refine Watch.avoids_of_isChain h.adjacent (fun a b on hab hstep => ?_) nofun
    exact hab.word (Bool.and_eq_true_iff.mp hstep).1
  · exact Watch.avoids_of_isChain h.adjacent (fun a b on hab hstep => hab.blank hstep) nofun

theorem Tidy.onlySpaces (h : Tidy s) : OnlySpaces s := fun _ hc hblank => h.plain.blank hc hblank

theorem spaceAfterNames_eq (h : Tidy s) : spaceAfterNames false s = s :=
  spaceAfterNames_of_avoids h.avoids.1 h.avoids.2 h.onlySpaces

theorem collapseBlanks_eq (h : Tidy s) : collapseBlanks false s = s :=
  collapseBlanks_of_avoids h.avoids.2 h.onlySpaces

end Steps

end Reckoner.Formula
