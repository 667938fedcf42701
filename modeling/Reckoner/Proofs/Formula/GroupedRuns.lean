import Mathlib.Data.List.DropRight
import Reckoner.Proofs.Formula.CallCommas

/-!
The grouped numbers of any text. A text is cut into its longest runs of digits and commas and its
other characters. The commas go from the runs that are numbers in groups, follow no point and start
outside the parentheses of all calls; everything else is kept. Without these commas words may grow at
their beginning, and a parenthesis may become that of a call, but no call is lost. So the runs that
keep their commas keep them when the grouped numbers are joined again.
-/
namespace Reckoner.Formula

open Text Number

variable {around other : Surroundings} {s t : List Char} {c : Char} {e : Nat}

/-- The word at the end of a text, which spaces may follow. -/
def endWord (t : List Char) : List Char := (t.rdropWhile (· == ' ')).rtakeWhile isWord

/-- That a text ends in a name and not in a number. -/
def EndsInName (t : List Char) : Prop :=
  ∃ c ∈ (endWord t).head?, (isAlphabetic c || c == '_') = true

/-- That the parenthesis after some text is still open at the end, with as many others open in it. -/
def OpenAfter (front t : List Char) (others : Nat) : Prop :=
  ∃ inner, t = front ++ '(' :: inner ∧ depthThrough 0 inner = some others

/-- That a parenthesis of a call is still open at the end of a text. -/
def InsideCall (t : List Char) : Prop :=
  ∃ front others, OpenAfter front t others ∧ EndsInName front

/-- That the commas of a run part its digits in groups of thousands. -/
def Separable (before run : List Char) : Prop :=
  before.getLast? ≠ some '.' ∧ (∃ digits, AllDigits digits ∧ Grouping digits run) ∧
    ¬ InsideCall before

section Words

theorem endWord_space (t : List Char) : endWord (t ++ [' ']) = endWord t := by
  unfold endWord
  rw [List.rdropWhile_concat_pos (p := (· == ' ')) _ _ rfl]

/-- After spaces a word begins anew, and otherwise it goes on. -/
theorem endWord_word (hc : isWord c = true) (t : List Char) :
    endWord (t ++ [c]) = if t.getLast? = some ' ' then [c] else endWord t ++ [c] := by
  have hspace : c ≠ ' ' := by
    rintro rfl
    exact absurd hc (by decide)
  unfold endWord
  rw [List.rdropWhile_concat_neg (p := (· == ' ')) _ _ (by simpa using hspace),
    List.rtakeWhile_concat_pos _ _ _ hc]
  split
  · rename_i hlast
    obtain ⟨front, rfl⟩ := List.getLast?_eq_some_iff.mp hlast
    rw [List.rtakeWhile_concat_neg _ _ _ (by decide)]
    rfl
  · rename_i hlast
    rw [List.rdropWhile_eq_self_iff.mpr]
    intro hne
    rw [List.getLast?_eq_some_getLast hne] at hlast
    simpa using hlast

theorem endWord_stop (hc : isWord c = false) (hspace : c ≠ ' ') (t : List Char) :
    endWord (t ++ [c]) = [] := by
  unfold endWord
  rw [List.rdropWhile_concat_neg (p := (· == ' ')) _ _ (by simpa using hspace),
    List.rtakeWhile_concat_neg _ _ _ (by simp [hc])]

namespace Surroundings

theorem after_concat (around : Surroundings) (t : List Char) (c : Char) :
    around.after (t ++ [c]) = (around.after t).advance c := after_append around t [c]

/-- Whether a word goes on with the next word character. -/
def inWord (around : Surroundings) : Bool := around.word.isSome && !around.spaced

theorem advance_word (around : Surroundings) (hc : isWord c = true) :
    (around.advance c).word = (if around.inWord then around.word else some c) ∧
      (around.advance c).spaced = false := by
  unfold advance inWord
  rw [if_pos hc]
  refine ⟨?_, rfl⟩
  cases around.spaced <;> cases around.word <;> rfl

theorem advance_space (around : Surroundings) :
    (around.advance ' ').word = around.word ∧ (around.advance ' ').spaced = true := by
  unfold advance
  rw [if_neg (by decide), if_pos rfl]
  exact ⟨rfl, rfl⟩

theorem advance_stop (around : Surroundings) (hc : isWord c = false) (hspace : c ≠ ' ') :
    (around.advance c).word = none ∧ (around.advance c).spaced = false := by
  unfold advance
  rw [hc, if_neg Bool.false_ne_true, if_neg hspace]
  exact ⟨rfl, rfl⟩

theorem last_after (t : List Char) : (start.after t).last = t.getLast? := by
  induction t using List.reverseRecOn with
  | nil => rfl
  | append_singleton t c _ => rw [after_concat, advance_last, List.getLast?_concat]

theorem spaced_after (t : List Char) : (start.after t).spaced = (t.getLast? == some ' ') := by
  induction t using List.reverseRecOn with
  | nil => rfl
  | append_singleton t c _ =>
    rw [after_concat, List.getLast?_concat]
    by_cases hspace : c = ' '
    · rw [hspace, (advance_space _).2]
      rfl
    have hlast : (some c == some ' ') = false := by simpa using hspace
    rw [hlast]
    cases hword : isWord c with
    | true => exact (advance_word _ hword).2
    | false => exact (advance_stop _ hword hspace).2

/-- The scan knows the word before by its first character. -/
theorem word_after (t : List Char) : (start.after t).word = (endWord t).head? := by
  induction t using List.reverseRecOn with
  | nil => rfl
  | append_singleton t c ih =>
    rw [after_concat]
    by_cases hspace : c = ' '
    · rw [hspace, endWord_space, (advance_space _).1]
      exact ih
    cases hword : isWord c with
    | false =>
      rw [endWord_stop hword hspace, (advance_stop _ hword hspace).1]
      rfl
    | true =>
      rw [endWord_word hword, (advance_word _ hword).1]
      unfold inWord
      rw [spaced_after, ih]
      by_cases hlast : t.getLast? = some ' '
      · simp [hlast]
      · cases hend : endWord t <;> simp [hlast]

theorem followsName_after_start_iff : (start.after t).followsName = true ↔ EndsInName t := by
  unfold followsName EndsInName
  rw [word_after]
  cases (endWord t).head? <;> simp

end Surroundings

end Words

section Parens

theorem openAfter_concat {front : List Char} : OpenAfter front (t ++ [c]) e ↔
    (c = '(' ∧ e = 0 ∧ front = t) ∨ ∃ d, OpenAfter front t d ∧ depthThrough d [c] = some e := by
  constructor
  · rintro ⟨inner, hsplit, hdepth⟩
    cases inner using List.reverseRecOn with
    | nil =>
      obtain ⟨rfl, hc⟩ := List.append_inj' hsplit rfl
      obtain rfl : c = '(' := (List.cons.inj hc).1
      exact Or.inl ⟨rfl, (Option.some.inj hdepth).symm, rfl⟩
    | append_singleton inner d _ =>
      rw [← List.cons_append, ← List.append_assoc] at hsplit
      obtain ⟨rfl, hc⟩ := List.append_inj' hsplit rfl
      obtain rfl : c = d := (List.cons.inj hc).1
      rw [depthThrough_append] at hdepth
      obtain ⟨d, hinner, hlast⟩ := Option.bind_eq_some_iff.mp hdepth
      exact Or.inr ⟨d, ⟨inner, rfl, hinner⟩, hlast⟩
  · rintro (⟨rfl, rfl, rfl⟩ | ⟨d, ⟨inner, rfl, hinner⟩, hlast⟩)
    · exact ⟨[], rfl, rfl⟩
    · refine ⟨inner ++ [c], by simp, ?_⟩
      rw [depthThrough_append, hinner]
      exact hlast

namespace Surroundings

/-- A character opens a parenthesis, closes the last one or leaves them all open. -/
theorem parens_advance_iff {b : Bool} : (around.advance c).parens[e]? = some b ↔
    (c = '(' ∧ e = 0 ∧ around.followsName = b) ∨
      ∃ d : Nat, around.parens[d]? = some b ∧ depthThrough d [c] = some e := by
  rw [advance_parens_eq]
  by_cases hopen : c = '('
  · subst hopen
    cases e with
    | zero => simp [depthThrough]
    | succ e => simp [depthThrough]
  by_cases hclose : c = ')'
  · subst hclose
    rw [if_neg hopen, if_pos rfl, List.getElem?_tail]
    constructor
    · exact fun h => Or.inr ⟨e + 1, h, rfl⟩
    · rintro (⟨h, _⟩ | ⟨d, h, hdepth⟩)
      · exact absurd h hopen
      · cases d with
        | zero => exact absurd hdepth (by simp [depthThrough])
        | succ d =>
          obtain rfl : d = e := Option.some.inj hdepth
          exact h
  · rw [if_neg hopen, if_neg hclose]
    simp [depthThrough, hopen, hclose]

/-- The parentheses that the scan knows are those that are open. -/
theorem parens_after_iff {b : Bool} : (start.after t).parens[e]? = some b ↔
    ∃ front, OpenAfter front t e ∧ (start.after front).followsName = b := by
  induction t using List.reverseRecOn generalizing e with
  | nil =>
    refine ⟨fun h => absurd h (by simp [after, start]), ?_⟩
    rintro ⟨front, ⟨inner, hsplit, _⟩, _⟩
    exact absurd hsplit (by simp)
  | append_singleton t c ih =>
    rw [after_concat, parens_advance_iff]
    simp only [openAfter_concat, ih]
    constructor
    · rintro (⟨hc, he, hname⟩ | ⟨d, ⟨front, hopen, hname⟩, hlast⟩)
      · exact ⟨t, Or.inl ⟨hc, he, rfl⟩, hname⟩
      · exact ⟨front, Or.inr ⟨d, hopen, hlast⟩, hname⟩
    · rintro ⟨front, ⟨hc, he, rfl⟩ | ⟨d, hopen, hlast⟩, hname⟩
      · exact Or.inl ⟨hc, he, hname⟩
      · exact Or.inr ⟨d, ⟨front, hopen, hname⟩, hlast⟩

theorem insideCall_after_iff : (start.after t).insideCall = true ↔ InsideCall t := by
  unfold insideCall InsideCall
  rw [List.any_eq_true]
  simp only [List.mem_iff_getElem?, parens_after_iff, id]
  constructor
  · rintro ⟨b, ⟨e, front, hopen, hname⟩, rfl⟩
    exact ⟨front, e, hopen, followsName_after_start_iff.mp hname⟩
  · rintro ⟨front, e, hopen, hname⟩
    exact ⟨true, ⟨e, front, hopen, followsName_after_start_iff.mpr hname⟩, rfl⟩

end Surroundings

end Parens

section Grouped

theorem exists_groups (h : isGroups t = true) : ∃ groups : List (List Char),
    (∀ g ∈ groups, g.length = 3 ∧ AllDigits g) ∧ t = groups.flatMap fun g => ',' :: g := by
  fun_induction isGroups t with
  | case1 => exact ⟨[], by simp, rfl⟩
  | case2 c x y z rest ih =>
    simp only [Bool.and_eq_true, beq_iff_eq] at h
    obtain ⟨⟨⟨⟨rfl, hx⟩, hy⟩, hz⟩, hrest⟩ := h
    obtain ⟨groups, hgroups, rfl⟩ := ih hrest
    refine ⟨[x, y, z] :: groups, List.forall_mem_cons.mpr ⟨⟨rfl, ?_⟩, hgroups⟩, rfl⟩
    intro d hd
    simp only [List.mem_cons, List.not_mem_nil, or_false] at hd
    rcases hd with rfl | rfl | rfl
    · exact hx
    · exact hy
    · exact hz
  | case3 => exact absurd h Bool.false_ne_true

/-- The runs that the scan joins are the digits that are set in groups. -/
theorem isGrouped_iff : isGrouped t = true ↔ ∃ digits, AllDigits digits ∧ Grouping digits t := by
  constructor
  · intro h
    unfold isGrouped at h
    simp only [Bool.and_eq_true, decide_eq_true_eq, Bool.not_eq_true', List.isEmpty_eq_false_iff] at h
    obtain ⟨⟨⟨hleast, hmost⟩, hne⟩, hgroups⟩ := h
    obtain ⟨groups, hthree, hflat⟩ := exists_groups hgroups
    refine ⟨t.takeWhile isDigit ++ groups.flatten, ?_, t.takeWhile isDigit, groups, hleast, hmost,
      ?_, fun g hg => (hthree g hg).1, rfl, ?_⟩
    · intro c hc
      rcases List.mem_append.mp hc with hc | hc
      · exact List.mem_takeWhile_imp hc
      · obtain ⟨g, hg, hc⟩ := List.mem_flatten.mp hc
        exact (hthree g hg).2 c hc
    · rintro rfl
      exact hne hflat
    · rw [← hflat, List.takeWhile_append_dropWhile]
  · rintro ⟨digits, hdigits, hgrouping⟩
    exact hgrouping.isGrouped hdigits

/-- Whether a grouped number starts at the beginning of a text. -/
def startsGrouped (around : Surroundings) (t : List Char) : Bool :=
  around.allowsNumber && !around.insideCall && isGrouped (t.takeWhile isDigitOrComma)

theorem startsGrouped_other (hc : isDigitOrComma c = false) (around : Surroundings) (r : List Char) :
    startsGrouped around (c :: r) = false := by
  unfold startsGrouped
  rw [takeWhile_cons_of_false hc]
  exact Bool.and_false _

theorem allowsNumber_advance (around : Surroundings) (c : Char) :
    (around.advance c).allowsNumber = !(isDigitOrComma c || c == '.') := by
  unfold Surroundings.allowsNumber
  rw [advance_last]

/-- That no grouped number starts anywhere in a text. -/
inductive Ungrouped : Surroundings → List Char → Prop
  | nil {around : Surroundings} : Ungrouped around []
  | cons {around : Surroundings} {c : Char} {r : List Char} :
      startsGrouped around (c :: r) = false → Ungrouped (around.advance c) r →
        Ungrouped around (c :: r)

theorem Ungrouped.first (h : Ungrouped around (c :: t)) : startsGrouped around (c :: t) = false := by
  cases h with
  | cons hfirst _ => exact hfirst

theorem Ungrouped.rest (h : Ungrouped around (c :: t)) : Ungrouped (around.advance c) t := by
  cases h with
  | cons _ hrest => exact hrest

theorem Ungrouped.kept (h : Ungrouped around t) : ungroupFrom around false t = t := by
  induction h with
  | nil => rfl
  | cons hfirst _ ih => rw [ungroupFrom_kept hfirst, ih]

/-- In the rest of a run no grouped number starts. -/
theorem Ungrouped.joined (hallowed : around.allowsNumber = false)
    (ht : ∀ c ∈ t, isDigitOrComma c = true) (hs : Ungrouped (around.after t) s) :
    Ungrouped around (t ++ s) := by
  induction t generalizing around with
  | nil => exact hs
  | cons c t ih =>
    obtain ⟨hc, ht⟩ := List.forall_mem_cons.mp ht
    refine .cons ?_ (ih ?_ ht hs)
    · unfold startsGrouped
      rw [hallowed]
      rfl
    · rw [allowsNumber_advance, hc]
      rfl

theorem Ungrouped.run (hstart : startsGrouped around (t ++ s) = false)
    (ht : ∀ c ∈ t, isDigitOrComma c = true) (hs : Ungrouped (around.after t) s) :
    Ungrouped around (t ++ s) := by
  cases t with
  | nil => exact hs
  | cons c t =>
    obtain ⟨hc, ht⟩ := List.forall_mem_cons.mp ht
    refine .cons hstart (.joined ?_ ht hs)
    rw [allowsNumber_advance, hc]
    rfl

/-- A run of digits and commas loses its commas if it is a grouped number, and is kept otherwise. -/
theorem ungroupFrom_run (ht : ∀ c ∈ t, isDigitOrComma c = true)
    (hs : ∀ c ∈ s.head?, isDigitOrComma c = false) :
    ungroupFrom around false (t ++ s) =
      (if startsGrouped around t = true then t.filter (· != ',') else t) ++
        ungroupFrom (around.after t) false s := by
  by_cases hstart : startsGrouped around t = true
  · rw [if_pos hstart]
    simp only [startsGrouped, Bool.and_eq_true, Bool.not_eq_true'] at hstart
    obtain ⟨⟨hallowed, hinside⟩, hgrouped⟩ := hstart
    rw [List.takeWhile_eq_self_iff.mpr ht] at hgrouped
    obtain ⟨digits, hdigits, hgrouping⟩ := isGrouped_iff.mp hgrouped
    rw [ungroupFrom_grouping hgrouping hdigits hallowed hinside hs, hgrouping.filter hdigits]
  · have hstart : startsGrouped around (t ++ []) = false := by
      rw [List.append_nil]
      exact Bool.eq_false_iff.mpr hstart
    have hkept := (Ungrouped.run hstart ht .nil).kept
    rw [List.append_nil] at hstart hkept
    rw [ungroupFrom_append hs, hkept, hstart, if_neg Bool.false_ne_true]

end Grouped

section Runs

instance (t : List Char) : Decidable (InsideCall t) :=
  decidable_of_iff _ Surroundings.insideCall_after_iff

instance (before run : List Char) : Decidable (Separable before run) :=
  have : Decidable (∃ digits, AllDigits digits ∧ Grouping digits run) :=
    decidable_of_iff _ isGrouped_iff
  inferInstanceAs (Decidable (_ ∧ _ ∧ _))

/-- Takes the commas out of the runs of a text whose commas part thousands. -/
def dropSeparators (before : List Char) : List (List Char) → List Char
  | [] => []
  | run :: later =>
    (if Separable before run then run.filter (· != ',') else run) ++
      dropSeparators (before ++ run) later

/-- Where a run begins the scan and the description of what it removes agree. -/
theorem startsGrouped_iff (hbefore : ∀ c ∈ s.getLast?, isDigitOrComma c = false)
    (ht : ∀ c ∈ t, isDigitOrComma c = true) :
    startsGrouped (Surroundings.start.after s) t = true ↔ Separable s t := by
  have hallowed : (Surroundings.start.after s).allowsNumber = true ↔ s.getLast? ≠ some '.' := by
    unfold Surroundings.allowsNumber
    rw [Surroundings.last_after]
    cases hlast : s.getLast? with
    | none => simp
    | some c => simp [hbefore c hlast]
  unfold startsGrouped Separable
  rw [List.takeWhile_eq_self_iff.mpr ht, ← hallowed, ← isGrouped_iff,
    ← Surroundings.insideCall_after_iff]
  simp only [Bool.and_eq_true, Bool.not_eq_true', Bool.not_eq_true]
  tauto

theorem ungroupFrom_runs {before : List Char}
    (hbefore : ∀ c ∈ before.getLast?, isDigitOrComma c = true →
      ∀ d ∈ s.head?, isDigitOrComma d = false) :
    ungroupFrom (Surroundings.start.after before) false s =
      dropSeparators before (runs isDigitOrComma s) := by
  induction s using runs_induct isDigitOrComma generalizing before with
  | nil => rfl
  | other c s hc ih =>
    have hkept : ¬ Separable before [c] := by
      rintro ⟨_, ⟨digits, hdigits, hgrouping⟩, _⟩
      have hchar := hgrouping.digits_or_commas hdigits c List.mem_cons_self
      rw [hc] at hchar
      exact Bool.false_ne_true hchar
    have hrest : ungroupFrom (Surroundings.start.after (before ++ [c])) false s = _ :=
      ih (by simp [hc])
    rw [Surroundings.after_concat] at hrest
    rw [ungroupFrom_other hc, runs_cons hc, dropSeparators, if_neg hkept, hrest]
    rfl
  | run t s hne ht hs ih =>
    have hlast := not_of_before_run hne ht hbefore
    have hrest : ungroupFrom (Surroundings.start.after (before ++ t)) false s = _ :=
      ih s (Nat.le_refl _) fun _ _ _ => hs
    rw [Surroundings.after_append] at hrest
    rw [ungroupFrom_run ht hs, runs_append_stop hne ht hs, dropSeparators, hrest]
    simp only [startsGrouped_iff hlast ht]

end Runs

section Again

namespace Surroundings

theorem inWord_advance (around : Surroundings) (c : Char) : (around.advance c).inWord = isWord c := by
  cases hword : isWord c with
  | true =>
    unfold inWord
    rw [(advance_word around hword).1, (advance_word around hword).2]
    unfold inWord
    cases around.spaced <;> cases around.word <;> rfl
  | false =>
    unfold inWord
    by_cases hspace : c = ' '
    · rw [hspace, (advance_space around).2, Bool.not_true, Bool.and_false]
    · rw [(advance_stop around hword hspace).1]
      rfl

/-- Surroundings that know of all calls that others know of, and of the same words and numbers. -/
structure Covers (around other : Surroundings) : Prop where
  parens : List.Forall₂ (fun a b => b = true → a = true) around.parens other.parens
  name : other.followsName = true → around.followsName = true
  inWord : around.inWord = other.inWord
  number : around.allowsNumber = other.allowsNumber

theorem Covers.refl (around : Surroundings) : Covers around around :=
  ⟨List.forall₂_same.mpr fun _ _ => id, id, rfl, rfl⟩

theorem Covers.insideCall (h : Covers around other) (hinside : other.insideCall = true) :
    around.insideCall = true := by
  have hany : ∀ {p q : List Bool}, List.Forall₂ (fun a b => b = true → a = true) p q →
      q.any id = true → p.any id = true := by
    intro p q hparens hq
    induction hparens with
    | nil => exact hq
    | cons hfirst _ ih =>
      rw [List.any_cons, Bool.or_eq_true] at hq ⊢
      exact hq.imp hfirst ih
  exact hany h.parens hinside

/-- The character that comes next is the same, so a word goes on in both or begins in both. -/
theorem Covers.name_advance (h : Covers around other) (c : Char)
    (hname : (other.advance c).followsName = true) : (around.advance c).followsName = true := by
  unfold followsName at hname ⊢
  cases hword : isWord c with
  | true =>
    rw [(advance_word _ hword).1] at hname ⊢
    rw [h.inWord]
    by_cases hin : other.inWord = true
    · rw [if_pos hin] at hname ⊢
      exact h.name hname
    · rw [if_neg hin] at hname ⊢
      exact hname
  | false =>
    by_cases hspace : c = ' '
    · subst hspace
      rw [(advance_space _).1] at hname ⊢
      exact h.name hname
    · rw [(advance_stop _ hword hspace).1] at hname
      exact absurd hname Bool.false_ne_true

theorem Covers.advance (h : Covers around other) (c : Char) :
    Covers (around.advance c) (other.advance c) := by
  refine ⟨?_, h.name_advance c, ?_, ?_⟩
  · rw [advance_parens_eq, advance_parens_eq]
    split
    · exact .cons h.name h.parens
    · split
      · simpa only [List.drop_one] using List.forall₂_drop 1 h.parens
      · exact h.parens
  · rw [inWord_advance, inWord_advance]
  · rw [allowsNumber_advance, allowsNumber_advance]

theorem Covers.after (h : Covers around other) (t : List Char) :
    Covers (around.after t) (other.after t) := by
  induction t generalizing around other with
  | nil => exact h
  | cons c t ih => exact ih (h.advance c)

end Surroundings

open Surroundings

/-- Where no grouped number starts none starts for a scan that knows of more calls. -/
theorem startsGrouped_of_covers (h : Covers around other) (hother : startsGrouped other t = false) :
    startsGrouped around t = false := by
  unfold startsGrouped at hother ⊢
  rw [h.number]
  cases hinside : other.insideCall with
  | true => rw [h.insideCall hinside, Bool.not_true, Bool.and_false, Bool.false_and]
  | false =>
    rw [hinside, Bool.not_false, Bool.and_true] at hother
    rw [Bool.and_right_comm, hother, Bool.false_and]

/-- A word that begins with a digit is no name, so a parenthesis after a grouped number opens no
call. -/
theorem followsName_after_commas (ht : ∀ c ∈ t, isDigitOrComma c = true) (hcomma : ',' ∈ t) :
    (around.after t).followsName = false := by
  have hdigits : ∀ {t : List Char} {around : Surroundings}, (∀ c ∈ t, isDigitOrComma c = true) →
      (∀ c ∈ around.word, isDigit c = true) → ∀ c ∈ (around.after t).word, isDigit c = true := by
    intro t
    induction t with
    | nil => exact fun _ hword => hword
    | cons d t ih =>
      intro around ht hword
      obtain ⟨hd, ht⟩ := List.forall_mem_cons.mp ht
      refine ih ht ?_
      intro c hc
      rcases Bool.or_eq_true_iff.mp hd with hdigit | hd
      · rw [(advance_word _ (isWord_of_isDigit hdigit)).1] at hc
        split at hc
        · exact hword c hc
        · exact Option.some.inj hc ▸ hdigit
      · obtain rfl := eq_of_beq hd
        rw [(advance_stop _ (by decide) (by decide)).1] at hc
        exact absurd hc (by simp)
  obtain ⟨front, rest, rfl⟩ := List.append_of_mem hcomma
  have hnone : ((around.after front).advance ',').word = none :=
    (advance_stop _ (by decide) (by decide)).1
  have hword : ∀ c ∈ (((around.after front).advance ',').after rest).word, isDigit c = true :=
    hdigits (fun c hc => ht c (List.mem_append_right front (List.mem_cons_of_mem ',' hc)))
      (by simp [hnone])
  rw [Surroundings.after_append, after_cons]
  unfold followsName
  cases hlast : (((around.after front).advance ',').after rest).word with
  | none => rfl
  | some c =>
    have hc := hword c hlast
    have hunder : c ≠ '_' := by
      rintro rfl
      exact absurd hc (by decide)
    change (isAlphabetic c || c == '_') = false
    rw [isAlphabetic_of_isDigit hc, beq_eq_false_iff_ne.mpr hunder]
    rfl

/-- After a grouped number without its commas all calls are known that were known after it. -/
theorem covers_grouped (h : Covers around other) (ht : ∀ c ∈ t, isDigitOrComma c = true)
    (hgrouped : isGrouped t = true) :
    Covers (around.after (t.filter (· != ','))) (other.after t) := by
  have hparens : ∀ c ∈ t, c ≠ '(' ∧ c ≠ ')' := by
    intro c hc
    have hchar := ht c hc
    constructor <;>
    · rintro rfl
      exact absurd hchar (by decide)
  have hcomma : ',' ∈ t := by
    by_contra hcomma
    rw [isGrouped_digits hcomma ht] at hgrouped
    exact Bool.false_ne_true hgrouped
  obtain ⟨front, d, rfl⟩ := (List.eq_nil_or_concat' t).resolve_left (List.ne_nil_of_mem hcomma)
  have hd : d ≠ ',' := getLast?_of_isGrouped hgrouped d (List.getLast?_concat ..)
  have hfilter : (front ++ [d]).filter (· != ',') = front.filter (· != ',') ++ [d] := by
    rw [List.filter_append, List.filter_cons_of_pos (by simpa using hd), List.filter_nil]
  refine ⟨?_, ?_, ?_, ?_⟩
  · rw [after_parens hparens, after_parens fun c hc => hparens c (List.mem_filter.mp hc).1]
    exact h.parens
  · intro hname
    rw [followsName_after_commas ht hcomma] at hname
    exact absurd hname Bool.false_ne_true
  · rw [hfilter, after_concat, after_concat, inWord_advance, inWord_advance]
  · rw [hfilter, after_concat, after_concat, allowsNumber_advance, allowsNumber_advance]

theorem head_ungroupFrom (hs : ∀ c ∈ s.head?, isDigitOrComma c = false) :
    ∀ c ∈ (ungroupFrom around false s).head?, isDigitOrComma c = false := by
  cases s with
  | nil => exact hs
  | cons c s =>
    rw [ungroupFrom_other (hs c rfl)]
    exact hs

/-- In a text whose grouped numbers have been joined no grouped number starts. -/
theorem ungrouped_ungroupFrom (h : Covers around other) (s : List Char) :
    Ungrouped around (ungroupFrom other false s) := by
  induction s using runs_induct isDigitOrComma generalizing around other with
  | nil => exact .nil
  | other c s hc ih =>
    rw [ungroupFrom_other hc]
    exact .cons (startsGrouped_other hc around _) (ih (h.advance c))
  | run t s hne ht hs ih =>
    have hhead : ∀ c ∈ (ungroupFrom (other.after t) false s).head?, isDigitOrComma c = false :=
      head_ungroupFrom hs
    rw [ungroupFrom_run ht hs]
    by_cases hstart : startsGrouped other t = true
    · have hgrouped := (Bool.and_eq_true_iff.mp hstart).2
      rw [List.takeWhile_eq_self_iff.mpr ht] at hgrouped
      have hdigits : ∀ c ∈ t.filter (· != ','), isDigitOrComma c = true := fun c hc =>
        ht c (List.mem_filter.mp hc).1
      rw [if_pos hstart]
      refine .run ?_ hdigits (ih s (Nat.le_refl _) (covers_grouped h ht hgrouped))
      unfold startsGrouped
      rw [takeWhile_append_stop hdigits hhead, isGrouped_digits (by simp) hdigits, Bool.and_false]
    · rw [if_neg hstart]
      refine .run (startsGrouped_of_covers h ?_) ht (ih s (Nat.le_refl _) (h.after t))
      unfold startsGrouped at hstart ⊢
      rw [List.takeWhile_eq_self_iff.mpr ht] at hstart
      rw [takeWhile_append_stop ht hhead]
      exact Bool.eq_false_iff.mpr hstart

/-- Exactly the commas of the runs that are numbers in groups are removed, and the text that remains
has no such run any more. -/
theorem ungroup_runs (s : List Char) :
    ungroup s = dropSeparators [] (runs isDigitOrComma s) ∧ ungroup (ungroup s) = ungroup s := by
  have hruns : ungroupFrom (Surroundings.start.after []) false s =
      dropSeparators [] (runs isDigitOrComma s) := ungroupFrom_runs (by simp)
  exact ⟨hruns, (ungrouped_ungroupFrom (.refl .start) s).kept⟩

/-- Without its commas a number may become part of a name, and the parenthesis after it that of a
call. -/
example : ungroup "x1,234(5,678)".toList = "x1234(5678)".toList ∧
    ungroup "x1234(5,678)".toList = "x1234(5,678)".toList := by decide +kernel

end Again

end Reckoner.Formula
