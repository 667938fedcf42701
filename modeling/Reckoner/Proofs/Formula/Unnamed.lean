import Reckoner.Proofs.Formula.DressedValues
import Reckoner.Proofs.Formula.Sites
import Reckoner.Proofs.Text.Spans

/-!
Texts in which no known name stands. Substitution leaves them as they are, and neither do known
names stand in the texts between their parentheses. A round puts values in the places of calls, and
since a name may neither follow a word nor go on into a value, no name comes to stand in the text.
-/
namespace Reckoner.Formula

open Text Number Arith

/-- That no name is found in a text after `last`. -/
def Unnamed (names : List (List Char)) (last : Option Char) (t : List Char) : Prop :=
  ∀ front back, t = front ++ back → Scope.nameAt? names (Scope.lastOf last front) back = none

variable {names : List (List Char)} {last : Option Char} {a b q r s t u w : List Char} {c : Char}

section Names

/-- A name that stands nowhere after a mark stands nowhere at all. -/
theorem nameAt?_of_allowed {start : Option Char} (hstart : Scope.allowsNameAfter start = true)
    (h : Scope.nameAt? names start s = none) (last : Option Char) :
    Scope.nameAt? names last s = none := by
  unfold Scope.nameAt? at h ⊢
  rw [if_pos hstart] at h
  split
  · exact h
  · rfl

theorem endsName_append (hs : Stop s) (t : List Char) :
    Scope.endsName (t ++ s) = Scope.endsName t := by
  rw [endsName_eq, endsName_eq, opening_append hs]
  cases t with
  | nil =>
    have hword : startsWith isWord s = false := by
      cases s with
      | nil => rfl
      | cons c r => exact hs.word c rfl
    rw [List.nil_append, hword]
    rfl
  | cons c r => rfl

/-- What follows a text does not matter to the names in it, as long as no word and no call goes on. -/
theorem nameAt?_append (hnames : ∀ n ∈ names, isIdentifier n = true) (hs : Stop s)
    (last : Option Char) (t : List Char) :
    Scope.nameAt? names last (t ++ s) = Scope.nameAt? names last t := by
  have htake : (t ++ s).takeWhile isWord = t.takeWhile isWord := takeWhile_append_of_head hs.word t
  have hdrop : (t ++ s).dropWhile isWord = t.dropWhile isWord ++ s := by
    rw [List.dropWhile_append]
    split
    · rename_i hempty
      rw [List.isEmpty_iff.mp hempty, dropWhile_of_head hs.word]
      rfl
    · rfl
  rw [Scope.nameAt?_eq hnames, Scope.nameAt?_eq hnames, htake, hdrop, endsName_append hs]

end Names

section Unnamed

theorem Unnamed.append_right (h : Unnamed names last (s ++ t)) :
    Unnamed names (Scope.lastOf last s) t := by
  rintro front back rfl
  rw [← lastOf_append]
  exact h (s ++ front) back (List.append_assoc s front back).symm

theorem unnamed_nil (hnames : ∀ n ∈ names, isIdentifier n = true) : Unnamed names last [] := by
  intro front back h
  obtain ⟨_, rfl⟩ := List.append_eq_nil_iff.mp h.symm
  exact Scope.nameAt?_of_head hnames fun c hc => absurd hc (by simp)

theorem unnamed_cons : Unnamed names last (c :: r) ↔
    Scope.nameAt? names last (c :: r) = none ∧ Unnamed names (some c) r := by
  constructor
  · intro h
    refine ⟨h [] (c :: r) rfl, ?_⟩
    have hrest := Unnamed.append_right (s := [c]) h
    rwa [Scope.lastOf_cons] at hrest
  · rintro ⟨hfirst, hrest⟩ front back h
    cases front with
    | nil =>
      obtain rfl : c :: r = back := h
      exact hfirst
    | cons d front =>
      obtain ⟨rfl, rfl⟩ := List.cons.inj h
      rw [Scope.lastOf_cons]
      exact hrest front back rfl

/-- Only the first character of a text sees what stands before. -/
theorem Unnamed.after {start : Option Char} (hstart : Scope.allowsNameAfter start = true)
    (h : Unnamed names start t) (last : Option Char) : Unnamed names last t := by
  cases t with
  | nil =>
    intro front back hsplit
    obtain ⟨rfl, rfl⟩ := List.append_eq_nil_iff.mp hsplit.symm
    exact nameAt?_of_allowed hstart (h [] [] rfl) last
  | cons c r =>
    obtain ⟨hfirst, hrest⟩ := unnamed_cons.mp h
    exact unnamed_cons.mpr ⟨nameAt?_of_allowed hstart hfirst last, hrest⟩

theorem Unnamed.of_append (hnames : ∀ n ∈ names, isIdentifier n = true)
    (h : Unnamed names last (t ++ s)) (hs : Stop s) : Unnamed names last t := by
  rintro front back rfl
  have hat := h front (back ++ s) (List.append_assoc front back s)
  rwa [nameAt?_append hnames hs] at hat

/-- Text in which no name starts goes before and brings no name. -/
theorem unnamed_append (hnames : ∀ n ∈ names, isIdentifier n = true)
    (ht : ∀ c ∈ t, isNameStart c = false) (h : Unnamed names (Scope.lastOf last t) s) :
    Unnamed names last (t ++ s) := by
  induction t generalizing last with
  | nil => exact h
  | cons c t ih =>
    obtain ⟨hc, ht⟩ := List.forall_mem_cons.mp ht
    rw [Scope.lastOf_cons] at h
    refine unnamed_cons.mpr ⟨?_, ih ht h⟩
    exact Scope.nameAt?_of_head hnames fun d hd => by rwa [← Option.some.inj hd]

theorem stop_blanks (hs : ∀ c ∈ s, isBlank c = true) : Stop s := by
  refine ⟨fun c hc => ?_, fun c hc => ?_⟩
  · exact isWord_of_isBlank (hs c (List.mem_of_mem_head? hc))
  · rw [List.dropWhile_eq_nil_iff.mpr hs] at hc
    exact absurd hc (by simp)

theorem Unnamed.append_blanks (hnames : ∀ n ∈ names, isIdentifier n = true)
    (h : Unnamed names last t) (hs : ∀ c ∈ s, isBlank c = true) : Unnamed names last (t ++ s) := by
  intro front back hsplit
  rcases List.append_eq_append_iff.mp hsplit with ⟨x, rfl, rfl⟩ | ⟨x, rfl, rfl⟩
  · refine Scope.nameAt?_of_head hnames fun c hc => ?_
    have hblank := hs c (List.mem_append_right x (List.mem_of_mem_head? hc))
    exact isNameStart_of_not_operand (isOperandChar_of_isBlank hblank)
  · rw [nameAt?_append hnames (stop_blanks hs)]
    exact h front x rfl

/-- No name stands between parentheses when none stands in the whole text. -/
theorem Unnamed.inside (hnames : ∀ n ∈ names, isIdentifier n = true)
    (h : Unnamed names last (s ++ '(' :: a ++ ')' :: b)) : Unnamed names none a := by
  have hsplit : s ++ '(' :: a ++ ')' :: b = (s ++ ['(']) ++ (a ++ ')' :: b) := by simp
  have hend : Scope.lastOf last (s ++ ['(']) = some '(' := by
    unfold Scope.lastOf
    rw [List.getLast?_concat]
    rfl
  rw [hsplit] at h
  have hrest := h.append_right
  rw [hend] at hrest
  have hstop : Stop (')' :: b) := stop_mark (by decide) (by decide) (by decide) b
  exact (hrest.of_append hnames hstop).after (by decide) none

theorem Unnamed.trim (hnames : ∀ n ∈ names, isIdentifier n = true) (h : Unnamed names none t) :
    Unnamed names none (Text.trim t) := by
  obtain ⟨before, after, hsplit, hbefore, hafter⟩ := exists_around_trim t
  rw [hsplit, List.append_assoc] at h
  have hinner := h.append_right.of_append hnames (stop_blanks hafter)
  cases before using List.reverseRecOn with
  | nil => exact hinner
  | append_singleton before c _ =>
    have hend : Scope.lastOf none (before ++ [c]) = some c := by
      unfold Scope.lastOf
      rw [List.getLast?_concat]
      rfl
    rw [hend] at hinner
    refine hinner.after (allowsNameAfter_of_not_operand fun d hd => ?_) none
    rw [← Option.some.inj hd]
    exact isOperandChar_of_isBlank (hbefore c (by simp))

/-- Where no name stands nothing is substituted. -/
theorem substituteNames_of_unnamed {scope : Scope} (hnames : ∀ n ∈ names, isIdentifier n = true)
    (h : Unnamed names last t) : scope.substituteNames names last 0 t = .ok t := by
  induction t generalizing last with
  | nil =>
    have hnone := h [] [] rfl
    have hnone : ¬ (0 = 0 ∧ Scope.nameAt? names last [] = some []) := by
      rw [Scope.nameAt?_of_head hnames (by simp)]
      simp
    rw [Scope.substituteNames, if_neg hnone]
  | cons c r ih =>
    obtain ⟨hfirst, hrest⟩ := unnamed_cons.mp h
    rw [Scope.substituteNames_cons hfirst, ih hrest]
    rfl

end Unnamed

end Reckoner.Formula
