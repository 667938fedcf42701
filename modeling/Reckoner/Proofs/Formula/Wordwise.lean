import Reckoner.Proofs.Formula.Breakdowns
import Reckoner.Proofs.Formula.DressedOutcome
import Reckoner.Proofs.Formula.Unreferenced

/-!
Substitution word by word. The words of a text are its longest runs of word characters. In a text
without line references each word is replaced or kept as a whole, by what it is and by what stands
right before and after it: neither the other names of the scope nor the order in which they are
tried play a part, and no word is looked for in the values that have been put in.
-/
namespace Reckoner.Formula

open Text Number

namespace Scope

/-- That a word stands for a value where it is: it is a known name, no point comes right before it,
and no parenthesis opens after it. -/
def StandsForValue (scope : Scope) (last : Option Char) (word rest : List Char) : Prop :=
  word ∈ Assoc.keys scope.named ++ scope.pending ∧ last ≠ some '.' ∧
    (rest.dropWhile isBlank).head? ≠ some '('

instance (scope : Scope) (last : Option Char) (word rest : List Char) :
    Decidable (scope.StandsForValue last word rest) :=
  inferInstanceAs (Decidable (_ ∧ _ ∧ _))

/-- The literal of a known name, which is zero while the name is pending. -/
def wordValue (scope : Scope) (word : List Char) : Except Breakdown (List Char) :=
  match Assoc.get? scope.named word with
  | some x => literal x
  | none => .ok ['0']

/-- Puts values in the places of the words of a text that stand for one. -/
def replaceWords (scope : Scope) (last : Option Char) :
    List (List Char) → Except Breakdown (List Char)
  | [] => .ok []
  | word :: later => do
    let value ←
      if scope.StandsForValue last word later.flatten then scope.wordValue word else .ok word
    let rest ← scope.replaceWords word.getLast? later
    return value ++ rest

variable {scope : Scope} {names : List (List Char)} {last : Option Char} {s w : List Char}

theorem nameLiteral_eq (scope : Scope) (word : List Char) :
    scope.nameLiteral word = scope.wordValue word := by
  unfold nameLiteral wordValue
  cases Assoc.get? scope.named word with
  | some x => rfl
  | none => exact literal_of_isZero isZero_zero

section Words

theorem replaceWords_taken {later : List (List Char)}
    (h : scope.StandsForValue last w later.flatten) :
    scope.replaceWords last (w :: later) = (scope.wordValue w).bind fun value =>
      (scope.replaceWords w.getLast? later).map fun rest => value ++ rest := by
  rw [replaceWords, if_pos h]
  cases scope.wordValue w with
  | error why => rfl
  | ok value => cases scope.replaceWords w.getLast? later <;> rfl

theorem replaceWords_kept {later : List (List Char)}
    (h : ¬ scope.StandsForValue last w later.flatten) :
    scope.replaceWords last (w :: later) =
      (scope.replaceWords w.getLast? later).map fun rest => w ++ rest := by
  rw [replaceWords, if_neg h]
  cases scope.replaceWords w.getLast? later <;> rfl

/-- No character but those of words is a name. -/
theorem not_standsForValue {c : Char} (h : scope.Identifiers) (hc : isWord c = false)
    (rest : List Char) : ¬ scope.StandsForValue last [c] rest := by
  rintro ⟨hmem, _, _⟩
  have hword := isWord_of_identifier (h [c] hmem) c List.mem_cons_self
  rw [hc] at hword
  exact Bool.false_ne_true hword

/-- Between words a name is found where a word stands for a value. -/
theorem nameAt?_of_word_boundary (hnames : ∀ n ∈ names, isIdentifier n = true)
    (hsame : ∀ n, n ∈ names ↔ n ∈ Assoc.keys scope.named ++ scope.pending)
    (hat : last ≠ some '@') (hlast : ∀ c ∈ last, isWord c = false)
    (hw : ∀ c ∈ w, isWord c = true) (hs : ∀ c ∈ s.head?, isWord c = false) :
    nameAt? names last (w ++ s) = if scope.StandsForValue last w s then some w else none := by
  have hallows : allowsNameAfter last = true ↔ last ≠ some '.' := by
    cases last with
    | none => simp [allowsNameAfter]
    | some c =>
      have hc : c ≠ '@' := fun h => hat (congrArg some h)
      simp [allowsNameAfter, hlast c rfl, hc]
  have hends : endsName s = true ↔ (s.dropWhile isBlank).head? ≠ some '(' := by
    rw [endsName_eq, startsWith_of_head hs]
    cases s.dropWhile isBlank <;> simp [startsWith]
  have hfound : nameAt? names last (w ++ s) =
      if last ≠ some '.' then
        if w ∈ names ∧ endsName s = true then some w else none
      else none := by
    split
    · rename_i hpoint
      exact nameAt?_word hnames (hallows.mpr hpoint) hw hs
    · rename_i hpoint
      unfold nameAt?
      exact if_neg fun h => hpoint (hallows.mp h)
  rw [hfound]
  unfold StandsForValue
  by_cases hpoint : last ≠ some '.' <;> simp [hpoint, hsame, hends]

end Words

/-- Names are replaced word by word, whichever way they are listed. -/
theorem substituteNames_words (h : scope.Identifiers)
    (hsame : ∀ n, n ∈ names ↔ n ∈ Assoc.keys scope.named ++ scope.pending) (hs : '@' ∉ s)
    (hat : last ≠ some '@')
    (hlast : ∀ c ∈ last, isWord c = true → ∀ d ∈ s.head?, isWord d = false) :
    scope.substituteNames names last 0 s = scope.replaceWords last (runs isWord s) := by
  have hnames : ∀ n ∈ names, isIdentifier n = true := fun n hn => h n ((hsame n).mp hn)
  induction s using runs_induct isWord generalizing last with
  | nil =>
    have hnone : nameAt? names last [] = none := nameAt?_of_head hnames (by simp)
    unfold substituteNames
    rw [hnone]
    rfl
  | other c s hc ih =>
    obtain ⟨hcat, hs⟩ := List.ne_and_not_mem_of_not_mem_cons hs
    have hstart : isNameStart c = false := by
      rw [Bool.eq_false_iff]
      intro hstart
      exact Bool.false_ne_true (hc.symm.trans (isWord_of_isNameStart hstart))
    have hnone : nameAt? names last (c :: s) = none :=
      nameAt?_of_head hnames fun d hd => by rwa [← Option.some.inj hd]
    have hrest : scope.substituteNames names (some c) 0 s = _ :=
      ih hs (fun hat => hcat (Option.some.inj hat).symm) (by simp [hc])
    rw [substituteNames_cons hnone, runs_cons hc, hrest,
      replaceWords_kept (not_standsForValue h hc _)]
    rfl
  | run w s hw hall hstop ih =>
    have hbefore := not_of_before_run hw hall hlast
    have hfound := nameAt?_of_word_boundary hnames hsame hat hbefore hall hstop
    have hlastWord : w.getLast? ≠ some '@' := by
      intro hlast
      have hword := hall '@' (List.mem_of_getLast? hlast)
      exact absurd hword (by decide)
    have hrest : scope.substituteNames names w.getLast? 0 s = _ :=
      ih s (Nat.le_refl _) (fun hmem => hs (List.mem_append_right w hmem)) hlastWord
        fun _ _ _ => hstop
    rw [runs_append_stop hw hall hstop]
    by_cases hvalue : scope.StandsForValue last w s
    · rw [if_pos hvalue] at hfound
      rw [substituteNames_taken hw hfound, lastOf_of_ne_nil hw, hrest, nameLiteral_eq,
        replaceWords_taken (by rwa [flatten_runs])]
    · rw [if_neg hvalue] at hfound
      rw [substituteNames_kept hw hall hfound, lastOf_of_ne_nil hw, hrest,
        replaceWords_kept (by rwa [flatten_runs])]

/-- Substitution in a text without line references replaces the words that stand for a value, all at
once, and keeps everything else. The order of the names does not matter, and finite values can
always be put in. -/
theorem substitute_words (h : scope.Identifiers) (hs : '@' ∉ s) :
    scope.substitute s = scope.replaceWords none (runs isWord s) ∧
      (∀ names, (∀ n, n ∈ names ↔ n ∈ scope.names) →
        scope.substituteNames names none 0 s = scope.substitute s) ∧
      (scope.NamedFinite → ∃ t, scope.substitute s = .ok t) := by
  have hsubstitute : scope.substitute s = scope.substituteNames scope.names none 0 s := by
    unfold substitute
    rw [substituteLines_unreferenced hs]
    rfl
  have hwords : ∀ names, (∀ n, n ∈ names ↔ n ∈ scope.names) →
      scope.substituteNames names none 0 s = scope.replaceWords none (runs isWord s) :=
    fun names hsame => substituteNames_words h (fun n => (hsame n).trans mem_names) hs
      (by simp) (by simp)
  have hfirst := hwords scope.names fun n => Iff.rfl
  refine ⟨hsubstitute.trans hfirst, fun names hsame => ?_, fun hfinite => ?_⟩
  · rw [hwords names hsame, hsubstitute, hfirst]
  · rw [hsubstitute]
    cases hresult : scope.substituteNames scope.names none 0 s with
    | ok t => exact ⟨t, rfl⟩
    | error b => exact absurd hresult (substituteNames_ne_error hfinite _ _ _)

/-- A scope in which one name begins another one and a third one is pending. -/
def taxScope : Scope := ⟨[("tax".toList, -2), ("taxRate".toList, 3)], [], ["due".toList]⟩

/-- A text in which known names also stand after a point, before a parenthesis and within a word. -/
def taxText : List Char := "taxRate*tax + 1.tax - due + tax (2) - taxes".toList

theorem substitute_taxText :
    taxScope.Identifiers ∧ '@' ∉ taxText ∧
      taxScope.substitute taxText = .ok "3*(-2) + 1.tax - 0 + tax (2) - taxes".toList := by
  have h : taxScope.Identifiers := List.all_iff_forall_prop.mp (by decide)
  have hs : '@' ∉ taxText := by decide
  refine ⟨h, hs, ?_⟩
  rw [(substitute_words h hs).1]
  exact eq_ok_of_toOption (by decide +kernel)

end Scope

end Reckoner.Formula
