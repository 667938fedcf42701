import Reckoner.Proofs.Formula.DressedLayout
import Reckoner.Proofs.Formula.Evaluated

/-!
Spacing and values. The value of a text without calls depends on its segments only, as long as its
white space is spaces: what is read from one text is read from any other with the same segments.
-/
namespace Reckoner.Formula

open Text Number Arith

variable {s t w : List Char} {ts : List Token} {x : Float} {e : Expr}

section Tokens

/-- A text with the segments of tokens is a sequence of these tokens. -/
theorem lexed_of_segments (h : segments s = ts.map segmentOf) (hs : OnlySpaces s)
    (hliteral : ∀ literal, .number literal ∈ ts → IsLiteral literal)
    (hlegal : ∀ c, .illegal c ∉ ts) : Lexed s ts := by
  induction s using segments_induct generalizing ts with
  | nil =>
    obtain rfl := List.map_eq_nil_iff.mp h.symm
    exact .nil
  | mark c r hc ih =>
    obtain ⟨hspace, hr⟩ := List.forall_mem_cons.mp hs
    cases hblank : isBlank c with
    | true =>
      rw [segments_blank hblank] at h
      rw [hspace hblank]
      exact .gap rfl (ih h hr hliteral hlegal)
    | false =>
      have hjoint : Segment.joint ∉ segments (c :: r) := by
        rw [h]
        intro hmem
        obtain ⟨a, _, ha⟩ := List.mem_map.mp hmem
        cases a <;> exact Segment.noConfusion ha
      rw [segments_mark hc hblank (startsWith_of_joint_not_mem hjoint)] at h
      obtain ⟨a, rest, rfl, ha, hrest⟩ := List.map_eq_cons_iff.mp h.symm
      have hlexed := ih hrest.symm hr (fun literal hmem => hliteral literal (List.mem_cons_of_mem a hmem))
        fun c hmem => hlegal c (List.mem_cons_of_mem a hmem)
      cases a with
      | number literal => exact absurd ha (by simp [segmentOf])
      | operator op =>
        obtain rfl := Segment.mark.inj ha
        exact .operator op hlexed
      | opening =>
        obtain rfl := Segment.mark.inj ha
        exact .opening hlexed
      | closing =>
        obtain rfl := Segment.mark.inj ha
        exact .closing hlexed
      | illegal d => exact absurd List.mem_cons_self (hlegal d)
  | word w r hw hall hr ih =>
    rw [segments_word hw hall hr] at h
    obtain ⟨a, rest, rfl, ha, hrest⟩ := List.map_eq_cons_iff.mp h.symm
    have hlexed := ih r (Nat.le_refl _) hrest.symm (fun c hc => hs c (List.mem_append_right _ hc))
      (fun literal hmem => hliteral literal (List.mem_cons_of_mem a hmem))
      fun c hmem => hlegal c (List.mem_cons_of_mem a hmem)
    cases a with
    | number literal =>
      obtain rfl := Segment.word.inj ha
      obtain ⟨n, rfl⟩ := hliteral literal List.mem_cons_self
      refine .number ⟨n, rfl⟩ (longest_of_boundary n fun c hc => ⟨head_not_digit hr c hc, ?_⟩) hlexed
      rintro rfl
      exact absurd (head_of_startsWith hr _ hc) (by decide)
    | _ => exact absurd ha (by simp [segmentOf])

/-- The marks in sequences of tokens. -/
def tokenMarks : List Char := '.' :: '(' :: ')' :: Op.all.map Op.symbol

/-- The characters of which sequences of tokens are made. -/
theorem mem_lexed (h : Lexed s ts) :
    ∀ c ∈ s, isGap c = true ∨ isDigit c = true ∨ c ∈ tokenMarks := by
  have hmark : ∀ {c : Char}, c ∈ tokenMarks →
      isGap c = true ∨ isDigit c = true ∨ c ∈ tokenMarks := fun hc => Or.inr (Or.inr hc)
  induction h with
  | nil => exact fun c hc => absurd hc List.not_mem_nil
  | gap hgap _ ih => exact List.forall_mem_cons.mpr ⟨Or.inl hgap, ih⟩
  | number hliteral _ _ ih =>
    obtain ⟨n, rfl⟩ := hliteral
    refine List.forall_mem_append.mpr ⟨fun c hc => ?_, ih⟩
    rcases mem_numeral_text hc with hdigit | rfl
    · exact Or.inr (Or.inl hdigit)
    · exact hmark (by decide)
  | operator op _ ih => exact List.forall_mem_cons.mpr ⟨hmark (by cases op <;> decide), ih⟩
  | opening _ ih => exact List.forall_mem_cons.mpr ⟨hmark (by decide), ih⟩
  | closing _ ih => exact List.forall_mem_cons.mpr ⟨hmark (by decide), ih⟩

/-- Names stand in no sequence of tokens. -/
theorem not_isNameStart_of_lexed (h : Lexed s ts) : ∀ c ∈ s, isNameStart c = false := by
  have hmarks : ∀ c ∈ tokenMarks, isNameStart c = false := List.all_iff_forall_prop.mp (by decide)
  intro c hc
  rcases mem_lexed h c hc with hgap | hdigit | hmark
  · exact isNameStart_of_not_operand (isOperandChar_of_isBlank (isBlank_of_isGap hgap))
  · exact isNameStart_of_isDigit hdigit
  · exact hmarks c hmark

theorem firstNameFrom_eq_none {last : Option Char} {position : Nat}
    (h : ∀ c ∈ s, isNameStart c = false) : firstNameFrom last position s = none := by
  have hnone : firstNameFrom last position (s ++ []) = _ := firstNameFrom_append h []
  rwa [List.append_nil] at hnone

theorem evaluate_eq_ok_iff : Arith.evaluate s = .ok x ↔
    ∃ tree, parse s = .ok tree ∧ tree.value = .ok x := by
  have hvalue : ∀ tree : Tree,
      (tree.value.mapError fun cause => (⟨cause, some s⟩ : Fault)) = .ok x ↔ tree.value = .ok x := by
    intro tree
    cases tree.value <;> simp [Except.mapError]
  rw [evaluate_eq_mapError]
  constructor
  · intro h
    obtain ⟨tree, htree, hx⟩ := bind_eq_ok h
    exact ⟨tree, htree, (hvalue tree).mp hx⟩
  · rintro ⟨tree, htree, hx⟩
    rw [htree]
    exact (hvalue tree).mpr hx

/-- What is read from a text without calls is the value of a derivation, and any text with the
same segments is a sequence of its tokens. -/
theorem exists_lexed (h : settleText s = .ok x) (hsegments : segments s = segments t)
    (ht : OnlySpaces t) : ∃ d : Derivation .expr, Lexed t d.tokens ∧ d.tree.value = .ok x := by
  unfold settleText at h
  split at h
  · exact absurd h (by simp [Failure.within])
  · obtain ⟨tree, htree, hvalue⟩ := evaluate_eq_ok_iff.mp (asFailure_eq_ok.mp h)
    obtain ⟨d, hlexed, rfl⟩ := exists_derivation (parse_eq_ok.mp htree)
    refine ⟨d, lexed_of_segments ?_ ht hlexed.isLiteral (not_illegal d), hvalue⟩
    rw [← hsegments, ← segments_trim, segments_lexed hlexed (unglued_tokens d)]

/-- What is read from a text without calls is read from any other text with its segments. -/
theorem settleText_eq_ok (h : settleText s = .ok x) (hsegments : segments s = segments t)
    (ht : OnlySpaces t) : settleText t = .ok x := by
  obtain ⟨_, hlexed, _⟩ := exists_lexed h hsegments ht
  obtain ⟨d, htrimmed, hvalue⟩ := exists_lexed h (hsegments.trans (segments_trim t).symm)
    fun c hc => ht c ((trim_sublist t).subset hc)
  unfold settleText
  rw [firstNameFrom_eq_none (not_isNameStart_of_lexed hlexed)]
  exact asFailure_eq_ok.mpr (evaluate_eq_ok_iff.mpr
    ⟨d.tree, parse_eq_ok.mpr (parseTrimmed_of_lexed htrimmed), hvalue⟩)

/-- The value of a text without calls depends on its segments only. -/
theorem settleText_congr (hsegments : segments s = segments t) (hs : OnlySpaces s)
    (ht : OnlySpaces t) : (settleText s).toOption = (settleText t).toOption := by
  cases h : settleText s with
  | ok x => rw [settleText_eq_ok h hsegments ht]
  | error f =>
    cases h' : settleText t with
    | ok x => rw [settleText_eq_ok h' hsegments.symm hs] at h; exact absurd h (by simp)
    | error f' => rfl

/-- All layouts of an expression without calls have the same value. -/
theorem settleText_laid {e : Expr} (hs : Laid e s) (ht : Laid e t) :
    (settleText s).toOption = (settleText t).toOption := by
  refine settleText_congr ?_ hs.onlySpaces ht.onlySpaces
  rw [hs.dressed_alone.segments (phrase_lexemes e), ht.dressed_alone.segments (phrase_lexemes e)]

end Tokens

end Reckoner.Formula
