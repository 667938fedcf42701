import Reckoner.Proofs.Formula.Depths

/-!
Arguments that are joined and split again. Each argument is trimmed, closes the parentheses that it
opens and has no comma outside of them. With white space around them and commas between them the
arguments stand in one text, and splitting the text gives them back, empty ones among them. Only a
single empty argument is lost, since a text of white space holds no arguments.
-/
namespace Reckoner.Formula

open Text

/-- A text that can stand between the commas of a call. -/
structure IsArgument (t : List Char) : Prop where
  trimmed : trim t = t
  closes : ∀ front, front <+: t → front.count ')' ≤ front.count '('
  balanced : t.count '(' = t.count ')'
  commas : ∀ front, front ++ [','] <+: t → front.count ')' < front.count '('

/-- It can be checked at each place of a text whether the text can be an argument. -/
instance (t : List Char) : Decidable (IsArgument t) :=
  decidable_of_iff (trim t = t ∧ (∀ front ∈ t.inits, front.count ')' ≤ front.count '(') ∧
      t.count '(' = t.count ')' ∧
      ∀ front ∈ t.inits, front ++ [','] <+: t → front.count ')' < front.count '(') <| by
    constructor
    · rintro ⟨htrim, hcloses, hbalanced, hcommas⟩
      exact ⟨htrim, fun front hfront => hcloses front ((List.mem_inits front t).mpr hfront),
        hbalanced, fun front hfront => hcommas front
          ((List.mem_inits front t).mpr ((List.prefix_append front [',']).trans hfront)) hfront⟩
    · rintro ⟨htrim, hcloses, hbalanced, hcommas⟩
      exact ⟨htrim, fun front hfront => hcloses front ((List.mem_inits front t).mp hfront),
        hbalanced, fun front _ => hcommas front⟩

/-- White space around a text. -/
def Padded (t u : List Char) : Prop := ∃ before after, u = before ++ t ++ after ∧
  (∀ c ∈ before, isBlank c = true) ∧ ∀ c ∈ after, isBlank c = true

variable {s t u : List Char} {ts us : List (List Char)} {c : Char} {d e : Nat}

section Uncut

/-- In a text that begins at a depth, no comma stands outside the parentheses. -/
def Sheltered (d : Nat) (t : List Char) : Prop :=
  ∀ front, front ++ [','] <+: t → depthThrough d front ≠ some 0

/-- A text that has a depth takes a piece along from where it begins to where it ends. -/
theorem piecesFrom_through (h : depthThrough d t = some e) (ht : Sheltered d t) (s : List Char) :
    piecesFrom d (t ++ s) = prependTo t (piecesFrom e s) := by
  induction t generalizing d with
  | nil =>
    obtain rfl := Option.some.inj h
    exact uncut_nil d s
  | cons c r ih =>
    have hcut : ¬ (c = ',' ∧ (d : Int) = 0) := by
      rintro ⟨rfl, hd⟩
      obtain rfl : d = 0 := by omega
      exact ht [] (List.cons_prefix_cons.mpr ⟨rfl, List.nil_prefix⟩) rfl
    obtain ⟨k, hk⟩ := exists_depthAfter h
    have hstep : ∀ r, depthThrough d (c :: r) = depthThrough k r := by
      simpa only [Nat.zero_add] using depthThrough_after hk 0
    have hsheltered : Sheltered k r := fun front hfront =>
      hstep front ▸ ht (c :: front) (List.cons_prefix_cons.mpr ⟨rfl, hfront⟩)
    rw [List.cons_append, piecesFrom_cons hcut, hk, ih (hstep r ▸ h) hsheltered, ← prependTo_append]
    rfl

theorem uncut_blank (h : ∀ c ∈ t, isBlank c = true) (depth : Int) : Uncut depth t :=
  uncut_solid fun c hc => by
    have hmark : ∀ {mark}, isBlank mark = false → c ≠ mark := fun hmark heq =>
      absurd (hmark.symm.trans (heq ▸ h c hc)) Bool.false_ne_true
    exact ⟨fun hcut => hmark (by decide) hcut.1, hmark (by decide), hmark (by decide)⟩

theorem IsArgument.uncut (h : IsArgument t) : Uncut 0 t := by
  have hdepth : depthThrough 0 t = some 0 :=
    depthThrough_eq_some_iff.mpr ⟨by simpa only [Nat.zero_add] using h.closes, by
      simpa only [Nat.zero_add] using h.balanced⟩
  refine piecesFrom_through hdepth fun front hfront hfree => ?_
  have hlt := h.commas front hfront
  have hcount := (depthThrough_eq_some_iff.mp hfree).2
  omega

theorem Padded.uncut (hu : Padded t u) (h : IsArgument t) : Uncut 0 u := by
  obtain ⟨before, after, rfl, hbefore, hafter⟩ := hu
  exact ((uncut_blank hbefore 0).append h.uncut).append (uncut_blank hafter 0)

theorem Padded.trim_eq (hu : Padded t u) (h : IsArgument t) : trim u = t := by
  obtain ⟨before, after, rfl, hbefore, hafter⟩ := hu
  rw [trim_around hbefore hafter, h.trimmed]

end Uncut

section Joined

/-- A text holds no arguments exactly if all of it is white space. -/
theorem splitArguments_eq_nil_iff :
    splitArguments s = [] ↔ ∀ c ∈ s, isBlank c = true := by
  unfold splitArguments
  rw [← List.all_eq_true]
  split
  · rename_i hblank
    exact iff_of_true rfl hblank
  · rename_i hblank
    refine iff_of_false (fun h => ?_) hblank
    exact piecesFrom_ne_nil 0 s (List.map_eq_nil_iff.mp h)

/-- Arguments show in the text that joins them, unless a single one is empty. -/
theorem joined_not_blank (hne : ts ≠ []) (hts : ts ≠ [[]]) (h : ∀ t ∈ ts, IsArgument t)
    (hus : List.Forall₂ Padded ts us) : ¬ ∀ c ∈ [','].intercalate us, isBlank c = true := by
  intro hblank
  cases hus with
  | nil => exact hne rfl
  | @cons t u ts us hu hus =>
    cases hus with
    | nil =>
      rw [List.intercalate_singleton] at hblank
      have htrim : trim u = [] := by
        have haround : trim (u ++ [] ++ []) = [] :=
          trim_around hblank (fun _ hc => absurd hc List.not_mem_nil) []
        rwa [List.append_nil, List.append_nil] at haround
      exact hts (congrArg (· :: []) ((hu.trim_eq (h t List.mem_cons_self)).symm.trans htrim))
    | cons hv _ =>
      rw [List.intercalate_cons_cons] at hblank
      exact absurd (hblank ',' (by simp)) (by decide)

theorem forall₂_uncut (h : ∀ t ∈ ts, IsArgument t) (hus : List.Forall₂ Padded ts us) :
    (∀ u ∈ us, Uncut 0 u) ∧ us.map trim = ts := by
  induction hus with
  | nil => exact ⟨fun _ hu => absurd hu List.not_mem_nil, rfl⟩
  | cons hu _ ih =>
    obtain ⟨ht, hts⟩ := List.forall_mem_cons.mp h
    obtain ⟨huncut, hmap⟩ := ih hts
    exact ⟨List.forall_mem_cons.mpr ⟨hu.uncut ht, huncut⟩, by
      rw [List.map_cons, hu.trim_eq ht, hmap]⟩

/-- Splitting undoes joining. A text of white space holds no arguments, and no other text does.
Arguments with white space around each and commas between them are given back in their order, empty
ones too, unless the only one is empty. -/
theorem splitArguments_joined :
    (∀ s, splitArguments s = [] ↔ ∀ c ∈ s, isBlank c = true) ∧
    ∀ ts us, ts ≠ [[]] → (∀ t ∈ ts, IsArgument t) → List.Forall₂ Padded ts us →
      splitArguments ([','].intercalate us) = ts := by
  refine ⟨fun s => splitArguments_eq_nil_iff, fun ts us hts h hus => ?_⟩
  by_cases hne : ts = []
  · subst hne
    rw [List.forall₂_nil_left_iff.mp hus]
    rfl
  have hnotBlank := mt List.all_eq_true.mp (joined_not_blank hne hts h hus)
  obtain ⟨huncut, hmap⟩ := forall₂_uncut h hus
  unfold splitArguments
  rw [if_neg hnotBlank]
  cases us with
  | nil => exact absurd (List.forall₂_nil_right_iff.mp hus) hne
  | cons u us => rw [piecesFrom_intercalate huncut, hmap]

theorem splitArguments_joined_slots :
    splitArguments " 1,\t,max(2, 3) \n".toList = ["1".toList, [], "max(2, 3)".toList] := by
  have hpadded : List.Forall₂ Padded ["1".toList, [], "max(2, 3)".toList]
      [" 1".toList, "\t".toList, "max(2, 3) \n".toList] := by
    have hblank : ∀ {s : List Char}, s.all isBlank = true → ∀ c ∈ s, isBlank c = true :=
      fun h => List.all_eq_true.mp h
    exact .cons ⟨" ".toList, [], rfl, hblank (by decide), hblank rfl⟩ <|
      .cons ⟨"\t".toList, [], rfl, hblank (by decide), hblank rfl⟩ <|
        .cons ⟨[], " \n".toList, rfl, hblank rfl, hblank (by decide)⟩ .nil
  exact splitArguments_joined.2 _ _ (by decide) (by decide) hpadded

end Joined

end Reckoner.Formula
