import Mathlib.Logic.Relation
import Reckoner.Document.Run
import Reckoner.Proofs.Document.Passes

/-!
Lines that mention other lines. When no line mentions itself, not even through other lines, the
lines can be put in an order in which each comes after those that it mentions. If the outcome of a
line depends only on the lines that it mentions, two successive passes that have left the first
lines of the order alike leave one line more alike, and this line stays as it is. So the pass after
all lines have been settled changes nothing, and a run ends with it or before it.
-/
namespace Reckoner.Document

open Formula Relation Number

section Ordered

variable {mentions : Nat → Nat → Prop} {lines order : List Line}

/-- An order of some lines in which no line mentions a later one. -/
structure DependencyOrder (mentions : Nat → Nat → Prop) (lines order : List Line) : Prop where
  perm : order.Perm lines
  backward : order.Pairwise fun a b => ¬ mentions a.index b.index

section Order

/-- Among some lines there is one that mentions none of them. -/
theorem exists_first (h : ∀ i, ¬ TransGen mentions i i) (hne : lines ≠ []) :
    ∃ a ∈ lines, ∀ b ∈ lines, ¬ TransGen mentions a.index b.index := by
  induction lines with
  | nil => exact absurd rfl hne
  | cons line rest ih =>
    by_cases hrest : rest = []
    · subst hrest
      refine ⟨line, List.mem_cons_self, fun b hb => ?_⟩
      obtain rfl := List.mem_singleton.mp hb
      exact h b.index
    · obtain ⟨a, ha, hfirst⟩ := ih hrest
      by_cases hline : TransGen mentions a.index line.index
      · refine ⟨line, List.mem_cons_self, List.forall_mem_cons.mpr ⟨h line.index, ?_⟩⟩
        exact fun b hb hmentions => hfirst b hb (hline.trans hmentions)
      · exact ⟨a, List.mem_cons_of_mem _ ha, List.forall_mem_cons.mpr ⟨hline, hfirst⟩⟩

/-- Lines that do not depend on themselves can be put in order. -/
theorem exists_dependencyOrder (h : ∀ i, ¬ TransGen mentions i i) (lines : List Line) :
    ∃ order, DependencyOrder mentions lines order := by
  induction hn : lines.length generalizing lines with
  | zero =>
    obtain rfl := List.eq_nil_of_length_eq_zero hn
    exact ⟨[], .refl _, .nil⟩
  | succ n ih =>
    have hne : lines ≠ [] := List.ne_nil_of_length_eq_add_one hn
    obtain ⟨a, ha, hfirst⟩ := exists_first h hne
    obtain ⟨front, back, rfl⟩ := List.append_of_mem ha
    have hmiddle : (front ++ a :: back).Perm (a :: (front ++ back)) := List.perm_middle
    have hlength : (front ++ back).length = n := by
      have hcons := hmiddle.length_eq
      rw [hn, List.length_cons] at hcons
      omega
    obtain ⟨order, hperm, hbackward⟩ := ih (front ++ back) hlength
    refine ⟨a :: order, (hperm.cons a).trans hmiddle.symm, List.pairwise_cons.mpr ⟨?_, hbackward⟩⟩
    intro b hb hmentions
    have hmem : b ∈ front ++ a :: back :=
      hmiddle.mem_iff.mpr (List.mem_cons_of_mem a (hperm.mem_iff.mp hb))
    exact hfirst b hmem (.single hmentions)

theorem DependencyOrder.mem_of_mentions {ls ms : List Line} {line m : Line}
    (h : DependencyOrder mentions lines (ls ++ line :: ms)) (hirrefl : ∀ i, ¬ mentions i i)
    (hm : m ∈ lines) (hmentions : mentions line.index m.index) : m ∈ ls := by
  have hbackward := (List.pairwise_append.mp h.backward).2.1
  rcases List.mem_append.mp (h.perm.mem_iff.mpr hm) with hm | hm
  · exact hm
  · rcases List.mem_cons.mp hm with rfl | hm
    · exact absurd hmentions (hirrefl _)
    · exact absurd hmentions ((List.pairwise_cons.mp hbackward).1 m hm)

/-- What a line mentions stands before it in the order. -/
theorem DependencyOrder.lt (h : DependencyOrder mentions lines order)
    (hirrefl : ∀ i, ¬ mentions i i) {i j : Nat} (hi : i < order.length) (hj : j < order.length)
    (hmentions : mentions order[i].index order[j].index) : j < i := by
  rcases Nat.lt_trichotomy j i with hlt | rfl | hgt
  · exact hlt
  · exact absurd hmentions (hirrefl _)
  · exact absurd hmentions (List.pairwise_iff_getElem.mp h.backward i j hi hj hgt)

end Order

/-- Whether two standings have the same values for a line. -/
structure SameAt (s t : Standing) (line : Line) : Prop where
  result : Assoc.get? s.results line.index = Assoc.get? t.results line.index
  value : ∀ n, line.form.name? = some n → Assoc.get? s.named n = Assoc.get? t.named n

/-- That the outcome of each line depends only on the lines that it mentions. -/
def Local (mentions : Nat → Nat → Prop) (depth : Nat) (doc : List Line) : Prop :=
  ∀ line ∈ doc, line.form ≠ .blank → ∀ s t : Standing, s.Of doc → t.Of doc →
    (∀ m ∈ doc, m.form ≠ .blank → mentions line.index m.index → SameAt s t m) →
    evaluate Builtin.table depth (s.scope (declared doc)) line.form.expression =
      evaluate Builtin.table depth (t.scope (declared doc)) line.form.expression

section Standings

variable {doc : List Line} {depth : Nat} {a s t : Standing} {b c : PassResult} {line : Line}

theorem asFailure_injective {r r' : Except Fault Float} (h : asFailure r = asFailure r') :
    r = r' := by
  cases r with
  | ok x =>
    cases r' with
    | ok y => exact congrArg Except.ok (Except.ok.inj h)
    | error f => exact absurd h (by simp [asFailure])
  | error f =>
    cases r' with
    | ok y => exact absurd h (by simp [asFailure])
    | error g => exact congrArg Except.error (Failure.fault.inj (Except.error.inj h))

theorem SameAt.symm (h : SameAt s t line) : SameAt t s line :=
  ⟨h.result.symm, fun n hn => (h.value n hn).symm⟩

theorem SameAt.trans {u : Standing} (h : SameAt s t line) (h' : SameAt t u line) :
    SameAt s u line :=
  ⟨h.result.trans h'.result, fun n hn => (h.value n hn).trans (h'.value n hn)⟩

theorem Between.of (h : Between a s t) (hs : s.Proper (declared doc)) (ha : a.Of doc)
    (ht : t.Of doc) : s.Of doc := by
  refine ⟨hs, fun i hi => ?_⟩
  rcases h.results i with h | h
  · exact h.trans (ha.lines i hi)
  · exact h.trans (ht.lines i hi)

/-- Between standings with the same values for a line, these values do not change. -/
theorem Between.sameAt (h : Between a s t) (hsame : SameAt a t line) : SameAt s t line := by
  refine ⟨?_, fun n hn => ?_⟩
  · rcases h.results line.index with h | h
    · exact h.trans hsame.result
    · exact h
  · rcases h.named n with h | h
    · exact h.trans (hsame.value n hn)
    · exact h

/-- Two successive passes leave the same values for a line, if they do so for the lines that it
mentions and the pass before them did so too. -/
theorem sameAt_pass (hd : Distinct doc) (hlocal : Local mentions depth doc) (ha : a.Of doc)
    (hab : pass doc depth a = .ok b) (hbc : pass doc depth b.standing = .ok c) (hline : line ∈ doc)
    (hform : line.form ≠ .blank)
    (h : ∀ m ∈ doc, m.form ≠ .blank → mentions line.index m.index →
      SameAt a b.standing m ∧ SameAt b.standing c.standing m) :
    SameAt b.standing c.standing line := by
  have hb := of_pass ha hab
  have hc := of_pass hb hbc
  obtain ⟨s, r, hs, hbetween, hvalue, hrecorded⟩ := pass_line hd ha.proper hab hline hform
  obtain ⟨t, r', ht, hbetween', hvalue', hrecorded'⟩ := pass_line hd hb.proper hbc hline hform
  have hsame : ∀ m ∈ doc, m.form ≠ .blank → mentions line.index m.index → SameAt s t m := by
    intro m hm hmform hmentions
    obtain ⟨hfirst, hsecond⟩ := h m hm hmform hmentions
    exact (hbetween.sameAt hfirst).trans (hsecond.trans (hbetween'.sameAt hsecond).symm)
  have hr : r = r' := by
    refine asFailure_injective ?_
    rw [← hvalue, ← hvalue']
    exact hlocal line hline hform s t (hbetween.of hs ha hb) (hbetween'.of ht hb hc) hsame
  subst hr
  refine ⟨?_, fun n hn => ?_⟩
  · rw [hrecorded.result, hrecorded'.result]
  · rw [hrecorded.value n hn, hrecorded'.value n hn]

end Standings

end Ordered

section Settling

variable {mentions : Nat → Nat → Prop} {doc order : List Line} {depth : Nat}

/-- The lines that ask for something. -/
def calculations (doc : List Line) : List Line := doc.filter fun line => line.form ≠ .blank

theorem mem_calculations {line : Line} :
    line ∈ calculations doc ↔ line ∈ doc ∧ line.form ≠ .blank := by
  unfold calculations
  rw [List.mem_filter, decide_eq_true_iff]

section Agreement

variable {s t : Standing}

/-- Maps with the same finite values are found to have the same numbers. -/
theorem sameNumbers_of_get?_eq {κ : Type} [DecidableEq κ] {a b : Assoc κ Float}
    (ha : (Assoc.keys a).Nodup) (hb : (Assoc.keys b).Nodup)
    (hfinite : ∀ e ∈ a, e.2.isFinite = true) (h : ∀ k, Assoc.get? a k = Assoc.get? b k) :
    sameNumbers a b = true := by
  have hkeys : ∀ k, k ∈ Assoc.keys a ↔ k ∈ Assoc.keys b := by
    intro k
    rw [← Assoc.isSome_get?, ← Assoc.isSome_get?, h k]
  have hlength : a.length = b.length := by
    have hperm := ((List.perm_ext_iff_of_nodup ha hb).mpr hkeys).length_eq
    unfold Assoc.keys at hperm
    rwa [List.length_map, List.length_map] at hperm
  unfold sameNumbers
  rw [hlength, beq_self_eq_true, Bool.true_and, List.all_eq_true]
  intro e he
  have hvalue : Assoc.get? b e.1 = some e.2 := by
    rw [← h e.1]
    exact Assoc.get?_of_mem ha he
  rw [hvalue]
  exact beq_of_alike (Alike.refl e.2) (isNaN_of_isFinite (hfinite e he))

/-- Standings with the same values for all lines agree. -/
theorem agrees_of_sameAt (hs : s.Of doc) (ht : t.Of doc)
    (h : ∀ line ∈ calculations doc, SameAt s t line) : s.agrees t = true := by
  have hnamed : ∀ n, Assoc.get? s.named n = Assoc.get? t.named n := by
    intro n
    by_cases hn : n ∈ declared doc
    · obtain ⟨line, hline, hname⟩ := mem_declared.mp hn
      exact (h line (mem_calculations.mpr ⟨hline, form_ne_blank hname⟩)).value n hname
    · rw [Assoc.get?_eq_none.mpr fun hk => hn (hs.proper.declared hk),
        Assoc.get?_eq_none.mpr fun hk => hn (ht.proper.declared hk)]
  have hresults : ∀ i, Assoc.get? s.results i = Assoc.get? t.results i := by
    intro i
    rcases index_cases doc i with ⟨line, hline, hform, rfl⟩ | hnone
    · exact (h line (mem_calculations.mpr ⟨hline, hform⟩)).result
    · rw [hs.lines i hnone, ht.lines i hnone]
  unfold Standing.agrees
  rw [Bool.and_eq_true]
  exact ⟨sameNumbers_of_get?_eq hs.proper.named_nodup ht.proper.named_nodup
      hs.proper.named_finite hnamed,
    sameNumbers_of_get?_eq hs.proper.results_nodup ht.proper.results_nodup
      hs.proper.results_finite hresults⟩

end Agreement

/-- Whether two standings have the same values for the first `k` lines of an order. -/
def SameBelow (order : List Line) (k : Nat) (s t : Standing) : Prop :=
  ∀ i (hi : i < order.length), i < k → SameAt s t order[i]

section Passes

variable {a : Standing} {b c : PassResult} {k : Nat}

/-- What a pass leaves as it was, the next pass leaves as it was together with one line more. -/
theorem sameBelow_pass (hd : Distinct doc) (hlocal : Local mentions depth doc)
    (hirrefl : ∀ i, ¬ mentions i i) (horder : DependencyOrder mentions (calculations doc) order)
    (ha : a.Of doc) (hab : pass doc depth a = .ok b) (hbc : pass doc depth b.standing = .ok c)
    (h : SameBelow order k a b.standing) : SameBelow order (k + 1) b.standing c.standing := by
  intro i hi hk
  induction i using Nat.strongRecOn with
  | ind i ih =>
    obtain ⟨hline, hform⟩ := mem_calculations.mp (horder.perm.mem_iff.mp (List.getElem_mem hi))
    refine sameAt_pass hd hlocal ha hab hbc hline hform fun m hm hmform hmentions => ?_
    have hmem : m ∈ order := horder.perm.mem_iff.mpr (mem_calculations.mpr ⟨hm, hmform⟩)
    obtain ⟨j, hj, rfl⟩ := List.getElem_of_mem hmem
    have hlt := horder.lt hirrefl hi hj hmentions
    exact ⟨h j hj (by omega), ih j hlt hj (by omega)⟩

/-- A run ends with a pass that changes nothing, as soon as there have been as many passes as there
are lines and one more. -/
theorem settle_converges (hd : Distinct doc) (hlocal : Local mentions depth doc)
    (hirrefl : ∀ i, ¬ mentions i i) (horder : DependencyOrder mentions (calculations doc) order)
    {made left : Nat} {previous : PassResult} (hprevious : previous.standing.Of doc)
    (hnext : ∀ next, pass doc depth previous.standing = .ok next →
      SameBelow order k previous.standing next.standing)
    (hk : k ≤ order.length) (hleft : order.length < k + left)
    (hunbroken : (passes doc depth previous.standing left).2 = none) :
    ∃ settled, settle doc depth made previous left = .ok settled ∧ settled.converged = true ∧
      settled.passes ≤ made + (order.length - k) + 1 := by
  induction left generalizing made previous k with
  | zero => omega
  | succ left ih =>
    rw [passes] at hunbroken
    rw [settle]
    cases hpass : pass doc depth previous.standing with
    | error _ =>
      rw [hpass] at hunbroken
      exact absurd hunbroken (by simp)
    | ok next =>
      rw [hpass] at hunbroken
      dsimp only at hunbroken
      change ∃ settled, (if next.standing.agrees previous.standing = true then _ else _) = _ ∧ _
      by_cases hagrees : next.standing.agrees previous.standing = true
      · rw [if_pos hagrees]
        refine ⟨_, rfl, rfl, ?_⟩
        dsimp only
        omega
      · rw [if_neg hagrees] at hunbroken ⊢
        have hsame := hnext next hpass
        have hlt : k < order.length := by
          by_contra hge
          refine hagrees (agrees_of_sameAt (of_pass hprevious hpass) hprevious fun line hline => ?_)
          obtain ⟨i, hi, rfl⟩ := List.getElem_of_mem (horder.perm.mem_iff.mpr hline)
          exact (hsame i hi (by omega)).symm
        have hrest : ∃ settled, settle doc depth (made + 1) next left = .ok settled ∧
            settled.converged = true ∧
            settled.passes ≤ made + 1 + (order.length - (k + 1)) + 1 :=
          ih (of_pass hprevious hpass) (fun after hafter =>
            sameBelow_pass hd hlocal hirrefl horder hprevious hpass hafter hsame)
            (by omega) (by omega) hunbroken
        obtain ⟨settled, hsettled, hconverged, hpasses⟩ := hrest
        exact ⟨settled, hsettled, hconverged, by omega⟩

/-- A run from empty standing converges when it may make one pass more than there are lines that
ask for something. -/
theorem settle_acyclic (hd : Distinct doc) (hlocal : Local mentions depth doc)
    (hacyclic : ∀ i, ¬ TransGen mentions i i) {left : Nat}
    (hleft : (calculations doc).length < left)
    (hunbroken : (passes doc depth .empty left).2 = none) :
    ∃ settled, settle doc depth 0 ⟨.empty, []⟩ left = .ok settled ∧ settled.converged = true ∧
      settled.passes ≤ (calculations doc).length + 1 := by
  obtain ⟨order, horder⟩ := exists_dependencyOrder hacyclic (calculations doc)
  have hlength := horder.perm.length_eq
  have hsettles : ∃ settled, settle doc depth 0 ⟨.empty, []⟩ left = .ok settled ∧
      settled.converged = true ∧ settled.passes ≤ 0 + (order.length - 0) + 1 :=
    settle_converges hd hlocal (fun i hi => hacyclic i (.single hi)) horder (of_empty doc)
      (fun _ _ i _ hlt => absurd hlt (Nat.not_lt_zero i)) (Nat.zero_le _) (by omega) hunbroken
  rw [Nat.zero_add, Nat.sub_zero, hlength] at hsettles
  exact hsettles

end Passes

end Settling

end Reckoner.Document
