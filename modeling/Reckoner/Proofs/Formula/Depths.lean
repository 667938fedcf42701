import Mathlib.Data.List.Induction
import Reckoner.Arith.Parser
import Reckoner.Proofs.Formula.SplicedCalls

/-!
The depth of the parentheses along a text. A text is balanced when no parenthesis is closed that is
not open and none is open at the end. The parenthesis that closes a call is then found, whatever
follows the text. The depth can be told from the numbers of opening and closing parentheses up to
each place, and each parenthesis that is open at the end can be told from the depths around it.
-/
namespace Reckoner.Formula

open Text Number Arith

/-- The depth after a text that begins at a depth, unless more is closed than is open. -/
def depthThrough (depth : Nat) : List Char → Option Nat
  | [] => some depth
  | c :: r =>
    if c = '(' then depthThrough (depth + 1) r
    else if c = ')' then
      match depth with
      | 0 => none
      | d + 1 => depthThrough d r
    else depthThrough depth r

variable {s t a b : List Char} {c : Char} {d e : Nat}

section Steps

theorem depthThrough_opening (d : Nat) (r : List Char) :
    depthThrough d ('(' :: r) = depthThrough (d + 1) r := if_pos rfl

theorem depthThrough_closing (d : Nat) (r : List Char) :
    depthThrough (d + 1) (')' :: r) = depthThrough d r := rfl

theorem depthThrough_other (hc : c ≠ '(' ∧ c ≠ ')') (d : Nat) (r : List Char) :
    depthThrough d (c :: r) = depthThrough d r :=
  (if_neg hc.1).trans (if_neg hc.2)

theorem depthThrough_solid (ht : ∀ c ∈ t, c ≠ '(' ∧ c ≠ ')') (d : Nat) (s : List Char) :
    depthThrough d (t ++ s) = depthThrough d s := by
  induction t with
  | nil => rfl
  | cons c t ih =>
    obtain ⟨hc, ht⟩ := List.forall_mem_cons.mp ht
    rw [List.cons_append, depthThrough_other hc, ih ht]

theorem depthThrough_cons (d : Nat) (c : Char) (r : List Char) :
    depthThrough d (c :: r) = (depthThrough d [c]).bind fun e => depthThrough e r := by
  by_cases hopen : c = '('
  · rw [hopen, depthThrough_opening, depthThrough_opening]
    rfl
  by_cases hclose : c = ')'
  · subst hclose
    cases d <;> rfl
  · rw [depthThrough_other ⟨hopen, hclose⟩, depthThrough_other ⟨hopen, hclose⟩]
    rfl

theorem depthThrough_append (d : Nat) (s t : List Char) :
    depthThrough d (s ++ t) = (depthThrough d s).bind fun e => depthThrough e t := by
  induction s generalizing d with
  | nil => rfl
  | cons c s ih =>
    rw [List.cons_append, depthThrough_cons, depthThrough_cons d c s, Option.bind_assoc]
    exact congrArg _ (funext fun e => ih e)

/-- A character that takes one depth to another does so at any greater depth. -/
theorem depthThrough_after (h : depthAfter d c = e) (more : Nat) (r : List Char) :
    depthThrough (more + d) (c :: r) = depthThrough (more + e) r := by
  unfold depthAfter at h
  by_cases hopen : c = '('
  · rw [if_pos hopen] at h
    obtain rfl : e = d + 1 := by omega
    rw [hopen, depthThrough_opening, Nat.add_assoc]
  rw [if_neg hopen] at h
  by_cases hclose : c = ')'
  · rw [if_pos hclose] at h
    obtain rfl : d = e + 1 := by omega
    rw [hclose, ← Nat.add_assoc, depthThrough_closing]
  · rw [if_neg hclose] at h
    obtain rfl : e = d := by omega
    exact depthThrough_other ⟨hopen, hclose⟩ _ r

/-- A text that has a depth has one after each character. -/
theorem exists_depthAfter (h : depthThrough d (c :: s) = some e) :
    ∃ k : Nat, depthAfter d c = k := by
  unfold depthAfter
  by_cases hopen : c = '('
  · exact ⟨d + 1, if_pos hopen⟩
  rw [if_neg hopen]
  by_cases hclose : c = ')'
  · subst hclose
    cases d with
    | zero => exact absurd h nofun
    | succ d => exact ⟨d, (if_pos rfl).trans (by omega)⟩
  · exact ⟨d, if_neg hclose⟩

end Steps

section Closing

variable {distance : Nat}

/-- The closing parenthesis that is found comes after the distance already gone. -/
theorem not_closing_of_deep (hd : d ≠ 0) :
    closingFrom (d + 1) distance (')' :: b) ≠ some distance := by
  intro h
  rw [closingFrom, if_neg (by decide), if_pos rfl, if_neg (by omega)] at h
  obtain ⟨x, _, _, hlength⟩ := closing_split h
  omega

/-- The parentheses that lead up to a closing one take the depth down by what they close. -/
theorem depthThrough_closed (more : Nat)
    (h : closingFrom (d + 1) distance (a ++ ')' :: b) = some (distance + a.length)) :
    depthThrough (more + 1 + d) (a ++ ')' :: b) = depthThrough more b := by
  induction a generalizing d distance with
  | nil =>
    obtain rfl : d = 0 := by
      by_contra hd
      exact not_closing_of_deep hd h
    exact depthThrough_closing more b
  | cons c r ih =>
    obtain ⟨e, he, hclosing⟩ := exists_depth h
    rw [List.cons_append, depthThrough_after he, ih hclosing]

/-- Before the closing parenthesis all others that have been opened are closed. -/
theorem depthThrough_enclosed
    (h : closingFrom (d + 1) distance (a ++ ')' :: b) = some (distance + a.length)) :
    depthThrough d a = some 0 := by
  induction a generalizing d distance with
  | nil =>
    obtain rfl : d = 0 := by
      by_contra hd
      exact not_closing_of_deep hd h
    rfl
  | cons c r ih =>
    obtain ⟨e, he, hclosing⟩ := exists_depth h
    have hstep := depthThrough_after he 0 r
    rw [Nat.zero_add, Nat.zero_add] at hstep
    rw [hstep, ih hclosing]

/-- What follows a closing parenthesis does not matter to where it is found. -/
theorem closingFrom_congr (s : List Char)
    (h : closingFrom (d + 1) distance (a ++ ')' :: b) = some (distance + a.length)) :
    closingFrom (d + 1) distance (a ++ ')' :: s) = some (distance + a.length) := by
  induction a generalizing d distance with
  | nil =>
    obtain rfl : d = 0 := by
      by_contra hd
      exact not_closing_of_deep hd h
    rfl
  | cons c r ih =>
    obtain ⟨e, he, hclosing⟩ := exists_depth h
    have hrest := ih hclosing
    have hlength : distance + (c :: r).length = distance + 1 + r.length := by
      rw [List.length_cons]
      omega
    unfold depthAfter at he
    rw [List.cons_append, closingFrom, hlength]
    split at he
    · rename_i hopen
      rw [if_pos hopen]
      rw [← he] at hrest
      exact hrest
    · rename_i hopen
      rw [if_neg hopen]
      split at he
      · rename_i hclose
        rw [← he, Int.sub_add_cancel] at hrest
        rwa [if_pos hclose, if_neg (by omega), Int.add_sub_cancel]
      · rename_i hclose
        rw [if_neg hclose]
        rw [← he] at hrest
        exact hrest

/-- A parenthesis is closed when the whole text is. -/
theorem exists_closing (h : depthThrough (d + 1 + e) t = some 0) :
    ∃ n, closingFrom (d + 1) distance t = some n := by
  induction t generalizing d distance with
  | nil => exact absurd (Option.some.inj h) (by omega)
  | cons c r ih =>
    rw [closingFrom]
    by_cases hopen : c = '('
    · subst hopen
      rw [depthThrough_opening] at h
      rw [if_pos rfl]
      exact ih (d := d + 1) (by rwa [Nat.add_right_comm] at h)
    rw [if_neg hopen]
    by_cases hclose : c = ')'
    · subst hclose
      rw [if_pos rfl]
      cases d with
      | zero => exact ⟨distance, if_pos rfl⟩
      | succ d =>
        rw [if_neg (by omega)]
        rw [Nat.add_right_comm, depthThrough_closing] at h
        have hdepth : ((d + 1 : Nat) : Int) + 1 - 1 = d + 1 := by omega
        rw [hdepth]
        exact ih h
    · rw [if_neg hclose]
      rw [depthThrough_other ⟨hopen, hclose⟩] at h
      exact ih h

end Closing

section Balanced

/-- Depths along a text are the same above any further open parentheses. -/
theorem closingFrom_through (h : depthThrough d t = some e) {outer : Int} (houter : 1 ≤ outer)
    (distance : Nat) (s : List Char) :
    closingFrom (outer + d) distance (t ++ s) = closingFrom (outer + e) (distance + t.length) s := by
  induction t generalizing d distance with
  | nil =>
    obtain rfl := Option.some.inj h
    rfl
  | cons c r ih =>
    have hlength : distance + (c :: r).length = distance + 1 + r.length := by
      rw [List.length_cons]
      omega
    rw [List.cons_append, closingFrom, hlength]
    by_cases hopen : c = '('
    · subst hopen
      rw [depthThrough_opening] at h
      rw [if_pos rfl, ← ih h, Nat.cast_succ, Int.add_assoc]
    rw [if_neg hopen]
    by_cases hclose : c = ')'
    · subst hclose
      rw [if_pos rfl]
      cases d with
      | zero => exact absurd h (by simp [depthThrough])
      | succ d =>
        rw [depthThrough_closing] at h
        rw [if_neg (by omega), ← ih h, Nat.cast_succ, ← Int.add_assoc, Int.add_sub_cancel]
    · rw [depthThrough_other ⟨hopen, hclose⟩] at h
      rw [if_neg hclose, ih h]

/-- A parenthesis is closed where as many others are closed as have been opened. -/
theorem closing_iff : closingFrom 0 0 ('(' :: (a ++ ')' :: b)) = some (a.length + 1) ↔
    depthThrough 0 a = some 0 := by
  have hopened : closingFrom 0 0 ('(' :: (a ++ ')' :: b)) = closingFrom (1 + 0) 1 (a ++ ')' :: b) :=
    if_pos rfl
  rw [hopened]
  constructor
  · intro h
    rw [Nat.add_comm] at h
    exact depthThrough_enclosed (d := 0) h
  · intro h
    have hthrough := closingFrom_through h (Int.le_refl 1) 1 (')' :: b)
    rw [Nat.cast_zero] at hthrough
    rw [hthrough, Nat.add_comm]
    rfl

theorem balanced_of_depthThrough (h : depthThrough 0 t = some 0) : Balanced t := by
  intro depth distance s hdepth
  have hthrough := closingFrom_through h hdepth distance s
  rwa [Nat.cast_zero, Int.add_zero] at hthrough

theorem imbalanceFrom_eq_none_iff (opened : List Nat) (position : Nat) :
    imbalanceFrom opened position t = none ↔ depthThrough opened.length t = some 0 := by
  induction t generalizing opened position with
  | nil => cases opened <;> simp [imbalanceFrom, depthThrough]
  | cons c r ih =>
    unfold imbalanceFrom depthThrough
    split
    · exact ih _ _
    · split
      · cases opened with
        | nil => simp
        | cons _ opened => exact ih opened _
      · exact ih opened _

/-- A text is balanced when it ends at the depth where it begins. -/
theorem imbalance_eq_none_iff : imbalance t = none ↔ depthThrough 0 t = some 0 :=
  imbalanceFrom_eq_none_iff [] 0

end Balanced

section Counts

/-- Further open parentheses add to the depths along a text. -/
theorem depthThrough_above (h : depthThrough d t = some e) (more : Nat) :
    depthThrough (more + d) t = some (more + e) := by
  induction t generalizing d with
  | nil => exact congrArg (fun n => some (more + n)) (Option.some.inj h)
  | cons c r ih =>
    by_cases hopen : c = '('
    · subst hopen
      exact ih (d := d + 1) h
    by_cases hclose : c = ')'
    · subst hclose
      cases d with
      | zero => exact absurd h nofun
      | succ d => exact ih (d := d) h
    · rw [depthThrough_other ⟨hopen, hclose⟩] at h ⊢
      exact ih h

theorem forall_prefix_cons {α : Type} {p : List α → Prop} {x : α} {l : List α} :
    (∀ front, front <+: x :: l → p front) ↔ p [] ∧ ∀ front, front <+: l → p (x :: front) := by
  constructor
  · exact fun h => ⟨h [] List.nil_prefix, fun front hfront =>
      h (x :: front) (List.cons_prefix_cons.mpr ⟨rfl, hfront⟩)⟩
  · rintro ⟨hnil, hcons⟩ front hfront
    rcases List.prefix_cons_iff.mp hfront with rfl | ⟨rest, rfl, hrest⟩
    · exact hnil
    · exact hcons rest hrest

theorem count_parens_other (hc : c ≠ '(' ∧ c ≠ ')') (t : List Char) :
    (c :: t).count '(' = t.count '(' ∧ (c :: t).count ')' = t.count ')' :=
  ⟨List.count_cons_of_ne hc.1, List.count_cons_of_ne hc.2⟩

theorem count_parens_opening (t : List Char) :
    ('(' :: t).count '(' = t.count '(' + 1 ∧ ('(' :: t).count ')' = t.count ')' :=
  ⟨List.count_cons_self, List.count_cons_of_ne (by decide)⟩

theorem count_parens_closing (t : List Char) :
    (')' :: t).count '(' = t.count '(' ∧ (')' :: t).count ')' = t.count ')' + 1 :=
  ⟨List.count_cons_of_ne (by decide), List.count_cons_self⟩

/-- The depth counts the parentheses: nowhere have more been closed than are open, and at the end
the rest is open. -/
theorem depthThrough_eq_some_iff : depthThrough d t = some e ↔
    (∀ front, front <+: t → front.count ')' ≤ d + front.count '(') ∧
      d + t.count '(' = e + t.count ')' := by
  induction t generalizing d with
  | nil =>
    have hend : depthThrough d [] = some e ↔ d + 0 = e + 0 := Option.some_inj
    rw [hend, List.count_nil, List.count_nil]
    refine ⟨fun h => ⟨fun front hfront => ?_, h⟩, And.right⟩
    rw [List.prefix_nil.mp hfront]
    exact Nat.zero_le _
  | cons c r ih =>
    rw [forall_prefix_cons]
    by_cases hopen : c = '('
    · subst hopen
      simp only [count_parens_opening, depthThrough_opening, ih, List.count_nil, Nat.zero_le,
        true_and, Nat.add_right_comm d 1, ← Nat.add_assoc]
    by_cases hclose : c = ')'
    · subst hclose
      cases d with
      | zero =>
        refine iff_of_false nofun fun h => ?_
        exact absurd (h.1.2 [] List.nil_prefix) (by decide)
      | succ d =>
        simp only [count_parens_closing, depthThrough_closing, ih, List.count_nil, Nat.zero_le,
          true_and, Nat.add_right_comm d 1, Nat.succ_le_succ_iff, ← Nat.add_assoc, Nat.succ_inj]
    · simp only [count_parens_other ⟨hopen, hclose⟩, depthThrough_other ⟨hopen, hclose⟩, ih,
        List.count_nil, Nat.zero_le, true_and]

/-- A text closes more than is open exactly if it closes a parenthesis after a text that has none
open. -/
theorem depthThrough_eq_none_iff : depthThrough d t = none ↔
    ∃ front rest, t = front ++ ')' :: rest ∧ depthThrough d front = some 0 := by
  induction t generalizing d with
  | nil => exact iff_of_false nofun fun ⟨front, rest, h, _⟩ => by simp at h
  | cons c r ih =>
    have hlater : ∀ {k}, (∀ {s}, depthThrough d (c :: s) = depthThrough k s) →
        (depthThrough d (c :: r) = none ↔ ∃ front rest, c :: r = front ++ ')' :: rest ∧
          depthThrough d front = some 0) := by
      intro k hstep
      rw [hstep, ih]
      constructor
      · rintro ⟨front, rest, rfl, hfront⟩
        exact ⟨c :: front, rest, rfl, hstep.trans hfront⟩
      · rintro ⟨front, rest, hsplit, hfront⟩
        cases front with
        | nil =>
          obtain ⟨rfl, rfl⟩ := List.cons.inj hsplit
          obtain rfl : d = 0 := Option.some.inj hfront
          exact absurd (hstep (s := [])) nofun
        | cons x front =>
          obtain ⟨rfl, rfl⟩ := List.cons.inj hsplit
          exact ⟨front, rest, rfl, hstep.symm.trans hfront⟩
    by_cases hopen : c = '('
    · subst hopen
      exact hlater (depthThrough_opening d _)
    by_cases hclose : c = ')'
    · subst hclose
      cases d with
      | zero => exact iff_of_true rfl ⟨[], r, rfl, rfl⟩
      | succ d => exact hlater (depthThrough_closing d _)
    · exact hlater (depthThrough_other ⟨hopen, hclose⟩ d _)

/-- Each parenthesis that is still open at the end opens somewhere, and as many others are open in
the text after it. -/
theorem exists_open_paren (h : depthThrough 0 t = some (e + d + 1)) :
    ∃ front inner, t = front ++ '(' :: inner ∧ depthThrough 0 front = some e ∧
      depthThrough 0 inner = some d := by
  induction t using List.reverseRecOn generalizing d with
  | nil => exact absurd (Option.some.inj h) (by omega)
  | append_singleton t c ih =>
    rw [depthThrough_append] at h
    obtain ⟨n, ht, hc⟩ := Option.bind_eq_some_iff.mp h
    have hlonger : ∀ {k}, n = e + k + 1 → depthThrough k [c] = some d →
        ∃ front inner, t ++ [c] = front ++ '(' :: inner ∧ depthThrough 0 front = some e ∧
          depthThrough 0 inner = some d := by
      intro k hn hlast
      obtain ⟨front, inner, rfl, hfront, hinner⟩ := ih (hn ▸ ht)
      refine ⟨front, inner ++ [c], by simp, hfront, ?_⟩
      rw [depthThrough_append, hinner]
      exact hlast
    by_cases hopen : c = '('
    · subst hopen
      have hn : n + 1 = e + d + 1 := Option.some.inj hc
      cases d with
      | zero => exact ⟨t, [], rfl, ht.trans (congrArg some (by omega)), rfl⟩
      | succ d => exact hlonger (k := d) (by omega) rfl
    by_cases hclose : c = ')'
    · subst hclose
      cases n with
      | zero => exact absurd hc nofun
      | succ n =>
        have hn : n = e + d + 1 := Option.some.inj hc
        exact hlonger (k := d + 1) (by omega) rfl
    · rw [depthThrough_other ⟨hopen, hclose⟩] at hc
      have hn : n = e + d + 1 := Option.some.inj hc
      exact hlonger hn (depthThrough_other ⟨hopen, hclose⟩ d [])

end Counts

end Reckoner.Formula
