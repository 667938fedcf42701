import Mathlib.Data.List.DropRight
import Mathlib.Data.List.SplitBy
import Mathlib.Data.List.TakeWhile
import Reckoner.Text.Blank

/-!
Spans of a text, and trimming. A span is the longest beginning whose characters satisfy a condition,
and a text falls apart into its longest runs of such characters. White space is trimmed from the two
ends independently of each other, and trimming what has been trimmed before changes nothing.
-/
namespace Reckoner.Text

section Spans

variable {α : Type} {p : α → Bool} {t s : List α}

theorem dropWhile_cons_of_false {c : α} (hc : p c = false) (s : List α) :
    (c :: s).dropWhile p = c :: s := List.dropWhile_cons_of_neg (Bool.eq_false_iff.mp hc)

theorem takeWhile_cons_of_false {c : α} (hc : p c = false) (s : List α) :
    (c :: s).takeWhile p = [] := List.takeWhile_cons_of_neg (Bool.eq_false_iff.mp hc)

/-- A span that stops at the next character is taken and dropped as a whole. -/
theorem takeWhile_append_stop (ht : ∀ c ∈ t, p c = true) (hs : ∀ c ∈ s.head?, p c = false) :
    (t ++ s).takeWhile p = t := by
  rw [List.takeWhile_append_of_pos ht]
  cases s with
  | nil => rw [List.takeWhile_nil, List.append_nil]
  | cons c r =>
    rw [takeWhile_cons_of_false (hs c rfl), List.append_nil]

/-- A span is not longer for a text behind it that does not go on with it. -/
theorem takeWhile_append_of_head (hs : ∀ c ∈ s.head?, p c = false) (t : List α) :
    (t ++ s).takeWhile p = t.takeWhile p := by
  rw [List.takeWhile_append]
  split
  · rename_i hall
    have hwhole : t.takeWhile p = t := (List.takeWhile_prefix p).eq_of_length hall
    have hnone : s.takeWhile p = [] :=
      takeWhile_append_stop (fun _ h => absurd h List.not_mem_nil) hs
    rw [hnone, List.append_nil, hwhole]
  · rfl

theorem dropWhile_of_head (hs : ∀ c ∈ s.head?, p c = false) : s.dropWhile p = s := by
  cases s with
  | nil => rfl
  | cons c r => rw [dropWhile_cons_of_false (hs c rfl)]

/-- A span goes as far as it can. -/
theorem head_dropWhile (p : α → Bool) (s : List α) : ∀ c ∈ (s.dropWhile p).head?, p c = false := by
  intro c hc
  have hhead := List.head?_dropWhile_not p s
  rw [hc] at hhead
  exact hhead

theorem dropWhile_append_stop (ht : ∀ c ∈ t, p c = true) (hs : ∀ c ∈ s.head?, p c = false) :
    (t ++ s).dropWhile p = s := by
  rw [List.dropWhile_append_of_pos ht, dropWhile_of_head hs]

/-- A text with no blank at either end stays when it is trimmed. -/
theorem trim_eq {s : List Char} (hhead : ∀ c ∈ s.head?, isBlank c = false)
    (hlast : ∀ c ∈ s.getLast?, isBlank c = false) : trim s = s := by
  have hleft : trimLeft s = s := dropWhile_of_head hhead
  unfold trim
  rw [hleft]
  unfold trimRight
  rw [dropWhile_of_head, List.reverse_reverse]
  rwa [List.head?_reverse]

section Runs

variable {c : α}

/-- The longest runs of characters that satisfy a condition, and the other characters one by one. -/
def runs (p : α → Bool) (s : List α) : List (List α) := s.splitBy fun a b => p a && p b

theorem flatten_runs (p : α → Bool) (s : List α) : (runs p s).flatten = s :=
  List.flatten_splitBy _ s

theorem runs_append_stop (hne : t ≠ []) (ht : ∀ c ∈ t, p c = true)
    (hs : ∀ c ∈ s.head?, p c = false) : runs p (t ++ s) = t :: runs p s := by
  have hchain : t.IsChain fun a b => (p a && p b) = true := by
    refine List.Pairwise.isChain (List.pairwise_of_forall_mem_list fun a ha b hb => ?_)
    rw [ht a ha, ht b hb]
    rfl
  unfold runs
  rw [List.splitBy_append, List.splitBy_of_isChain hne hchain]
  · rfl
  · intro a _ b hb
    rw [hs b hb, Bool.and_false]

theorem runs_cons (hc : p c = false) (s : List α) : runs p (c :: s) = [c] :: runs p s := by
  unfold runs
  rw [← List.singleton_append, List.splitBy_append,
    List.splitBy_of_isChain (List.cons_ne_nil c []) (List.isChain_singleton c)]
  · rfl
  · intro a ha b _
    have hlast : c = a := Option.some.inj ha
    rw [← hlast, hc, Bool.false_and]

/-- What stands before a run, which nothing before it goes on with, is no part of it. -/
theorem not_of_before_run {last : Option α} (hne : t ≠ []) (ht : ∀ c ∈ t, p c = true)
    (h : ∀ c ∈ last, p c = true → ∀ d ∈ (t ++ s).head?, p d = false) : ∀ c ∈ last, p c = false := by
  obtain ⟨d, r, rfl⟩ := List.exists_cons_of_ne_nil hne
  intro c hc
  by_contra hchar
  have hd := h c hc (Bool.not_eq_false _ ▸ hchar) d rfl
  rw [ht d List.mem_cons_self] at hd
  exact Bool.false_ne_true hd.symm

/-- Going over a text run by run. What holds of all shorter texts may be used after a run. -/
theorem runs_induct (p : α → Bool) {motive : List α → Prop} (nil : motive [])
    (other : ∀ c s, p c = false → motive s → motive (c :: s))
    (run : ∀ t s, t ≠ [] → (∀ c ∈ t, p c = true) → (∀ c ∈ s.head?, p c = false) →
      (∀ r, r.length ≤ s.length → motive r) → motive (t ++ s)) (s : List α) : motive s := by
  induction hn : s.length using Nat.strong_induction_on generalizing s with
  | _ n ih =>
    subst hn
    cases s with
    | nil => exact nil
    | cons c s =>
      cases hc : p c with
      | false => exact other c s hc (ih s.length (Nat.lt_succ_self _) s rfl)
      | true =>
        have hsplit := List.takeWhile_append_dropWhile (p := p) (l := c :: s)
        have hne : (c :: s).takeWhile p ≠ [] := by
          rw [List.takeWhile_cons_of_pos hc]
          exact List.cons_ne_nil _ _
        have hstop := head_dropWhile p (c :: s)
        have hlength : ((c :: s).dropWhile p).length < (c :: s).length := by
          have h := congrArg List.length hsplit
          rw [List.length_append] at h
          have hpos := List.length_pos_iff.mpr hne
          omega
        rw [← hsplit]
        exact run _ _ hne (fun d hd => List.mem_takeWhile_imp hd) hstop
          fun r hr => ih r.length (hr.trans_lt hlength) r rfl

end Runs

end Spans

section Trimming

theorem trimRight_cons {c : Char} (hc : isBlank c = false) (s : List Char) :
    trimRight (c :: s) = c :: trimRight s := by
  unfold trimRight
  rw [List.reverse_cons, List.dropWhile_append]
  split
  · rename_i hnil
    rw [List.isEmpty_iff.mp hnil, List.dropWhile_cons_of_neg (by rw [hc]; exact Bool.false_ne_true)]
    rfl
  · rw [List.reverse_append]
    rfl

theorem trimRight_sublist (s : List Char) : (trimRight s).Sublist s :=
  (List.rdropWhile_prefix isBlank s).sublist

theorem trimLeft_cons {c : Char} (hc : isBlank c = false) (s : List Char) :
    trimLeft (c :: s) = c :: s :=
  List.dropWhile_cons_of_neg (by rw [hc]; exact Bool.false_ne_true)

/-- A blank in front is kept or goes with all that follows. -/
theorem trimLeft_trimRight_blank {c : Char} (hc : isBlank c = true) (s : List Char) :
    trimLeft (trimRight (c :: s)) = trimLeft (trimRight s) := by
  unfold trimRight
  rw [List.reverse_cons, List.dropWhile_append]
  split
  · rename_i hnil
    rw [List.isEmpty_iff.mp hnil, List.dropWhile_cons_of_pos hc]
    rfl
  · rw [List.reverse_append]
    exact List.dropWhile_cons_of_pos hc

theorem trimLeft_trimRight (s : List Char) : trimLeft (trimRight s) = trim s := by
  unfold trim
  induction s with
  | nil => rfl
  | cons c s ih =>
    cases hc : isBlank c with
    | true =>
      have hleft : trimLeft (c :: s) = trimLeft s := List.dropWhile_cons_of_pos hc
      rw [trimLeft_trimRight_blank hc, ih, hleft]
    | false =>
      rw [trimLeft_cons hc, trimRight_cons hc, trimLeft_cons hc]

theorem trimRight_idempotent (s : List Char) : trimRight (trimRight s) = trimRight s :=
  List.rdropWhile_idempotent isBlank s

theorem trim_trimRight (s : List Char) : trim (trimRight s) = trim s := by
  calc
    trim (trimRight s) = trimRight (trimLeft (trimRight s)) := rfl
    _ = trimRight (trim s) := by rw [trimLeft_trimRight]
    _ = trim s := trimRight_idempotent (trimLeft s)

theorem trim_trim (s : List Char) : trim (trim s) = trim s := by
  calc
    trim (trim s) = trim (trimLeft s) := trim_trimRight (trimLeft s)
    _ = trim s := congrArg trimRight (List.dropWhile_idempotent isBlank s)

section Blanks

variable {before after : List Char}

theorem trimLeft_append (hbefore : ∀ c ∈ before, isBlank c = true) (s : List Char) :
    trimLeft (before ++ s) = trimLeft s := List.dropWhile_append_of_pos hbefore

theorem trimRight_append (hafter : ∀ c ∈ after, isBlank c = true) (s : List Char) :
    trimRight (s ++ after) = trimRight s := by
  unfold trimRight
  rw [List.reverse_append,
    List.dropWhile_append_of_pos fun c hc => hafter c (List.mem_reverse.mp hc)]

/-- White space around a text does not matter to what is left of it. -/
theorem trim_around (hbefore : ∀ c ∈ before, isBlank c = true)
    (hafter : ∀ c ∈ after, isBlank c = true) (s : List Char) :
    trim (before ++ s ++ after) = trim s := by
  rw [← trimLeft_trimRight, trimRight_append hafter, trimLeft_trimRight]
  unfold trim
  rw [trimLeft_append hbefore]

/-- What trimming takes away is white space. -/
theorem exists_around_trim (s : List Char) : ∃ before after, s = before ++ trim s ++ after ∧
    (∀ c ∈ before, isBlank c = true) ∧ ∀ c ∈ after, isBlank c = true := by
  have hright : trim s ++ ((trimLeft s).reverse.takeWhile isBlank).reverse = trimLeft s := by
    unfold trim trimRight
    rw [← List.reverse_append, List.takeWhile_append_dropWhile, List.reverse_reverse]
  refine ⟨s.takeWhile isBlank, ((trimLeft s).reverse.takeWhile isBlank).reverse, ?_,
    fun c hc => List.mem_takeWhile_imp hc,
    fun c hc => List.mem_takeWhile_imp (List.mem_reverse.mp hc)⟩
  rw [List.append_assoc, hright]
  exact List.takeWhile_append_dropWhile.symm

end Blanks

end Trimming

end Reckoner.Text
