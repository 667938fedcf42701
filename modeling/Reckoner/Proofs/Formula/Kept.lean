import Reckoner.Proofs.Formula.Unnamed

/-!
What a round keeps of any text: the depth of the parentheses, the order of all characters that values
do not have, and that no known name stands in it. In a balanced text every call is closed, so a round
finds its calls.
-/
namespace Reckoner.Formula

open Text Number Arith

variable {table : FunctionTable} {resolve : Resolver} {last : Option Char}
  {gap a b t u value : List Char} {c : Char} {d : Nat} {x : Float}

section Depth

theorem depthThrough_literal (h : literal x = .ok value) (d : Nat) (s : List Char) :
    depthThrough d (value ++ s) = depthThrough d s := by
  have hnumeral : ∀ n : Numeral, ∀ c ∈ n.text, c ≠ '(' ∧ c ≠ ')' := fun n =>
    solid_lexeme (a := .numeral n) (by simp) (by simp)
  obtain ⟨n, rfl | rfl⟩ := literal_cases h
  · exact depthThrough_solid (hnumeral n) d s
  · have hsplit : '(' :: '-' :: n.text ++ [')'] ++ s = '(' :: '-' :: (n.text ++ ')' :: s) := by simp
    rw [hsplit, depthThrough_opening, depthThrough_other (by decide),
      depthThrough_solid (hnumeral n), depthThrough_closing]

/-- The name of a call opens one parenthesis. -/
theorem depthThrough_called (f : Name) (hgap : ∀ c ∈ gap, isBlank c = true) (rest : List Char)
    (d : Nat) : depthThrough d (f.chars ++ (gap ++ '(' :: rest)) = depthThrough (d + 1) rest := by
  have hname : ∀ c ∈ f.chars, c ≠ '(' ∧ c ≠ ')' :=
    solid_lexeme (a := .name f) (by simp) (by simp)
  have hblanks : ∀ c ∈ gap, c ≠ '(' ∧ c ≠ ')' := fun c hc => (solid_blank (hgap c hc)).2
  rw [depthThrough_solid hname, depthThrough_solid hblanks, depthThrough_opening]

theorem depthThrough_callText (f : Name) (hgap : ∀ c ∈ gap, isBlank c = true)
    (hclosed : closingFrom 1 1 (a ++ ')' :: b) = some (1 + a.length)) (d : Nat) :
    depthThrough d (callText f gap a ++ b) = depthThrough d b := by
  rw [callText_append, depthThrough_called f hgap]
  exact depthThrough_closed (d := 0) d hclosed

/-- A round keeps the depth of the parentheses. -/
theorem Replacement.depthThrough_eq (h : Replacement table resolve last t u) (d : Nat) :
    depthThrough d u = depthThrough d t := by
  induction h generalizing d with
  | nil => rfl
  | keep c _ ih =>
    unfold depthThrough
    simp only [ih]
  | call f _ hgap ha _ hvalue _ ih =>
    rw [depthThrough_literal hvalue, depthThrough_callText f hgap ha.closed, ih]

theorem exists_innermostAmong (text : List Char) {position : Nat} (h : depthThrough d t = some 0) :
    ∃ calls, innermostAmong text (callStartsFrom last position t) = .ok calls := by
  induction t generalizing last position d with
  | nil => exact ⟨[], rfl⟩
  | cons c r ih =>
    have hlater : ∃ calls,
        innermostAmong text (callStartsFrom (some c) (position + 1) r) = .ok calls := by
      unfold depthThrough at h
      split at h
      · exact ih h
      · split at h
        · split at h
          · exact absurd h (by simp)
          · exact ih h
        · exact ih h
    rw [callStartsFrom]
    split
    · rename_i hname
      cases hstart : callStartAt? position (c :: r) with
      | none => exact hlater
      | some start =>
        obtain ⟨f, gap, rest, hsplit, hgap⟩ :=
          exists_call (Bool.and_eq_true_iff.mp hname).2 hstart
        rw [hsplit, callStartAt?_opened f hgap] at hstart
        obtain rfl := Option.some.inj hstart
        rw [hsplit, depthThrough_called f hgap] at h
        have hdepth : depthThrough (0 + 1 + d) rest = some 0 := by
          rwa [Nat.zero_add, Nat.add_comm]
        obtain ⟨n, hclosing⟩ : ∃ n, closingFrom 0 0 ('(' :: rest) = some n := exists_closing hdepth
        obtain ⟨calls, hcalls⟩ := hlater
        rw [innermostAmong]
        dsimp only
        rw [hclosing, hcalls]
        dsimp only [bind, Except.bind]
        split
        · exact ⟨_, rfl⟩
        · exact ⟨_, rfl⟩
    · exact hlater

/-- In a balanced text every call is closed. -/
theorem exists_innermostCalls (h : depthThrough 0 t = some 0) :
    ∃ calls, innermostCalls t = .ok calls := exists_innermostAmong t h

end Depth

section Characters

/-- A round brings only characters of values. -/
theorem Replacement.filter_sublist {p : Char → Bool}
    (hp : ∀ c, isDigit c = true ∨ c ∈ ['.', '(', '-', ')'] → p c = false)
    (h : Replacement table resolve last t u) : (u.filter p).Sublist (t.filter p) := by
  induction h with
  | nil => exact List.Sublist.refl _
  | keep c _ ih =>
    rw [List.filter_cons, List.filter_cons]
    split
    · exact ih.cons_cons c
    · exact ih
  | call f _ _ _ _ hvalue _ ih =>
    have hnone : ∀ c ∈ _, ¬ p c = true := fun c hc =>
      Bool.eq_false_iff.mp (hp c (mem_literal hvalue c hc))
    rw [List.filter_append, List.filter_append, List.filter_eq_nil_iff.mpr hnone, List.nil_append]
    exact ih.trans (List.sublist_append_right _ _)

theorem Replacement.mem (h : Replacement table resolve last t u) :
    ∀ c ∈ u, c ∈ t ∨ isDigit c = true ∨ c ∈ ['.', '(', '-', ')'] := by
  induction h with
  | nil => exact fun c hc => absurd hc List.not_mem_nil
  | keep d _ ih =>
    exact List.forall_mem_cons.mpr ⟨Or.inl List.mem_cons_self,
      fun c hc => (ih c hc).imp_left (List.mem_cons_of_mem d)⟩
  | call f _ _ _ _ hvalue _ ih =>
    exact List.forall_mem_append.mpr ⟨fun c hc => Or.inr (mem_literal hvalue c hc),
      fun c hc => (ih c hc).imp_left (List.mem_append_right _)⟩

theorem Replacement.not_mem (h : Replacement table resolve last t u)
    (hdigit : isDigit c = false) (hmark : c ∉ ['.', '(', '-', ')']) (ht : c ∉ t) : c ∉ u := by
  intro hc
  rcases h.mem c hc with hc | hc | hc
  · exact ht hc
  · exact Bool.false_ne_true (hdigit.symm.trans hc)
  · exact hmark hc

theorem literal_ne_nil (h : literal x = .ok value) : value ≠ [] := by
  obtain ⟨n, rfl | rfl⟩ := literal_cases h
  · exact numeral_text_ne_nil n
  · exact List.cons_ne_nil _ _

/-- The first character that is not blank stays in a round, or the name of a call gives way there
to a number. -/
theorem Replacement.head (h : Replacement table resolve last t u) :
    (u.dropWhile isBlank).head? = (t.dropWhile isBlank).head? ∨
      ∃ c d, (t.dropWhile isBlank).head? = some c ∧ isNameStart c = true ∧
        (u.dropWhile isBlank).head? = some d ∧ (isDigit d = true ∨ d ∈ ['.', '(', '-', ')']) := by
  induction h with
  | nil => exact Or.inl rfl
  | keep c _ ih =>
    cases hc : isBlank c with
    | true =>
      rw [List.dropWhile_cons_of_pos hc, List.dropWhile_cons_of_pos hc]
      exact ih
    | false =>
      rw [dropWhile_cons_of_false hc, dropWhile_cons_of_false hc]
      exact Or.inl rfl
  | call f _ _ _ _ hvalue _ _ =>
    obtain ⟨c, r, hf, hstart, _⟩ := f.exists_cons
    obtain ⟨d, value, rfl⟩ := List.exists_cons_of_ne_nil (literal_ne_nil hvalue)
    have hd := mem_literal hvalue d List.mem_cons_self
    have hblank : isBlank d = false := by
      rcases hd with hdigit | hmark
      · exact isBlank_of_isWord (isWord_of_isDigit hdigit)
      · have hall : ∀ d ∈ ['.', '(', '-', ')'], isBlank d = false :=
          List.all_iff_forall_prop.mp (by decide)
        exact hall d hmark
    rw [callText_append, hf, List.cons_append, List.cons_append, dropWhile_cons_of_false hblank,
      dropWhile_cons_of_false (isBlank_of_isWord (isWord_of_isNameStart hstart))]
    exact Or.inr ⟨c, d, rfl, hstart, rfl, hd⟩

/-- A round brings no equals sign to the front. -/
theorem Replacement.equals (h : Replacement table resolve last t u)
    (ht : (t.dropWhile isBlank).head? ≠ some '=') : (u.dropWhile isBlank).head? ≠ some '=' := by
  rcases h.head with hsame | ⟨_, d, _, _, hu, hd⟩
  · rwa [hsame]
  · rw [hu]
    intro hequals
    obtain rfl := Option.some.inj hequals
    exact absurd hd (by decide)

end Characters

section Names

variable {names : List (List Char)}

theorem isNameStart_literal (h : literal x = .ok value) : ∀ c ∈ value, isNameStart c = false := by
  intro c hc
  rcases mem_literal h c hc with hdigit | hmark
  · exact isNameStart_of_isDigit hdigit
  · have hmarks : ∀ c ∈ ['.', '(', '-', ')'], isNameStart c = false :=
      List.all_iff_forall_prop.mp (by decide)
    exact hmarks c hmark

/-- After a word character a round goes on with the word. -/
theorem Replacement.after_word {e : Char} (he : isWord e = true)
    (h : Replacement table resolve (some e) t u) :
    u.takeWhile isWord = t.takeWhile isWord ∧
      ∃ last, Replacement table resolve last (t.dropWhile isWord) (u.dropWhile isWord) := by
  generalize hlast : some e = last at h
  induction h generalizing e with
  | nil => exact ⟨rfl, none, .nil⟩
  | @keep last r r' c h ih =>
    cases hc : isWord c with
    | true =>
      obtain ⟨htake, hdrop⟩ := ih hc rfl
      rw [List.takeWhile_cons_of_pos hc, List.takeWhile_cons_of_pos hc,
        List.dropWhile_cons_of_pos hc, List.dropWhile_cons_of_pos hc, htake]
      exact ⟨rfl, hdrop⟩
    | false =>
      have hc' : ¬ isWord c = true := Bool.eq_false_iff.mp hc
      rw [List.takeWhile_cons_of_neg hc', List.takeWhile_cons_of_neg hc',
        List.dropWhile_cons_of_neg hc', List.dropWhile_cons_of_neg hc']
      exact ⟨rfl, last, .keep c h⟩
  | call f hallows _ _ _ _ _ _ =>
    subst hlast
    unfold allowsName at hallows
    simp [he] at hallows

/-- Where a parenthesis comes next, one does after the round. -/
theorem Replacement.opening (h : Replacement table resolve last t u)
    (ht : startsWith (· == '(') (t.dropWhile isBlank) = true) :
    startsWith (· == '(') (u.dropWhile isBlank) = true := by
  rw [startsWith_eq_any] at ht ⊢
  rcases h.head with hsame | ⟨c, _, hc, hstart, _⟩
  · rwa [hsame]
  · rw [hc] at ht
    obtain rfl : c = '(' := eq_of_beq ht
    exact absurd hstart (by decide)

theorem not_startsWith_dropWhile (t : List Char) :
    startsWith isWord (t.dropWhile isWord) = false := startsWith_of_head (head_dropWhile isWord t)

/-- A name that ends after the round ended before it. -/
theorem Replacement.endsName (h : Replacement table resolve last t u)
    (ht : startsWith isWord t = false) (hu : Scope.endsName u = true) :
    Scope.endsName t = true := by
  rw [endsName_eq] at hu ⊢
  obtain ⟨_, hopening⟩ := Bool.and_eq_true_iff.mp hu
  rw [ht, Bool.not_false, Bool.true_and, Bool.not_eq_true']
  rw [Bool.not_eq_true'] at hopening
  exact Bool.eq_false_iff.mpr fun h' => Bool.false_ne_true (hopening.symm.trans (h.opening h'))

/-- Where no known name stands, none does after a round. -/
theorem Replacement.unnamed (hnames : ∀ n ∈ names, isIdentifier n = true)
    (h : Replacement table resolve last t u) (ht : Unnamed names last t) :
    Unnamed names last u := by
  induction h with
  | nil => exact ht
  | @keep last r r' c h ih =>
    obtain ⟨hfirst, hrest⟩ := unnamed_cons.mp ht
    refine unnamed_cons.mpr ⟨?_, ih hrest⟩
    cases hc : isWord c with
    | false =>
      refine Scope.nameAt?_of_head hnames fun e he => ?_
      rw [← Option.some.inj he, Bool.eq_false_iff]
      exact fun hstart => Bool.false_ne_true (hc.symm.trans (isWord_of_isNameStart hstart))
    | true =>
      obtain ⟨htake, next, hdrop⟩ := h.after_word hc
      rw [Scope.nameAt?_eq hnames, List.takeWhile_cons_of_pos hc, List.dropWhile_cons_of_pos hc]
        at hfirst ⊢
      rw [htake]
      refine if_neg fun hname => ?_
      have hends : Scope.endsName (r.dropWhile isWord) = true :=
        hdrop.endsName (not_startsWith_dropWhile r) hname.2.2
      rw [if_pos ⟨hname.1, hname.2.1, hends⟩] at hfirst
      exact absurd hfirst (by simp)
  | @call last gap a b b' value x f _ _ _ _ hvalue _ ih =>
    have hend : Scope.lastOf last (callText f gap a) = some ')' := by
      have hsplit : callText f gap a = f.chars ++ (gap ++ '(' :: a) ++ [')'] := by simp [callText]
      unfold Scope.lastOf
      rw [hsplit, List.getLast?_concat]
      rfl
    have hrest := ht.append_right
    rw [hend] at hrest
    exact unnamed_append hnames (isNameStart_literal hvalue) ((ih hrest).after (by decide) _)

end Names

end Reckoner.Formula
