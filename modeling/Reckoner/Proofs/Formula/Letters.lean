import Reckoner.Proofs.Formula.Semantics

/-!
Letters in the course of an evaluation. No step adds letters to a text, and the arguments of a call
have fewer of them than the text around, which has the name as well. The bound that ends the
recursion of the evaluation therefore never decides how an argument is evaluated.
-/
namespace Reckoner.Formula

open Text Number Arith

section Count

variable {s t : List Char} {c : Char}

theorem letterCount_le (h : s.Sublist t) : letterCount s ≤ letterCount t := h.countP_le

theorem letterCount_append (s t : List Char) :
    letterCount (s ++ t) = letterCount s + letterCount t := List.countP_append

theorem letterCount_cons_le (c : Char) (h : letterCount s ≤ letterCount t) :
    letterCount (c :: s) ≤ letterCount (c :: t) := by
  unfold letterCount at h ⊢
  rw [List.countP_cons, List.countP_cons]
  exact Nat.add_le_add_right h _

theorem letterCount_le_cons (c : Char) (h : letterCount s ≤ letterCount t) :
    letterCount s ≤ letterCount (c :: t) := h.trans (letterCount_le (List.sublist_cons_self c t))

theorem letterCount_space (s : List Char) : letterCount (' ' :: s) = letterCount s :=
  List.countP_cons_of_neg (by decide)

theorem letterCount_eq_zero (h : ∀ c ∈ s, isNameStart c = false) : letterCount s = 0 :=
  List.countP_eq_zero.mpr fun c hc hstart => Bool.false_ne_true ((h c hc).symm.trans hstart)

theorem trim_sublist (s : List Char) : (trim s).Sublist s :=
  (trimRight_sublist (trimLeft s)).trans (List.dropWhile_sublist isBlank)

end Count

section Canonical

theorem dropTagsFrom_sublist (inside : Bool) (s : List Char) :
    (dropTagsFrom inside s).Sublist s := by
  induction s generalizing inside with
  | nil => exact List.nil_sublist []
  | cons c r ih =>
    unfold dropTagsFrom
    split
    · exact (ih _).cons c
    · split
      · exact (ih true).cons c
      · exact (ih false).cons_cons c

theorem dropEquals_sublist (s : List Char) : (dropEquals s).Sublist s := by
  unfold dropEquals
  split
  · exact List.sublist_cons_self _ _
  · exact List.Sublist.refl s

theorem letterCount_operators (s : List Char) :
    letterCount (s.map operatorOf) ≤ letterCount s := by
  unfold letterCount
  rw [List.countP_map]
  refine List.countP_mono_left fun c _ h => ?_
  dsimp only [Function.comp_apply, operatorOf] at h
  split at h
  · exact absurd h (by decide)
  · split at h
    · exact absurd h (by decide)
    · split at h
      · exact absurd h (by decide)
      · exact h

theorem ungroupFrom_sublist (around : Surroundings) (within : Bool) (s : List Char) :
    (ungroupFrom around within s).Sublist s := by
  induction s generalizing around within with
  | nil => exact List.nil_sublist []
  | cons c r ih =>
    unfold ungroupFrom
    dsimp only
    split
    · split
      · exact (ih _ _).cons c
      · exact (ih _ _).cons_cons c
    · rw [Bool.false_and, if_neg Bool.false_ne_true]
      exact (ih _ _).cons_cons c

theorem letterCount_spaceAfterNames (named : Bool) (s : List Char) :
    letterCount (spaceAfterNames named s) ≤ letterCount s := by
  induction s generalizing named with
  | nil => exact Nat.le_refl _
  | cons c r ih =>
    unfold spaceAfterNames
    split
    · exact letterCount_cons_le c (ih _)
    · split
      · rw [letterCount_space]
        exact letterCount_cons_le c (ih false)
      · split
        · exact letterCount_le_cons c (ih true)
        · exact letterCount_cons_le c (ih false)

theorem letterCount_spaceBeforeNames (spaced : Bool) (s : List Char) :
    letterCount (spaceBeforeNames spaced s) ≤ letterCount s := by
  induction s generalizing spaced with
  | nil => exact Nat.le_refl _
  | cons c r ih =>
    unfold spaceBeforeNames
    split
    · exact letterCount_le_cons c (ih true)
    · split
      · refine letterCount_cons_le c ?_
        rw [letterCount_space]
        exact ih true
      · exact letterCount_cons_le c (ih false)

theorem letterCount_collapseBlanks (after : Bool) (s : List Char) :
    letterCount (collapseBlanks after s) ≤ letterCount s := by
  induction s generalizing after with
  | nil => exact Nat.le_refl _
  | cons c r ih =>
    unfold collapseBlanks
    split
    · split
      · exact letterCount_le_cons c (ih true)
      · rw [letterCount_space]
        exact letterCount_le_cons c (ih true)
    · exact letterCount_cons_le c (ih false)

theorem letterCount_canonical (s : List Char) : letterCount (canonical s) ≤ letterCount s := by
  have hbare : letterCount (dropCurrency ((dropEquals (trim (dropTags s))).map operatorOf)) ≤
      letterCount s := by
    calc
      _ ≤ letterCount ((dropEquals (trim (dropTags s))).map operatorOf) :=
        letterCount_le List.filter_sublist
      _ ≤ letterCount (dropEquals (trim (dropTags s))) := letterCount_operators _
      _ ≤ letterCount s := letterCount_le <| (dropEquals_sublist _).trans <|
        (trim_sublist _).trans (dropTagsFrom_sublist false s)
  unfold canonical
  dsimp only
  calc
    _ ≤ letterCount (collapseBlanks false (spaceBeforeNames false (spaceAfterNames false (ungroup
          (dropCurrency ((dropEquals (trim (dropTags s))).map operatorOf)))))) :=
      letterCount_le (trim_sublist _)
    _ ≤ letterCount (spaceBeforeNames false (spaceAfterNames false (ungroup
          (dropCurrency ((dropEquals (trim (dropTags s))).map operatorOf))))) :=
      letterCount_collapseBlanks false _
    _ ≤ letterCount (spaceAfterNames false (ungroup
          (dropCurrency ((dropEquals (trim (dropTags s))).map operatorOf)))) :=
      letterCount_spaceBeforeNames false _
    _ ≤ letterCount (ungroup
          (dropCurrency ((dropEquals (trim (dropTags s))).map operatorOf))) :=
      letterCount_spaceAfterNames false _
    _ ≤ letterCount (dropCurrency ((dropEquals (trim (dropTags s))).map operatorOf)) :=
      letterCount_le (ungroupFrom_sublist .start false _)
    _ ≤ letterCount s := hbare

end Canonical

section Substitution

variable {scope : Scope} {s t : List Char}

/-- The text of a value has no letters. -/
theorem letterCount_literal {x : Float} (h : literal x = .ok t) : letterCount t = 0 := by
  obtain ⟨n, ht⟩ := literal_cases h
  have hnumeral : letterCount n.text = 0 := by
    refine letterCount_eq_zero fun c hc => ?_
    rcases mem_numeral_text hc with hdigit | rfl
    · exact isNameStart_of_isDigit hdigit
    · decide
  rcases ht with rfl | rfl
  · exact hnumeral
  · calc
      letterCount ('(' :: '-' :: n.text ++ [')']) = letterCount (['(', '-'] ++ (n.text ++ [')'])) :=
        rfl
      _ = 0 := by
        rw [letterCount_append, letterCount_append, hnumeral]
        decide

theorem letterCount_lineLiteral {digits : List Char} (h : scope.lineLiteral digits = .ok t) :
    letterCount t = 0 := by
  unfold Scope.lineLiteral at h
  split at h
  · exact absurd h (by simp)
  · split at h
    · exact letterCount_literal h
    · obtain rfl := Except.ok.inj h
      decide

theorem letterCount_substituteLines {within : Bool} (h : scope.substituteLines within s = .ok t) :
    letterCount t ≤ letterCount s := by
  induction s generalizing within t with
  | nil =>
    obtain rfl := Except.ok.inj h
    exact Nat.le_refl _
  | cons c r ih =>
    unfold Scope.substituteLines at h
    dsimp only at h
    split at h
    · exact letterCount_le_cons c (ih h)
    · split at h
      · obtain ⟨value, hvalue, h⟩ := bind_eq_ok h
        obtain ⟨rest, hrest, h⟩ := bind_eq_ok h
        obtain rfl := Except.ok.inj h
        rw [letterCount_append, letterCount_lineLiteral hvalue, Nat.zero_add]
        exact letterCount_le_cons c (ih hrest)
      · obtain ⟨rest, hrest, h⟩ := bind_eq_ok h
        obtain rfl := Except.ok.inj h
        exact letterCount_cons_le c (ih hrest)

theorem letterCount_substituteNames {names : List (List Char)} {last : Option Char} {skip : Nat}
    (h : scope.substituteNames names last skip s = .ok t) : letterCount t ≤ letterCount s := by
  induction s generalizing last skip t with
  | nil =>
    unfold Scope.substituteNames at h
    split at h
    · exact (letterCount_literal h).le
    · obtain rfl := Except.ok.inj h
      exact Nat.le_refl _
  | cons c r ih =>
    unfold Scope.substituteNames at h
    split at h
    · exact letterCount_le_cons c (ih h)
    · split at h
      · obtain ⟨rest, hrest, h⟩ := bind_eq_ok h
        obtain rfl := Except.ok.inj h
        exact letterCount_cons_le c (ih hrest)
      · obtain ⟨value, hvalue, h⟩ := bind_eq_ok h
        obtain ⟨rest, hrest, h⟩ := bind_eq_ok h
        obtain rfl := Except.ok.inj h
        rw [letterCount_append, letterCount_literal hvalue, Nat.zero_add]
        exact letterCount_cons_le c (ih hrest)
      · obtain ⟨value, hvalue, h⟩ := bind_eq_ok h
        obtain ⟨rest, hrest, h⟩ := bind_eq_ok h
        obtain rfl := Except.ok.inj h
        rw [letterCount_append, letterCount_literal hvalue, Nat.zero_add]
        exact letterCount_le_cons c (ih hrest)

theorem asBreakdown_eq_ok {α : Type} {r : Except Breakdown α} {a : α}
    (h : asBreakdown r = .ok a) : r = .ok a := by
  cases r with
  | error _ => exact absurd h (by simp [asBreakdown])
  | ok b => exact congrArg Except.ok (Except.ok.inj h)

theorem letterCount_prepare (h : prepare scope s = .ok t) : letterCount t ≤ letterCount s := by
  obtain ⟨u, hu, h⟩ := bind_eq_ok h
  obtain rfl := Except.ok.inj h
  obtain ⟨v, hv, hnames⟩ := bind_eq_ok (asBreakdown_eq_ok hu)
  exact (letterCount_canonical u).trans <|
    (letterCount_substituteNames hnames).trans (letterCount_substituteLines hv)

end Substitution

section Calls

variable {s t : List Char}

theorem callStartAt?_spec {position : Nat} {call : CallStart}
    (h : callStartAt? position s = some call) :
    call.start ≤ call.paren ∧ call.rest.Sublist (s.dropWhile isWord) := by
  unfold callStartAt? at h
  dsimp only at h
  split at h
  · rename_i rest heq
    obtain rfl := Option.some.inj h
    refine ⟨Nat.le_trans (Nat.le_add_right _ _) (Nat.le_add_right _ _), ?_⟩
    dsimp only
    rw [← heq]
    exact List.dropWhile_sublist isBlank
  · exact absurd h (by simp)

/-- What follows a call start has fewer letters than the text, which has the name as well. -/
theorem mem_callStartsFrom {last : Option Char} {position : Nat} {call : CallStart}
    (h : call ∈ callStartsFrom last position s) :
    call.start ≤ call.paren ∧ letterCount call.rest < letterCount s := by
  induction s generalizing last position with
  | nil => exact absurd h List.not_mem_nil
  | cons c r ih =>
    have hlater : call ∈ callStartsFrom (some c) (position + 1) r →
        call.start ≤ call.paren ∧ letterCount call.rest < letterCount (c :: r) := by
      intro hmem
      obtain ⟨hle, hlt⟩ := ih hmem
      exact ⟨hle, hlt.trans_le (letterCount_le_cons c (Nat.le_refl _))⟩
    unfold callStartsFrom at h
    dsimp only at h
    split at h
    · rename_i hname
      have hstart : isNameStart c = true := (Bool.and_eq_true _ _ ▸ hname).2
      split at h
      · rename_i first hfirst
        rcases List.mem_cons.mp h with rfl | h
        · obtain ⟨hle, hrest⟩ := callStartAt?_spec hfirst
          refine ⟨hle, ?_⟩
          rw [List.dropWhile_cons_of_pos (isWord_of_isNameStart hstart)] at hrest
          have hcount : letterCount (c :: r) = letterCount r + 1 :=
            List.countP_cons_of_pos hstart
          rw [hcount]
          exact Nat.lt_succ_of_le (letterCount_le (hrest.trans (List.dropWhile_sublist isWord)))
        · exact hlater h
      · exact hlater h
    · exact hlater h

theorem mem_innermostAmong {starts : List CallStart} {calls : List Call} {c : Call}
    (h : innermostAmong s starts = .ok calls) (hc : c ∈ calls) :
    ∃ call ∈ starts, c.start = call.start ∧ call.paren ≤ c.stop ∧
      c.arguments.Sublist call.rest := by
  induction starts generalizing calls with
  | nil =>
    obtain rfl := Except.ok.inj h
    exact absurd hc List.not_mem_nil
  | cons call later ih =>
    have hlater : ∀ {calls}, innermostAmong s later = .ok calls → c ∈ calls →
        ∃ call' ∈ call :: later, c.start = call'.start ∧ call'.paren ≤ c.stop ∧
          c.arguments.Sublist call'.rest := by
      intro calls hcalls hmem
      obtain ⟨call', hcall', hparts⟩ := ih hcalls hmem
      exact ⟨call', List.mem_cons_of_mem _ hcall', hparts⟩
    unfold innermostAmong at h
    split at h
    · exact absurd h (by simp)
    · rename_i distance _
      obtain ⟨calls', hcalls', h⟩ := bind_eq_ok h
      split at h
      · obtain rfl := Except.ok.inj h
        rcases List.mem_cons.mp hc with rfl | hc
        · refine ⟨call, List.mem_cons_self, rfl, ?_, ?_⟩
          · exact Nat.le_trans (Nat.le_add_right _ _) (Nat.le_succ _)
          · exact (List.take_sublist _ _).trans (List.drop_sublist _ _)
        · exact hlater hcalls' hc
      · obtain rfl := Except.ok.inj h
        exact hlater hcalls' hc

/-- The arguments of a call have fewer letters than the text. -/
theorem mem_innermostCalls {calls : List Call} {c : Call} (h : innermostCalls s = .ok calls)
    (hc : c ∈ calls) : c.start ≤ c.stop ∧ letterCount c.arguments < letterCount s := by
  obtain ⟨call, hcall, hstart, hstop, harguments⟩ := mem_innermostAmong h hc
  obtain ⟨hle, hlt⟩ := mem_callStartsFrom hcall
  exact ⟨hstart ▸ hle.trans hstop, (letterCount_le harguments).trans_lt hlt⟩

theorem piecesFrom_sublist (depth : Int) : ∀ piece ∈ piecesFrom depth s, piece.Sublist s := by
  induction s generalizing depth with
  | nil =>
    intro piece hpiece
    rw [List.mem_singleton.mp hpiece]
  | cons c r ih =>
    intro piece hpiece
    unfold piecesFrom at hpiece
    split at hpiece
    · rcases List.mem_cons.mp hpiece with rfl | hpiece
      · exact List.nil_sublist _
      · exact (ih 0 piece hpiece).cons c
    · dsimp only at hpiece
      split at hpiece
      · rename_i first rest heq
        rcases List.mem_cons.mp hpiece with rfl | hpiece
        · exact (ih _ first (heq ▸ List.mem_cons_self)).cons_cons c
        · exact (ih _ piece (heq ▸ List.mem_cons_of_mem first hpiece)).cons c
      · rw [List.mem_singleton.mp hpiece]
        exact (List.nil_sublist r).cons_cons c

theorem letterCount_argument {a : List Char} (h : a ∈ splitArguments s) :
    letterCount (trim a) ≤ letterCount s := by
  unfold splitArguments at h
  split at h
  · exact absurd h List.not_mem_nil
  · obtain ⟨piece, hpiece, rfl⟩ := List.mem_map.mp h
    exact letterCount_le <| (trim_sublist _).trans <|
      (trim_sublist piece).trans (piecesFrom_sublist 0 piece hpiece)

end Calls

section Rounds

variable {table : FunctionTable} {resolve resolve' : Resolver} {s t : List Char}

theorem letterCount_replaced {start stop : Nat} (h : start ≤ stop) (ht : letterCount t = 0)
    (s : List Char) : letterCount (s.take start ++ t ++ s.drop stop) ≤ letterCount s := by
  have hdrop : (s.drop stop).Sublist (s.drop start) := by
    rw [← Nat.add_sub_of_le h, ← List.drop_drop]
    exact List.drop_sublist _ _
  calc
    _ = letterCount (s.take start) + letterCount (s.drop stop) := by
      rw [letterCount_append, letterCount_append, ht, Nat.add_zero]
    _ ≤ letterCount (s.take start) + letterCount (s.drop start) :=
      Nat.add_le_add_left (letterCount_le hdrop) _
    _ = letterCount s := by rw [← letterCount_append, List.take_append_drop]

/-- Replacing calls evaluates the first one last. -/
theorem replaceCalls_cons_eq_ok {c : Call} {later : List Call}
    (h : replaceCalls table resolve s (c :: later) = .ok t) :
    ∃ u x value, replaceCalls table resolve s later = .ok u ∧
      call table resolve c.name (splitArguments c.arguments) = .ok x ∧
      literal x = .ok value ∧ t = u.take c.start ++ value ++ u.drop c.stop := by
  obtain ⟨u, hu, h⟩ := bind_eq_ok h
  obtain ⟨x, hx, h⟩ := bind_eq_ok h
  obtain ⟨value, hvalue, h⟩ := bind_eq_ok h
  exact ⟨u, x, value, hu, hx, asBreakdown_eq_ok hvalue, (Except.ok.inj h).symm⟩

theorem letterCount_replaceCalls {calls : List Call} (hcalls : ∀ c ∈ calls, c.start ≤ c.stop)
    (h : replaceCalls table resolve s calls = .ok t) : letterCount t ≤ letterCount s := by
  induction calls generalizing t with
  | nil =>
    obtain rfl := Except.ok.inj h
    exact Nat.le_refl _
  | cons c later ih =>
    obtain ⟨u, x, value, hu, _, hvalue, rfl⟩ := replaceCalls_cons_eq_ok h
    exact (letterCount_replaced (hcalls c List.mem_cons_self) (letterCount_literal hvalue) u).trans
      (ih (fun c hc => hcalls c (List.mem_cons_of_mem _ hc)) hu)

theorem call_congr (f : List Char) {arguments : List (List Char)}
    (h : ∀ a ∈ arguments, resolve (trim a) = resolve' (trim a)) :
    call table resolve f arguments = call table resolve' f arguments := by
  have harguments : ∀ g, resolveArguments g resolve arguments =
      resolveArguments g resolve' arguments := by
    intro g
    induction arguments with
    | nil => rfl
    | cons a rest ih =>
      have hhead : resolveArgument g resolve a = resolveArgument g resolve' a := by
        unfold resolveArgument
        dsimp only
        rw [h a List.mem_cons_self]
      rw [resolveArguments, resolveArguments, hhead,
        ih fun b hb => h b (List.mem_cons_of_mem _ hb)]
  unfold call
  simp only [harguments]

/-- Only what a resolver gives for the arguments of the calls matters. -/
theorem replaceCalls_congr {calls : List Call} (h : ∀ c ∈ calls,
      ∀ a ∈ splitArguments c.arguments, resolve (trim a) = resolve' (trim a)) (s : List Char) :
    replaceCalls table resolve s calls = replaceCalls table resolve' s calls := by
  induction calls with
  | nil => rfl
  | cons c later ih =>
    have hcall : call table resolve c.name (splitArguments c.arguments) =
        call table resolve' c.name (splitArguments c.arguments) :=
      call_congr c.name (h c List.mem_cons_self)
    rw [replaceCalls, replaceCalls, hcall, ih fun c hc => h c (List.mem_cons_of_mem _ hc)]

/-- Only what a resolver gives for texts with fewer letters matters. -/
theorem replaceRounds_congr (h : ∀ a, letterCount a < letterCount s → resolve a = resolve' a)
    (bound : Int) (left : Nat) :
    replaceRounds table resolve bound left s = replaceRounds table resolve' bound left s := by
  refine replaceRounds_eq_of_step (P := fun t => letterCount t ≤ letterCount s)
    (fun t calls hle hcalls => ?_) (fun t calls u hle hcalls hround => ?_) (Nat.le_refl _) bound left
  · refine replaceCalls_congr (fun c hc a ha => h _ ?_) t
    exact (letterCount_argument ha).trans_lt ((mem_innermostCalls hcalls hc).2.trans_le hle)
  · exact (letterCount_replaceCalls (fun c hc => (mem_innermostCalls hcalls hc).1) hround).trans hle

/-- The value of a text, where every argument is evaluated in the same way. -/
theorem evaluate_rounds (table : FunctionTable) (depth : Int) (scope : Scope) (s : List Char) :
    evaluate table depth scope s =
      (prepare scope s).bind fun text =>
        (resolveCalls table (evaluate table depth scope) depth text).bind settleText := by
  rw [evaluate_eq]
  cases hprepare : prepare scope s with
  | error _ => rfl
  | ok text =>
    have hresolve : resolveCalls table (resolverFor table depth scope s) depth text =
        resolveCalls table (evaluate table depth scope) depth text := by
      refine replaceRounds_congr (fun a ha => ?_) depth depth.toNat
      exact if_pos (ha.trans_le (letterCount_prepare hprepare))
    exact congrArg (fun r => Except.bind r settleText) hresolve

end Rounds

end Reckoner.Formula
