import Reckoner.Proofs.Formula.SplicedNames

/-!
The arguments of a call that holds no further call. Where operands stand apart, the commas between
its parentheses are those between its arguments, since one in further parentheses would be refused.
When every argument has a value and can be read, the arguments can be read one after the other.
-/
namespace Reckoner.Formula

open Text Number Arith

variable {table : FunctionTable} {place : Place} {s t r w : List Char} {c : Char}
  {last : Option Char} {position : Nat}

section Starts

theorem callStartsFrom_mark (hc : isOperandChar c = false) (r : List Char) :
    callStartsFrom last position (c :: r) = callStartsFrom (some c) (position + 1) r := by
  rw [callStartsFrom, isNameStart_of_not_operand hc, Bool.and_false, if_neg Bool.false_ne_true]

/-- No call starts in the white space before a parenthesis. -/
theorem callStartsFrom_gap {gap : List Char} (hgap : ∀ c ∈ gap, isBlank c = true) (r : List Char) :
    callStartsFrom last position (gap ++ '(' :: r) =
      callStartsFrom (some '(') (position + gap.length + 1) r := by
  rw [callStartsFrom_append fun c hc =>
      isNameStart_of_not_operand (isOperandChar_of_isBlank (hgap c hc)),
    callStartsFrom_mark (by decide)]

/-- No call starts within a run of operand characters. -/
theorem callStartsFrom_run {d : Char} (hd : isOperandChar d = true ∧ d ≠ '@')
    (ht : ∀ c ∈ t, isOperandChar c = true ∧ c ≠ '@') (s : List Char) :
    callStartsFrom (some d) position (t ++ s) =
      callStartsFrom (Scope.lastOf (some d) t) (position + t.length) s := by
  refine callStartsFrom_disallowed (p := fun c => isOperandChar c = true ∧ c ≠ '@')
    (fun c hc => ?_) hd ht s
  have hword : (isWord c || c == '.' || c == '@') = true := hc.1
  rw [beq_eq_false_iff_ne.mpr hc.2, Bool.or_false] at hword
  change (!(isWord c || c == '.')) = false
  rw [hword]
  rfl

/-- A word that is no name goes on behind its first name with a point, so no call starts with it. -/
theorem callStartAt?_of_not_identifier (hc : isNameStart c = true)
    (hall : ∀ d ∈ c :: w, isOperandChar d = true ∧ d ≠ '@')
    (hname : ¬ isIdentifier (c :: w) = true) (r : List Char) :
    callStartAt? position (c :: w ++ r) = none := by
  have hword : ¬ ∀ d ∈ c :: w, isWord d = true := fun hword => hname
    (Bool.and_eq_true_iff.mpr ⟨hc, List.all_eq_true.mpr fun d hd => hword d (List.mem_cons_of_mem c hd)⟩)
  have hrest : (c :: w).dropWhile isWord ≠ [] := fun hnil => hword (List.dropWhile_eq_nil_iff.mp hnil)
  obtain ⟨d, rest, hd⟩ := List.exists_cons_of_ne_nil hrest
  have hmem : d ∈ c :: w :=
    (List.dropWhile_sublist isWord).subset (hd ▸ List.mem_cons_self)
  have hoperand := (hall d hmem).1
  have hblank : ¬ isBlank d = true := by
    rw [isBlank_of_isOperandChar hoperand]
    exact Bool.false_ne_true
  unfold callStartAt?
  dsimp only
  rw [List.dropWhile_append, hd, List.isEmpty_cons, if_neg Bool.false_ne_true, List.cons_append,
    List.dropWhile_cons_of_neg hblank]
  split
  · rename_i heq
    rw [(List.cons.inj heq).1] at hoperand
    exact absurd hoperand (by decide)
  · rfl

/-- A call may start where a word without line references does, when the word is a name. -/
theorem callStartsFrom_plainWord (hw : w ≠ [])
    (hall : ∀ c ∈ w, isOperandChar c = true ∧ c ≠ '@') (hr : startsWith isOperandChar r = false)
    (hlast : ∀ c ∈ last, isOperandChar c = false) :
    callStartsFrom last position (w ++ r) =
      (if isIdentifier w = true then (callStartAt? position (w ++ r)).toList else []) ++
        callStartsFrom none (position + w.length) r := by
  rw [← callStartsFrom_stop (head_not_word hr) (Scope.lastOf last w)]
  obtain ⟨c, w, rfl⟩ := List.exists_cons_of_ne_nil hw
  have hrest : callStartsFrom (some c) (position + 1) (w ++ r) =
      callStartsFrom (Scope.lastOf last (c :: w)) (position + (c :: w).length) r := by
    rw [callStartsFrom_run (hall c List.mem_cons_self)
      (fun d hd => hall d (List.mem_cons_of_mem c hd)), Scope.lastOf_cons, List.length_cons,
      Nat.add_right_comm, Nat.add_assoc]
  have hallowed : allowsName last = true := by
    cases last with
    | none => rfl
    | some d =>
      have hd : (isWord d || d == '.' || d == '@') = false := hlast d rfl
      change (!(isWord d || d == '.')) = true
      rw [(Bool.or_eq_false_iff.mp hd).1]
      rfl
  rw [List.cons_append, callStartsFrom, hrest, hallowed, Bool.true_and]
  cases hc : isNameStart c with
  | false =>
    have hidentifier : isIdentifier (c :: w) = false := Bool.and_eq_false_iff.mpr (Or.inl hc)
    rw [hidentifier]
    rfl
  | true =>
    rw [if_pos rfl]
    by_cases hname : isIdentifier (c :: w) = true
    · rw [if_pos hname]
      cases callStartAt? position (c :: (w ++ r)) <;> rfl
    · have hnone : callStartAt? position (c :: (w ++ r)) = none :=
        callStartAt?_of_not_identifier hc hall hname r
      rw [if_neg hname, hnone]
      rfl

/-- A call may start where a word does, when the word is a name. -/
theorem callStartsFrom_word (hw : w ≠ []) (hall : ∀ c ∈ w, isOperandChar c = true)
    (hr : startsWith isOperandChar r = false) (hallows : place.Allows table (.word w))
    (hlast : ∀ c ∈ last, isOperandChar c = false) :
    callStartsFrom last position (w ++ r) =
      (if isIdentifier w = true then (callStartAt? position (w ++ r)).toList else []) ++
        callStartsFrom none (position + w.length) r := by
  by_cases hat : '@' ∈ w
  · have hreference := hallows.reference w rfl hat
    rw [← callStartsFrom_stop (head_not_word hr) (Scope.lastOf last w),
      if_neg (by rw [not_identifier_of_reference hreference]; exact Bool.false_ne_true),
      List.nil_append]
    obtain ⟨digits, _, hdigits, rfl⟩ := hreference
    refine callStartsFrom_append (fun c hc => ?_) r
    rcases List.mem_cons.mp hc with rfl | hc
    · decide
    · exact isNameStart_of_isDigit (hdigits c hc)
  · exact callStartsFrom_plainWord hw (fun d hd => ⟨hall d hd, fun h => hat (h ▸ hd)⟩) hr hlast

/-- A name with a parenthesis after it starts a call. -/
theorem callStartAt?_word (hw : isIdentifier w = true) (hr : startsWith isOperandChar r = false)
    {rest : List Char} (hopening : r.dropWhile isBlank = '(' :: rest) :
    callStartAt? position (w ++ r) =
      some ⟨w, position, position + w.length + (r.takeWhile isBlank).length, '(' :: rest⟩ := by
  have hword := Scope.isWord_of_identifier hw
  have hstop := head_not_word hr
  unfold callStartAt?
  rw [dropWhile_append_stop hword hstop, takeWhile_append_stop hword hstop, hopening]
  rfl

end Starts

section Commas

theorem not_mem_prependTo {d : Char} {ps : List (List Char)} (ht : d ∉ t) (h : ∀ p ∈ ps, d ∉ p) :
    ∀ p ∈ prependTo t ps, d ∉ p := by
  intro p hp
  cases ps with
  | nil => rwa [List.mem_singleton.mp hp]
  | cons q ps =>
    rcases List.mem_cons.mp hp with rfl | hp
    · exact fun hd => (List.mem_append.mp hd).elim ht (h q List.mem_cons_self)
    · exact h p (List.mem_cons_of_mem q hp)

/-- A character that is not the closing parenthesis looked for only changes the depth. -/
theorem exists_depth {c : Char} {d distance : Nat}
    (h : closingFrom (d + 1) distance (c :: r ++ ')' :: s) = some (distance + (c :: r).length)) :
    ∃ e : Nat, depthAfter d c = e ∧
      closingFrom (e + 1) (distance + 1) (r ++ ')' :: s) = some (distance + 1 + r.length) := by
  have hlength : distance + (c :: r).length = distance + 1 + r.length := by
    rw [List.length_cons]
    omega
  rw [hlength, List.cons_append, closingFrom] at h
  unfold depthAfter
  by_cases hopen : c = '('
  · rw [if_pos hopen] at h ⊢
    exact ⟨d + 1, rfl, h⟩
  rw [if_neg hopen] at h ⊢
  by_cases hclose : c = ')'
  · rw [if_pos hclose] at h ⊢
    cases d with
    | zero =>
      rw [if_pos (by omega)] at h
      exact absurd (Option.some.inj h) (by omega)
    | succ d =>
      rw [if_neg (by omega), Int.add_sub_cancel] at h
      exact ⟨d, by rw [Nat.cast_succ, Int.add_sub_cancel], h⟩
  · rw [if_neg hclose] at h ⊢
    exact ⟨d, rfl, h⟩

/-- What is open inside a call goes with the depth, since no further call is opened. -/
theorem opened_of_depth {c : Char} {d e : Nat} {outer : List Bool} (he : depthAfter d c = e)
    (hname : c = '(' → place.followsName = false)
    (h : place.opened = List.replicate d false ++ true :: outer) :
    (place.advance (.mark c)).opened = List.replicate e false ++ true :: outer := by
  unfold depthAfter at he
  by_cases hopen : c = '('
  · rw [if_pos hopen] at he
    obtain rfl : e = d + 1 := by omega
    subst hopen
    change place.followsName :: place.opened = _
    rw [hname rfl, h]
    rfl
  rw [if_neg hopen] at he
  by_cases hclose : c = ')'
  · rw [if_pos hclose] at he
    obtain rfl : d = e + 1 := by omega
    subst hclose
    change place.opened.tail = _
    rw [h]
    rfl
  · rw [if_neg hclose] at he
    obtain rfl : e = d := by omega
    rw [advance_opened (by simpa using hopen) (by simpa using hclose), h]

theorem comma_not_mem_pieces_cons {c : Char} {depth : Int} (hc : c ≠ ',')
    (h : ∀ piece ∈ piecesFrom (depthAfter depth c) r, ',' ∉ piece) :
    ∀ piece ∈ piecesFrom depth (c :: r), ',' ∉ piece := by
  rw [piecesFrom_cons fun h => hc h.1]
  exact not_mem_prependTo (by simpa using hc.symm) h

/-- A comma of a call, where it is allowed, is in no further parentheses and separates arguments. -/
theorem comma_not_mem_pieces_comma {d : Nat} {outer : List Bool}
    (hopened : place.opened = List.replicate d false ++ true :: outer)
    (hallows : place.Allows table (.mark ',')) (h : ∀ piece ∈ piecesFrom d r, ',' ∉ piece) :
    ∀ piece ∈ piecesFrom d (',' :: r), ',' ∉ piece := by
  cases d with
  | zero =>
    rw [piecesFrom, if_pos ⟨rfl, rfl⟩]
    exact List.forall_mem_cons.mpr ⟨List.not_mem_nil, h⟩
  | succ d =>
    refine absurd ?_ (hallows.comma rfl (by rw [hopened]; rfl))
    rw [hopened]
    exact List.mem_append_right _ List.mem_cons_self

/-- In the arguments of a call that holds no further call, a comma in further parentheses would be
refused, so every comma separates arguments. -/
theorem comma_not_mem_pieces {d distance : Nat} {outer : List Bool}
    (hopened : place.opened = List.replicate d false ++ true :: outer)
    (ha : Apart table place (segments t)) (hstarts : callStartsFrom last position t = [])
    (hlast : startsWith isOperandChar t = true → ∀ c ∈ last, isOperandChar c = false)
    (hname : place.followsName = true → (segments t).head? ≠ some (.mark '('))
    (hclosing : closingFrom (d + 1) distance (t ++ ')' :: s) = some (distance + t.length)) :
    ∀ piece ∈ piecesFrom d t, ',' ∉ piece := by
  induction t using segments_induct generalizing d distance place last position with
  | nil =>
    intro piece hpiece
    rw [List.mem_singleton.mp hpiece]
    exact List.not_mem_nil
  | mark c r hc ih =>
    rw [callStartsFrom_mark hc] at hstarts
    have hlast' : startsWith isOperandChar r = true → ∀ e ∈ some c, isOperandChar e = false :=
      fun _ e he => Option.some.inj he ▸ hc
    obtain ⟨e, he, hclosing⟩ := exists_depth hclosing
    cases hblank : isBlank c with
    | true =>
      obtain ⟨hcomma, hopen, hclose⟩ := solid_blank hblank
      have hsame : e = d := by
        rw [depthAfter, if_neg hopen, if_neg hclose] at he
        omega
      rw [segments_blank hblank] at ha hname
      exact comma_not_mem_pieces_cons hcomma
        (he ▸ ih (hsame ▸ hopened) ha hstarts hlast' hname hclosing)
    | false =>
      have hjoint : c = ')' → startsWith isOperandChar r = false := fun h => by
        subst h
        exact ha.closing
      rw [segments_mark hc hblank hjoint] at ha hname
      have hnext : (place.advance (.mark c)).followsName = true →
          (segments r).head? ≠ some (.mark '(') := fun h => absurd h Bool.false_ne_true
      have hpieces := ih
        (opened_of_depth he (fun hopen => Bool.eq_false_iff.mpr fun h => hname h (hopen ▸ rfl))
          hopened) ha.tail hstarts hlast' hnext hclosing
      by_cases hcomma : c = ','
      · subst hcomma
        obtain rfl : e = d := (Int.ofNat.inj he).symm
        exact comma_not_mem_pieces_comma hopened ha.head hpieces
      · exact comma_not_mem_pieces_cons hcomma (he ▸ hpieces)
  | word w r hw hall hr ih =>
    have hsolid : ∀ c ∈ w, c ≠ ',' ∧ c ≠ '(' ∧ c ≠ ')' := fun c hc => solid_operand (hall c hc)
    rw [segments_word hw hall hr] at ha
    have hfree : ∀ e ∈ last, isOperandChar e = false :=
      hlast (by rw [startsWith_append hw]; exact startsWith_of_all hw hall)
    rw [callStartsFrom_word hw hall hr ha.head hfree, List.append_eq_nil_iff] at hstarts
    rw [List.append_assoc, closingFrom_append (fun c hc => (hsolid c hc).2), List.length_append,
      ← Nat.add_assoc] at hclosing
    rw [uncut_solid (fun c hc => ⟨fun h => (hsolid c hc).1 h.1, (hsolid c hc).2⟩)]
    refine not_mem_prependTo (fun h => (hsolid _ h).1 rfl)
      (ih r (Nat.le_refl _) ((advance_opened (by simp) (by simp)).trans hopened) ha.tail hstarts.2
        (fun h => absurd (hr.symm.trans h) Bool.false_ne_true) (fun hidentifier hhead => ?_) hclosing)
    -- a name before a parenthesis would start a call
    have hidentifier : isIdentifier w = true := hidentifier
    obtain ⟨rest, hrest⟩ := exists_opening hhead
    have hnone := hstarts.1
    rw [if_pos hidentifier, callStartAt?_word hidentifier hr hrest] at hnone
    exact absurd hnone (List.cons_ne_nil _ _)

end Commas

section Pieces

theorem intercalate_prependTo (c : Char) {ps : List (List Char)} (h : ps ≠ []) :
    [','].intercalate (prependTo [c] ps) = c :: [','].intercalate ps := by
  obtain ⟨p, ps, rfl⟩ := List.exists_cons_of_ne_nil h
  change [','].intercalate ((c :: p) :: ps) = _
  cases ps with
  | nil => rw [List.intercalate_singleton, List.intercalate_singleton]
  | cons q ps => rw [List.intercalate_cons_cons, List.intercalate_cons_cons]; rfl

/-- The pieces with commas between them are the text. -/
theorem intercalate_piecesFrom (depth : Int) (s : List Char) :
    [','].intercalate (piecesFrom depth s) = s := by
  induction s generalizing depth with
  | nil => exact List.intercalate_singleton
  | cons c r ih =>
    by_cases h : c = ',' ∧ depth = 0
    · obtain ⟨p, ps, hps⟩ := List.exists_cons_of_ne_nil (piecesFrom_ne_nil 0 r)
      have hr := ih 0
      rw [piecesFrom, if_pos h]
      rw [hps] at hr ⊢
      rw [List.intercalate_cons_cons, hr, h.1]
      rfl
    · rw [piecesFrom_cons h, intercalate_prependTo c (piecesFrom_ne_nil _ r), ih]

theorem segments_intercalate (ps : List (List Char)) :
    segments ([','].intercalate ps) = [Segment.mark ','].intercalate (ps.map segments) := by
  obtain ⟨hcomma, hblank⟩ := commonMark (c := ',') (by decide)
  induction ps with
  | nil => rfl
  | cons p ps ih =>
    cases ps with
    | nil => rw [List.intercalate_singleton, List.map_singleton, List.intercalate_singleton]
    | cons q ps =>
      have hstop : startsWith isOperandChar (',' :: [','].intercalate (q :: ps)) = false := hcomma
      rw [List.map_cons, List.map_cons, List.intercalate_cons_cons, List.intercalate_cons_cons,
        List.append_assoc, List.append_assoc, List.singleton_append, List.singleton_append,
        segments_append (parted_of_stop hstop),
        segments_mark hcomma hblank fun h => absurd h (by decide), ih, List.map_cons]

end Pieces

/-- Texts as the arguments of calls are where operands stand apart. -/
structure Tame (table : FunctionTable) (ps : List Segment) : Prop where
  apart : Apart table Place.start ps
  clean : Clean ps
  commas : .mark ',' ∉ ps
  equals : ps.head? ≠ some (.mark '=')

section Resolved

variable {resolve : Resolver} {f : List Char} {x : Float}

/-- That only what can be read has a value, for texts with fewer letters than a number. -/
def Resolver.Sound (table : FunctionTable) (n : Nat) (resolve : Resolver) : Prop :=
  ∀ a x, letterCount a < n → resolve a = .ok x → Tame table (segments a) →
    Reads table .expr (segments a) []

theorem reads_literal (h : takeLiteral s = s) (hne : s ≠ []) :
    Reads table .primary (segments s) [] := by
  have hliteral : IsLiteral s := by
    have htake := isLiteral_takeLiteral (s := s) (by rwa [h])
    rwa [h] at htake
  have hword : segments s = [.word s] := by
    obtain ⟨n, rfl⟩ := hliteral
    have hword := segments_word hne (isOperandChar_numeral n) (s := []) rfl
    rwa [List.append_nil] at hword
  rw [hword]
  exact .operand (Or.inl hliteral)

/-- A plain number can be read. -/
theorem reads_plainNumber (h : isPlainNumber s = true) : Reads table .expr (segments s) [] := by
  unfold isPlainNumber at h
  dsimp only at h
  obtain ⟨hne, htake⟩ := Bool.and_eq_true_iff.mp h
  have hne := bne_iff_ne.mp hne
  have htake := eq_of_beq htake
  split at hne
  · rename_i r
    obtain ⟨hminus, hblank⟩ := commonMark (c := '-') (by decide)
    rw [segments_mark hminus hblank fun h => absurd h (by decide)]
    exact .last (.neg (reads_literal htake hne))
  · rename_i hplain
    have htake : takeLiteral s = s := by
      split at htake
      · exact absurd rfl (hplain _)
      · exact htake
    exact .last (.plain (reads_literal htake hne))

/-- An argument that has a value can be read. -/
theorem reads_argument {n : Nat} (hsound : resolve.Sound table n)
    (h : resolveArgument f resolve s = .ok x) (hs : letterCount s < n)
    (htame : Tame table (segments s)) : Reads table .expr (segments s) [] := by
  rw [← segments_trim] at htame ⊢
  unfold resolveArgument at h
  dsimp only at h
  split at h
  · exact absurd h (by simp [argumentProblem, Failure.of])
  · split at h
    · rename_i hvalue
      by_cases hplain : isPlainNumber (trim s) = true
      · exact reads_plainNumber hplain
      · rw [if_neg hplain] at hvalue
        exact absurd hvalue (by simp)
    · split at h
      · exact absurd h (by simp [argumentProblem, Failure.of])
      · exact hsound _ _ ((letterCount_le (trim_sublist s)).trans_lt hs) h htame

theorem exists_of_resolveArguments {as : List (List Char)} {xs : List Float}
    (h : resolveArguments f resolve as = .ok xs) :
    ∀ a ∈ as, ∃ x, resolveArgument f resolve a = .ok x := by
  induction as generalizing xs with
  | nil => exact fun a ha => absurd ha List.not_mem_nil
  | cons a rest ih =>
    obtain ⟨x, hx, h⟩ := bind_eq_ok h
    obtain ⟨ys, hys, _⟩ := bind_eq_ok h
    intro b hb
    rcases List.mem_cons.mp hb with rfl | hb
    · exact ⟨x, hx⟩
    · exact ih hys b hb

/-- Arguments that can each be read are read one after the other. -/
theorem reads_arguments {as : List (List Segment)} (hne : as ≠ [])
    (hbefore : place.before = some (.mark '(') ∨ place.before = some (.mark ','))
    (ha : Apart table place ([Segment.mark ','].intercalate as))
    (hclean : Clean ([Segment.mark ','].intercalate as)) (hcommas : ∀ a ∈ as, .mark ',' ∉ a)
    (hreads : ∀ a ∈ as, Tame table a → Reads table .expr a []) (rest : List Segment) :
    Reads table .arguments ([Segment.mark ','].intercalate as ++ .mark ')' :: rest)
      (.mark ')' :: rest) := by
  induction as generalizing place with
  | nil => exact absurd rfl hne
  | cons a as ih =>
    have hfirst : ∀ {later}, Apart table place (a ++ later) → Clean (a ++ later) →
        ∀ qs, Reads table .expr (a ++ qs) qs := by
      intro later ha hclean qs
      have happart := (apart_append.mp ha).1
      have hcomma := hcommas a List.mem_cons_self
      refine (hreads a List.mem_cons_self ⟨happart.alone hcomma,
        hclean.sublist (List.sublist_append_left a later), hcomma, fun hhead => ?_⟩).append qs
      -- what stands before the argument refuses an equals sign
      cases a with
      | nil => exact absurd hhead (by simp)
      | cons p ps =>
        have hrefused := happart.head.equals (Option.some.inj hhead)
        rcases hbefore with h | h
        · exact hrefused.1 h
        · exact hrefused.2 h
    cases as with
    | nil =>
      rw [List.intercalate_singleton] at ha hclean ⊢
      exact .argument (@hfirst [] (by rwa [List.append_nil]) (by rwa [List.append_nil]) _)
    | cons b as =>
      rw [List.intercalate_cons_cons, List.append_assoc, List.singleton_append] at ha hclean
      rw [List.intercalate_cons_cons, List.append_assoc, List.append_assoc, List.singleton_append]
      have hrest := (apart_append.mp ha).2.tail
      refine .comma (hfirst ha hclean _) ?_
      exact ih (List.cons_ne_nil b as) (Or.inr rfl) hrest
        (hclean.sublist ((List.sublist_cons_self _ _).trans (List.sublist_append_right _ _)))
        (fun c hc => hcommas c (List.mem_cons_of_mem a hc))
        (fun c hc => hreads c (List.mem_cons_of_mem a hc))

end Resolved

end Reckoner.Formula
