import Reckoner.Proofs.Formula.Cleaned

/-!
Substitution puts values in the places of line references and names. Both passes over a text whose
operands stand apart go from segment to segment: they keep marks and the words that they do not
know, and they meet every reference and every known name as a whole.
-/
namespace Reckoner.Formula

open Text Number Arith

variable {table : FunctionTable} {place : Place} {s t r w v : List Char} {c : Char}

section Texts

/-- That values take the places of operands in a text, and that no word comes up where none was. -/
structure Replaced (table : FunctionTable) (s t : List Char) : Prop where
  spliced : Spliced table (segments s) (segments t)
  starts : startsWith isOperandChar t = true → startsWith isOperandChar s = true

theorem Replaced.stops (h : Replaced table s t) (hs : startsWith isOperandChar s = false) :
    startsWith isOperandChar t = false := by
  rw [Bool.eq_false_iff]
  intro ht
  rw [h.starts ht] at hs
  exact absurd hs.symm Bool.false_ne_true

theorem replaced_nil : Replaced table [] [] := ⟨.nil, fun h => h⟩

/-- No word follows a closing parenthesis directly where operands stand apart. -/
theorem Apart.closing (h : Apart table place (segments (')' :: r))) :
    startsWith isOperandChar r = false := by
  rw [Bool.eq_false_iff]
  intro hr
  rw [segments_joint hr] at h
  exact h.tail.head.joint rfl

theorem Apart.of_mark (hc : isOperandChar c = false) (h : Apart table place (segments (c :: r))) :
    ∃ place, Apart table place (segments r) := by
  cases hblank : isBlank c with
  | true =>
    rw [segments_blank hblank] at h
    exact ⟨place, h⟩
  | false =>
    rw [segments_mark hc hblank fun hclosing => by subst hclosing; exact h.closing] at h
    exact ⟨_, h.tail⟩

theorem Replaced.mark (hc : isOperandChar c = false) (ha : Apart table place (segments (c :: r)))
    (h : Replaced table r t) : Replaced table (c :: r) (c :: t) := by
  refine ⟨?_, fun hstarts => hstarts⟩
  cases hblank : isBlank c with
  | true =>
    rw [segments_blank hblank, segments_blank hblank]
    exact h.spliced
  | false =>
    have hr : c = ')' → startsWith isOperandChar r = false := by
      rintro rfl
      exact ha.closing
    rw [segments_mark hc hblank hr, segments_mark hc hblank fun hclosing => h.stops (hr hclosing)]
    exact .same _ h.spliced

theorem Replaced.word (hw : w ≠ []) (hall : ∀ c ∈ w, isOperandChar c = true)
    (hr : startsWith isOperandChar r = false) (h : Replaced table r t) :
    Replaced table (w ++ r) (w ++ t) := by
  refine ⟨?_, fun hstarts => ?_⟩
  · rw [segments_word hw hall hr, segments_word hw hall (h.stops hr)]
    exact .same _ h.spliced
  · rw [startsWith_append hw] at hstarts ⊢
    exact hstarts

/-- Texts of values. -/
def IsValueText (v : List Char) : Prop :=
  ∃ vs, IsValue vs ∧ ∀ s, startsWith isOperandChar s = false → segments (v ++ s) = vs ++ segments s

theorem isOperandChar_numeral (n : Numeral) : ∀ c ∈ n.text, isOperandChar c = true := by
  intro c hc
  rcases mem_numeral_text hc with hdigit | rfl
  · exact isOperandChar_of_isDigit hdigit
  · decide

theorem isValueText_numeral (n : Numeral) : IsValueText n.text :=
  ⟨[.word n.text], .plain ⟨n, rfl⟩, fun _ hs =>
    segments_word (numeral_text_ne_nil n) (isOperandChar_numeral n) hs⟩

theorem isValueText_negative (n : Numeral) : IsValueText ('(' :: '-' :: n.text ++ [')']) := by
  refine ⟨[.mark '(', .mark '-', .word n.text, .mark ')'], .negative ⟨n, rfl⟩, fun s hs => ?_⟩
  obtain ⟨hopening, hblank⟩ := commonMark (c := '(') (by decide)
  obtain ⟨hminus, hblank'⟩ := commonMark (c := '-') (by decide)
  obtain ⟨hclosing, hblank''⟩ := commonMark (c := ')') (by decide)
  have hstop : startsWith isOperandChar (')' :: s) = false := hclosing
  have htext : '(' :: '-' :: n.text ++ [')'] ++ s = '(' :: '-' :: (n.text ++ ')' :: s) := by simp
  rw [htext, segments_mark hopening hblank fun h => absurd h (by decide),
    segments_mark hminus hblank' fun h => absurd h (by decide),
    segments_word (numeral_text_ne_nil n) (isOperandChar_numeral n) hstop,
    segments_mark hclosing hblank'' fun _ => hs]
  rfl

theorem isValueText_literal {x : Float} (h : literal x = .ok v) : IsValueText v := by
  obtain ⟨n, rfl | rfl⟩ := literal_cases h
  · exact isValueText_numeral n
  · exact isValueText_negative n

end Texts

section Lines

variable {scope : Scope}

theorem isValueText_lineLiteral {digits : List Char} (h : scope.lineLiteral digits = .ok v) :
    IsValueText v := by
  unfold Scope.lineLiteral at h
  split at h
  · exact absurd h (by simp)
  · split at h
    · exact isValueText_literal h
    · obtain rfl := Except.ok.inj h
      exact isValueText_numeral
        (.ofDigits ['0'] (List.all_iff_forall_prop.mp (by decide)) (by decide))

/-- The first pass puts values in the places of line references. -/
theorem substituteLines_replaced (h : scope.substituteLines false s = .ok t)
    (ha : Apart table place (segments s)) : Replaced table s t := by
  induction s using segments_induct generalizing t place with
  | nil =>
    obtain rfl := Except.ok.inj h
    exact replaced_nil
  | mark c r hc ih =>
    have hat : '@' ∉ [c] := by
      rintro hmem
      obtain rfl := List.mem_singleton.mp hmem
      exact absurd hc (by decide)
    rw [← List.singleton_append, Scope.substituteLines_append hat] at h
    obtain ⟨rest, hrest, rfl⟩ := map_eq_ok h
    obtain ⟨_, har⟩ := ha.of_mark hc
    exact (ih hrest har).mark hc ha
  | word w r hw hall hr ih =>
    rw [segments_word hw hall hr] at ha
    by_cases hat : '@' ∈ w
    · obtain ⟨digits, hne, hdigits, rfl⟩ := ha.head.reference w rfl hat
      have hstop := head_not_digit hr
      have htake : (digits ++ r).takeWhile isDigit = digits := takeWhile_append_stop hdigits hstop
      rw [List.cons_append, Scope.substituteLines, Bool.false_and, if_neg Bool.false_ne_true,
        htake] at h
      dsimp only at h
      rw [if_pos ⟨rfl, hne⟩] at h
      obtain ⟨value, hvalue, h⟩ := bind_eq_ok h
      obtain ⟨rest, hrest, h⟩ := bind_eq_ok h
      obtain rfl := Except.ok.inj h
      rw [Scope.substituteLines_digits hdigits, Scope.substituteLines_within hstop] at hrest
      have hreplaced := ih r (Nat.le_refl _) hrest ha.tail
      obtain ⟨vs, hvs, hsegments⟩ := isValueText_lineLiteral hvalue
      refine ⟨?_, fun _ => by rw [startsWith_append hw]; rfl⟩
      rw [segments_word hw hall hr, hsegments rest (hreplaced.stops hr)]
      exact .reference ⟨digits, hne, hdigits, rfl⟩ hvs hreplaced.spliced
    · rw [Scope.substituteLines_append hat] at h
      obtain ⟨rest, hrest, rfl⟩ := map_eq_ok h
      exact (ih r (Nat.le_refl _) hrest ha.tail).word hw hall hr

end Lines

section Names

variable {scope : Scope} {names : List (List Char)} {last : Option Char} {n : List Char}

theorem nameAt?_of_operandChar {d : Char} (hd : isOperandChar d = true) (s : List Char) :
    Scope.nameAt? names (some d) s = none := by
  have hlast : ¬ Scope.allowsNameAfter (some d) = true := by
    change ¬ (!isOperandChar d) = true
    rw [hd]
    decide
  unfold Scope.nameAt?
  rw [if_neg hlast]

/-- The rest of a run of operand characters is kept. -/
theorem substituteNames_run {d : Char} (hd : isOperandChar d = true)
    (ht : ∀ c ∈ t, isOperandChar c = true) (s : List Char) :
    scope.substituteNames names (some d) 0 (t ++ s) =
      (scope.substituteNames names (Scope.lastOf (some d) t) 0 s).map fun rest => t ++ rest := by
  induction t generalizing d with
  | nil =>
    change scope.substituteNames names (some d) 0 s = _
    unfold Scope.lastOf
    cases hs : scope.substituteNames names (some d) 0 s <;> simp [hs, Except.map]
  | cons c t ih =>
    have hc := ht c List.mem_cons_self
    rw [List.cons_append, Scope.substituteNames_cons (nameAt?_of_operandChar hd _),
      ih hc fun e he => ht e (List.mem_cons_of_mem c he), Scope.lastOf_cons]
    cases scope.substituteNames names (Scope.lastOf (some c) t) 0 s <;> rfl

theorem allowsNameAfter_of_not_operand (h : ∀ c ∈ last, isOperandChar c = false) :
    Scope.allowsNameAfter last = true := by
  cases last with
  | none => rfl
  | some c =>
    change (!isOperandChar c) = true
    rw [h c rfl]
    rfl

/-- A mark that comes first comes after white space only. -/
theorem exists_mark {d : Char} (h : (segments s).head? = some (.mark d)) :
    ∃ rest, s.dropWhile isBlank = d :: rest := by
  have htrim := segments_trimLeft s
  unfold trimLeft at htrim
  rw [← htrim] at h
  cases hs : s.dropWhile isBlank with
  | nil => rw [hs] at h; exact absurd h (by simp [segments])
  | cons c r =>
    have hblank := head_dropWhile isBlank s c (by rw [hs]; rfl)
    rw [hs] at h
    cases hc : isOperandChar c with
    | true =>
      have hw : segments (c :: r) ≠ [] := segments_ne_nil hc
      rw [segments_cons, addChar, if_pos hc] at h
      unfold extendWord at h
      split at h
      · split at h <;> exact absurd (Option.some.inj h) (by simp)
      · exact absurd (Option.some.inj h) (by simp)
    | false =>
      by_cases hjoint : c = ')' ∧ startsWith isOperandChar r = true
      · obtain ⟨rfl, hr⟩ := hjoint
        rw [segments_joint hr] at h
        obtain rfl := Segment.mark.inj (Option.some.inj h)
        exact ⟨r, rfl⟩
      · rw [segments_mark hc hblank fun hclosing =>
          Bool.eq_false_iff.mpr fun hr => hjoint ⟨hclosing, hr⟩] at h
        obtain rfl := Segment.mark.inj (Option.some.inj h)
        exact ⟨r, rfl⟩

/-- A parenthesis that comes next comes after white space only. -/
theorem exists_opening (h : (segments s).head? = some (.mark '(')) :
    ∃ rest, s.dropWhile isBlank = '(' :: rest := exists_mark h

theorem not_opening_of_endsName (h : Scope.endsName s = true) :
    (segments s).head? ≠ some (.mark '(') := by
  intro hhead
  obtain ⟨rest, hrest⟩ := exists_opening hhead
  have hnext := (Bool.and_eq_true_iff.mp h).2
  rw [hrest] at hnext
  exact absurd hnext Bool.false_ne_true

/-- The second pass puts values in the places of names. -/
theorem substituteNames_replaced (hnames : ∀ n ∈ names, isIdentifier n = true)
    (hlast : startsWith isOperandChar s = true → ∀ c ∈ last, isOperandChar c = false)
    (h : scope.substituteNames names last 0 s = .ok t) (ha : Apart table place (segments s)) :
    Replaced table s t := by
  induction s using segments_induct generalizing t place last with
  | nil =>
    have hnone : ¬ (0 = 0 ∧ Scope.nameAt? names last [] = some []) := by
      rw [Scope.nameAt?_of_head hnames (by simp)]
      simp
    rw [Scope.substituteNames, if_neg hnone] at h
    obtain rfl := Except.ok.inj h
    exact replaced_nil
  | mark c r hc ih =>
    have hnone : Scope.nameAt? names last (c :: r) = none :=
      Scope.nameAt?_of_head hnames fun d hd => by
        rw [← Option.some.inj hd]
        exact isNameStart_of_not_operand hc
    rw [Scope.substituteNames_cons hnone] at h
    obtain ⟨rest, hrest, rfl⟩ := map_eq_ok h
    obtain ⟨_, har⟩ := ha.of_mark hc
    have hreplaced := ih (fun _ d hd => by rw [← Option.some.inj hd]; exact hc) hrest har
    exact hreplaced.mark hc ha
  | word w r hw hall hr ih =>
    rw [segments_word hw hall hr] at ha
    have hnext : ∀ {last t}, scope.substituteNames names last 0 r = .ok t → Replaced table r t :=
      fun hrest => ih r (Nat.le_refl _)
        (fun hstarts => absurd (hr.symm.trans hstarts) Bool.false_ne_true) hrest ha.tail
    obtain ⟨c, w, rfl⟩ := List.exists_cons_of_ne_nil hw
    have hkept : Scope.nameAt? names last (c :: (w ++ r)) = none → Replaced table (c :: w ++ r) t := by
      intro hnone
      rw [List.cons_append, Scope.substituteNames_cons hnone,
        substituteNames_run (hall c List.mem_cons_self)
          fun d hd => hall d (List.mem_cons_of_mem c hd)] at h
      obtain ⟨_, hrun, rfl⟩ := map_eq_ok h
      obtain ⟨rest, hrest, rfl⟩ := map_eq_ok hrun
      exact (hnext hrest).word hw hall hr
    cases hc : isNameStart c with
    | false =>
      exact hkept (Scope.nameAt?_of_head hnames fun d hd => by rwa [← Option.some.inj hd])
    | true =>
      have hidentifier := ha.head.name (c :: w) rfl hc
      have hallows : Scope.allowsNameAfter last = true :=
        allowsNameAfter_of_not_operand (hlast (hall c List.mem_cons_self))
      have hat := Scope.nameAt?_word hnames hallows (Scope.isWord_of_identifier hidentifier)
        (head_not_word hr)
      by_cases hknown : c :: w ∈ names ∧ Scope.endsName r = true
      · rw [if_pos hknown, List.cons_append] at hat
        rw [List.cons_append, Scope.substituteNames, hat] at h
        obtain ⟨value, hvalue, h⟩ := bind_eq_ok h
        obtain ⟨rest, hrest, h⟩ := bind_eq_ok h
        obtain rfl := Except.ok.inj h
        rw [Scope.substituteNames_skip] at hrest
        obtain ⟨vs, hvs, hsegments⟩ := isValueText_literal hvalue
        have hreplaced := hnext hrest
        refine ⟨?_, fun _ => hall c List.mem_cons_self⟩
        rw [segments_word hw hall hr, hsegments rest (hreplaced.stops hr)]
        exact .name hidentifier (not_opening_of_endsName hknown.2) hvs hreplaced.spliced
      · rw [if_neg hknown, List.cons_append] at hat
        exact hkept hat

end Names

/-- Scopes whose names are identifiers. -/
def Scope.Identifiers (scope : Scope) : Prop :=
  ∀ n ∈ Assoc.keys scope.named ++ scope.pending, isIdentifier n = true

theorem Scope.Identifiers.names {scope : Scope} (h : scope.Identifiers) :
    ∀ n ∈ scope.names, isIdentifier n = true := fun n hn => h n (Scope.mem_names.mp hn)

/-- Substitution puts values in the places of line references and then of names. -/
theorem substitute_spliced {scope : Scope} (hscope : scope.Identifiers)
    (h : scope.substitute s = .ok t) (ha : Apart table place (segments s)) :
    ∃ ms, Spliced table (segments s) ms ∧ Spliced table ms (segments t) := by
  obtain ⟨u, hu, h⟩ := bind_eq_ok h
  have hlines := substituteLines_replaced hu ha
  have hnames := substituteNames_replaced hscope.names
    (fun _ _ hc => absurd hc (by simp)) h (hlines.spliced.apart ha)
  exact ⟨segments u, hlines.spliced, hnames.spliced⟩

end Reckoner.Formula
