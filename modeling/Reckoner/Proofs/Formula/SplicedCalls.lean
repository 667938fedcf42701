import Reckoner.Proofs.Formula.Arguments
import Reckoner.Proofs.Formula.Breakdowns

/-!
A round puts values in the places of the innermost calls. The scan over a text whose operands stand
apart goes from segment to segment. A call that holds no further call is met as a whole, and the
scan goes on after it; all other text is kept. Since the calls of a round do not overlap, replacing
a later one does not move an earlier one.
-/
namespace Reckoner.Formula

open Text Number Arith

variable {table : FunctionTable} {resolve : Resolver} {place : Place} {s t r w : List Char}

section Closing

theorem closing_split {depth : Int} {distance n : Nat} (h : closingFrom depth distance s = some n) :
    ∃ a b, s = a ++ ')' :: b ∧ n = distance + a.length := by
  induction s generalizing depth distance with
  | nil => exact absurd h (by simp [closingFrom])
  | cons c r ih =>
    have hlater : ∀ {depth : Int}, closingFrom depth (distance + 1) r = some n →
        ∃ a b, c :: r = a ++ ')' :: b ∧ n = distance + a.length := by
      intro depth h
      obtain ⟨a, b, rfl, hn⟩ := ih h
      refine ⟨c :: a, b, rfl, ?_⟩
      rw [hn, List.length_cons]
      omega
    rw [closingFrom] at h
    split at h
    · exact hlater h
    · split at h
      · split at h
        · rename_i hclose _
          subst hclose
          exact ⟨[], r, rfl, (Option.some.inj h).symm⟩
        · exact hlater h
      · exact hlater h

/-- The arguments of a call are what stands between its parentheses. -/
theorem take_arguments (a b : List Char) :
    (('(' :: (a ++ ')' :: b)).drop 1).take (1 + a.length - 1) = a := by
  rw [Nat.add_sub_cancel_left, List.drop_one, List.tail_cons, List.take_left]

/-- Text that goes on after a closing parenthesis. -/
theorem dropWhile_closing {p : Char → Bool} (hp : p ')' = false) (a b : List Char) :
    (a ++ ')' :: b).dropWhile p = a.dropWhile p ++ ')' :: b := by
  induction a with
  | nil => exact dropWhile_cons_of_false hp _
  | cons c a ih =>
    rw [List.cons_append]
    cases hc : p c with
    | true => rw [List.dropWhile_cons_of_pos hc, List.dropWhile_cons_of_pos hc, ih]
    | false =>
      have hc' : ¬ p c = true := by rw [hc]; exact Bool.false_ne_true
      rw [List.dropWhile_cons_of_neg hc', List.dropWhile_cons_of_neg hc']
      rfl

theorem callStartAt?_closing {p q : Nat} {a : List Char} (h : callStartAt? p a = none)
    (b : List Char) : callStartAt? q (a ++ ')' :: b) = none := by
  have hdrop : ((a ++ ')' :: b).dropWhile isWord).dropWhile isBlank =
      (a.dropWhile isWord).dropWhile isBlank ++ ')' :: b := by
    rw [dropWhile_closing (by decide), dropWhile_closing (by decide)]
  unfold callStartAt? at h ⊢
  dsimp only at h ⊢
  rw [hdrop]
  cases hd : (a.dropWhile isWord).dropWhile isBlank with
  | nil => rfl
  | cons c r =>
    rw [hd] at h
    rw [List.cons_append]
    split at h
    · exact absurd h (by simp)
    · rename_i hopening
      split
      · rename_i heq
        exact absurd (congrArg (· :: r) (List.cons.inj heq).1) (hopening r)
      · rfl

/-- Text without call starts in parentheses brings none of its own. -/
theorem callStartsFrom_closing {p q : Nat} {last : Option Char} {a : List Char}
    (h : callStartsFrom last p a = []) (b : List Char) :
    callStartsFrom last q (a ++ ')' :: b) = callStartsFrom (some ')') (q + a.length + 1) b := by
  induction a generalizing last p q with
  | nil => exact callStartsFrom_mark (by decide) b
  | cons c a ih =>
    have hlength : q + (c :: a).length + 1 = q + 1 + a.length + 1 := by
      rw [List.length_cons]
      omega
    rw [callStartsFrom] at h
    rw [List.cons_append, callStartsFrom, hlength]
    split at h
    · rename_i hname
      rw [if_pos hname]
      cases hstart : callStartAt? p (c :: a) with
      | some call =>
        rw [hstart] at h
        exact absurd h (List.cons_ne_nil _ _)
      | none =>
        rw [hstart] at h
        have hnone : callStartAt? q (c :: (a ++ ')' :: b)) = none := callStartAt?_closing hstart b
        rw [hnone]
        exact ih h
    · rename_i hname
      rw [if_neg hname]
      exact ih h

/-- A parenthesis before a text is like nothing before it. -/
theorem callStartsFrom_opening {p : Nat} (s : List Char) :
    callStartsFrom (some '(') p s = callStartsFrom none p s := by
  cases s with
  | nil => rfl
  | cons c r => rfl

end Closing

section Calls

variable {n : Nat} {f a b : List Char} {x : Float}

/-- A call whose arguments have values can be read. -/
theorem reads_call (hsound : resolve.Sound table n) (hf : isIdentifier f = true)
    (hcall : call table resolve f (splitArguments a) = .ok x)
    (ha : Apart table ((place.advance (.word f)).advance (.mark '(')) (segments a))
    (hclean : Clean (segments a)) (hstarts : callStarts a = [])
    (hclosing : closingFrom 1 1 (a ++ ')' :: b) = some (1 + a.length)) (hn : letterCount a < n)
    (rest : List Segment) :
    Reads table .primary (.word f :: .mark '(' :: segments a ++ .mark ')' :: rest) rest := by
  obtain ⟨g, hg, hcall⟩ := bind_eq_ok hcall
  obtain ⟨_, _, hcall⟩ := bind_eq_ok hcall
  obtain ⟨xs, hxs, _⟩ := bind_eq_ok hcall
  have hfunction : IsFunction table f := ⟨hf, g, asFailure_eq_ok.mp hg⟩
  unfold splitArguments at hxs
  split at hxs
  · rename_i hblank
    rw [segments_blanks (List.all_eq_true.mp hblank)]
    exact .empty hfunction
  · have hopened : ((place.advance (.word f)).advance (.mark '(')).opened =
        List.replicate 0 false ++ true :: place.opened := by
      change isIdentifier f :: place.opened = _
      rw [hf]
      rfl
    have hcommas : ∀ piece ∈ piecesFrom 0 a, ',' ∉ piece :=
      comma_not_mem_pieces (d := 0) hopened ha hstarts (fun _ _ h => absurd h (by simp))
        (fun h => absurd h Bool.false_ne_true) hclosing
    have hpieces : [Segment.mark ','].intercalate ((piecesFrom 0 a).map segments) = segments a := by
      rw [← segments_intercalate, intercalate_piecesFrom]
    refine .call hfunction ?_
    rw [← hpieces] at ha hclean ⊢
    refine reads_arguments (by simpa using piecesFrom_ne_nil 0 a) (Or.inl rfl) ha hclean
      (fun q hq hcomma => ?_) (fun q hq htame => ?_) rest
    · obtain ⟨piece, hpiece, rfl⟩ := List.mem_map.mp hq
      exact hcommas piece hpiece (mark_mem_segments.mp hcomma).1
    · obtain ⟨piece, hpiece, rfl⟩ := List.mem_map.mp hq
      obtain ⟨y, hy⟩ := exists_of_resolveArguments hxs (trim piece) (List.mem_map_of_mem hpiece)
      have hletters : letterCount (trim piece) ≤ letterCount a :=
        letterCount_le ((trim_sublist piece).trans (piecesFrom_sublist 0 piece hpiece))
      rw [← segments_trim] at htame ⊢
      exact reads_argument hsound hy (hletters.trans_lt hn) htame

/-- The text after a call is where the scan goes on. -/
theorem callStartsFrom_after {p : Nat} {gap : List Char} (hgap : ∀ c ∈ gap, isBlank c = true)
    (ha : callStarts a = []) (hb : startsWith isOperandChar b = false) :
    callStartsFrom none p (gap ++ '(' :: a ++ ')' :: b) =
      callStartsFrom none (p + gap.length + 1 + a.length + 1) b := by
  have hinside : callStartsFrom (some '(') 0 a = [] := (callStartsFrom_opening a).trans ha
  rw [List.append_assoc, List.cons_append, callStartsFrom_gap hgap, callStartsFrom_closing hinside,
    callStartsFrom_stop (head_not_word hb)]

end Calls

section Round

variable {n : Nat} {a b : List Char} {x : Float}

theorem letterCount_identifier (h : isIdentifier w = true) : 0 < letterCount w := by
  cases w with
  | nil => exact absurd h Bool.false_ne_true
  | cons c r =>
    have hc : isNameStart c = true := (Bool.and_eq_true_iff.mp h).1
    exact List.countP_pos_iff.mpr ⟨c, List.mem_cons_self, hc⟩

theorem segments_tail {c : Char} (hc : isOperandChar c = false) (r : List Char) :
    (segments r).Sublist (segments (c :: r)) := by
  rw [segments_cons, addChar, hc, if_neg Bool.false_ne_true]
  split
  · exact List.Sublist.refl _
  · split
    · exact (List.sublist_cons_self _ _).cons _
    · exact List.sublist_cons_self _ _

/-- The segments of a call after its name. -/
theorem segments_parentheses {gap : List Char} (hgap : ∀ c ∈ gap, isBlank c = true)
    (a b : List Char) :
    segments (gap ++ '(' :: a ++ ')' :: b) =
      .mark '(' :: segments a ++ segments (')' :: b) := by
  obtain ⟨hopening, hblank⟩ := commonMark (c := '(') (by decide)
  have hclosing : startsWith isOperandChar (')' :: b) = false := (commonMark (by decide)).1
  have hopening' : startsWith isOperandChar ('(' :: (a ++ ')' :: b)) = false := hopening
  rw [List.append_assoc, List.cons_append, segments_append (parted_of_stop hopening'),
    segments_blanks hgap, List.nil_append,
    segments_mark hopening hblank fun h => absurd h (by decide),
    segments_append (parted_of_stop hclosing)]
  rfl

theorem exists_opening_of_start {position : Nat} {start : CallStart} (hw : isIdentifier w = true)
    (hr : startsWith isOperandChar r = false) (h : callStartAt? position (w ++ r) = some start) :
    ∃ rest, r.dropWhile isBlank = '(' :: rest := by
  unfold callStartAt? at h
  rw [dropWhile_append_stop (Scope.isWord_of_identifier hw) (head_not_word hr)] at h
  dsimp only at h
  split at h
  · rename_i rest heq
    exact ⟨rest, heq⟩
  · exact absurd h (by simp)

/-- A call without further calls is among those of the round, before those of the text after it. -/
theorem innermostAmong_call_eq_ok {name rest : List Char} {start paren : Nat}
    {later : List CallStart} {calls : List Call}
    (h : innermostAmong s (⟨name, start, paren, '(' :: rest⟩ :: later) = .ok calls) :
    ∃ a b calls', rest = a ++ ')' :: b ∧ closingFrom 1 1 rest = some (1 + a.length) ∧
      innermostAmong s later = .ok calls' ∧ (calls = calls' ∨ callStarts a = [] ∧
        calls = ⟨name, start, paren + (1 + a.length) + 1, a⟩ :: calls') := by
  rw [innermostAmong] at h
  split at h
  · exact absurd h (by simp)
  · rename_i distance hdistance
    rw [closingFrom, if_pos rfl] at hdistance
    obtain ⟨a, b, rfl, rfl⟩ := closing_split hdistance
    obtain ⟨calls', hcalls', h⟩ := bind_eq_ok h
    dsimp only at h
    rw [Nat.zero_add, take_arguments] at h
    refine ⟨a, b, calls', rfl, hdistance, hcalls', ?_⟩
    split at h
    · rename_i hempty
      exact Or.inr ⟨List.isEmpty_iff.mp hempty, (Except.ok.inj h).symm⟩
    · exact Or.inl (Except.ok.inj h).symm

/-- Operands stand apart also after a call. -/
theorem Apart.after_call {gap : List Char} (hgap : ∀ c ∈ gap, isBlank c = true)
    (h : Apart table place (.word w :: segments (gap ++ '(' :: a ++ ')' :: b))) :
    startsWith isOperandChar b = false ∧ ∃ place, Apart table place (segments b) := by
  rw [segments_parentheses hgap] at h
  have hafter := (apart_append.mp h.tail).2
  exact ⟨hafter.closing, hafter.of_mark (by decide)⟩

theorem segments_after_call {gap : List Char} (hgap : ∀ c ∈ gap, isBlank c = true) :
    (segments b).Sublist (segments (gap ++ '(' :: a ++ ')' :: b)) := by
  rw [segments_parentheses hgap]
  exact (segments_tail (by decide) b).trans (List.sublist_append_right _ _)

/-- Replacing what stands between two texts keeps the text before. -/
theorem replaced_between (before middle after value : List Char) :
    (before ++ middle ++ after).take before.length ++ value ++
        (before ++ middle ++ after).drop (before.length + middle.length) =
      before ++ (value ++ after) := by
  rw [← List.length_append, List.drop_left, List.append_assoc before, List.take_left,
    List.append_assoc]

/-- A value in the place of a call without further calls. -/
theorem Replaced.call {gap value b' : List Char} (hsound : resolve.Sound table n)
    (hw : isIdentifier w = true) (hgap : ∀ c ∈ gap, isBlank c = true)
    (hr : startsWith isOperandChar (gap ++ '(' :: a ++ ')' :: b) = false)
    (ha : Apart table place (.word w :: segments (gap ++ '(' :: a ++ ')' :: b)))
    (hclean : Clean (segments (gap ++ '(' :: a ++ ')' :: b))) (hn : letterCount a < n)
    (hstarts : callStarts a = [])
    (hclosing : closingFrom 1 1 (a ++ ')' :: b) = some (1 + a.length))
    (hx : Formula.call table resolve w (splitArguments a) = .ok x) (hvalue : literal x = .ok value)
    (h : Replaced table b b') :
    Replaced table (w ++ (gap ++ '(' :: a ++ ')' :: b)) (value ++ b') := by
  have hall : ∀ c ∈ w, isOperandChar c = true :=
    fun c hc => isOperandChar_of_isWord (Scope.isWord_of_identifier hw c hc)
  have hne : w ≠ [] := by
    rintro rfl
    exact absurd hw Bool.false_ne_true
  rw [segments_parentheses hgap] at ha hclean
  obtain ⟨hinner, hafter⟩ := apart_append.mp ha.tail
  have hb := hafter.closing
  have hcleana : Clean (segments a) := hclean.sublist
    ((List.sublist_cons_self _ _).trans (List.sublist_append_left _ _))
  have hreads := reads_call hsound hw hx hinner.tail hcleana hstarts hclosing hn
  obtain ⟨vs, hvs, hsegments⟩ := isValueText_literal hvalue
  obtain ⟨hmark, hblank⟩ := commonMark (c := ')') (by decide)
  refine ⟨?_, fun _ => ?_⟩
  · rw [segments_word hne hall hr, segments_parentheses hgap,
      segments_mark hmark hblank fun _ => hb, hsegments b' (h.stops hb)]
    exact .call hw hreads hvs h.spliced
  · rw [startsWith_append hne]
    exact startsWith_of_all hne hall

/-- The round at a call without further calls, when the text after it is done. -/
theorem Replaced.at_call {before gap u : List Char} {later : List Call}
    (hsound : resolve.Sound table n) (hw : isIdentifier w = true)
    (hgap : ∀ c ∈ gap, isBlank c = true)
    (hr : startsWith isOperandChar (gap ++ '(' :: a ++ ')' :: b) = false)
    (ha : Apart table place (.word w :: segments (gap ++ '(' :: a ++ ')' :: b)))
    (hclean : Clean (segments (gap ++ '(' :: a ++ ')' :: b))) (hn : letterCount a < n)
    (hstarts : callStarts a = [])
    (hclosing : closingFrom 1 1 (a ++ ')' :: b) = some (1 + a.length))
    (h : replaceCalls table resolve (before ++ (w ++ (gap ++ '(' :: a ++ ')' :: b)))
      (⟨w, before.length, before.length + w.length + gap.length + (1 + a.length) + 1, a⟩ :: later) =
        .ok u)
    (hlater : ∀ {m u' : List Char},
      m.length = before.length + w.length + gap.length + 1 + a.length + 1 →
      replaceCalls table resolve (m ++ b) later = .ok u' →
      ∃ b', u' = m ++ b' ∧ Replaced table b b') :
    ∃ t', u = before ++ t' ∧ Replaced table (w ++ (gap ++ '(' :: a ++ ')' :: b)) t' := by
  obtain ⟨u', x, value, hu', hx, hvalue, rfl⟩ := replaceCalls_cons_eq_ok h
  obtain ⟨m, hm⟩ : ∃ m, m = w ++ gap ++ '(' :: a ++ [')'] := ⟨_, rfl⟩
  have hwhole : before ++ (w ++ (gap ++ '(' :: a ++ ')' :: b)) = before ++ m ++ b := by
    rw [hm]
    simp
  have hlength : m.length = w.length + gap.length + (1 + a.length) + 1 := by
    rw [hm]
    simp only [List.length_append, List.length_cons, List.length_nil]
    omega
  have hnext : (before ++ m).length =
      before.length + w.length + gap.length + 1 + a.length + 1 := by
    rw [List.length_append]
    omega
  rw [hwhole] at hu'
  obtain ⟨b', rfl, hreplaced⟩ := hlater hnext hu'
  refine ⟨value ++ b', ?_,
    .call hsound hw hgap hr ha hclean hn hstarts hclosing hx hvalue hreplaced⟩
  have hend : before.length + w.length + gap.length + (1 + a.length) + 1 =
      before.length + m.length := by omega
  rw [← replaced_between before m b' value]
  dsimp only
  rw [hend]

/-- A round puts values in the places of the calls from a place in a text on. -/
theorem replaceCalls_replaced (hsound : resolve.Sound table n) (s t : List Char)
    {before u : List Char} {last : Option Char} {calls : List Call}
    (hlast : startsWith isOperandChar t = true → ∀ c ∈ last, isOperandChar c = false)
    (ha : Apart table place (segments t)) (hclean : Clean (segments t)) (hn : letterCount t ≤ n)
    (hcalls : innermostAmong s (callStartsFrom last before.length t) = .ok calls)
    (h : replaceCalls table resolve (before ++ t) calls = .ok u) :
    ∃ t', u = before ++ t' ∧ Replaced table t t' := by
  induction t using segments_induct generalizing before u last calls place with
  | nil =>
    obtain rfl := Except.ok.inj hcalls
    obtain rfl := Except.ok.inj h
    exact ⟨[], rfl, replaced_nil⟩
  | mark c r hc ih =>
    have hlength : before.length + 1 = (before ++ [c]).length := by simp
    have hsplit : before ++ c :: r = (before ++ [c]) ++ r := by simp
    rw [callStartsFrom_mark hc, hlength] at hcalls
    rw [hsplit] at h
    obtain ⟨place, har⟩ := ha.of_mark hc
    obtain ⟨t', rfl, hreplaced⟩ := ih (fun _ d hd => Option.some.inj hd ▸ hc) har
      (hclean.sublist (segments_tail hc r))
      ((letterCount_le (List.sublist_cons_self c r)).trans hn) hcalls h
    exact ⟨c :: t', by simp, hreplaced.mark hc ha⟩
  | word w r hw hall hr ih =>
    have hletters : letterCount w + letterCount r ≤ n := letterCount_append w r ▸ hn
    rw [segments_word hw hall hr] at ha hclean
    have hcleanr : Clean (segments r) := hclean.sublist (List.sublist_cons_self _ _)
    have hkept : innermostAmong s (callStartsFrom none (before.length + w.length) r) = .ok calls →
        ∃ t', u = before ++ t' ∧ Replaced table (w ++ r) t' := by
      intro hcalls
      rw [← List.length_append] at hcalls
      rw [← List.append_assoc] at h
      obtain ⟨t', rfl, hreplaced⟩ := ih r (Nat.le_refl _) (fun _ _ hc => absurd hc (by simp)) ha.tail
        hcleanr (by omega) hcalls h
      exact ⟨w ++ t', by simp, hreplaced.word hw hall hr⟩
    have hfree : ∀ c ∈ last, isOperandChar c = false :=
      hlast (by rw [startsWith_append hw]; exact startsWith_of_all hw hall)
    rw [callStartsFrom_word hw hall hr ha.head hfree] at hcalls
    by_cases hname : isIdentifier w = true
    swap
    · rw [if_neg hname] at hcalls
      exact hkept hcalls
    rw [if_pos hname] at hcalls
    cases hstart : callStartAt? before.length (w ++ r) with
    | none =>
      rw [hstart] at hcalls
      exact hkept hcalls
    | some start =>
      obtain ⟨rest, hrest⟩ := exists_opening_of_start hname hr hstart
      rw [callStartAt?_word hname hr hrest] at hcalls
      obtain ⟨a, b, calls', rfl, hclosing, hcalls', hfirst⟩ := innermostAmong_call_eq_ok hcalls
      rcases hfirst with rfl | ⟨hinside, rfl⟩
      · exact hkept hcalls'
      -- the call is replaced, and the scan goes on after it
      have hgap : ∀ c ∈ r.takeWhile isBlank, isBlank c = true :=
        fun c hc => List.mem_takeWhile_imp hc
      have hsplit : r.takeWhile isBlank ++ '(' :: a ++ ')' :: b = r := by
        rw [List.append_assoc, List.cons_append, ← hrest, List.takeWhile_append_dropWhile]
      generalize r.takeWhile isBlank = gap at hgap hsplit hcalls' h
      subst hsplit
      obtain ⟨hstop, _, hb⟩ := ha.after_call hgap
      have hcleanb : Clean (segments b) := hcleanr.sublist (segments_after_call hgap)
      have hone : 0 < letterCount w := letterCount_identifier hname
      have hcounta : letterCount a ≤ letterCount ('(' :: a) := letterCount_le_cons _ (Nat.le_refl _)
      have hcountb : letterCount b ≤ letterCount (')' :: b) := letterCount_le_cons _ (Nat.le_refl _)
      simp only [letterCount_append] at hletters
      rw [callStartsFrom_after hgap hinside hstop] at hcalls'
      exact Replaced.at_call hsound hname hgap hr ha hcleanr (by omega) hinside hclosing h
        fun hm hu' => ih b (by simp; omega) (fun _ _ hc => absurd hc (by simp)) hb hcleanb
          (by omega) (hm ▸ hcalls') hu'

end Round

end Reckoner.Formula
