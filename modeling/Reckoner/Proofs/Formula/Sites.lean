import Reckoner.Proofs.Formula.Depths
import Reckoner.Proofs.Formula.Rewritten

/-!
What a round does with any text, whether or not it is an expression. The scan goes over the text
once. A call that holds no further call is met as a whole and the scan goes on after it; every other
character is kept. What follows the text does not matter, as long as no word and no call goes on.
-/
namespace Reckoner.Formula

open Text Number Arith

/-- The text of a call. -/
def callText (f : Name) (gap a : List Char) : List Char := f.chars ++ (gap ++ ('(' :: a ++ [')']))

theorem callText_append (f : Name) (gap a b : List Char) :
    callText f gap a ++ b = f.chars ++ (gap ++ '(' :: (a ++ ')' :: b)) := by
  simp [callText]

theorem length_callText (f : Name) (gap a : List Char) :
    (callText f gap a).length = f.chars.length + gap.length + (1 + a.length) + 1 := by
  simp [callText]
  omega

/-- That a text stands in a call that holds no further call, when `b` follows the call. -/
structure Innermost (a b : List Char) : Prop where
  flat : callStarts a = []
  closed : closingFrom 1 1 (a ++ ')' :: b) = some (1 + a.length)

/-- What a round makes of a text after `last`: the calls that hold no further call give way to their
values. -/
inductive Replacement (table : FunctionTable) (resolve : Resolver) :
    Option Char → List Char → List Char → Prop
  | nil {last} : Replacement table resolve last [] []
  | keep {last r r'} (c) : Replacement table resolve (some c) r r' →
      Replacement table resolve last (c :: r) (c :: r')
  | call {last gap a b b' value x} (f : Name) : allowsName last = true →
      (∀ c ∈ gap, isBlank c = true) → Innermost a b →
      Formula.call table resolve f.chars (splitArguments a) = .ok x → literal x = .ok value →
      Replacement table resolve (some ')') b b' →
      Replacement table resolve last (callText f gap a ++ b) (value ++ b')

variable {table : FunctionTable} {resolve : Resolver} {last : Option Char}
  {gap a b r s t : List Char} {c : Char} {position : Nat}

section Starts

theorem callStartAt?_eq_none_iff : callStartAt? position t = none ↔
    startsWith (· == '(') ((t.dropWhile isWord).dropWhile isBlank) = false := by
  unfold callStartAt?
  dsimp only
  split
  · rename_i rest heq
    rw [heq]
    exact ⟨fun h => absurd h (by simp), fun h => absurd h (by simp [startsWith])⟩
  · rename_i hopening
    refine ⟨fun _ => ?_, fun _ => rfl⟩
    cases hd : (t.dropWhile isWord).dropWhile isBlank with
    | nil => rfl
    | cons c r =>
      refine beq_eq_false_iff_ne.mpr ?_
      rintro rfl
      exact hopening r hd

theorem Stop.not_opening (hs : Stop s) : startsWith (· == '(') (s.dropWhile isBlank) = false := by
  have hopening := hs.opening
  cases hd : s.dropWhile isBlank with
  | nil => rfl
  | cons c r => exact beq_eq_false_iff_ne.mpr (hopening c (by rw [hd]; rfl))

theorem opening_append (hs : Stop s) (t : List Char) :
    startsWith (· == '(') ((t ++ s).dropWhile isBlank) =
      startsWith (· == '(') (t.dropWhile isBlank) := by
  rw [List.dropWhile_append]
  cases t.dropWhile isBlank with
  | nil => exact hs.not_opening
  | cons c r => rfl

/-- No call starts with a word of the text and goes on behind it. -/
theorem callStartAt?_append (h : callStartAt? position t = none) (hs : Stop s) (position' : Nat) :
    callStartAt? position' (t ++ s) = none := by
  rw [callStartAt?_eq_none_iff] at h ⊢
  rw [List.dropWhile_append]
  cases hd : t.dropWhile isWord with
  | nil =>
    rw [List.isEmpty_nil, if_pos rfl, dropWhile_of_head hs.word]
    exact hs.not_opening
  | cons c r =>
    rw [hd] at h
    exact (opening_append hs (c :: r)).trans h

/-- A character at which no call starts is passed over, whatever follows. -/
theorem callStartsFrom_skip
    (h : (allowsName last && isNameStart c) = true → callStartAt? position (c :: t) = none)
    (hs : Stop s) (position' : Nat) :
    callStartsFrom last position' (c :: (t ++ s)) =
      callStartsFrom (some c) (position' + 1) (t ++ s) := by
  rw [callStartsFrom]
  split
  · rename_i hname
    have hnone : callStartAt? position' (c :: (t ++ s)) = none :=
      callStartAt?_append (h hname) hs position'
    rw [hnone]
  · rfl

/-- The parts of a text at which a call starts. -/
theorem exists_call {start : CallStart} (hc : isNameStart c = true)
    (h : callStartAt? position (c :: r) = some start) :
    ∃ (f : Name) (gap rest : List Char), c :: r = f.chars ++ (gap ++ '(' :: rest) ∧
      ∀ d ∈ gap, isBlank d = true := by
  have hword := isWord_of_isNameStart hc
  have hidentifier : isIdentifier ((c :: r).takeWhile isWord) = true := by
    rw [List.takeWhile_cons_of_pos hword]
    exact Bool.and_eq_true_iff.mpr ⟨hc, List.all_takeWhile⟩
  obtain ⟨rest, hrest⟩ :
      ∃ rest, ((c :: r).dropWhile isWord).dropWhile isBlank = '(' :: rest := by
    unfold callStartAt? at h
    dsimp only at h
    split at h
    · rename_i rest heq
      exact ⟨rest, heq⟩
    · exact absurd h (by simp)
  refine ⟨⟨_, hidentifier⟩, ((c :: r).dropWhile isWord).takeWhile isBlank, rest, ?_,
    fun d hd => List.mem_takeWhile_imp hd⟩
  rw [← hrest, List.takeWhile_append_dropWhile, List.takeWhile_append_dropWhile]

theorem startsWith_gap (hgap : ∀ c ∈ gap, isBlank c = true) (rest : List Char) :
    startsWith isOperandChar (gap ++ '(' :: rest) = false := by
  cases gap with
  | nil => exact (commonMark (by decide)).1
  | cons c gap => exact isOperandChar_of_isBlank (hgap c List.mem_cons_self)

theorem callStartAt?_opened (f : Name) (hgap : ∀ c ∈ gap, isBlank c = true) (rest : List Char)
    (position : Nat) :
    callStartAt? position (f.chars ++ (gap ++ '(' :: rest)) =
      some ⟨f.chars, position, position + f.chars.length + gap.length, '(' :: rest⟩ := by
  have hparen : ∀ c ∈ ('(' :: rest).head?, isBlank c = false := fun c hc =>
    Option.some.inj hc ▸ by decide
  have hstart : callStartAt? position (f.chars ++ (gap ++ '(' :: rest)) = _ :=
    callStartAt?_word f.identifier (startsWith_gap hgap rest) (dropWhile_append_stop hgap hparen)
  rwa [takeWhile_append_stop hgap hparen] at hstart

/-- The scan at the start of a call goes on after its parenthesis. -/
theorem callStartsFrom_opened (f : Name) (hlast : allowsName last = true)
    (hgap : ∀ c ∈ gap, isBlank c = true) (rest : List Char) (position : Nat) :
    callStartsFrom last position (f.chars ++ (gap ++ '(' :: rest)) =
      ⟨f.chars, position, position + f.chars.length + gap.length, '(' :: rest⟩ ::
        callStartsFrom (some '(') (position + f.chars.length + gap.length + 1) rest := by
  rw [callStartsFrom_allowed hlast, callStartsFrom_name f (head_not_word (startsWith_gap hgap rest)),
    callStartAt?_opened f hgap, callStartsFrom_gap hgap]
  rfl

/-- The scan at a call that holds no further call goes on after it. -/
theorem callStartsFrom_innermost (f : Name) (hlast : allowsName last = true)
    (hgap : ∀ c ∈ gap, isBlank c = true) (ha : callStarts a = []) (b : List Char)
    (position : Nat) :
    callStartsFrom last position (callText f gap a ++ b) =
      ⟨f.chars, position, position + f.chars.length + gap.length, '(' :: (a ++ ')' :: b)⟩ ::
        callStartsFrom (some ')') (position + (callText f gap a).length) b := by
  have hlength : position + f.chars.length + gap.length + 1 + a.length + 1 =
      position + (callText f gap a).length := by
    rw [length_callText]
    omega
  rw [callText_append, callStartsFrom_opened f hlast hgap,
    callStartsFrom_closing ((callStartsFrom_opening a).trans ha), hlength]

/-- A call that starts in a text starts there whatever follows. -/
theorem callStartAt?_of_append {position' : Nat} (h : callStartAt? position' (t ++ s) = none) :
    callStartAt? position t = none := by
  rw [callStartAt?_eq_none_iff] at h ⊢
  rw [List.dropWhile_append] at h
  cases hd : t.dropWhile isWord with
  | nil => rfl
  | cons c r =>
    rw [hd, List.isEmpty_cons, if_neg Bool.false_ne_true, List.dropWhile_append] at h
    cases hd' : (c :: r).dropWhile isBlank with
    | nil => rfl
    | cons d r =>
      rw [hd', List.isEmpty_cons, if_neg Bool.false_ne_true] at h
      exact h

theorem callStartsFrom_of_append {position' : Nat}
    (h : callStartsFrom last position' (t ++ s) = []) : callStartsFrom last position t = [] := by
  induction t generalizing last position position' with
  | nil => rfl
  | cons c r ih =>
    rw [List.cons_append, callStartsFrom] at h
    rw [callStartsFrom]
    split at h
    · rename_i hname
      rw [if_pos hname]
      cases hstart : callStartAt? position' (c :: (r ++ s)) with
      | some start =>
        rw [hstart] at h
        exact absurd h (List.cons_ne_nil _ _)
      | none =>
        rw [hstart] at h
        have hnone : callStartAt? position (c :: r) = none :=
          callStartAt?_of_append (s := s) hstart
        rw [hnone]
        exact ih h
    · rename_i hname
      rw [if_neg hname]
      exact ih h

end Starts

section Rounds

variable {flat : Prop} {result : Except Failure (List Char)}

/-- A call that holds no further call, and what a round does with the text after it. -/
theorem RewrittenAfter.innermost (f : Name) (hlast : allowsName last = true)
    (hgap : ∀ c ∈ gap, isBlank c = true) (ha : Innermost a b)
    (h : RewrittenAfter table resolve (some ')') flat b result) :
    RewrittenAfter table resolve last False (callText f gap a ++ b) (do
      let later ← result
      let x ← call table resolve f.chars (splitArguments a)
      let value ← asBreakdown (literal x)
      return value ++ later) := by
  intro position
  obtain ⟨calls, hcalls⟩ := h (position + (callText f gap a).length)
  have hstarts : ∀ s, callStartsFrom last position (callText f gap a ++ b ++ s) = _ := fun s =>
    (congrArg _ (List.append_assoc _ b s)).trans
      (callStartsFrom_innermost f hlast hgap ha.flat (b ++ s) position)
  have hstop : position + f.chars.length + gap.length + (1 + a.length) + 1 =
      position + (callText f gap a).length := by
    rw [length_callText]
    omega
  refine ⟨⟨f.chars, position, position + (callText f gap a).length, a⟩ :: calls,
    ⟨fun h' => absurd h' (List.cons_ne_nil _ _), False.elim⟩, fun _ => ?_, fun text s hs => ?_,
    fun front back hfront => ?_⟩
  · rw [hstarts]
    exact ⟨fun h' => absurd h' (List.cons_ne_nil _ _), fun h' => h'.1.elim⟩
  · have hclosing : closingFrom 0 0 ('(' :: (a ++ ')' :: (b ++ s))) = some (1 + a.length) :=
      closingFrom_congr (d := 0) (b ++ s) ha.closed
    rw [hstarts, innermostAmong]
    dsimp only
    rw [hclosing]
    dsimp only
    rw [take_arguments, hcalls.found text hs, hstop, length_behind]
    have hempty : (callStarts a).isEmpty = true := List.isEmpty_iff.mpr ha.flat
    cases innermostAmong text (callStartsFrom none _ s) with
    | error _ => rfl
    | ok later => exact if_pos hempty
  · have hreplaced := hcalls.replaced (front ++ callText f gap a) back
      (by rw [List.length_append, hfront])
    rw [replaceCalls, ← List.append_assoc front, hreplaced]
    cases result with
    | error _ => rfl
    | ok later =>
      change (call table resolve f.chars (splitArguments a)).bind _ = _
      cases call table resolve f.chars (splitArguments a) with
      | error _ => rfl
      | ok x =>
        change (asBreakdown (literal x)).bind _ = (((asBreakdown (literal x)).bind _)).map _
        cases asBreakdown (literal x) with
        | error _ => rfl
        | ok value =>
          have hbetween := replaced_between front (callText f gap a) (later ++ back) value
          change Except.ok (List.take _ _ ++ value ++ List.drop _ _) = Except.ok _
          dsimp only
          rw [← hfront, List.append_assoc (front ++ _), hbetween]
          simp

/-- A call that holds further calls is none of the round. -/
theorem innermostAmong_outer {name : List Char} {start paren : Nat} {later : List CallStart}
    (ha : callStarts a ≠ []) (hclosed : closingFrom 1 1 (a ++ ')' :: b) = some (1 + a.length))
    (text : List Char) :
    innermostAmong text (⟨name, start, paren, '(' :: (a ++ ')' :: b)⟩ :: later) =
      innermostAmong text later := by
  have hclosing : closingFrom 0 0 ('(' :: (a ++ ')' :: b)) = some (1 + a.length) := hclosed
  have hcalls : ¬ (callStarts a).isEmpty = true := fun h => ha (List.isEmpty_iff.mp h)
  rw [innermostAmong]
  dsimp only
  rw [hclosing]
  dsimp only
  rw [take_arguments]
  cases innermostAmong text later with
  | error _ => rfl
  | ok calls => exact if_neg hcalls

/-- The first character of a call that holds further calls is kept. -/
theorem RewrittenAfter.outer (f : Name) (hsplit : c :: r = f.chars ++ (gap ++ '(' :: (a ++ ')' :: b)))
    (hname : (allowsName last && isNameStart c) = true) (hgap : ∀ c ∈ gap, isBlank c = true)
    (ha : callStarts a ≠ []) (hclosed : closingFrom 1 1 (a ++ ')' :: b) = some (1 + a.length))
    (h : RewrittenAfter table resolve (some c) flat r result) :
    RewrittenAfter table resolve last False (c :: r) (result.map (c :: ·)) := by
  have hstarts : ∀ position s, callStartsFrom last position (c :: r ++ s) =
      ⟨f.chars, position, position + f.chars.length + gap.length, '(' :: (a ++ ')' :: (b ++ s))⟩ ::
        callStartsFrom (some c) (position + 1) (r ++ s) := by
    intro position s
    have hstart := callStartAt?_opened f hgap (a ++ ')' :: (b ++ s)) position
    have hwhole : c :: (r ++ s) = f.chars ++ (gap ++ '(' :: (a ++ ')' :: (b ++ s))) := by
      rw [← List.cons_append, hsplit]
      simp
    rw [← hwhole] at hstart
    rw [List.cons_append, callStartsFrom, if_pos hname, hstart]
  -- the calls in the arguments are among those of the text
  have hdeep : ¬ flat := by
    intro hflat
    obtain ⟨calls, hcalls⟩ := h 1
    have hnone := (hcalls.starts stop_nil).mpr ⟨hflat, rfl⟩
    have hopened := callStartsFrom_opened f (Bool.and_eq_true_iff.mp hname).1 hgap
      (a ++ ')' :: b) 0
    have hwhole := hstarts 0 []
    rw [List.append_nil, List.append_nil] at hwhole
    rw [← hsplit, hwhole] at hopened
    have hrest := (List.cons.inj hopened).2
    rw [Nat.zero_add, hnone] at hrest
    exact ha ((callStartsFrom_opening a).symm.trans (callStartsFrom_of_append hrest.symm))
  intro position
  obtain ⟨calls, hcalls⟩ := h (position + 1)
  have hsome : calls ≠ [] := fun hnone => hdeep (hcalls.isEmpty.mp hnone)
  have hlength : position + (c :: r).length = position + 1 + r.length := by
    rw [List.length_cons]
    omega
  refine ⟨calls, ⟨fun hnone => absurd hnone hsome, False.elim⟩, fun _ => ?_, fun text s hs => ?_,
    fun front back hfront => hcalls.replaced_cons hfront back⟩
  · rw [hstarts]
    exact ⟨fun h' => absurd h' (List.cons_ne_nil _ _), fun h' => h'.1.elim⟩
  · rw [hstarts, innermostAmong_outer ha (closingFrom_congr (d := 0) (b ++ s) hclosed),
      hcalls.found text hs, hlength]

/-- That a round does something with a text after `last`, and replaces calls by values when it
completes. -/
def Rewrites (table : FunctionTable) (resolve : Resolver) (last : Option Char) (t : List Char) :
    Prop :=
  ∃ flat result, RewrittenAfter table resolve last flat t result ∧
    ∀ u, result = .ok u → Replacement table resolve last t u

theorem rewrites_nil : Rewrites table resolve last [] := by
  refine ⟨True, .ok [], rewritten_plain fun position _ hs => callStartsFrom_stop hs.word last, ?_⟩
  rintro u ⟨⟩
  exact .nil

theorem replacement_map_cons (h : ∀ u, result = .ok u → Replacement table resolve (some c) r u) :
    ∀ u, result.map (c :: ·) = .ok u → Replacement table resolve last (c :: r) u := by
  intro u hu
  obtain ⟨v, hv, rfl⟩ := map_eq_ok hu
  exact .keep c (h v hv)

/-- A character at which no call starts is kept. -/
theorem Rewrites.passed (h : Rewrites table resolve (some c) r)
    (hnone : (allowsName last && isNameStart c) = true → callStartAt? position (c :: r) = none) :
    Rewrites table resolve last (c :: r) := by
  obtain ⟨flat, result, hrewritten, hresult⟩ := h
  exact ⟨flat, _, hrewritten.keep fun position' _ hs => callStartsFrom_skip hnone hs position',
    replacement_map_cons hresult⟩

theorem Rewrites.innermost (f : Name) (hlast : allowsName last = true)
    (hgap : ∀ c ∈ gap, isBlank c = true) (ha : Innermost a b)
    (h : Rewrites table resolve (some ')') b) :
    Rewrites table resolve last (callText f gap a ++ b) := by
  obtain ⟨flat, result, hrewritten, hresult⟩ := h
  refine ⟨False, _, hrewritten.innermost f hlast hgap ha, fun u hu => ?_⟩
  obtain ⟨later, hlater, hu⟩ := bind_eq_ok hu
  obtain ⟨x, hx, hu⟩ := bind_eq_ok hu
  obtain ⟨value, hvalue, hu⟩ := bind_eq_ok hu
  obtain rfl := Except.ok.inj hu
  exact .call f hlast hgap ha hx (asBreakdown_eq_ok hvalue) (hresult later hlater)

theorem Rewrites.outer (f : Name) (hsplit : c :: r = f.chars ++ (gap ++ '(' :: (a ++ ')' :: b)))
    (hname : (allowsName last && isNameStart c) = true) (hgap : ∀ c ∈ gap, isBlank c = true)
    (ha : callStarts a ≠ []) (hclosed : closingFrom 1 1 (a ++ ')' :: b) = some (1 + a.length))
    (h : Rewrites table resolve (some c) r) : Rewrites table resolve last (c :: r) := by
  obtain ⟨flat, result, hrewritten, hresult⟩ := h
  exact ⟨False, _, hrewritten.outer f hsplit hname hgap ha hclosed, replacement_map_cons hresult⟩

/-- A round does something with every text after `last` in which every call is closed. -/
theorem rewrites (table : FunctionTable) (resolve : Resolver) {text : List Char}
    {calls : List Call} (h : innermostAmong text (callStartsFrom last position t) = .ok calls) :
    Rewrites table resolve last t := by
  induction hn : t.length using Nat.strongRecOn generalizing t last position calls with
  | ind n ih =>
    cases t with
    | nil => exact rewrites_nil
    | cons c r =>
      have hlater : ∀ {calls},
          innermostAmong text (callStartsFrom (some c) (position + 1) r) = .ok calls →
          Rewrites table resolve (some c) r :=
        fun hcalls => ih r.length (hn ▸ Nat.lt_succ_self _) hcalls rfl
      rw [callStartsFrom] at h
      by_cases hname : (allowsName last && isNameStart c) = true
      swap
      · rw [if_neg hname] at h
        have hnone : (allowsName last && isNameStart c) = true →
            callStartAt? position (c :: r) = none := fun h' => absurd h' hname
        exact (hlater h).passed hnone
      rw [if_pos hname] at h
      cases hstart : callStartAt? position (c :: r) with
      | none =>
        rw [hstart] at h
        exact (hlater h).passed fun _ => hstart
      | some start =>
        obtain ⟨hlast, hc⟩ := Bool.and_eq_true_iff.mp hname
        obtain ⟨f, gap, rest, hsplit, hgap⟩ := exists_call hc hstart
        rw [hsplit, callStartAt?_opened f hgap] at h
        obtain ⟨a, b, calls', rfl, hclosed, hcalls', _⟩ := innermostAmong_call_eq_ok h
        by_cases ha : callStarts a = []
        · -- the scan goes on after the call
          have hwhole : c :: r = callText f gap a ++ b :=
            hsplit.trans (callText_append f gap a b).symm
          have hshort : b.length < n := by
            rw [← hn, hwhole, List.length_append, length_callText]
            omega
          have hopened := callStartsFrom_innermost f hlast hgap ha b position
          rw [← hwhole, callStartsFrom, if_pos hname, hsplit, callStartAt?_opened f hgap] at hopened
          rw [(List.cons.inj hopened).2] at hcalls'
          rw [hwhole]
          exact (ih b.length hshort hcalls' rfl).innermost f hlast hgap ⟨ha, hclosed⟩
        · exact (hlater hcalls').outer f hsplit hname hgap ha hclosed

/-- What a round does with a text in which every call is closed, wherever it stands. -/
theorem rewritten_of_innermostCalls {calls : List Call} (h : innermostCalls t = .ok calls) :
    Rewritten table resolve (callStarts t = []) t (replaceCalls table resolve t calls) ∧
      ∀ u, replaceCalls table resolve t calls = .ok u → Replacement table resolve none t u := by
  obtain ⟨flat, result, hrewritten, hresult⟩ := rewrites table resolve h
  have hrewritten : Rewritten table resolve flat t result := hrewritten
  obtain ⟨calls', hcalls', _, hreplace⟩ := hrewritten.innermostCalls
  obtain rfl := Except.ok.inj (hcalls'.symm.trans h)
  exact ⟨hrewritten.congr hrewritten.callStarts_eq_nil.symm hreplace.symm,
    fun u hu => hresult u (hreplace ▸ hu)⟩

/-- Where every call is closed, a round finds a call if there is one. -/
theorem callStarts_of_innermostCalls {calls : List Call} (h : innermostCalls t = .ok calls)
    (hempty : calls.isEmpty = true) : callStarts t = [] := by
  have hrewritten : Rewritten [] (fun _ => .ok 0) (callStarts t = []) t _ :=
    (rewritten_of_innermostCalls h).1
  obtain ⟨calls', hcalls', hflat, _⟩ := hrewritten.innermostCalls
  obtain rfl := Except.ok.inj (hcalls'.symm.trans h)
  exact hflat.mp hempty

/-- The arguments of the calls of a round stand between parentheses and hold no call. -/
theorem exists_around_arguments {text : List Char} {calls : List Call} {call : Call}
    (h : innermostAmong text (callStartsFrom last position t) = .ok calls) (hc : call ∈ calls) :
    ∃ x y, t = x ++ '(' :: call.arguments ++ ')' :: y ∧ callStarts call.arguments = [] := by
  induction t generalizing last position calls with
  | nil =>
    obtain rfl := Except.ok.inj h
    exact absurd hc List.not_mem_nil
  | cons c r ih =>
    have hlater : ∀ {calls},
        innermostAmong text (callStartsFrom (some c) (position + 1) r) = .ok calls →
        call ∈ calls →
        ∃ x y, c :: r = x ++ '(' :: call.arguments ++ ')' :: y ∧ callStarts call.arguments = [] := by
      intro calls hcalls hmem
      obtain ⟨x, y, rfl, hflat⟩ := ih hcalls hmem
      exact ⟨c :: x, y, rfl, hflat⟩
    rw [callStartsFrom] at h
    by_cases hname : (allowsName last && isNameStart c) = true
    swap
    · rw [if_neg hname] at h
      exact hlater h hc
    rw [if_pos hname] at h
    cases hstart : callStartAt? position (c :: r) with
    | none =>
      rw [hstart] at h
      exact hlater h hc
    | some start =>
      obtain ⟨f, gap, rest, hsplit, hgap⟩ := exists_call (Bool.and_eq_true_iff.mp hname).2 hstart
      rw [hsplit, callStartAt?_opened f hgap] at h
      obtain ⟨a, b, calls', rfl, _, hcalls', hcalls⟩ := innermostAmong_call_eq_ok h
      rcases hcalls with rfl | ⟨hflat, rfl⟩
      · exact hlater hcalls' hc
      · rcases List.mem_cons.mp hc with rfl | hc
        · exact ⟨f.chars ++ gap, b, by rw [hsplit]; simp, hflat⟩
        · exact hlater hcalls' hc

end Rounds

end Reckoner.Formula
