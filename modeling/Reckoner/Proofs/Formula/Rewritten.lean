import Reckoner.Proofs.Formula.Rounds

/-!
Rounds of call evaluation, on parts of a text. What a round does with a part does not depend on
what stands around it, as long as no word and no call goes on behind it. So the parts of an
expression can be treated one by one.
-/
namespace Reckoner.Formula

open Text Number Arith

variable {table : FunctionTable} {resolve : Resolver}

theorem replaceCalls_append (s : List Char) (calls more : List Call) :
    replaceCalls table resolve s (calls ++ more) =
      (replaceCalls table resolve s more).bind fun s => replaceCalls table resolve s calls := by
  induction calls with
  | nil =>
    rw [List.nil_append]
    cases replaceCalls table resolve s more <;> rfl
  | cons c calls ih =>
    rw [List.cons_append, replaceCalls, ih]
    cases replaceCalls table resolve s more <;> rfl

section Rounds

variable {resolve' : Resolver} {s t : List Char} {bound : Int} {left : Nat} {calls : List Call}

/-- Rounds end at once in a text in which none of the calls is found. -/
theorem replaceRounds_settled (h : innermostCalls s = .ok []) (bound : Int) (left : Nat) :
    replaceRounds table resolve bound left s = .ok s := by
  unfold replaceRounds
  rw [h]
  rfl

theorem replaceRounds_flat (h : callStarts s = []) (bound : Int) (left : Nat) :
    replaceRounds table resolve bound left s = .ok s := by
  refine replaceRounds_settled ?_ bound left
  unfold innermostCalls
  rw [h]
  rfl

theorem replaceRounds_exhausted (h : innermostCalls s = .ok calls) (hne : calls ≠ []) :
    replaceRounds table resolve bound 0 s = .error (.within (.tooDeep bound) s) := by
  unfold replaceRounds
  rw [h]
  exact if_neg (mt List.isEmpty_iff.mp hne)

theorem replaceRounds_step (h : innermostCalls s = .ok calls) (hne : calls ≠ []) :
    replaceRounds table resolve bound (left + 1) s =
      (replaceCalls table resolve s calls).bind (replaceRounds table resolve bound left) := by
  rw [replaceRounds, h]
  exact if_neg (mt List.isEmpty_iff.mp hne)

/-- Rounds that succeed find no call, or replace the calls they find and go on. -/
theorem replaceRounds_eq_ok (h : replaceRounds table resolve bound left s = .ok t) :
    (innermostCalls s = .ok [] ∧ t = s) ∨
      ∃ fewer calls u, left = fewer + 1 ∧ calls ≠ [] ∧ innermostCalls s = .ok calls ∧
        replaceCalls table resolve s calls = .ok u ∧
        replaceRounds table resolve bound fewer u = .ok t := by
  cases hcalls : innermostCalls s with
  | error f =>
    unfold replaceRounds at h
    rw [hcalls] at h
    exact absurd h nofun
  | ok calls =>
    by_cases hne : calls = []
    · subst hne
      rw [replaceRounds_settled hcalls] at h
      exact Or.inl ⟨rfl, (Except.ok.inj h).symm⟩
    cases left with
    | zero =>
      rw [replaceRounds_exhausted hcalls hne] at h
      exact absurd h nofun
    | succ fewer =>
      rw [replaceRounds_step hcalls hne] at h
      obtain ⟨u, hu, h⟩ := bind_eq_ok h
      exact Or.inr ⟨fewer, calls, u, rfl, hne, rfl, hu, h⟩

/-- Where two resolvers do the same in every round they do the same in all rounds; `P` is what a
round keeps. -/
theorem replaceRounds_eq_of_step {P : List Char → Prop}
    (hstep : ∀ t calls, P t → innermostCalls t = .ok calls →
      replaceCalls table resolve t calls = replaceCalls table resolve' t calls)
    (hkeep : ∀ t calls u, P t → innermostCalls t = .ok calls →
      replaceCalls table resolve' t calls = .ok u → P u)
    (hs : P s) (bound : Int) (left : Nat) :
    replaceRounds table resolve bound left s = replaceRounds table resolve' bound left s := by
  induction left generalizing s with
  | zero =>
    unfold replaceRounds
    rfl
  | succ left ih =>
    cases hcalls : innermostCalls s with
    | error f =>
      unfold replaceRounds
      rw [hcalls]
      rfl
    | ok calls =>
      by_cases hne : calls = []
      · subst hne
        rw [replaceRounds_settled hcalls, replaceRounds_settled hcalls]
      rw [replaceRounds_step hcalls hne, replaceRounds_step hcalls hne, hstep s calls hs hcalls]
      cases hround : replaceCalls table resolve' s calls with
      | error _ => rfl
      | ok u => exact ih (hkeep s calls u hs hcalls hround)

end Rounds

/-- What a round finds in a text at a position after `last`, and what becomes of the text. -/
structure RewrittenAt (table : FunctionTable) (resolve : Resolver) (last : Option Char)
    (flat : Prop) (t : List Char) (result : Except Failure (List Char)) (position : Nat)
    (calls : List Call) : Prop where
  isEmpty : calls = [] ↔ flat
  starts : ∀ {s}, Stop s → (callStartsFrom last position (t ++ s) = [] ↔
    flat ∧ callStartsFrom none (position + t.length) s = [])
  found : ∀ text {s}, Stop s → innermostAmong text (callStartsFrom last position (t ++ s)) =
    (innermostAmong text (callStartsFrom none (position + t.length) s)).map (calls ++ ·)
  replaced : ∀ front back, front.length = position →
    replaceCalls table resolve (front ++ t ++ back) calls =
      result.map fun u => front ++ u ++ back

/-- Texts that become a given one in a round, wherever they stand after `last`; `flat` says that
they hold no call. -/
def RewrittenAfter (table : FunctionTable) (resolve : Resolver) (last : Option Char) (flat : Prop)
    (t : List Char) (result : Except Failure (List Char)) : Prop :=
  ∀ position, ∃ calls, RewrittenAt table resolve last flat t result position calls

/-- The same for texts that stand after no word. -/
def Rewritten (table : FunctionTable) (resolve : Resolver) (flat : Prop) (t : List Char)
    (result : Except Failure (List Char)) : Prop :=
  RewrittenAfter table resolve none flat t result

section Parts

variable {flat more : Prop} {gap t u : List Char} {r r' : Except Failure (List Char)} {c : Char}

theorem Rewritten.congr (h : Rewritten table resolve flat t r) (hflat : flat ↔ more) (hr : r = r') :
    Rewritten table resolve more t r' := propext hflat ▸ hr ▸ h

/-- A text in which no call starts stays as it is. -/
theorem rewritten_plain {last : Option Char} (h : ∀ position {s}, Stop s →
      callStartsFrom last position (t ++ s) = callStartsFrom none (position + t.length) s) :
    RewrittenAfter table resolve last True t (.ok t) := by
  intro position
  refine ⟨[], ⟨fun _ => trivial, fun _ => rfl⟩, fun hs => ?_, fun text s hs => ?_, fun _ _ _ => rfl⟩
  · rw [h position hs]
    exact ⟨fun hnone => ⟨trivial, hnone⟩, fun hnone => hnone.2⟩
  · rw [h position hs]
    cases innermostAmong text (callStartsFrom none (position + t.length) s) <;> rfl

theorem rewritten_nil : Rewritten table resolve True [] (.ok []) := rewritten_plain fun _ _ _ => rfl

theorem rewritten_unnamed (h : ∀ c ∈ t, isNameStart c = false) :
    Rewritten table resolve True t (.ok t) :=
  rewritten_plain fun _ _ hs => (callStartsFrom_append h _).trans (callStartsFrom_stop hs.word _)

theorem rewritten_name (n : Name) : Rewritten table resolve True n.chars (.ok n.chars) :=
  rewritten_plain fun _ _ hs => by
    rw [callStartsFrom_name n hs.word, callStartAt?_stop n hs]
    rfl

/-- A character in front does not matter to what becomes of a text. -/
theorem RewrittenAt.replaced_cons {last : Option Char} {position : Nat} {calls : List Call}
    (h : RewrittenAt table resolve last flat t r (position + 1) calls) {front : List Char}
    (hfront : front.length = position) (back : List Char) :
    replaceCalls table resolve (front ++ c :: t ++ back) calls =
      (r.map (c :: ·)).map fun u => front ++ u ++ back := by
  have hreplaced := h.replaced (front ++ [c]) back (by
    rw [List.length_append, hfront, List.length_singleton])
  rw [List.append_assoc front, List.singleton_append] at hreplaced
  rw [hreplaced]
  cases r with
  | error _ => rfl
  | ok u =>
    change Except.ok (front ++ [c] ++ u ++ back) = _
    rw [List.append_assoc front, List.singleton_append]
    rfl

/-- The character before a text matters only where it allows no name. -/
theorem callStartsFrom_allowed {last : Option Char} (h : allowsName last = true) (position : Nat)
    (s : List Char) : callStartsFrom last position s = callStartsFrom none position s := by
  cases s with
  | nil => rfl
  | cons d s => rw [callStartsFrom, callStartsFrom, h]; rfl

theorem Rewritten.after {last : Option Char} (h : Rewritten table resolve flat t r)
    (hlast : allowsName last = true) : RewrittenAfter table resolve last flat t r := by
  intro position
  obtain ⟨calls, hcalls⟩ := h position
  refine ⟨calls, hcalls.isEmpty, fun hs => ?_, fun text s hs => ?_, hcalls.replaced⟩
  · rw [callStartsFrom_allowed hlast, hcalls.starts hs]
  · rw [callStartsFrom_allowed hlast, hcalls.found text hs]

/-- A character at which no call is found stays as it is. -/
theorem RewrittenAfter.keep {last : Option Char}
    (hskip : ∀ position {s}, Stop s → callStartsFrom last position (c :: (t ++ s)) =
      callStartsFrom (some c) (position + 1) (t ++ s))
    (h : RewrittenAfter table resolve (some c) flat t r) :
    RewrittenAfter table resolve last flat (c :: t) (r.map (c :: ·)) := by
  intro position
  obtain ⟨calls, hcalls⟩ := h (position + 1)
  have hlength : position + (c :: t).length = position + 1 + t.length := by
    rw [List.length_cons]
    omega
  refine ⟨calls, hcalls.isEmpty, fun hs => ?_, fun text s hs => ?_, fun front back hfront => ?_⟩
  · rw [List.cons_append, hskip position hs, hlength, hcalls.starts hs]
  · rw [List.cons_append, hskip position hs, hlength, hcalls.found text hs]
  · exact hcalls.replaced_cons hfront back

/-- A mark in front stays as it is. -/
theorem Rewritten.cons (h : Rewritten table resolve flat t r) (hc : allowsName (some c) = true) :
    Rewritten table resolve flat (c :: t) (r.map (c :: ·)) :=
  (h.after hc).keep fun _ {_} _ =>
    (callStartsFrom_free hc _).trans (callStartsFrom_allowed hc _ _).symm

theorem Rewritten.spaces (h : Rewritten table resolve flat t r) (hgap : ∀ c ∈ gap, c = ' ') :
    Rewritten table resolve flat (gap ++ t) (r.map (gap ++ ·)) := by
  induction gap with
  | nil => exact h.congr Iff.rfl (by cases r <;> rfl)
  | cons c gap ih =>
    obtain ⟨rfl, hrest⟩ := List.forall_mem_cons.mp hgap
    exact ((ih hrest).cons (by decide)).congr Iff.rfl (by cases r <;> rfl)

/-- What a round does with a text that nothing follows. -/
theorem Rewritten.innermostCalls (h : Rewritten table resolve flat t r) :
    ∃ calls, innermostCalls t = .ok calls ∧ (calls.isEmpty = true ↔ flat) ∧
      replaceCalls table resolve t calls = r := by
  obtain ⟨calls, hcalls⟩ := h 0
  have hfound := hcalls.found t stop_nil
  have hreplaced := hcalls.replaced [] [] rfl
  refine ⟨calls, ?_, ?_, ?_⟩
  · rw [List.append_nil] at hfound
    exact hfound.trans (congrArg Except.ok (List.append_nil calls))
  · rw [List.isEmpty_iff, hcalls.isEmpty]
  · rw [List.nil_append, List.append_nil] at hreplaced
    rw [hreplaced]
    cases r with
    | error _ => rfl
    | ok u => exact congrArg Except.ok (List.append_nil u)

theorem length_behind (position : Nat) (t u : List Char) :
    position + (t ++ u).length = position + t.length + u.length := by
  rw [List.length_append, Nat.add_assoc]

/-- Two parts, where no word and no call goes on from the first into the second. -/
theorem Rewritten.append (ht : Rewritten table resolve flat t r)
    (hu : Rewritten table resolve more u r') (hstop : ∀ {s}, Stop s → Stop (u ++ s)) :
    Rewritten table resolve (flat ∧ more) (t ++ u) (do
      let later ← r'
      let earlier ← r
      return earlier ++ later) := by
  intro position
  obtain ⟨calls, hcalls⟩ := ht position
  obtain ⟨behind, hbehind⟩ := hu (position + t.length)
  refine ⟨calls ++ behind, ?_, fun hs => ?_, fun text s hs => ?_, fun front back hfront => ?_⟩
  · rw [List.append_eq_nil_iff, hcalls.isEmpty, hbehind.isEmpty]
  · rw [List.append_assoc, hcalls.starts (hstop hs), hbehind.starts hs, length_behind, and_assoc]
  · rw [List.append_assoc, hcalls.found text (hstop hs), hbehind.found text hs, length_behind]
    cases innermostAmong text (callStartsFrom none _ s) with
    | error _ => rfl
    | ok later => exact congrArg Except.ok (List.append_assoc calls behind later).symm
  · have hlater := hbehind.replaced (front ++ t) back (by rw [List.length_append, hfront])
    have hearlier := fun v => hcalls.replaced front (v ++ back) hfront
    rw [replaceCalls_append, ← List.append_assoc front, hlater]
    cases r' with
    | error _ => rfl
    | ok v =>
      change replaceCalls table resolve (front ++ t ++ v ++ back) calls = _
      rw [List.append_assoc (front ++ t), hearlier]
      cases r with
      | error _ => rfl
      | ok w =>
        change Except.ok (front ++ w ++ (v ++ back)) = Except.ok (front ++ (w ++ v) ++ back)
        simp only [List.append_assoc]

/-- A part in parentheses. -/
theorem Rewritten.enclosed (h : Rewritten table resolve flat t r) :
    Rewritten table resolve flat ('(' :: t ++ [')']) (r.map fun u => '(' :: u ++ [')']) := by
  have hclosing : Rewritten table resolve True [')'] (.ok [')']) :=
    rewritten_nil.cons (by decide)
  have hstop : ∀ {s}, Stop s → Stop ([')'] ++ s) := fun _ =>
    stop_mark (by decide) (by decide) (by decide) _
  refine ((h.append hclosing hstop).cons (by decide)).congr (iff_of_eq (and_true flat)) ?_
  cases r <;> rfl

end Parts

section Calls

variable {flat : Prop} {before t : List Char} {r : Except Failure (List Char)}

theorem callStartsFrom_call (f : Name) (hbefore : ∀ c ∈ before, c = ' ') (t : List Char)
    (position : Nat) (s : List Char) :
    callStartsFrom none position (f.chars ++ (before ++ ('(' :: t ++ [')'])) ++ s) =
      ⟨f.chars, position, position + f.chars.length + before.length, '(' :: t ++ ')' :: s⟩ ::
        callStartsFrom none (position + f.chars.length) (before ++ ('(' :: t ++ [')']) ++ s) := by
  have hrest : before ++ ('(' :: t ++ [')']) ++ s = before ++ '(' :: (t ++ ')' :: s) := by simp
  rw [List.append_assoc f.chars, hrest, callStartsFrom_name f (head_opening hbefore _),
    callStartAt?_opening f hbefore]
  rfl

/-- A call is found when no call starts between its parentheses. -/
theorem innermostAmong_call (f : Name) (hbefore : ∀ c ∈ before, c = ' ') (ht : Balanced t)
    (text : List Char) (position : Nat) (s : List Char) :
    innermostAmong text
        (callStartsFrom none position (f.chars ++ (before ++ ('(' :: t ++ [')'])) ++ s)) =
      (innermostAmong text (callStartsFrom none (position + f.chars.length)
        (before ++ ('(' :: t ++ [')']) ++ s))).map fun calls =>
          if callStarts t = [] then
            ⟨f.chars, position, position + f.chars.length + before.length + (t.length + 1) + 1, t⟩
              :: calls
          else calls := by
  have hinside : (('(' :: t ++ ')' :: s).drop 1).take (t.length + 1 - 1) = t := by
    rw [List.cons_append, List.drop_one, List.tail_cons, Nat.add_sub_cancel, List.take_left]
  rw [callStartsFrom_call f hbefore, innermostAmong]
  dsimp only
  rw [closingFrom_call ht s]
  dsimp only
  rw [hinside]
  cases innermostAmong text (callStartsFrom none _ (before ++ ('(' :: t ++ [')']) ++ s)) with
  | error _ => rfl
  | ok calls =>
    change (if (callStarts t).isEmpty = true then _ else _) = Except.ok (if _ then _ else _)
    simp only [List.isEmpty_iff]
    split <;> rfl

theorem Rewritten.callStarts_eq_nil (hr : Rewritten table resolve flat t r) : callStarts t = [] ↔ flat := by
  obtain ⟨calls, hcalls⟩ := hr 0
  have hstarts := hcalls.starts stop_nil
  rw [List.append_nil] at hstarts
  exact hstarts.trans (and_iff_left rfl)

/-- A call on arguments without calls becomes its value. -/
theorem rewritten_innermost (f : Name) (hbefore : ∀ c ∈ before, c = ' ') (ht : Balanced t)
    (hr : Rewritten table resolve flat t r) (h : flat) :
    Rewritten table resolve False (f.chars ++ (before ++ ('(' :: t ++ [')'])))
      ((call table resolve f.chars (splitArguments t)).map fun x =>
        textOf (Expr.ofValue x).lexemes) := by
  intro position
  obtain ⟨none, hnone⟩ := hr.enclosed.spaces hbefore (position + f.chars.length)
  obtain rfl := hnone.isEmpty.mpr h
  refine ⟨[⟨f.chars, position, position + f.chars.length + before.length + (t.length + 1) + 1, t⟩],
    ⟨fun h' => absurd h' (List.cons_ne_nil _ _), False.elim⟩, fun _ => ?_, fun text s hs => ?_,
    fun front back hfront => ?_⟩
  · rw [callStartsFrom_call f hbefore]
    exact ⟨fun h' => absurd h' (List.cons_ne_nil _ _), fun h' => h'.1.elim⟩
  · rw [innermostAmong_call f hbefore ht, hnone.found text hs, length_behind position]
    simp only [if_pos (hr.callStarts_eq_nil.mpr h)]
    cases innermostAmong text (callStartsFrom Option.none _ s) <;> rfl
  · rw [replaceCalls, replaceCalls]
    change (Formula.call table resolve f.chars _).bind _ = _
    cases hcall : Formula.call table resolve f.chars (splitArguments t) with
    | error _ => rfl
    | ok x =>
      have hliteral := literal_eq_ofValue (call_isFinite hcall)
      have htake : (front ++ (f.chars ++ (before ++ ('(' :: t ++ [')']))) ++ back).take position =
          front := by
        rw [List.append_assoc, List.take_left' hfront]
      have hdrop : (front ++ (f.chars ++ (before ++ ('(' :: t ++ [')']))) ++ back).drop
          (position + f.chars.length + before.length + (t.length + 1) + 1) = back := by
        refine List.drop_left' ?_
        simp only [List.length_append, List.length_cons, List.length_nil, hfront]
        omega
      change (asBreakdown (literal x)).bind _ = _
      rw [hliteral]
      change Except.ok (List.take _ _ ++ _ ++ List.drop _ _) = _
      dsimp only
      rw [htake, hdrop]
      rfl

/-- In a call on arguments with calls, the arguments are rewritten. -/
theorem Rewritten.call (f : Name) (hbefore : ∀ c ∈ before, c = ' ') (ht : Balanced t)
    (hr : Rewritten table resolve flat t r) (h : ¬ flat) :
    Rewritten table resolve False (f.chars ++ (before ++ ('(' :: t ++ [')'])))
      (r.map fun u => f.chars ++ (before ++ ('(' :: u ++ [')']))) := by
  intro position
  obtain ⟨calls, hcalls⟩ := hr.enclosed.spaces hbefore (position + f.chars.length)
  have hsome : calls ≠ [] := fun hnone => h (hcalls.isEmpty.mp hnone)
  refine ⟨calls, ⟨fun hnone => absurd hnone hsome, False.elim⟩, fun _ => ?_, fun text s hs => ?_,
    fun front back hfront => ?_⟩
  · rw [callStartsFrom_call f hbefore]
    exact ⟨fun h' => absurd h' (List.cons_ne_nil _ _), fun h' => h'.1.elim⟩
  · rw [innermostAmong_call f hbefore ht, hcalls.found text hs, length_behind position]
    simp only [if_neg fun h' => h (hr.callStarts_eq_nil.mp h')]
    cases innermostAmong text (callStartsFrom none _ s) <;> rfl
  · have hreplaced := hcalls.replaced (front ++ f.chars) back (by rw [List.length_append, hfront])
    rw [← List.append_assoc front]
    refine hreplaced.trans ?_
    cases r with
    | error _ => rfl
    | ok u => exact congrArg (fun v => Except.ok (v ++ back)) (List.append_assoc front f.chars _)

end Calls

end Reckoner.Formula
