import Reckoner.Proofs.Formula.Sites

/-!
The places of calls in a text. A call start that has its closing parenthesis cuts the text into what
stands before the name, the name, the white space after it, the arguments and what comes after the
call; and wherever a text can be cut like this, the call is found. The scan of a round keeps those
that hold no further call. Their spans do not meet, so replacing them from the last to the first is
replacing them all at once.
-/
namespace Reckoner.Formula

open Text Number Arith

variable {text before gap arguments after rest a b : List Char} {f : Name} {last : Option Char}
  {position : Nat} {call : CallStart}

/-- The call start that a name, white space and a parenthesis make. -/
def callStart (start : Nat) (f : Name) (gap rest : List Char) : CallStart :=
  ⟨f.chars, start, start + f.chars.length + gap.length, '(' :: rest⟩

section Starts

/-- Where a call starts, a name and white space lead up to a parenthesis. -/
theorem exists_of_mem_callStartsFrom (h : call ∈ callStartsFrom last position text) :
    ∃ before f gap rest, text = before ++ (f.chars ++ (gap ++ '(' :: rest)) ∧
      (∀ c ∈ gap, isBlank c = true) ∧ allowsName (Scope.lastOf last before) = true ∧
      call = callStart (position + before.length) f gap rest := by
  induction text generalizing last position with
  | nil => exact absurd h List.not_mem_nil
  | cons c r ih =>
    have hlater : call ∈ callStartsFrom (some c) (position + 1) r →
        ∃ before f gap rest, c :: r = before ++ (f.chars ++ (gap ++ '(' :: rest)) ∧
          (∀ c ∈ gap, isBlank c = true) ∧ allowsName (Scope.lastOf last before) = true ∧
          call = callStart (position + before.length) f gap rest := by
      intro hmem
      obtain ⟨before, f, gap, rest, rfl, hgap, hlast, hcall⟩ := ih hmem
      refine ⟨c :: before, f, gap, rest, rfl, hgap, ?_, ?_⟩
      · rwa [Scope.lastOf_cons]
      · rw [hcall, List.length_cons, Nat.add_assoc, Nat.add_comm 1]
    rw [callStartsFrom] at h
    split at h
    · rename_i hname
      obtain ⟨hlast, hc⟩ := Bool.and_eq_true_iff.mp hname
      split at h
      · rename_i start hstart
        rcases List.mem_cons.mp h with rfl | hmem
        · obtain ⟨f, gap, rest, hsplit, hgap⟩ := exists_call hc hstart
          rw [hsplit, callStartAt?_opened f hgap] at hstart
          exact ⟨[], f, gap, rest, hsplit, hgap, hlast, (Option.some.inj hstart).symm⟩
        · exact hlater hmem
      · exact hlater h
    · exact hlater h

theorem callStart_mem (hgap : ∀ c ∈ gap, isBlank c = true)
    (hlast : allowsName (Scope.lastOf last before) = true) (f : Name) (rest : List Char)
    (position : Nat) :
    callStart (position + before.length) f gap rest ∈
      callStartsFrom last position (before ++ (f.chars ++ (gap ++ '(' :: rest))) := by
  induction before generalizing last position with
  | nil =>
    have hallowed : allowsName last = true := hlast
    rw [List.nil_append, callStartsFrom_opened f hallowed hgap]
    exact List.mem_cons_self
  | cons c before ih =>
    rw [Scope.lastOf_cons] at hlast
    have hmem := ih hlast (position + 1)
    rw [Nat.add_assoc, Nat.add_comm 1, ← List.length_cons (a := c)] at hmem
    rw [List.cons_append, callStartsFrom]
    split
    · split
      · exact List.mem_cons_of_mem _ hmem
      · exact hmem
    · exact hmem

end Starts

/-- A call start in a text, with what stands before it and after its parenthesis. -/
structure StartIn (text before : List Char) (f : Name) (gap rest : List Char) : Prop where
  text_eq : text = before ++ (f.chars ++ (gap ++ '(' :: rest))
  blank : ∀ c ∈ gap, isBlank c = true
  last : allowsName before.getLast? = true

/-- A call in a text, with its arguments and what stands before and after it. -/
structure CallIn (text before : List Char) (f : Name) (gap arguments after : List Char) : Prop where
  text_eq : text = before ++ (f.chars ++ (gap ++ '(' :: (arguments ++ ')' :: after)))
  blank : ∀ c ∈ gap, isBlank c = true
  last : allowsName before.getLast? = true
  closed : closingFrom 0 0 ('(' :: (arguments ++ ')' :: after)) = some (arguments.length + 1)

section Calls

theorem mem_callStarts_iff : call ∈ callStarts text ↔
    ∃ before f gap rest, StartIn text before f gap rest ∧
      call = callStart before.length f gap rest := by
  have hlast : ∀ before : List Char, Scope.lastOf none before = before.getLast? :=
    fun before => Option.or_none
  constructor
  · intro h
    obtain ⟨before, f, gap, rest, htext, hgap, hallowed, hcall⟩ := exists_of_mem_callStartsFrom h
    rw [Nat.zero_add] at hcall
    exact ⟨before, f, gap, rest, ⟨htext, hgap, hlast before ▸ hallowed⟩, hcall⟩
  · rintro ⟨before, f, gap, rest, ⟨rfl, hgap, hallowed⟩, rfl⟩
    have hmem := callStart_mem hgap ((hlast before).symm ▸ hallowed) f rest 0
    rwa [Nat.zero_add] at hmem

theorem CallIn.startIn (h : CallIn text before f gap arguments after) :
    StartIn text before f gap (arguments ++ ')' :: after) := ⟨h.text_eq, h.blank, h.last⟩

/-- A call is found by its start and its closing parenthesis. -/
theorem CallIn.found (h : CallIn text before f gap arguments after) :
    callStart before.length f gap (arguments ++ ')' :: after) ∈ callStarts text :=
  mem_callStarts_iff.mpr ⟨before, f, gap, _, h.startIn, rfl⟩

/-- The parenthesis of a call start is found where it stands in the text. -/
theorem StartIn.closingPosition_eq (h : StartIn text before f gap rest) :
    closingPosition text (callStart before.length f gap rest).paren =
      (closingFrom 0 0 ('(' :: rest)).map ((callStart before.length f gap rest).paren + ·) := by
  have hsplit : text = (before ++ f.chars ++ gap) ++ '(' :: rest := by
    rw [h.text_eq]
    simp only [List.append_assoc]
  have hdrop : text.drop (callStart before.length f gap rest).paren = '(' :: rest := by
    rw [hsplit]
    apply List.drop_left'
    simp only [List.length_append, callStart]
  unfold closingPosition
  rw [hdrop]

/-- Every call start that has its closing parenthesis is that of a call. -/
theorem exists_callIn {stop : Nat} (h : call ∈ callStarts text)
    (hstop : closingPosition text call.paren = some stop) :
    ∃ before f gap arguments after, CallIn text before f gap arguments after ∧
      call = callStart before.length f gap (arguments ++ ')' :: after) ∧
      stop = call.paren + (arguments.length + 1) := by
  obtain ⟨before, f, gap, rest, hstart, rfl⟩ := mem_callStarts_iff.mp h
  rw [hstart.closingPosition_eq] at hstop
  obtain ⟨distance, hclosing, rfl⟩ := Option.map_eq_some_iff.mp hstop
  have hopened : closingFrom 0 0 ('(' :: rest) = closingFrom 1 1 rest := if_pos rfl
  obtain ⟨arguments, after, rfl, rfl⟩ := closing_split (hopened.symm.trans hclosing)
  rw [Nat.add_comm 1] at hclosing ⊢
  exact ⟨before, f, gap, arguments, after, ⟨hstart.text_eq, hstart.blank, hstart.last, hclosing⟩,
    rfl, rfl⟩

end Calls

section Scan

/-- That a call starts somewhere in a text. -/
def HoldsStart (text : List Char) : Prop := ∃ before f gap rest, StartIn text before f gap rest

/-- That a call starts after some text and its parenthesis is never closed. -/
def UnclosedStart (text before : List Char) (f : Name) (gap : List Char) : Prop :=
  ∃ rest, StartIn text before f gap rest ∧
    closingPosition text (before ++ f.chars ++ gap).length = none

/-- The call of a call start, if it has its closing parenthesis and holds no further call start. -/
def CallStart.innermost? (start : CallStart) : Option Call :=
  (closingFrom 0 0 start.rest).bind fun distance =>
    let arguments := (start.rest.drop 1).take (distance - 1)
    if (callStarts arguments).isEmpty then
      some ⟨start.name, start.start, start.paren + distance + 1, arguments⟩
    else none

variable {calls : List Call} {c : Call} {fault : Fault}

theorem callStarts_eq_nil_iff_not : callStarts text = [] ↔ ¬ HoldsStart text := by
  rw [List.eq_nil_iff_forall_not_mem]
  constructor
  · rintro h ⟨before, f, gap, rest, hstart⟩
    exact h _ (mem_callStarts_iff.mpr ⟨before, f, gap, rest, hstart, rfl⟩)
  · intro h call hcall
    obtain ⟨before, f, gap, rest, hstart, _⟩ := mem_callStarts_iff.mp hcall
    exact h ⟨before, f, gap, rest, hstart⟩

/-- The scan fails at the first call start that is not closed, and otherwise keeps the calls that
hold no further call. -/
theorem innermostAmong_eq (s : List Char) (starts : List CallStart) : innermostAmong s starts =
    match starts.find? fun start => (closingFrom 0 0 start.rest).isNone with
    | some start => .error ⟨.parse (.unclosedCall start.name) start.paren, some s⟩
    | none => .ok (starts.filterMap CallStart.innermost?) := by
  induction starts with
  | nil => rfl
  | cons start later ih =>
    rw [innermostAmong, List.find?_cons]
    cases hclosing : closingFrom 0 0 start.rest with
    | none => rfl
    | some distance =>
      have hfirst : start.innermost? =
          if (callStarts ((start.rest.drop 1).take (distance - 1))).isEmpty then
            some ⟨start.name, start.start, start.paren + distance + 1,
              (start.rest.drop 1).take (distance - 1)⟩
          else none := by
        unfold CallStart.innermost?
        rw [hclosing]
        rfl
      rw [ih, Option.isNone_some]
      dsimp only
      cases later.find? fun start => (closingFrom 0 0 start.rest).isNone with
      | some _ => rfl
      | none =>
        rw [List.filterMap_cons, hfirst]
        dsimp only [bind, Except.bind]
        split <;> rfl

/-- The calls that the scan keeps, as they stand in the text. -/
theorem innermost?_callStart {start : Nat} : (callStart start f gap rest).innermost? = some c ↔
    ∃ arguments after, rest = arguments ++ ')' :: after ∧ Innermost arguments after ∧
      c = ⟨f.chars, start, start + (callText f gap arguments).length, arguments⟩ := by
  have hstop : ∀ arguments : List Char,
      start + f.chars.length + gap.length + (1 + arguments.length) + 1 =
        start + (callText f gap arguments).length := by
    intro arguments
    rw [length_callText]
    omega
  unfold CallStart.innermost?
  rw [Option.bind_eq_some_iff]
  constructor
  · rintro ⟨distance, hclosing, hcall⟩
    have hclosing : closingFrom 1 1 rest = some distance := hclosing
    obtain ⟨arguments, after, rfl, rfl⟩ := closing_split hclosing
    dsimp only [callStart] at hcall
    rw [take_arguments] at hcall
    split at hcall
    · rename_i hempty
      refine ⟨arguments, after, rfl, ⟨List.isEmpty_iff.mp hempty, hclosing⟩, ?_⟩
      rw [← hstop]
      exact (Option.some.inj hcall).symm
    · exact absurd hcall nofun
  · rintro ⟨arguments, after, rfl, hinnermost, rfl⟩
    refine ⟨1 + arguments.length, hinnermost.closed, ?_⟩
    dsimp only [callStart]
    rw [take_arguments, if_pos (List.isEmpty_iff.mpr hinnermost.flat), ← hstop]

theorem start_of_innermost? {start : CallStart} (h : start.innermost? = some c) :
    c.start = start.start := by
  unfold CallStart.innermost? at h
  obtain ⟨distance, _, h⟩ := Option.bind_eq_some_iff.mp h
  dsimp only at h
  split at h
  · rw [← Option.some.inj h]
  · exact absurd h nofun

theorem le_start (h : call ∈ callStartsFrom last position text) : position ≤ call.start := by
  obtain ⟨before, f, gap, rest, _, _, _, rfl⟩ := exists_of_mem_callStartsFrom h
  exact Nat.le_add_right _ _

/-- Call starts are found in order, and none within a call that holds no further call start. -/
theorem pairwise_callStartsFrom (last : Option Char) (position : Nat) (text : List Char) :
    (callStartsFrom last position text).Pairwise fun a b =>
      a.start < b.start ∧ ∀ c ∈ a.innermost?, c.stop ≤ b.start := by
  induction text generalizing last position with
  | nil => exact .nil
  | cons c r ih =>
    have hlater := ih (some c) (position + 1)
    rw [callStartsFrom]
    split
    swap
    · exact hlater
    rename_i hname
    cases hstart : callStartAt? position (c :: r) with
    | none => exact hlater
    | some start =>
      obtain ⟨hlast, hc⟩ := Bool.and_eq_true_iff.mp hname
      obtain ⟨f, gap, rest, hsplit, hgap⟩ := exists_call hc hstart
      have hfirst := hstart
      rw [hsplit, callStartAt?_opened f hgap] at hfirst
      obtain rfl := Option.some.inj hfirst
      refine List.pairwise_cons.mpr ⟨fun b hb => ⟨le_start hb, fun d hd => ?_⟩, hlater⟩
      obtain ⟨arguments, after, rfl, hinnermost, rfl⟩ := innermost?_callStart.mp hd
      -- the scan goes on after the call
      have hwhole : c :: r = callText f gap arguments ++ after :=
        hsplit.trans (callText_append f gap arguments after).symm
      have hscan := callStartsFrom_innermost f hlast hgap hinnermost.flat after position
      rw [← hwhole, callStartsFrom, if_pos hname, hstart] at hscan
      rw [(List.cons.inj hscan).2] at hb
      exact le_start hb

/-- What the scan finds in a text whose call starts are all closed. -/
structure Scanned (text : List Char) (calls : List Call) : Prop where
  exact : ∀ c, c ∈ calls ↔ ∃ before f gap arguments after,
    CallIn text before f gap arguments after ∧ ¬ HoldsStart arguments ∧
      c = ⟨f.chars, before.length, (before ++ callText f gap arguments).length, arguments⟩
  ordered : calls.Pairwise fun a b => a.start < b.start ∧ a.stop ≤ b.start
  progress : HoldsStart text → calls ≠ []

/-- Whether a call start is closed can be read off from the parenthesis or from what follows it. -/
theorem StartIn.unclosed_iff (h : StartIn text before f gap rest) :
    closingPosition text (before ++ f.chars ++ gap).length = none ↔
      (closingFrom 0 0 (callStart before.length f gap rest).rest).isNone = true := by
  have hparen : (before ++ f.chars ++ gap).length = (callStart before.length f gap rest).paren := by
    simp only [List.length_append, callStart]
  rw [hparen, h.closingPosition_eq, Option.map_eq_none_iff, Option.isNone_iff_eq_none]
  exact Iff.rfl

/-- A failing scan names the first call start that is not closed. -/
theorem innermostCalls_eq_error (h : innermostCalls text = .error fault) :
    ∃ before f gap, UnclosedStart text before f gap ∧
      (∀ before' f' gap', UnclosedStart text before' f' gap' → before.length ≤ before'.length) ∧
      fault = ⟨.parse (.unclosedCall f.chars) (before ++ f.chars ++ gap).length, some text⟩ := by
  unfold innermostCalls at h
  rw [innermostAmong_eq] at h
  split at h
  swap
  · exact absurd h nofun
  rename_i start hfind
  obtain ⟨hopen, earlier, later, hsplit, hearlier⟩ := List.find?_eq_some_iff_append.mp hfind
  have hmem : start ∈ callStarts text := List.mem_of_find?_eq_some hfind
  obtain ⟨before, f, gap, rest, hstart, rfl⟩ := mem_callStarts_iff.mp hmem
  refine ⟨before, f, gap, ⟨rest, hstart, hstart.unclosed_iff.mpr hopen⟩, ?_, ?_⟩
  · rintro before' f' gap' ⟨rest', hstart', hopen'⟩
    have hother := mem_callStarts_iff.mpr ⟨before', f', gap', rest', hstart', rfl⟩
    rw [hsplit] at hother
    rcases List.mem_append.mp hother with hin | hin
    · have hclosed := hearlier _ hin
      rw [hstart'.unclosed_iff.mp hopen'] at hclosed
      exact absurd hclosed nofun
    · have hsorted := pairwise_callStartsFrom none 0 text
      rw [show callStartsFrom none 0 text = _ from hsplit] at hsorted
      rcases List.mem_cons.mp hin with heq | hin
      · exact (congrArg CallStart.start heq).ge
      · exact ((List.pairwise_cons.mp (List.pairwise_append.mp hsorted).2.1).1 _ hin).1.le
  · rw [← Except.error.inj h]
    simp only [List.length_append, callStart]

/-- A scan that succeeds has seen every call start closed. -/
theorem not_unclosedStart (h : innermostCalls text = .ok calls) (before : List Char) (f : Name)
    (gap : List Char) : ¬ UnclosedStart text before f gap := by
  rintro ⟨rest, hstart, hopen⟩
  unfold innermostCalls at h
  rw [innermostAmong_eq] at h
  split at h
  · exact absurd h nofun
  rename_i hfind
  exact List.find?_eq_none.mp hfind _ (mem_callStarts_iff.mpr ⟨before, f, gap, rest, hstart, rfl⟩)
    (hstart.unclosed_iff.mp hopen)

theorem scanned_of_innermostCalls (h : innermostCalls text = .ok calls) : Scanned text calls := by
  have hprogress : HoldsStart text → calls ≠ [] := by
    rintro hholds rfl
    exact callStarts_eq_nil_iff_not.mp (callStarts_of_innermostCalls h rfl) hholds
  unfold innermostCalls at h
  rw [innermostAmong_eq] at h
  split at h
  · exact absurd h nofun
  obtain rfl := Except.ok.inj h
  refine ⟨fun c => ?_, ?_, hprogress⟩
  · rw [List.mem_filterMap]
    constructor
    · rintro ⟨start, hmem, hc⟩
      obtain ⟨before, f, gap, rest, hstart, rfl⟩ := mem_callStarts_iff.mp hmem
      obtain ⟨arguments, after, rfl, hinnermost, rfl⟩ := innermost?_callStart.mp hc
      refine ⟨before, f, gap, arguments, after, ⟨hstart.text_eq, hstart.blank, hstart.last, ?_⟩,
        callStarts_eq_nil_iff_not.mp hinnermost.flat, by rw [List.length_append]⟩
      rw [Nat.add_comm]
      exact hinnermost.closed
    · rintro ⟨before, f, gap, arguments, after, hcall, hflat, rfl⟩
      have hclosed := hcall.closed
      rw [Nat.add_comm] at hclosed
      exact ⟨_, hcall.found, innermost?_callStart.mpr ⟨arguments, after, rfl,
        ⟨callStarts_eq_nil_iff_not.mpr hflat, hclosed⟩, by rw [List.length_append]⟩⟩
  · refine (pairwise_callStartsFrom none 0 text).filterMap _ fun a b hab c hc d hd => ?_
    rw [start_of_innermost? hc, start_of_innermost? hd]
    exact ⟨hab.1, hab.2 c hc⟩

end Scan

section Replacing

variable {table : FunctionTable} {resolve : Resolver} {calls : List Call}

/-- The texts of the values of calls; the last call is evaluated first. -/
def callValues (table : FunctionTable) (resolve : Resolver) :
    List Call → Except Failure (List (List Char))
  | [] => .ok []
  | c :: later => do
    let values ← callValues table resolve later
    let x ← Formula.call table resolve c.name (splitArguments c.arguments)
    let value ← asBreakdown (literal x)
    return value :: values

/-- A text from a position on with values in the places of calls. What stands between the calls is
taken from the text as it was. -/
def replacedAtOnce (text : List Char) (position : Nat) : List (Call × List Char) → List Char
  | [] => text.drop position
  | (c, value) :: later =>
    (text.drop position).take (c.start - position) ++ (value ++ replacedAtOnce text c.stop later)

/-- Replacing a later call first does not move the calls before it. -/
theorem replaceCalls_from {position : Nat} (hordered : calls.Pairwise fun a b => a.stop ≤ b.start)
    (hspan : ∀ c ∈ calls, position ≤ c.start ∧ c.start ≤ c.stop ∧ c.stop ≤ text.length) :
    replaceCalls table resolve text calls = (callValues table resolve calls).map fun values =>
      text.take position ++ replacedAtOnce text position (calls.zip values) := by
  induction calls generalizing position with
  | nil => exact congrArg Except.ok (List.take_append_drop position text).symm
  | cons c later ih =>
    obtain ⟨hafter, hordered⟩ := List.pairwise_cons.mp hordered
    obtain ⟨⟨hstart, hstop, hlength⟩, hlater⟩ := List.forall_mem_cons.mp hspan
    rw [replaceCalls, callValues,
      ih hordered fun d hd => ⟨hafter d hd, (hlater d hd).2⟩]
    cases callValues table resolve later with
    | error _ => rfl
    | ok values =>
      change (Formula.call table resolve c.name _).bind _ =
        ((Formula.call table resolve c.name _).bind _).map _
      cases Formula.call table resolve c.name (splitArguments c.arguments) with
      | error _ => rfl
      | ok x =>
        change (asBreakdown (literal x)).bind _ = ((asBreakdown (literal x)).bind _).map _
        cases asBreakdown (literal x) with
        | error _ => rfl
        | ok value =>
          have hbefore : c.start = position + (c.start - position) := by omega
          have htake : (text.take c.stop ++ replacedAtOnce text c.stop (later.zip values)).take
              c.start = text.take position ++ (text.drop position).take (c.start - position) := by
            rw [List.take_append_of_le_length (by rw [List.length_take]; omega), List.take_take,
              Nat.min_eq_left hstop, ← List.take_add, ← hbefore]
          have hdrop : (text.take c.stop ++ replacedAtOnce text c.stop (later.zip values)).drop
              c.stop = replacedAtOnce text c.stop (later.zip values) :=
            List.drop_left' (List.length_take_of_le hlength)
          change Except.ok (List.take _ _ ++ value ++ List.drop _ _) = Except.ok
            (text.take position ++ replacedAtOnce text position ((c, value) :: later.zip values))
          rw [htake, hdrop, replacedAtOnce]
          simp only [List.append_assoc]

/-- The calls of a scan lie within the text. -/
theorem Scanned.span (h : Scanned text calls) {c : Call} (hc : c ∈ calls) :
    c.start ≤ c.stop ∧ c.stop ≤ text.length := by
  obtain ⟨before, f, gap, arguments, after, hcall, _, rfl⟩ := (h.exact c).mp hc
  rw [hcall.text_eq, ← callText_append]
  simp only [List.length_append]
  omega

/-- The scan for calls fails exactly where a call start has no closing parenthesis, and names the
first such one; otherwise it finds the calls that hold no further call, in order, and putting their
values in place from the last to the first puts them all in place at once. -/
theorem innermostCalls_exact (text : List Char) :
    ((∃ fault, innermostCalls text = .error fault) ↔
      ∃ before f gap, UnclosedStart text before f gap) ∧
    (∀ fault, innermostCalls text = .error fault → ∃ before f gap, UnclosedStart text before f gap ∧
      (∀ before' f' gap', UnclosedStart text before' f' gap' → before.length ≤ before'.length) ∧
      fault = ⟨.parse (.unclosedCall f.chars) (before ++ f.chars ++ gap).length, some text⟩) ∧
    ∀ calls, innermostCalls text = .ok calls → Scanned text calls ∧
      ∀ table resolve, replaceCalls table resolve text calls =
        (callValues table resolve calls).map fun values =>
          replacedAtOnce text 0 (calls.zip values) := by
  refine ⟨⟨?_, ?_⟩, fun fault h => innermostCalls_eq_error h, fun calls h => ?_⟩
  · rintro ⟨fault, h⟩
    obtain ⟨before, f, gap, hopen, _⟩ := innermostCalls_eq_error h
    exact ⟨before, f, gap, hopen⟩
  · rintro ⟨before, f, gap, hopen⟩
    cases h : innermostCalls text with
    | error fault => exact ⟨fault, rfl⟩
    | ok calls => exact absurd hopen (not_unclosedStart h before f gap)
  · have hscanned := scanned_of_innermostCalls h
    exact ⟨hscanned, fun table resolve => replaceCalls_from (hscanned.ordered.imp And.right)
      fun c hc => ⟨Nat.zero_le _, hscanned.span hc⟩⟩

example : innermostCalls "max(2, abs (-3)) + min(1)".toList =
    .ok [⟨"abs".toList, 7, 15, "-3".toList⟩, ⟨"min".toList, 19, 25, "1".toList⟩] := by rfl

end Replacing

end Reckoner.Formula
