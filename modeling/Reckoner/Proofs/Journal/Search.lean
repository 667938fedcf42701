import Reckoner.Proofs.Journal.Writes

/-!
Searching what has been written. A filter fits the record of an event if it admits the event itself,
so a search finds the events that the filter admits, newest first, up to the limit. A word that is
empty asks for nothing.
-/
namespace Reckoner.Journal

open Text Files Data

/-- Whether an event has what a filter asks for. An empty word asks for nothing; an empty id of a
run asks for this id. -/
def Filter.admits (f : Filter) (e : Event) : Bool :=
  f.level.all (fun w => w.isEmpty || e.level.word == w)
    && f.subject.all (fun w => w.isEmpty || e.subject.word == w)
    && f.errorCode.all (fun w => w.isEmpty || e.errorCode == some w)
    && f.run.all (fun id => (Assoc.get? e.context runKey).any (·.equalsText id))
    && f.line.all (fun n => (Assoc.get? e.context lineKey).any (·.equalsInt n))

section Fits

variable {f : Filter} {e : Event}

theorem hasWord_of_text {record : Value} {name : String} {s : List Char}
    (h : record.get? name.toList = some (.text s)) (word : Option (List Char)) :
    Filter.hasWord record name word = word.all fun w => w.isEmpty || s == w := by
  cases word with
  | none => rfl
  | some w =>
    unfold Filter.hasWord
    rw [h]
    rfl

theorem hasWord_errorCode (e : Event) (word : Option (List Char)) :
    Filter.hasWord e.stored "error_code" word =
      word.all fun w => w.isEmpty || e.errorCode == some w := by
  have h := e.errorCode_stored
  cases hcode : e.errorCode with
  | some code =>
    rw [hcode] at h
    exact hasWord_of_text h word
  | none =>
    rw [hcode] at h
    cases word with
    | none => rfl
    | some w =>
      unfold Filter.hasWord
      rw [h]
      rfl

/-- Texts and whole numbers are stored as they are. -/
theorem equalsText_stored (v : Value) (s : List Char) :
    (Json.sorted (storable v)).equalsText s = v.equalsText s := by
  cases v with
  | float x =>
    rw [storable]
    split <;> rfl
  | _ => rfl

theorem equalsInt_stored (v : Value) (n : Int) :
    (Json.sorted (storable v)).equalsInt n = v.equalsInt n := by
  cases v with
  | float x =>
    rw [storable]
    split
    · rfl
    · rename_i hx
      have hnone : Number.Binary.ofFloat? x = none := by
        cases hb : Number.Binary.ofFloat? x with
        | none => rfl
        | some b => exact absurd (Number.isFinite_of_ofFloat? hb) hx
      unfold Value.equalsInt
      dsimp only
      rw [hnone]
      rfl
  | _ => rfl

theorem fitsContext_stored (he : e.Sound) (f : Filter) :
    f.fitsContext e.storedContext =
      (f.run.all (fun id => (Assoc.get? e.context runKey).any (·.equalsText id))
        && f.line.all (fun n => (Assoc.get? e.context lineKey).any (·.equalsInt n))) := by
  have hvalue : ∀ (key : List Char) (p : Value → Bool), p .null = false →
      (∀ v, p (Json.sorted (storable v)) = p v) →
      p ((Assoc.get? e.storedContext key).getD .null) = (Assoc.get? e.context key).any p := by
    intro key p hnull hp
    rw [he.get?_storedContext]
    cases Assoc.get? e.context key with
    | none => exact hnull
    | some v => exact hp v
  unfold Filter.fitsContext
  dsimp only
  congr 1
  · congr 1
    funext id
    exact hvalue runKey (·.equalsText id) rfl fun v => equalsText_stored v id
  · congr 1
    funext n
    exact hvalue lineKey (·.equalsInt n) rfl fun v => equalsInt_stored v n

/-- A filter fits the record of an event if it admits the event. -/
theorem fits_stored (he : e.Sound) (f : Filter) : f.fits e.stored = .ok (f.admits e) := by
  have hwords : (Filter.hasWord e.stored "level" f.level &&
      Filter.hasWord e.stored "event_type" f.subject &&
      Filter.hasWord e.stored "error_code" f.errorCode) =
      (f.level.all (fun w => w.isEmpty || e.level.word == w)
        && f.subject.all (fun w => w.isEmpty || e.subject.word == w)
        && f.errorCode.all (fun w => w.isEmpty || e.errorCode == some w)) := by
    rw [hasWord_of_text e.level_stored, hasWord_of_text e.subject_stored, hasWord_errorCode]
  have hcontext : Filter.contextOf e.stored = .ok e.storedContext := by
    unfold Filter.contextOf
    rw [e.context_stored]
    rfl
  have hadmits : f.admits e = ((f.level.all (fun w => w.isEmpty || e.level.word == w)
        && f.subject.all (fun w => w.isEmpty || e.subject.word == w)
        && f.errorCode.all (fun w => w.isEmpty || e.errorCode == some w))
      && f.fitsContext e.storedContext) := by
    rw [fitsContext_stored he, ← Bool.and_assoc]
    rfl
  change (if (Filter.hasWord e.stored "level" f.level &&
      Filter.hasWord e.stored "event_type" f.subject &&
      Filter.hasWord e.stored "error_code" f.errorCode) = true then _ else _) = _
  rw [hwords, hadmits]
  split
  · rename_i h
    rw [h, Bool.true_and]
    split
    · rw [hcontext]
      rfl
    · rename_i hasks
      unfold Filter.asksContext at hasks
      obtain ⟨hrun, hline⟩ : f.run = none ∧ f.line = none := by simpa using hasks
      unfold Filter.fitsContext
      rw [hrun, hline]
      rfl
  · rename_i h
    rw [Bool.eq_false_iff.mpr h, Bool.false_and]

theorem select_stored {events : List Event} (h : ∀ e ∈ events, e.Sound) (f : Filter) :
    f.select (events.map Event.stored) = .ok ((events.filter f.admits).map Event.stored) := by
  induction events with
  | nil => rfl
  | cons e events ih =>
    rw [List.map_cons, Filter.select, fits_stored (h e List.mem_cons_self),
      ih fun d hd => h d (List.mem_cons_of_mem e hd)]
    cases hadmits : f.admits e with
    | true => rw [List.filter_cons_of_pos hadmits]; rfl
    | false => rw [List.filter_cons_of_neg (by rw [hadmits]; exact Bool.false_ne_true)]; rfl

end Fits

section Search

variable {log : Log} {tree : Tree} {writes : List Write} {f : Filter} {limit : Int}

/-- What a search finds among all written events, before the limit. -/
theorem found_eq (h : log.Fitting tree writes) (f : Filter) (limit : Int) :
    log.query (log.writeAll tree writes) f limit =
      .ok (takeUpTo (min limit queryLimit)
        ((((writes.map Write.event).reverse.filter f.admits)).map Event.stored)) := by
  have hread := Log.read_events h
  have hselect : f.select (writes.map fun w => w.event.stored).reverse =
      .ok (((writes.map Write.event).reverse.filter f.admits).map Event.stored) := by
    rw [← select_stored (f := f), List.map_reverse, List.map_map]
    · rfl
    · intro e he
      obtain ⟨w, hw, rfl⟩ := List.mem_map.mp (List.mem_reverse.mp he)
      exact h.sound w hw
  unfold Log.query
  rw [hread]
  change (f.select _ >>= _) = _
  rw [hselect]
  rfl

/-- A search finds the written events that its filter admits, newest first, as many as the limit
says but no more than the greatest limit, and gives each of them as it was stored. -/
theorem query_writeAll (h : log.Fitting tree writes) (f : Filter) (hlimit : 0 ≤ limit) :
    log.query (log.writeAll tree writes) f limit =
      .ok ((((writes.map Write.event).reverse.filter f.admits).take
        (min limit queryLimit).toNat).map Event.stored) := by
  have hmin : 0 ≤ min limit queryLimit := Int.le_min.mpr ⟨hlimit, by decide⟩
  rw [found_eq h]
  unfold takeUpTo
  rw [if_pos hmin, List.map_take]

/-- The newest of two events is found first. -/
theorem query_two_events : (Log.atRoot defaultTail).query
    ((Log.atRoot defaultTail).writeAll Log.rootTree (Log.twoWrites none none))
      { Filter.all with level := some "info".toList } 1 = .ok [(Log.bareEvent "2".toList).stored] :=
  query_writeAll (Log.fitting_twoWrites none none) _ (by decide)

/-- An empty word finds events that do not have it. -/
theorem query_empty_word : (Log.atRoot defaultTail).query
    ((Log.atRoot defaultTail).writeAll Log.rootTree (Log.twoWrites none none))
      { Filter.all with errorCode := some [] } 1 = .ok [(Log.bareEvent "2".toList).stored] ∧
    (Log.bareEvent "2".toList).errorCode ≠ some [] :=
  ⟨found_eq (Log.fitting_twoWrites none none) _ _, by decide⟩

end Search

end Reckoner.Journal
