import Reckoner.Proofs.Journal.Writes

/-!
Reading the end of a log. The only line feed in a record is its last byte. So when something is cut
off, the first line feed after the cut ends the record in which the cut lies, and what is read are
exactly the records that begin after the cut, whole and in their order.
-/
namespace Reckoner.Journal

open Text Files Data

/-- Events with the places where their records begin, the first one at `offset`. -/
def placed (offset : Nat) : List Event → List (Nat × Event)
  | [] => []
  | e :: events => (offset, e) :: placed (offset + (Log.record e).length) events

/-- The events whose records begin after a cut. -/
def begunAfter (cut : Int) (events : List Event) : List Event :=
  ((placed 0 events).filter fun p => cut < p.1).map Prod.snd

/-- The events of which the records are whole in the last `tail` bytes, as far as the bytes tell:
all of them if there are no more bytes, else those whose records begin after the cut. -/
def withinTail (tail : Int) (events : List Event) : List Event :=
  let size : Int := (events.flatMap Log.record).length
  if size ≤ tail then events else begunAfter (size - tail) events

section Placed

variable {events : List Event} {offset : Nat}

theorem le_of_mem_placed {p : Nat × Event} (hp : p ∈ placed offset events) : offset ≤ p.1 := by
  induction events generalizing offset with
  | nil => simp [placed] at hp
  | cons e events ih =>
    rcases List.mem_cons.mp hp with rfl | hp
    · exact Nat.le_refl offset
    · have hle := ih hp
      omega

theorem map_snd_placed (events : List Event) (offset : Nat) :
    (placed offset events).map Prod.snd = events := by
  induction events generalizing offset with
  | nil => rfl
  | cons e events ih => simp [placed, ih]

theorem begunAfter_subset (cut : Int) (events : List Event) : begunAfter cut events ⊆ events := by
  intro e he
  obtain ⟨p, hp, rfl⟩ := List.mem_map.mp he
  have hmem := List.mem_map_of_mem (f := Prod.snd) (List.mem_of_mem_filter hp)
  rwa [map_snd_placed] at hmem

theorem withinTail_subset (tail : Int) (events : List Event) : withinTail tail events ⊆ events := by
  unfold withinTail
  dsimp only
  split
  · exact List.Subset.refl events
  · exact begunAfter_subset _ events

end Placed

section Cut

variable {e : Event} {events : List Event}

/-- A record ends with its only line feed. -/
theorem Event.Sound.exists_record (he : e.Sound) :
    ∃ body : Utf8.Bytes, Log.record e = body ++ [10] ∧ ∀ b ∈ body, b ≠ 10 := by
  have hplain := he.plainText
  refine ⟨e.written.map fun c => c.toNat.toUInt8, ?_, ?_⟩
  · unfold Log.record
    rw [encode_eq_map he.ascii, List.map_append]
    rfl
  · intro b hb hten
    obtain ⟨c, hc, rfl⟩ := List.mem_map.mp hb
    obtain ⟨hlow, hhigh⟩ := hplain c hc
    have hvalue : (c.toNat.toUInt8).toNat = 10 := congrArg UInt8.toNat hten
    rw [Nat.toUInt8, UInt8.toNat_ofNat', Nat.mod_eq_of_lt (by omega)] at hvalue
    omega

/-- From a cut on, the bytes up to the first line feed are dropped. -/
def dropPartial (content : Utf8.Bytes) : Utf8.Bytes := (content.dropWhile (· != 10)).drop 1

theorem dropPartial_line {body : Utf8.Bytes} (hbody : ∀ b ∈ body, b ≠ 10) (rest : Utf8.Bytes) :
    dropPartial (body ++ 10 :: rest) = rest := by
  have hkept : ∀ b ∈ body, (b != 10) = true := fun b hb => bne_iff_ne.mpr (hbody b hb)
  unfold dropPartial
  rw [List.dropWhile_append_of_pos hkept, List.dropWhile_cons_of_neg (by decide), List.drop_one,
    List.tail_cons]

/-- After a cut at any byte the records that begin later are left. -/
theorem dropPartial_drop (h : ∀ e ∈ events, e.Sound) (offset cut : Nat) :
    dropPartial ((events.flatMap Log.record).drop cut) =
      (((placed offset events).filter fun p => offset + cut < p.1).map Prod.snd).flatMap
        Log.record := by
  induction events generalizing offset cut with
  | nil => simp [placed, dropPartial]
  | cons e events ih =>
    obtain ⟨he, hevents⟩ := List.forall_mem_cons.mp h
    obtain ⟨body, hrecord, hbody⟩ := he.exists_record
    have hlength : (Log.record e).length = body.length + 1 := by
      rw [hrecord, List.length_append, List.length_singleton]
    rw [List.flatMap_cons, placed, List.filter_cons_of_neg (by simp)]
    by_cases hcut : cut ≤ body.length
    · -- The cut lies in the first record, and all the others begin after it.
      have hsplit : (Log.record e ++ events.flatMap Log.record).drop cut =
          body.drop cut ++ 10 :: events.flatMap Log.record := by
        rw [hrecord, List.append_assoc, List.drop_append_of_le_length hcut]
        rfl
      have hall : (placed (offset + (Log.record e).length) events).filter
          (fun p => offset + cut < p.1) = placed (offset + (Log.record e).length) events := by
        apply List.filter_eq_self.mpr
        intro p hp
        have hle := le_of_mem_placed hp
        apply decide_eq_true
        omega
      rw [hsplit, dropPartial_line fun b hb => hbody b (List.mem_of_mem_drop hb), hall,
        map_snd_placed]
    · have hsplit : (Log.record e ++ events.flatMap Log.record).drop cut =
          (events.flatMap Log.record).drop (cut - (Log.record e).length) := by
        rw [List.drop_append, List.drop_eq_nil_of_le (by omega), List.nil_append]
      have hplace : offset + (Log.record e).length + (cut - (Log.record e).length) =
          offset + cut := by omega
      rw [hsplit, ih hevents (offset + (Log.record e).length), hplace]

/-- The end of a file of records are the records that begin after the cut. -/
theorem Log.ending_records (h : ∀ e ∈ events, e.Sound) (tail : Int) :
    Log.ending tail (events.flatMap Log.record) = (withinTail tail events).flatMap Log.record := by
  by_cases htail : ((events.flatMap Log.record).length : Int) ≤ tail
  · have hall : withinTail tail events = events := if_pos htail
    rw [hall, Log.ending_eq_self htail]
  · have hsome : withinTail tail events =
        begunAfter ((events.flatMap Log.record).length - tail) events := if_neg htail
    have hstart : (((events.flatMap Log.record).length : Int) - tail).toNat ≠ 0 := by omega
    have hcut := dropPartial_drop h 0 (((events.flatMap Log.record).length : Int) - tail).toNat
    have hplaces : ∀ p : Nat × Event,
        decide (0 + (((events.flatMap Log.record).length : Int) - tail).toNat < p.1) =
          decide (((events.flatMap Log.record).length : Int) - tail < p.1) := by
      intro p
      apply decide_eq_decide.mpr
      omega
    rw [hsome]
    unfold Log.ending begunAfter
    dsimp only
    rw [if_neg hstart]
    simp only [hplaces] at hcut
    exact hcut

theorem Log.parse_tail (h : ∀ e ∈ events, e.Sound) (tail : Int) :
    Log.parse tail (events.flatMap Log.record) =
      .ok ((withinTail tail events).map Event.stored) := by
  have hkept : ∀ e ∈ withinTail tail events, e.Sound :=
    fun e he => h e (withinTail_subset tail events he)
  unfold Log.parse
  rw [Log.ending_records h, Log.lines_records hkept, Log.parseLines_written hkept]

end Cut

namespace Log

variable {log : Log} {tree : Tree} {writes : List Write}

/-- Whatever the tail, of the file of all events and of the file of each run the records are read
that begin after the cut, and all records where nothing is cut off, in the order in which they were
written and as they were stored. -/
theorem records_read_after_cut (h : log.Fresh tree) (hsound : ∀ w ∈ writes, w.event.Sound) :
    log.read (log.writeAll tree writes) log.eventsFile =
      .ok ((withinTail log.tail (writes.map Write.event)).map Event.stored) ∧
    ∀ id, HasFile id → log.readRecords (log.writeAll tree writes) id =
      .ok ((withinTail log.tail ((writes.filter (·.run = some id)).map Write.event)).map
        Event.stored) := by
  constructor
  · obtain ⟨names, hlocate, hentry⟩ := h.events_writeAll writes
    rw [read_of_entry hlocate hentry, parse_tail (List.forall_mem_map.mpr hsound)]
  · intro id hid
    obtain ⟨names, hlocate, hentry⟩ := h.run_writeAll writes hid
    have hsoundRun : ∀ e ∈ (writes.filter (·.run = some id)).map Write.event, e.Sound :=
      List.forall_mem_map.mpr fun w hw => hsound w (List.mem_of_mem_filter hw)
    unfold readRecords
    rw [runFile?_eq, if_pos hid.1]
    dsimp only
    rw [read_of_entry hlocate hentry, parse_tail hsoundRun]

theorem withinTail_two {e e' : Event} (h : (record e).length = 128)
    (h' : (record e').length = 128) :
    withinTail 128 [e, e'] = [] ∧ withinTail 129 [e, e'] = [e'] := by
  constructor <;> simp [withinTail, begunAfter, placed, h, h']

/-- Of two records, the second is not read where the cut falls between them, and is read with one
byte more. -/
theorem second_record_read_after_cut :
    (atRoot 128).read ((atRoot 128).writeAll rootTree (twoWrites none none))
        (atRoot 128).eventsFile = .ok [] ∧
      (atRoot 129).read ((atRoot 129).writeAll rootTree (twoWrites none none))
        (atRoot 129).eventsFile = .ok [(bareEvent "2".toList).stored] := by
  have hlength : (record (bareEvent "1".toList)).length = 128 ∧
      (record (bareEvent "2".toList)).length = 128 := by
    constructor <;>
    · rw [record_eq]
      decide +kernel
  have hevents : (twoWrites none none).map Write.event =
      [bareEvent "1".toList, bareEvent "2".toList] := rfl
  obtain ⟨hboundary, hinside⟩ := withinTail_two hlength.1 hlength.2
  have hsound := sound_twoWrites none none
  constructor
  · have hread := (records_read_after_cut (fresh_atRoot 128) hsound).1
    rwa [hevents, show (atRoot 128).tail = 128 from rfl, hboundary] at hread
  · have hread := (records_read_after_cut (fresh_atRoot 129) hsound).1
    rwa [hevents, show (atRoot 129).tail = 129 from rfl, hinside] at hread

end Log

end Reckoner.Journal
