import Reckoner.Journal.Attribution
import Reckoner.Journal.Log
import Reckoner.Journal.RunLog
import Reckoner.Proofs.Journal.Redaction
import Reckoner.Proofs.Json.RoundTrip

/-!
Records of events. The record of an event is one plain line that is read as the mapping of the
event, whatever texts it holds, so the events of a file are found again in their order. Before an
event is written, redaction cuts its long texts and keeps everything else; an event that says to
what it belongs is written with its own level, type and code, and lists nothing as missing.
-/
namespace Reckoner.Journal

open Text Data

section Stored

/-- An event that can be read back: its whole numbers are short enough, and no key comes twice in a
mapping. -/
structure Event.Sound (e : Event) : Prop where
  version : Json.Readable e.version
  context : Json.Sound (fun _ => True) (.map e.context)

/-- The entries of the mapping of an event. -/
def Event.entries (e : Event) : List (List Char × Value) :=
  match e.toValue with
  | .map entries => entries
  | _ => []

/-- The mapping of an event with its keys in order: what the record of the event is read as. -/
def Event.stored (e : Event) : Value := Json.sorted e.toValue

section Storing

theorem storableItems_eq_map (items : List Value) : storableItems items = items.map storable := by
  induction items with
  | nil => rfl
  | cons v rest ih => rw [storableItems, ih, List.map_cons]

theorem storableEntries_eq_map (entries : List (List Char × Value)) :
    storableEntries entries = entries.map fun e => (e.1, storable e.2) := by
  induction entries with
  | nil => rfl
  | cons e rest ih => rw [storableEntries, ih, List.map_cons]

theorem keys_storableEntries (entries : List (List Char × Value)) :
    Assoc.keys (storableEntries entries) = Assoc.keys entries := by
  unfold Assoc.keys
  rw [storableEntries_eq_map, List.map_map]
  rfl

/-- Without the doubles that are not finite, a value is read back as it is. -/
theorem faithful_storable {allowed : Float → Prop} {v : Value} (hv : Json.Sound allowed v) :
    Json.Faithful (storable v) := by
  induction hv with
  | null => exact .null
  | bool b => exact .bool b
  | int h => exact .int h
  | @float x _ =>
    rw [storable]
    split
    · rename_i hx
      exact .float hx
    · exact .null
  | text s => exact .text s
  | list _ ih =>
    rw [storable, storableItems_eq_map]
    exact .list (List.forall_mem_map.mpr ih)
  | @map entries hkeys _ ih =>
    refine .map (by rwa [← keys_storableEntries] at hkeys) ?_
    rw [storableEntries_eq_map]
    exact List.forall_mem_map.mpr ih

theorem Event.keys_entries (e : Event) : Assoc.keys e.entries = ["context".toList,
    "error_code".toList, "event_type".toList, "level".toList, "message".toList,
    "schema_version".toList, "ts".toList] := rfl

theorem Event.nodup_keys (e : Event) : (Assoc.keys e.entries).Nodup := by
  rw [e.keys_entries]
  decide

theorem Event.Sound.faithful {e : Event} (he : e.Sound) : Json.Faithful e.toValue := by
  refine .map e.nodup_keys ?_
  simp only [List.forall_mem_cons]
  refine ⟨faithful_storable he.context, ?_, .text _, .text _, .text _, .int he.version, .text _,
    nofun⟩
  split
  · exact .text _
  · exact .null

end Storing

section Lines

variable {e : Event}

theorem Event.written_eq (e : Event) : e.written = Json.writeAt .line 0 e.stored := rfl

theorem Event.Sound.plainText (he : e.Sound) : PlainText e.written :=
  Json.plainText_writeAt he.faithful.sorted 0

theorem Event.Sound.ascii (he : e.Sound) : ∀ c ∈ e.written ++ ['\n'], c.toNat < 128 := by
  have hplain := he.plainText
  intro c hc
  rcases List.mem_append.mp hc with hc | hc
  · have hlt := (hplain c hc).2
    omega
  · rw [List.mem_singleton.mp hc]
    decide

theorem Event.Sound.read (he : e.Sound) : Json.read e.written = .ok e.stored :=
  Json.read_writeAt he.faithful.sorted .line 0

/-- A record begins with a brace. -/
theorem Event.not_blank (e : Event) : e.written.all isBlank = false := by
  obtain ⟨s, hs⟩ := Json.exists_bracketed_cons .line 0 '\x7b' '\x7d'
    (Json.writeEntries .line 1 (sortByKey (Json.sortedEntries e.entries)))
  have hwritten : e.written = '\x7b' :: s := hs
  rw [hwritten, List.all_cons, show isBlank '\x7b' = false by decide, Bool.false_and]

theorem Log.parseLines_written {events : List Event} (h : ∀ e ∈ events, e.Sound) :
    Log.parseLines (events.map Event.written) = .ok (events.map Event.stored) := by
  induction events with
  | nil => rfl
  | cons e events ih =>
    rw [List.map_cons, Log.parseLines, e.not_blank, if_neg Bool.false_ne_true,
      (h e List.mem_cons_self).read, ih fun d hd => h d (List.mem_cons_of_mem e hd)]
    rfl

/-- The records of events are one line each. -/
theorem Log.lines_records {events : List Event} (h : ∀ e ∈ events, e.Sound) :
    lines (Utf8.decodeLossy (events.flatMap Log.record)) = events.map Event.written := by
  have hall : ∀ s ∈ events.map Event.written, PlainText s :=
    List.forall_mem_map.mpr fun e he => (h e he).plainText
  have hplain := lines_decodeLossy hall
  rwa [List.flatMap_map] at hplain

/-- Within the tail nothing is cut off. -/
theorem Log.ending_eq_self {tail : Int} {content : Utf8.Bytes}
    (htail : (content.length : Int) ≤ tail) : Log.ending tail content = content := by
  unfold Log.ending
  exact if_pos (Int.toNat_of_nonpos (by omega))

theorem Log.parse_nil (tail : Int) : Log.parse tail [] = .ok [] := by
  have hending : Log.ending tail [] = [] := by
    unfold Log.ending
    dsimp only
    rw [List.drop_nil]
    exact ite_self []
  unfold Log.parse
  rw [hending]
  rfl

/-- A file within the tail that holds the records of events is read as these events. -/
theorem Log.parse_records {events : List Event} (h : ∀ e ∈ events, e.Sound) {tail : Int}
    (htail : events ≠ [] → ((events.flatMap Log.record).length : Int) ≤ tail) :
    Log.parse tail (events.flatMap Log.record) = .ok (events.map Event.stored) := by
  by_cases hnil : events = []
  · subst hnil
    exact Log.parse_nil tail
  · unfold Log.parse
    rw [Log.ending_eq_self (htail hnil), Log.lines_records h, parseLines_written h]

end Lines

section Fields

variable {e : Event}

/-- The fields of an event come in the order of their names. -/
theorem Event.stored_eq (e : Event) : e.stored = .map (Json.sortedEntries e.entries) := by
  have hsorted : (Json.sortedEntries e.entries).Pairwise fun a b => atMost a.1 b.1 = true := by
    have hkeys : (Assoc.keys (Json.sortedEntries e.entries)).Pairwise
        fun k l => atMost k l = true := by
      rw [Json.keys_sortedEntries, e.keys_entries]
      decide
    exact List.pairwise_map.mp hkeys
  exact congrArg Value.map (List.mergeSort_of_pairwise hsorted)

/-- A field of a record is that of the event, sorted. -/
theorem Event.get?_stored (e : Event) (key : List Char) :
    e.stored.get? key = (e.toValue.get? key).map Json.sorted :=
  Json.get?_sortedEntries e.nodup_keys key

theorem Event.level_stored (e : Event) :
    e.stored.get? "level".toList = some (.text e.level.word) := e.get?_stored _

theorem Event.subject_stored (e : Event) :
    e.stored.get? "event_type".toList = some (.text e.subject.word) := e.get?_stored _

theorem Event.errorCode_stored (e : Event) :
    e.stored.get? "error_code".toList = some (match e.errorCode with
      | some code => .text code
      | none => .null) := by
  rw [e.get?_stored]
  obtain ⟨_, _, _, _, _, _, errorCode⟩ := e
  cases errorCode <;> rfl

theorem Log.record_eq (e : Event) : Log.record e =
    Utf8.encode (Json.writeAt .line 0 (.map (Json.sortedEntries e.entries)) ++ ['\n']) := by
  unfold Log.record
  rw [e.written_eq, e.stored_eq]

/-- The context of a record. -/
def Event.storedContext (e : Event) : List (List Char × Value) :=
  sortByKey (Json.sortedEntries (storableEntries e.context))

theorem Event.context_stored (e : Event) :
    e.stored.get? "context".toList = some (.map e.storedContext) := e.get?_stored _

theorem Event.Sound.get?_storedContext (he : e.Sound) (key : List Char) :
    Assoc.get? e.storedContext key =
      (Assoc.get? e.context key).map fun v => Json.sorted (storable v) := by
  have hkeys : (Assoc.keys e.context).Nodup := by
    cases he.context with
    | map hkeys _ => exact hkeys
  unfold Event.storedContext
  rw [Json.get?_sortedEntries (by rwa [keys_storableEntries]), storableEntries_eq_map]
  generalize e.context = entries
  induction entries with
  | nil => rfl
  | cons first entries ih =>
    rw [List.map_cons, Assoc.get?_cons, Assoc.get?_cons]
    split
    · rfl
    · exact ih

end Fields

end Stored

section Emission

/-- An event as it is written when it is emitted. -/
def Event.emitted (e : Event) : Event := e.redacted.attributed

/-- What a record says about its event: level, type, code and entries of the context, with no list
of what is missing. -/
structure Says (record : Value) (level : Level) (subject : Subject) (code : Option (List Char))
    (context : List (List Char × Value)) : Prop where
  level : record.get? "level".toList = some (.text level.word)
  subject : record.get? "event_type".toList = some (.text subject.word)
  code : record.get? "error_code".toList = some (match code with
    | some code => .text code
    | none => .null)
  context : ∃ entries, record.get? "context".toList = some (.map entries) ∧
    Assoc.get? entries missingKey = none ∧ ∀ e ∈ context, Assoc.get? entries e.1 = some e.2

section Records

variable {record : Value} {level : Level} {subject : Subject} {code : Option (List Char)}
  {context : List (List Char × Value)}

theorem Says.isSubject (h : Says record level subject code context) (s : Subject) :
    RunLog.isSubject record s = (subject.word == s.word) := by
  unfold RunLog.isSubject
  rw [h.subject]
  rfl

theorem Says.exists_map (h : Says record level subject code context) :
    ∃ entries, record = .map entries := by
  have hlevel := h.level
  cases record with
  | map entries => exact ⟨entries, rfl⟩
  | _ => exact absurd hlevel nofun

end Records

section Redaction

theorem sound_redact {allowed : Float → Prop} {v : Value} (hv : Json.Sound allowed v) :
    Json.Sound allowed (redact v) := by
  induction hv with
  | null => exact .null
  | bool b => exact .bool b
  | int h => exact .int h
  | float h => exact .float h
  | text s => exact .text _
  | list _ ih =>
    rw [redact, redactItems_eq_map]
    exact .list (List.forall_mem_map.mpr ih)
  | @map entries hkeys _ ih =>
    refine .map (by rwa [← keys_redactEntries] at hkeys) ?_
    rw [redactEntries_eq_map]
    exact List.forall_mem_map.mpr ih

end Redaction

section Emitted

variable {e : Event}

theorem Event.missing_redacted (e : Event) : e.redacted.missing = e.missing := by
  have hhas : ∀ key, Assoc.has e.redacted.context key = Assoc.has e.context key := by
    intro key
    unfold Assoc.has
    change (Assoc.get? (redactEntries e.context) key).isSome = _
    rw [get?_redactEntries, Option.isSome_map]
  unfold Event.missing
  simp only [hhas]
  rfl

/-- An event that says to what it belongs is only redacted. -/
theorem Event.emitted_eq (h : e.missing = []) : e.emitted = e.redacted := by
  unfold Event.emitted Event.attributed
  rw [e.missing_redacted, h]
  rfl

theorem Event.Sound.redacted (he : e.Sound) : e.redacted.Sound :=
  ⟨he.version, sound_redact he.context⟩

theorem Event.Sound.emitted (he : e.Sound) (h : e.missing = []) : e.emitted.Sound := by
  rw [Event.emitted_eq h]
  exact he.redacted

/-- The record of an event that says to what it belongs. -/
theorem says_emitted (he : e.Sound) (h : e.missing = [])
    (hmark : missingKey ∉ Assoc.keys e.context) :
    Says e.emitted.stored e.level e.subject e.errorCode
      (e.context.map fun entry => (entry.1, Json.sorted (storable (redact entry.2)))) := by
  rw [Event.emitted_eq h]
  refine ⟨e.redacted.level_stored, e.redacted.subject_stored, e.redacted.errorCode_stored,
    _, e.redacted.context_stored, ?_, List.forall_mem_map.mpr fun entry hentry => ?_⟩
  · rw [he.redacted.get?_storedContext]
    change (Assoc.get? (redactEntries e.context) missingKey).map _ = none
    rw [get?_redactEntries, Assoc.get?_eq_none.mpr hmark]
    rfl
  · have hkeys : (Assoc.keys e.context).Nodup := by
      cases he.context with
      | map hkeys _ => exact hkeys
    rw [he.redacted.get?_storedContext]
    change (Assoc.get? (redactEntries e.context) entry.1).map _ = _
    rw [get?_redactEntries, Assoc.get?_of_mem hkeys hentry]
    rfl

end Emitted

end Emission

end Reckoner.Journal
