import Reckoner.Proofs.Number.Parts
import Reckoner.Settings

/-!
What the settings file of a project makes of the engine. It gives an engine whose places are in
range and which may take a pass, or the configuration is refused. Three things are passed on as they
are instead: bytes that are no text, a breakdown of the YAML reader, and a setting without end where
a whole number is asked for.
-/
namespace Reckoner

open Text Number Files Yaml Data

section Whole

variable {x : Float} {v : Value} {d : Datum}

theorem ofFloat?_of_isInf (h : x.isInf = true) : Binary.ofFloat? x = none := by
  change (parts x).isInf = true at h
  rw [ofFloat?_eq]
  cases hx : parts x with
  | infinity s => rfl
  | notANumber => rfl
  | _ => rw [hx] at h; exact absurd h Bool.false_ne_true

/-- Among the doubles that have no whole part, those that are numbers are infinite. -/
theorem unwritable_eq (h : Binary.ofFloat? x = none) :
    unwritable x = if x.isInf then .infinite else .undefined := by
  unfold unwritable
  change (if (parts x).isNaN then Unwritable.undefined else .infinite) =
    if (parts x).isInf then .infinite else .undefined
  rw [ofFloat?_eq] at h
  cases hx : parts x with
  | infinity s => rfl
  | notANumber => rfl
  | _ => rw [hx] at h; exact absurd h nofun

/-- A number without end. -/
def Endless : Datum → Prop
  | .scalar (.float x) => x.isInf = true
  | _ => False

instance (d : Datum) : Decidable (Endless d) :=
  match d with
  | .scalar (.float x) => inferInstanceAs (Decidable (x.isInf = true))
  | .scalar .null | .scalar (.bool _) | .scalar (.int _) | .scalar (.text _) | .scalar (.list _)
  | .scalar (.map _) | .bytes _ | .time _ _ | .list _ | .set _ | .map _ | .loop _ =>
    inferInstanceAs (Decidable False)

theorem toInt_of_isInf (h : x.isInf = true) :
    (Value.float x).toInt = .error (.noWholePart .infinite) := by
  have hnone := ofFloat?_of_isInf h
  rw [Value.toInt, hnone]
  dsimp only
  rw [unwritable_eq hnone, if_pos h]

theorem toInt_of_endless (h : Endless d) : d.toInt = .error (.noWholePart .infinite) := by
  cases d with
  | scalar v =>
    cases v with
    | float x => exact toInt_of_isInf h
    | _ => exact h.elim
  | _ => exact h.elim

theorem isInf_of_toInt (h : v.toInt = .error (.noWholePart .infinite)) : Endless (.scalar v) := by
  cases v with
  | float x =>
    rw [Value.toInt] at h
    split at h
    · exact absurd h nofun
    · rename_i hnone
      rw [unwritable_eq hnone] at h
      by_contra hfinite
      have hnot : ¬ x.isInf = true := hfinite
      rw [if_neg hnot] at h
      exact absurd h (by simp)
  | text s =>
    rw [Value.toInt] at h
    split at h <;> exact absurd h (by simp)
  | int n => exact absurd h nofun
  | bool b => exact absurd h nofun
  | null => exact absurd h (by simp [Value.toInt])
  | list items => exact absurd h (by simp [Value.toInt])
  | map entries => exact absurd h (by simp [Value.toInt])

/-- No whole number is found for want of an end exactly in a number without end. -/
theorem toInt_endless_iff : d.toInt = .error (.noWholePart .infinite) ↔ Endless d := by
  refine ⟨fun h => ?_, toInt_of_endless⟩
  cases d with
  | scalar v => exact isInf_of_toInt h
  | bytes s =>
    change Datum.bytesToInt s = _ at h
    unfold Datum.bytesToInt at h
    split at h <;> exact absurd h (by simp)
  | _ => exact absurd h (by simp [Datum.toInt])

theorem whole_of_endless (h : Endless d) : Engine.whole d = .error (.noWholePart .infinite) := by
  unfold Engine.whole
  rw [toInt_of_endless h]

/-- What is not without end is a whole number, or no configuration. -/
theorem whole_of_not_endless (h : ¬ Endless d) :
    (∃ n, Engine.whole d = .ok n) ∨ ∃ m, Engine.whole d = .error (.configuration m) := by
  unfold Engine.whole
  split
  · rename_i n _
    exact Or.inl ⟨n, rfl⟩
  · rename_i hinf
    exact absurd (toInt_endless_iff.mp hinf) h
  · exact Or.inr ⟨_, rfl⟩

end Whole

namespace Settings

variable {path directory : Path} {tree : Tree} {bytes : Utf8.Bytes} {settings : Settings}

def precision (settings : Settings) : Datum :=
  (Assoc.get? settings precisionKey).getD (.int defaultPrecision)

def passes (settings : Settings) : Datum :=
  (Assoc.get? settings passesKey).getD (.int defaultPasses)

/-- The settings that a file with the given bytes makes. -/
def ofFile (path : Path) (bytes : Utf8.Bytes) : Except Breakdown Settings :=
  (contentsOfFile path bytes).bind (ofContents path)

/-- What loading passes on as it is, with the file and the settings that lead to it. -/
inductive Escapes (path : Path) (bytes : Utf8.Bytes) : Breakdown → Prop
  | undecodable (h : Utf8.decode? bytes = none) : Escapes path bytes .undecodable
  | reader {s : List Char} {b : Breakdown} (hs : Utf8.decode? bytes = some s)
      (h : Yaml.read (unifyLineEnds s) = .error (.breakdown b)) : Escapes path bytes b
  | precision {settings : Settings} (hs : ofFile path bytes = .ok settings)
      (h : Endless settings.precision) : Escapes path bytes (.noWholePart .infinite)
  | passes {settings : Settings} {n : Int} (hs : ofFile path bytes = .ok settings)
      (hn : Engine.whole settings.precision = .ok n) (h : Endless settings.passes) :
      Escapes path bytes (.noWholePart .infinite)

theorem ofSettings_eq (settings : Settings) : Engine.ofSettings settings =
    (Engine.whole settings.precision).bind fun precision =>
      (Engine.whole settings.passes).bind fun passes =>
        if passes < 1 then .error (.configuration "max_iterations must be at least 1".toList)
        else .ok ⟨clampPrecision precision, passes⟩ := rfl

/-- The settings of a project are loaded from the bytes of its file. -/
theorem load_eq (h : tree.read (directory.child fileName) = .ok bytes) :
    load tree directory = ofFile (directory.child fileName) bytes := by
  have hfound : ∃ e, tree.find (directory.child fileName) = .ok e := by
    unfold Tree.read at h
    cases hfind : tree.find (directory.child fileName) with
    | ok e => exact ⟨e, rfl⟩
    | error problem => rw [hfind] at h; exact absurd h nofun
  obtain ⟨e, hfind⟩ := hfound
  have hhas : tree.has (directory.child fileName) = .ok true := by
    unfold Tree.has
    rw [hfind]
  have hcontents : contents tree directory = contentsOfFile (directory.child fileName) bytes := by
    unfold contents
    dsimp only
    rw [hhas, h]
    rfl
  unfold load
  rw [hcontents]
  rfl

theorem ofContents_outcome (path : Path) (c : Contents) :
    (∃ settings, ofContents path c = .ok settings) ∨
      ∃ m, ofContents path c = .error (.configuration m) := by
  unfold ofContents
  dsimp only
  split
  · exact Or.inl ⟨_, rfl⟩
  · split
    · exact Or.inr ⟨_, rfl⟩
    · exact Or.inl ⟨_, rfl⟩

/-- A file makes settings or is refused, or its reading escapes. -/
theorem ofFile_outcome (path : Path) (bytes : Utf8.Bytes) :
    (∃ settings, ofFile path bytes = .ok settings) ∨
      (∃ m, ofFile path bytes = .error (.configuration m)) ∨ ∃ b, Escapes path bytes b := by
  cases hs : Utf8.decode? bytes with
  | none => exact Or.inr (Or.inr ⟨_, .undecodable hs⟩)
  | some s =>
    have htext : ofFile path bytes = (contentsOfText path s).bind (ofContents path) := by
      unfold ofFile contentsOfFile
      rw [hs]
    rw [htext]
    unfold contentsOfText
    cases hread : Yaml.read (unifyLineEnds s) with
    | ok c => exact (ofContents_outcome path c).imp_right Or.inl
    | error trouble =>
      cases trouble with
      | malformed => exact Or.inr (Or.inl ⟨_, rfl⟩)
      | breakdown b => exact Or.inr (Or.inr ⟨b, .reader hs hread⟩)

/-- Settings whose numbers have an end give an engine in range or are refused. -/
theorem ofSettings_outcome (hprecision : ¬ Endless settings.precision)
    (hpasses : ∀ n, Engine.whole settings.precision = .ok n → ¬ Endless settings.passes) :
    (∃ e, Engine.ofSettings settings = .ok e ∧ e.precision ≤ 15 ∧ 1 ≤ e.passes) ∨
      ∃ m, Engine.ofSettings settings = .error (.configuration m) := by
  rw [ofSettings_eq]
  obtain ⟨n, hn⟩ | ⟨m, hm⟩ := whole_of_not_endless hprecision
  · obtain ⟨k, hk⟩ | ⟨m, hm⟩ := whole_of_not_endless (hpasses n hn)
    · rw [hn, hk]
      by_cases hfew : k < 1
      · exact Or.inr ⟨_, if_pos hfew⟩
      · exact Or.inl ⟨⟨clampPrecision n, k⟩, if_neg hfew, Nat.min_le_right _ _, not_lt.mp hfew⟩
    · exact Or.inr ⟨m, by rw [hn, hm]; rfl⟩
  · exact Or.inr ⟨m, by rw [hm]; rfl⟩

/-- What escapes is the outcome. -/
theorem engine_of_escapes {b : Breakdown} (h : Escapes path bytes b) :
    (ofFile path bytes).bind Engine.ofSettings = .error b := by
  cases h with
  | undecodable hs =>
    unfold ofFile contentsOfFile
    rw [hs]
    rfl
  | reader hs hread =>
    unfold ofFile contentsOfFile
    rw [hs]
    unfold contentsOfText
    dsimp only
    rw [hread]
    rfl
  | precision hs hprecision =>
    rw [hs]
    change Engine.ofSettings _ = _
    rw [ofSettings_eq, whole_of_endless hprecision]
    rfl
  | passes hs hn hpasses =>
    rw [hs]
    change Engine.ofSettings _ = _
    rw [ofSettings_eq, hn]
    change (Engine.whole _).bind _ = _
    rw [whole_of_endless hpasses]
    rfl

/-- Whatever bytes the settings file has, its engine is in range or it is refused as a
configuration, unless something escapes; then that is the outcome. -/
theorem engine_outcome (h : tree.read (directory.child fileName) = .ok bytes) :
    (∀ b, Escapes (directory.child fileName) bytes b →
      (load tree directory).bind Engine.ofSettings = .error b) ∧
    ((∀ b, ¬ Escapes (directory.child fileName) bytes b) →
      (∃ e, (load tree directory).bind Engine.ofSettings = .ok e ∧
        e.precision ≤ 15 ∧ 1 ≤ e.passes) ∨
      ∃ m, (load tree directory).bind Engine.ofSettings = .error (.configuration m)) := by
  rw [load_eq h]
  refine ⟨fun b => engine_of_escapes, fun hnone => ?_⟩
  obtain ⟨settings, hs⟩ | ⟨m, hm⟩ | ⟨b, hb⟩ := ofFile_outcome (directory.child fileName) bytes
  · rw [hs]
    exact ofSettings_outcome (fun hend => hnone _ (.precision hs hend))
      fun n hn hend => hnone _ (.passes hs hn hend)
  · exact Or.inr ⟨m, by rw [hm]; rfl⟩
  · exact absurd hb (hnone b)

/-- An infinite precision is passed on as such. -/
theorem engine_infinitePrecision :
    let bytes := Utf8.encode "precision: .inf\n".toList
    let tree : Tree := ⟨[([fileName], .file bytes)], []⟩
    let directory := Path.ofText ['.']
    tree.read (directory.child fileName) = .ok bytes ∧
      (load tree directory).bind Engine.ofSettings = .error (.noWholePart .infinite) := by
  intro bytes tree directory
  have hread : tree.read (directory.child fileName) = .ok bytes := rfl
  have hcheck : ((ofFile (directory.child fileName) bytes).toOption.any
      fun settings => decide (Endless settings.precision)) = true := by decide +kernel
  cases hs : ofFile (directory.child fileName) bytes with
  | ok settings =>
    rw [hs] at hcheck
    exact ⟨hread, (engine_outcome hread).1 _ (.precision hs (of_decide_eq_true hcheck))⟩
  | error b =>
    rw [hs] at hcheck
    exact absurd hcheck Bool.false_ne_true

end Settings

end Reckoner
