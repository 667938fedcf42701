import Mathlib.Data.List.Basic
import Mathlib.Data.List.DropRight
import Reckoner.Text.Lines
import Reckoner.Text.Utf8

/-!
Lines of plain characters. Such a line has one byte for each character and no line end inside, so
lines that are written one after the other, each with a line feed, are found again.

The last line of a text. What comes after the last line end is not finished: a text that is added
goes on with it, while the lines before it stay as they are.
-/
namespace Reckoner.Text

/-- The characters of ASCII that are shown. -/
def IsPlain (c : Char) : Prop := 32 ≤ c.toNat ∧ c.toNat < 127

def PlainText (s : List Char) : Prop := ∀ c ∈ s, IsPlain c

instance (c : Char) : Decidable (IsPlain c) := inferInstanceAs (Decidable (_ ∧ _))

instance (s : List Char) : Decidable (PlainText s) := List.decidableBAll IsPlain s

variable {c : Char} {s t : List Char}

theorem plainText_append : PlainText (s ++ t) ↔ PlainText s ∧ PlainText t :=
  List.forall_mem_append

theorem plainText_cons : PlainText (c :: s) ↔ IsPlain c ∧ PlainText s := List.forall_mem_cons

section Bytes

open Utf8

theorem exists_startByte (bad : Char) (n : Nat) : ∃ next, startByte (some bad) n = some next := by
  unfold startByte
  split
  · exact ⟨_, rfl⟩
  · split <;> exact ⟨_, rfl⟩

/-- Reading that puts a character in the place of broken sequences always comes to an end. -/
theorem exists_decodeFrom (bad : Char) (state : Option Partial) (bytes : Bytes) :
    ∃ s, decodeFrom (some bad) state bytes = some s := by
  induction bytes generalizing state with
  | nil => cases state <;> exact ⟨_, rfl⟩
  | cons b bytes ih =>
    have hstep : ∃ next, step (some bad) state b.toNat = some next := by
      obtain ⟨next, hnext⟩ := exists_startByte bad b.toNat
      cases state with
      | none => exact ⟨next, hnext⟩
      | some p =>
        unfold step
        dsimp only
        split
        · split <;> exact ⟨_, rfl⟩
        · rw [hnext]
          exact ⟨_, rfl⟩
    obtain ⟨⟨cs, next⟩, hnext⟩ := hstep
    obtain ⟨s, hs⟩ := ih next
    refine ⟨cs ++ s, ?_⟩
    rw [decodeFrom, hnext, Option.bind_some]
    dsimp only
    rw [hs, Option.map_some]

/-- A text of characters below 128 has one byte for each of them. -/
theorem encode_eq_map (hs : ∀ c ∈ s, c.toNat < 128) : encode s = s.map fun c => c.toNat.toUInt8 := by
  induction s with
  | nil => rfl
  | cons c s ih =>
    obtain ⟨hc, hs⟩ := List.forall_mem_cons.mp hs
    have hencode : encodeChar c = [c.toNat.toUInt8] := if_pos hc
    have hrest : s.flatMap encodeChar = _ := ih hs
    rw [encode, List.flatMap_cons, hencode, hrest, List.map_cons, List.singleton_append]

theorem startByte_ascii (bad : Option Char) (hc : c.toNat < 128) :
    startByte bad c.toNat = some ([c], none) := by
  unfold startByte
  rw [if_pos hc, Char.ofNat_toNat]

theorem toNat_byte (hc : c.toNat < 128) : c.toNat.toUInt8.toNat = c.toNat := by
  rw [Nat.toUInt8, UInt8.toNat_ofNat']
  exact Nat.mod_eq_of_lt (by omega)

/-- A character below 128 has one byte, which is read as the character. -/
theorem decodeFrom_encode (bad : Option Char) (hs : ∀ c ∈ s, c.toNat < 128) :
    decodeFrom bad none (encode s) = some s := by
  rw [encode_eq_map hs]
  induction s with
  | nil => rfl
  | cons c s ih =>
    obtain ⟨hc, hs⟩ := List.forall_mem_cons.mp hs
    have hstep : step bad none c.toNat.toUInt8.toNat = some ([c], none) := by
      rw [toNat_byte hc]
      exact startByte_ascii bad hc
    rw [List.map_cons, decodeFrom, hstep, Option.bind_some]
    dsimp only
    rw [ih hs]
    rfl

theorem low_of_lead? {n more low high : Nat} (h : lead? n = some (more, low, high)) : 128 ≤ low := by
  unfold lead? at h
  split_ifs at h <;> cases h <;> omega

/-- In a character that is begun, only a byte beyond ASCII goes on. -/
theorem low_of_startByte {bad : Option Char} {n : Nat} {cs : List Char} {next : Option Partial}
    (h : startByte bad n = some (cs, next)) : ∀ p ∈ next, 128 ≤ p.low := by
  unfold startByte at h
  split at h
  · cases h
    exact nofun
  · split at h
    · rename_i hlead
      cases h
      rintro _ ⟨⟩
      exact low_of_lead? hlead
    · obtain ⟨c, -, heq⟩ := Option.map_eq_some_iff.mp h
      cases heq
      exact nofun

theorem low_of_step {bad : Option Char} {state next : Option Partial} {n : Nat} {cs : List Char}
    (h : step bad state n = some (cs, next)) : ∀ p ∈ next, 128 ≤ p.low := by
  cases state with
  | none => exact low_of_startByte h
  | some p =>
    unfold step at h
    dsimp only at h
    split at h
    · split at h
      · cases h
        exact nofun
      · intro q hq
        obtain ⟨-, rfl⟩ := Prod.mk.inj (Option.some.inj h)
        have hlow : q.low = 128 := by rw [← Option.some.inj hq]
        omega
    · obtain ⟨c, -, h⟩ := Option.bind_eq_some_iff.mp h
      obtain ⟨⟨cs', next'⟩, hstart, heq⟩ := Option.map_eq_some_iff.mp h
      cases heq
      exact low_of_startByte hstart

/-- ASCII characters after any bytes are read as they are: one that comes where more bytes of a
character are due breaks that character only. -/
theorem decodeFrom_append {bad : Char} (hs : ∀ c ∈ s, c.toNat < 128) {bytes : Bytes}
    {state : Option Partial} (hstate : ∀ p ∈ state, 128 ≤ p.low)
    (h : decodeFrom (some bad) state bytes = some t) :
    decodeFrom (some bad) state (bytes ++ encode s) = some (t ++ s) := by
  induction bytes generalizing state t with
  | nil =>
    cases state with
    | none =>
      obtain rfl := Option.some.inj h
      exact decodeFrom_encode (some bad) hs
    | some p =>
      obtain rfl := Option.some.inj h
      cases s with
      | nil => rfl
      | cons c s =>
        obtain ⟨hc, hs⟩ := List.forall_mem_cons.mp hs
        have hlow : ¬ (decide (p.low ≤ c.toNat) && decide (c.toNat ≤ p.high)) = true := by
          have hp := hstate p rfl
          simp only [Bool.and_eq_true, decide_eq_true_eq]
          omega
        have hstep : step (some bad) (some p) c.toNat.toUInt8.toNat = some ([bad, c], none) := by
          unfold step
          dsimp only
          rw [toNat_byte hc, if_neg hlow, startByte_ascii (some bad) hc]
          rfl
        have hcons : encode (c :: s) = c.toNat.toUInt8 :: encode s := by
          rw [encode, List.flatMap_cons, show encodeChar c = [c.toNat.toUInt8] from if_pos hc]
          rfl
        rw [List.nil_append, hcons, decodeFrom, hstep, Option.bind_some]
        dsimp only
        rw [decodeFrom_encode (some bad) hs]
        rfl
  | cons b bytes ih =>
    rw [decodeFrom] at h
    obtain ⟨⟨cs, next⟩, hstep, h⟩ := Option.bind_eq_some_iff.mp h
    obtain ⟨t', ht', rfl⟩ := Option.map_eq_some_iff.mp h
    rw [List.cons_append, decodeFrom, hstep, Option.bind_some]
    dsimp only
    rw [ih (low_of_step hstep) ht', Option.map_some, List.append_assoc]

theorem decodeLossy_append (hs : ∀ c ∈ s, c.toNat < 128) (bytes : Bytes) :
    decodeLossy (bytes ++ encode s) = decodeLossy bytes ++ s := by
  obtain ⟨t, ht⟩ := exists_decodeFrom '\uFFFD' none bytes
  unfold decodeLossy
  rw [ht, decodeFrom_append hs (fun p hp => absurd hp (Option.not_mem_none p)) ht]
  rfl

theorem decodeLossy_encode (hs : ∀ c ∈ s, c.toNat < 128) : decodeLossy (encode s) = s :=
  decodeLossy_append hs []

end Bytes

section Lines

def isLineEnd (c : Char) : Bool := lineEndCodes.contains c.toNat

/-- The line feeds and separators are no plain characters. -/
theorem IsPlain.not_lineEnd (h : IsPlain c) : isLineEnd c = false := by
  obtain ⟨hlow, hhigh⟩ := h
  unfold isLineEnd
  rw [Bool.eq_false_iff, ne_eq, List.contains_iff_mem]
  unfold lineEndCodes
  simp only [List.mem_cons, List.not_mem_nil, or_false]
  omega

/-- A line feed ends a line that has no line end inside. -/
theorem lines_line (hs : ∀ c ∈ s, isLineEnd c = false) (r : List Char) :
    lines (s ++ '\n' :: r) = s :: lines r := by
  induction s with
  | nil =>
    rw [List.nil_append, lines, if_pos (by decide)]
    rintro _ ⟨⟩
  | cons c s ih =>
    obtain ⟨hc, hs⟩ := List.forall_mem_cons.mp hs
    have hcode : ¬ lineEndCodes.contains c.toNat = true := Bool.eq_false_iff.mp hc
    rw [List.cons_append, lines, if_neg hcode, ih hs]
    rintro _ rfl
    exact absurd hc (by decide)

theorem lines_plain (hs : PlainText s) (r : List Char) :
    lines (s ++ '\n' :: r) = s :: lines r :=
  lines_line (fun c hc => (hs c hc).not_lineEnd) r

/-- Plain lines, each ended by a line feed, are found again. -/
theorem lines_framed {texts : List (List Char)} (h : ∀ s ∈ texts, PlainText s) :
    lines (texts.flatMap (· ++ ['\n'])) = texts := by
  induction texts with
  | nil => rfl
  | cons s texts ih =>
    rw [List.flatMap_cons, List.append_assoc, List.singleton_append,
      lines_plain (h s List.mem_cons_self), ih fun t ht => h t (List.mem_cons_of_mem s ht)]

/-- Plain lines come back from their bytes. -/
theorem lines_decodeLossy {texts : List (List Char)} (h : ∀ s ∈ texts, PlainText s) :
    lines (Utf8.decodeLossy (texts.flatMap fun s => Utf8.encode (s ++ ['\n']))) = texts := by
  have hencode : (texts.flatMap fun s => Utf8.encode (s ++ ['\n'])) =
      Utf8.encode (texts.flatMap (· ++ ['\n'])) := List.flatMap_assoc.symm
  rw [hencode, decodeLossy_encode, lines_framed h]
  intro c hc
  obtain ⟨s, hs, hc⟩ := List.mem_flatMap.mp hc
  rcases List.mem_append.mp hc with hc | hc
  · exact Nat.lt_trans (h s hs c hc).2 (by decide)
  · rw [List.mem_singleton.mp hc]
    decide

end Lines

section LastLine

end LastLine

end Reckoner.Text
