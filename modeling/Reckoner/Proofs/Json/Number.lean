import Mathlib.Tactic.FieldSimp
import Mathlib.Tactic.Ring
import Reckoner.Json.Reader
import Reckoner.Json.Writer
import Reckoner.Proofs.Number.Plain
import Reckoner.Proofs.Text.Spans

/-!
Numbers. The text of a numeral is read as this numeral when no digit, point or exponent follows.
Whole numbers and finite doubles are written as numerals, which are read as the number written: a
double because its shortest decimal lies within it, however its digits are laid out.
-/
namespace Reckoner.Json

open Text Number Data

def AsciiDigits (s : List Char) : Prop := ∀ c ∈ s, isAsciiDigit c = true

/-- Whether a numeral ends before a text. -/
def EndsNumber (rest : List Char) : Prop :=
  ∀ c ∈ rest.head?, isAsciiDigit c = false ∧ c ≠ '.' ∧ c ≠ 'e' ∧ c ≠ 'E'

namespace Numeral

def fractionText : Option (List Char) → List Char
  | none => []
  | some digits => '.' :: digits

def exponentText : Option (Bool × List Char) → List Char
  | none => []
  | some (negative, digits) => 'e' :: (if negative then '-' else '+') :: digits

def text (n : Numeral) : List Char :=
  withSign n.negative (n.whole ++ fractionText n.fraction ++ exponentText n.exponent)

/-- The digits of numerals: there is no leading zero, and every part that is there has digits. -/
structure Proper (n : Numeral) : Prop where
  whole : AsciiDigits n.whole
  some_digit : n.whole ≠ []
  leading : n.whole.head? = some '0' → n.whole = ['0']
  fraction : ∀ digits ∈ n.fraction, AsciiDigits digits ∧ digits ≠ []
  exponent : ∀ e ∈ n.exponent, AsciiDigits e.2 ∧ e.2 ≠ []

def mantissa (n : Numeral) : Nat := digitsValue (n.whole ++ n.fraction.getD [])

/-- The power of ten by which the exponent multiplies. -/
def power (n : Numeral) : Int :=
  match n.exponent with
  | none => 0
  | some (true, digits) => -(digitsValue digits : Int)
  | some (false, digits) => digitsValue digits

def value (n : Numeral) : ℚ := n.mantissa * 10 ^ (n.power - (n.fraction.getD []).length)

end Numeral

section Digits

variable {s t : List Char}

theorem asciiDigits_append : AsciiDigits (s ++ t) ↔ AsciiDigits s ∧ AsciiDigits t :=
  List.forall_mem_append

theorem AsciiDigits.allDigits (h : AsciiDigits s) : AllDigits s :=
  fun c hc => isDigit_ascii (h c hc)

theorem asciiDigits_zeroDigits (n : Nat) : AsciiDigits (zeroDigits n) := by
  intro c hc
  rw [List.eq_of_mem_replicate hc]
  decide

theorem asciiDigits_decimalDigits (n : Nat) : AsciiDigits (decimalDigits n) :=
  fun _ hc => isAsciiDigit_decimalDigits hc

end Digits

section Reading

variable {n : Numeral} {s rest : List Char}

theorem takeFraction_text {f : Option (List Char)}
    (hf : ∀ digits ∈ f, AsciiDigits digits ∧ digits ≠ [])
    (hrest : ∀ c ∈ rest.head?, isAsciiDigit c = false ∧ (f = none → c ≠ '.')) :
    Numeral.takeFraction (Numeral.fractionText f ++ rest) = (f, rest) := by
  cases f with
  | none =>
    rw [Numeral.fractionText, List.nil_append]
    unfold Numeral.takeFraction
    split
    · rename_i r
      exact absurd rfl ((hrest '.' rfl).2 rfl)
    · rfl
  | some digits =>
    obtain ⟨hdigits, hne⟩ := hf digits rfl
    have hstop : ∀ c ∈ rest.head?, isAsciiDigit c = false := fun c hc => (hrest c hc).1
    rw [Numeral.fractionText, List.cons_append, Numeral.takeFraction,
      takeWhile_append_stop hdigits hstop, dropWhile_append_stop hdigits hstop, if_neg]
    rwa [List.isEmpty_iff]

theorem takeExponent_text {e : Option (Bool × List Char)}
    (he : ∀ e' ∈ e, AsciiDigits e'.2 ∧ e'.2 ≠ []) (hrest : EndsNumber rest) :
    Numeral.takeExponent (Numeral.exponentText e ++ rest) = (e, rest) := by
  cases e with
  | none =>
    rw [Numeral.exponentText, List.nil_append]
    cases rest with
    | nil => rfl
    | cons c r =>
      obtain ⟨_, _, hlower, hupper⟩ := hrest c rfl
      unfold Numeral.takeExponent
      dsimp only
      rw [if_neg]
      rintro ⟨h, _⟩
      exact h.elim hlower hupper
  | some e =>
    obtain ⟨negative, digits⟩ := e
    obtain ⟨hdigits, hne⟩ := he _ rfl
    have hstop : ∀ c ∈ rest.head?, isAsciiDigit c = false := fun c hc => (hrest c hc).1
    have hsplit : splitSign ((if negative then '-' else '+') :: digits ++ rest) =
        (negative, digits ++ rest) := by cases negative <;> rfl
    rw [Numeral.exponentText, List.cons_append, Numeral.takeExponent, hsplit]
    dsimp only
    rw [takeWhile_append_stop hdigits hstop, dropWhile_append_stop hdigits hstop, if_pos]
    refine ⟨Or.inl rfl, ?_⟩
    rw [Bool.not_eq_true', Bool.eq_false_iff, ne_eq, List.isEmpty_iff]
    exact hne

/-- What may follow the whole part of a numeral. -/
theorem head_after_whole (hrest : EndsNumber rest) :
    ∀ c ∈ (Numeral.fractionText n.fraction ++ (Numeral.exponentText n.exponent ++ rest)).head?,
      isAsciiDigit c = false := by
  cases n.fraction with
  | some digits => rintro c ⟨⟩; decide
  | none =>
    cases n.exponent with
    | some e => rintro c ⟨⟩; decide
    | none => exact fun c hc => (hrest c hc).1

theorem head_after_fraction (hrest : EndsNumber rest) :
    ∀ c ∈ (Numeral.exponentText n.exponent ++ rest).head?, isAsciiDigit c = false ∧ c ≠ '.' := by
  cases n.exponent with
  | some e => rintro c ⟨⟩; decide
  | none => exact fun c hc => ⟨(hrest c hc).1, (hrest c hc).2.1⟩

/-- What is read after the whole part of a numeral. -/
def Numeral.finish (negative : Bool) (whole : List Char) (s : List Char) : Numeral × List Char :=
  let (fraction, s) := takeFraction s
  let (exponent, s) := takeExponent s
  (⟨negative, whole, fraction, exponent⟩, s)

/-- A numeral begins with a sign and a whole part, which a leading zero ends. -/
theorem take?_digit {d : Char} (hd : isAsciiDigit d = true) (negative : Bool) (s : List Char) :
    Numeral.take? (withSign negative (d :: s)) =
      some (if d = '0' then Numeral.finish negative ['0'] s
        else Numeral.finish negative (d :: s.takeWhile isAsciiDigit)
          (s.dropWhile isAsciiDigit)) := by
  have hsign : d ≠ '-' := by
    rintro rfl
    exact absurd hd (by decide)
  have htake : (d :: s).takeWhile isAsciiDigit = d :: s.takeWhile isAsciiDigit :=
    List.takeWhile_cons_of_pos hd
  have hdrop : (d :: s).dropWhile isAsciiDigit = s.dropWhile isAsciiDigit :=
    List.dropWhile_cons_of_pos hd
  by_cases hzero : d = '0'
  · subst hzero
    cases negative <;> rfl
  · rw [if_neg hzero, ← htake, ← hdrop]
    cases negative with
    | true => simp [withSign, Numeral.take?, Numeral.finish, hzero, htake]
    | false => simp [withSign, Numeral.take?, Numeral.finish, hzero, hsign, htake]

/-- The text of a numeral is read as this numeral. -/
theorem take?_text (hn : n.Proper) (hrest : EndsNumber rest) :
    Numeral.take? (n.text ++ rest) = some (n, rest) := by
  obtain ⟨hwhole, hne, hleading, hfraction, hexponent⟩ := hn
  have hstop := head_after_whole (n := n) hrest
  have hfractionTaken := takeFraction_text hfraction
    fun c hc => (head_after_fraction (n := n) hrest c hc).imp_right fun h _ => h
  have hexponentTaken := takeExponent_text hexponent hrest
  obtain ⟨negative, whole, fraction, exponent⟩ := n
  dsimp only at *
  have hfinish : Numeral.finish negative whole
      (Numeral.fractionText fraction ++ (Numeral.exponentText exponent ++ rest)) =
      (⟨negative, whole, fraction, exponent⟩, rest) := by
    unfold Numeral.finish
    rw [hfractionTaken]
    dsimp only
    rw [hexponentTaken]
  obtain ⟨d, r, rfl⟩ := List.exists_cons_of_ne_nil hne
  have hr : AsciiDigits r := fun c hc => hwhole c (List.mem_cons_of_mem d hc)
  have htext : Numeral.text ⟨negative, d :: r, fraction, exponent⟩ ++ rest =
      withSign negative (d :: (r ++ (Numeral.fractionText fraction ++
        (Numeral.exponentText exponent ++ rest)))) := by
    unfold Numeral.text
    cases negative <;> simp [withSign, List.append_assoc]
  rw [htext, take?_digit (hwhole d List.mem_cons_self)]
  split
  · rename_i hzero
    subst hzero
    obtain rfl := (List.cons.inj (hleading rfl)).2
    rw [List.nil_append, hfinish]
  · rw [takeWhile_append_stop hr hstop, dropWhile_append_stop hr hstop, hfinish]

end Reading

section Writing

/-- The longest whole number that can be read. -/
def Readable (k : Int) : Prop := k.natAbs < 10 ^ digitLimit

theorem readable_of_lt {k : Int} (h : k.natAbs < 10) : Readable k :=
  Nat.lt_of_lt_of_le h (Nat.le_self_pow (by decide) 10)

/-- A whole number is written as a numeral of its digits. -/
theorem exists_decimalInt (k : Int) :
    ∃ n : Numeral, n.Proper ∧ n.text = Value.decimalInt k ∧
      (Readable k → n.token = .value (.int k)) := by
  refine ⟨⟨k < 0, decimalDigits k.natAbs, none, none⟩, ⟨asciiDigits_decimalDigits _,
    decimalDigits_ne_nil _, fun h => ?_, by simp, by simp⟩, ?_, fun hk => ?_⟩
  · rw [decimalDigits_leading h]
    rfl
  · unfold Numeral.text Value.decimalInt Numeral.fractionText Numeral.exponentText
    rw [List.append_nil, List.append_nil]
  · have hlength : (decimalDigits k.natAbs).length ≤ digitLimit :=
      (Nat.length_toDigits_le_iff (by decide) (by decide)).mpr hk
    unfold Numeral.token
    dsimp only
    rw [if_neg (Nat.not_lt.mpr hlength), digitsValue_decimalDigits]
    by_cases hneg : k < 0
    · rw [if_pos (decide_eq_true hneg), show -((k.natAbs : Nat) : Int) = k by omega]
    · rw [if_neg (by simpa using hneg), show ((k.natAbs : Nat) : Int) = k by omega]

variable {m : Nat} {q : Int}

/-- What a numeral with a point or an exponent is read as. -/
theorem token_float {n : Numeral} (h : n.fraction ≠ none ∨ n.exponent ≠ none) :
    n.token = .value (.float (nearestDecimal n.negative n.mantissa
      (n.power - (n.fraction.getD []).length))) := by
  obtain ⟨negative, whole, fraction, exponent⟩ := n
  unfold Numeral.token
  cases fraction with
  | none =>
    cases exponent with
    | none => exact absurd h (by simp)
    | some e => rfl
  | some digits => rfl

/-- A numeral whose value lies within a double is read as the double. -/
theorem token_of_within {n : Numeral} (hfloat : n.fraction ≠ none ∨ n.exponent ≠ none)
    (hm : 0 < m) (hf : Fits m q) (h : Within m q n.value) :
    n.token = .value (.float (ofFields n.negative m q)) := by
  rw [token_float hfloat, nearestDecimal_of_within n.negative hm hf h]

/-- The digits of a positive decimal: the first and the last one are no zeros, and moving the point
gives the decimal. -/
theorem exists_places {d : Decimal} (hd : 0 < d.digits) :
    ∃ c r, d.places.1 = c :: r ∧ AsciiDigits (c :: r) ∧ c ≠ '0' ∧
      d.value = digitsValue (c :: r) * 10 ^ (d.places.2 - (c :: r).length) := by
  obtain ⟨k, hk⟩ := dropTrailingZeros_append (decimalDigits d.digits)
  have hvalue := digitsValue_decimalDigits d.digits
  have hascii := asciiDigits_decimalDigits d.digits
  have hleading : (decimalDigits d.digits).head? ≠ some '0' := fun h => by
    rw [decimalDigits_leading h] at hd
    exact absurd hd (by decide)
  unfold Decimal.places
  dsimp only
  generalize dropTrailingZeros (decimalDigits d.digits) = s at hk ⊢
  rw [hk, digitsValue_append_zeros] at hvalue
  rw [hk] at hascii hleading
  cases s with
  | nil =>
    rw [digitsValue_nil, Nat.zero_mul] at hvalue
    omega
  | cons c r =>
    refine ⟨c, r, rfl, (asciiDigits_append.mp hascii).1, fun hc => hleading (by rw [hc]; rfl), ?_⟩
    have hlength : ((decimalDigits d.digits).length : Int) + d.exponent - (c :: r).length =
        (k : Int) + d.exponent := by
      have h := congrArg List.length hk
      unfold zeroDigits at h
      rw [List.length_append, List.length_replicate] at h
      omega
    have hcast : (d.digits : ℚ) = digitsValue (c :: r) * 10 ^ k := by exact_mod_cast hvalue.symm
    unfold Decimal.value
    rw [hlength, zpow_add₀ (by norm_num), zpow_natCast, hcast, mul_assoc]

/-- That a numeral with a point or an exponent is a text with a sign, and denotes a number. -/
structure Numeral.Spells (n : Numeral) (negative : Bool) (t : List Char) (v : ℚ) : Prop where
  proper : n.Proper
  sign : n.negative = negative
  float : n.fraction ≠ none ∨ n.exponent ≠ none
  text : n.text = withSign negative t
  value : n.value = v

section Positional

variable {c : Char} {r : List Char} {point : Int}

/-- Digits with the point before them, and zeros between. -/
theorem exists_spells_before (negative : Bool) (hs : AsciiDigits (c :: r)) (hpoint : point ≤ 0) :
    ∃ n : Numeral, n.Spells negative ('0' :: '.' :: zeroDigits (-point).toNat ++ c :: r)
      (digitsValue (c :: r) * 10 ^ (point - (c :: r).length)) := by
  have hfraction : AsciiDigits (zeroDigits (-point).toNat ++ c :: r) :=
    asciiDigits_append.mpr ⟨asciiDigits_zeroDigits _, hs⟩
  refine ⟨⟨negative, ['0'], some (zeroDigits (-point).toNat ++ c :: r), none⟩,
    ⟨asciiDigits_zeroDigits 1, by simp, fun _ => rfl, ?_, by simp⟩, rfl, Or.inl (by simp), ?_, ?_⟩
  · rintro _ ⟨⟩
    exact ⟨hfraction, by simp⟩
  · simp [Numeral.text, Numeral.fractionText, Numeral.exponentText]
  · have hmantissa : digitsValue (['0'] ++ (zeroDigits (-point).toNat ++ c :: r)) =
        digitsValue (c :: r) := by
      rw [← List.append_assoc, show ['0'] = zeroDigits 1 from rfl]
      unfold zeroDigits
      rw [← List.replicate_add]
      exact digitsValue_zeros_append _ hs.allDigits
    unfold Numeral.value Numeral.mantissa Numeral.power
    dsimp only
    rw [Option.getD_some, hmantissa, List.length_append, zeroDigits, List.length_replicate]
    congr 2
    omega

/-- Digits with the point after them, and zeros between. -/
theorem exists_spells_after (negative : Bool) (hs : AsciiDigits (c :: r)) (hc : c ≠ '0')
    (hlength : (c :: r).length ≤ point.toNat) :
    ∃ n : Numeral, n.Spells negative
      (c :: r ++ zeroDigits (point.toNat - (c :: r).length) ++ ['.', '0'])
      (digitsValue (c :: r) * 10 ^ (point - (c :: r).length)) := by
  refine ⟨⟨negative, c :: (r ++ zeroDigits (point.toNat - (c :: r).length)), some ['0'], none⟩,
    ⟨?_, by simp, fun h => absurd (Option.some.inj h) hc, ?_, by simp⟩, rfl, Or.inl (by simp),
    ?_, ?_⟩
  · exact asciiDigits_append.mpr ⟨hs, asciiDigits_zeroDigits _⟩
  · rintro _ ⟨⟩
    exact ⟨asciiDigits_zeroDigits 1, by simp⟩
  · simp [Numeral.text, Numeral.fractionText, Numeral.exponentText]
  · have hmantissa : digitsValue (c :: (r ++ zeroDigits (point.toNat - (c :: r).length)) ++
        ['0']) = digitsValue (c :: r) * 10 ^ (point.toNat - (c :: r).length) * 10 := by
      rw [show ['0'] = zeroDigits 1 from rfl, digitsValue_append_zeros, ← List.cons_append,
        digitsValue_append_zeros, Nat.pow_one]
    have hpower : point - (c :: r).length = ((point.toNat - (c :: r).length : Nat) : Int) := by
      rw [List.length_cons] at hlength ⊢
      omega
    unfold Numeral.value Numeral.mantissa Numeral.power
    dsimp only
    rw [Option.getD_some, hmantissa, hpower, List.length_singleton, zpow_natCast]
    push_cast
    rw [zpow_neg_one, mul_inv_cancel_right₀ (by norm_num)]

/-- Digits with the point among them. -/
theorem exists_spells_within (negative : Bool) (hs : AsciiDigits (c :: r)) (hc : c ≠ '0')
    (hpoint : ¬ point ≤ 0) (hlength : ¬ (c :: r).length ≤ point.toNat) :
    ∃ n : Numeral, n.Spells negative
      ((c :: r).take point.toNat ++ '.' :: (c :: r).drop point.toNat)
      (digitsValue (c :: r) * 10 ^ (point - (c :: r).length)) := by
  obtain ⟨k, hk⟩ : ∃ k, point.toNat = k + 1 := ⟨point.toNat - 1, by omega⟩
  have hjoin : (c :: r).take point.toNat ++ (c :: r).drop point.toNat = c :: r :=
    List.take_append_drop _ _
  refine ⟨⟨negative, (c :: r).take point.toNat, some ((c :: r).drop point.toNat), none⟩,
    ⟨fun d hd => hs d (List.mem_of_mem_take hd), ?_, ?_, ?_, by simp⟩, rfl, Or.inl (by simp),
    ?_, ?_⟩
  · rw [hk, List.take_succ_cons]
    exact List.cons_ne_nil _ _
  · rw [hk, List.take_succ_cons]
    exact fun h => absurd (Option.some.inj h) hc
  · rintro _ ⟨⟩
    refine ⟨fun d hd => hs d (List.mem_of_mem_drop hd), fun hnil => hlength ?_⟩
    exact List.drop_eq_nil_iff.mp hnil
  · simp [Numeral.text, Numeral.fractionText, Numeral.exponentText]
  · unfold Numeral.value Numeral.mantissa Numeral.power
    dsimp only
    rw [Option.getD_some, hjoin, List.length_drop]
    rw [List.length_cons] at hlength ⊢
    congr 2
    omega

/-- Digits laid out around a point are a numeral of the right value. -/
theorem exists_positional (negative : Bool) (hs : AsciiDigits (c :: r)) (hc : c ≠ '0')
    (point : Int) :
    ∃ n : Numeral, n.Spells negative (positional ['.', '0'] (c :: r) point)
      (digitsValue (c :: r) * 10 ^ (point - (c :: r).length)) := by
  unfold positional
  split
  · rename_i hpoint
    exact exists_spells_before negative hs hpoint
  · rename_i hpoint
    split
    · rename_i hlength
      exact exists_spells_after negative hs hc hlength
    · rename_i hlength
      exact exists_spells_within negative hs hc hpoint hlength

end Positional

/-- The digits of an exponent, and what they stand for. -/
theorem exists_exponentMark (e : Int) :
    ∃ digits, exponentMark e = 'e' :: (if e < 0 then '-' else '+') :: digits ∧
      AsciiDigits digits ∧ digits ≠ [] ∧ digitsValue digits = e.natAbs := by
  refine ⟨zeroDigits (2 - (decimalDigits e.natAbs).length) ++ decimalDigits e.natAbs, rfl, ?_, ?_, ?_⟩
  · exact asciiDigits_append.mpr ⟨asciiDigits_zeroDigits _, asciiDigits_decimalDigits _⟩
  · exact List.append_ne_nil_of_right_ne_nil _ (decimalDigits_ne_nil _)
  · rw [digitsValue_zeros_append _ (allDigits_decimalDigits _), digitsValue_decimalDigits]

/-- So are digits with an exponent. -/
theorem exists_exponential (negative : Bool) {c : Char} {r : List Char}
    (hs : AsciiDigits (c :: r)) (hc : c ≠ '0') (e : Int) :
    ∃ n : Numeral, n.Spells negative (exponential (c :: r) e)
      (digitsValue (c :: r) * 10 ^ (e + 1 - (c :: r).length)) := by
  obtain ⟨digits, hmark, hexponent, hdigits, hvalue⟩ := exists_exponentMark e
  have hpower : ∀ fraction,
      Numeral.power ⟨negative, [c], fraction, some (decide (e < 0), digits)⟩ = e := by
    intro fraction
    by_cases he : e < 0
    · rw [decide_eq_true he]
      change -((digitsValue digits : Nat) : Int) = e
      omega
    · rw [decide_eq_false he]
      change ((digitsValue digits : Nat) : Int) = e
      omega
  have hfraction : (if r = [] then none else some r).getD [] = r := by
    split
    · rename_i hr
      exact hr.symm
    · rfl
  refine ⟨⟨negative, [c], if r = [] then none else some r, some (decide (e < 0), digits)⟩,
    ⟨fun d hd => hs d (List.mem_of_mem_head? ?_), by simp, ?_, ?_, ?_⟩, rfl, Or.inr (by simp),
    ?_, ?_⟩
  · rw [List.mem_singleton.mp hd]
    rfl
  · exact fun h => absurd (Option.some.inj h) hc
  · intro d hd
    split at hd
    · exact absurd hd (by simp)
    · rename_i hr
      obtain rfl := Option.some.inj hd
      exact ⟨fun d hd => hs d (List.mem_cons_of_mem c hd), hr⟩
  · rintro _ ⟨⟩
    exact ⟨hexponent, hdigits⟩
  · cases r <;> simp [Numeral.text, Numeral.fractionText, Numeral.exponentText, exponential, hmark]
  · unfold Numeral.value Numeral.mantissa
    rw [hpower]
    dsimp only
    rw [hfraction, List.singleton_append, List.length_cons]
    congr 2
    push_cast
    ring

/-- A finite double is written as a numeral that is read as the double. -/
theorem exists_writeFloat {x : Float} (hx : x.isFinite = true) :
    ∃ n : Numeral, n.Proper ∧ n.text = writeFloat x ∧ n.token = .value (.float x) := by
  obtain ⟨b, hb⟩ := exists_binary hx
  have hf := fits_of_ofFloat? hb
  have hfields := eq_ofFields hb
  have hzero : AsciiDigits ['0'] := asciiDigits_zeroDigits 1
  unfold writeFloat shown
  rw [if_pos hx, hb]
  dsimp only
  by_cases hm : b.mantissa = 0
  · rw [if_pos hm]
    refine ⟨⟨b.negative, ['0'], some ['0'], none⟩,
      ⟨hzero, by simp, fun _ => rfl, ?_, by simp⟩, rfl, ?_⟩
    · rintro _ ⟨⟩
      exact ⟨hzero, by simp⟩
    · have hq : b.exponent = -1074 := hf.full.resolve_left (by rw [hm]; decide)
      rw [token_float (Or.inl (by simp)), hfields, hm, hq]
      cases b.negative <;> rfl
  · rw [if_neg hm]
    have hpos := Nat.pos_of_ne_zero hm
    have hwithin := within_shortest (q := b.exponent) hpos
    obtain ⟨c, r, hs, hascii, hc, hvalue⟩ := exists_places (digits_shortest_pos hpos b.exponent)
    rw [hvalue] at hwithin
    generalize (shortest b.mantissa b.exponent).places = places at hs hwithin ⊢
    obtain ⟨s, point⟩ := places
    obtain rfl : s = c :: r := hs
    dsimp only at hwithin ⊢
    split
    · obtain ⟨n, hn⟩ := exists_positional b.negative hascii hc point
      refine ⟨n, hn.proper, hn.text, ?_⟩
      rw [token_of_within hn.float hpos hf (hn.value ▸ hwithin), hn.sign, ← hfields]
    · obtain ⟨n, hn⟩ := exists_exponential b.negative hascii hc (point - 1)
      have hvalue := hn.value
      rw [sub_add_cancel] at hvalue
      refine ⟨n, hn.proper, hn.text, ?_⟩
      rw [token_of_within hn.float hpos hf (hvalue ▸ hwithin), hn.sign, ← hfields]

end Writing

end Reckoner.Json
