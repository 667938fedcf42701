import Reckoner.Proofs.Number.Numeral
import Reckoner.Proofs.Text.Classes

/-!
Plain numbers as data reads them: a numeral, or a minus sign and a numeral. Digits of other scripts
are turned into ASCII digits of the same value first. The sign of a rounded number changes its sign
bit only, so a negated numeral is read as the negative of what the numeral is read as.
-/
namespace Reckoner.Number

open Text

section Sign

variable {num den : Nat}

/-- Every code below the infinities is that of a mantissa and an exponent. -/
theorem exists_encoded {n : Nat} (h : n < 2047 * 2 ^ 52) : ∃ m q, Fits m q ∧ encoded m q = n := by
  unfold encoded
  by_cases hfield : n / 2 ^ 52 = 0
  · exact ⟨n, -1074, ⟨by omega, by omega, by omega, Or.inr rfl⟩, by omega⟩
  · refine ⟨n % 2 ^ 52 + 2 ^ 52, ((n / 2 ^ 52 : Nat) : Int) - 1075,
      ⟨by omega, by omega, by omega, Or.inl (by omega)⟩, by omega⟩

/-- A rounded number is finite for both signs, with the same parts, or for none. -/
theorem nearest_cases (num den : Nat) :
    (∃ m q, Fits m q ∧ ∀ negative, nearest negative num den = ofFields negative m q) ∨
      ∀ negative, (nearest negative num den).isFinite = false := by
  by_cases hnum : num = 0
  · refine Or.inl ⟨0, -1074, ⟨by decide, by decide, by decide, Or.inr rfl⟩, fun negative => ?_⟩
    unfold nearest
    rw [if_pos hnum]
    rfl
  · generalize hbits : (max (binaryOrder num den - 52) (-1074) + 1074).toNat * twoTo 52 +
      roundQuotient (num * twoTo (-max (binaryOrder num den - 52) (-1074)).toNat)
        (den * twoTo (max (binaryOrder num den - 52) (-1074)).toNat) = bits
    have hnearest : ∀ negative : Bool, nearest negative num den =
        Float.ofBits
          (UInt64.ofNat ((if negative then 2 ^ 63 else 0) + min bits (2047 * 2 ^ 52))) := by
      intro negative
      unfold nearest
      dsimp only
      rw [if_neg hnum, hbits]
      rfl
    by_cases hlt : bits < 2047 * 2 ^ 52
    · obtain ⟨m, q, hf, hencoded⟩ := exists_encoded hlt
      refine Or.inl ⟨m, q, hf, fun negative => ?_⟩
      rw [hnearest, Nat.min_eq_left hlt.le, ← hencoded]
      rfl
    · refine Or.inr fun negative => ?_
      rw [hnearest, Nat.min_eq_right (by omega)]
      cases negative <;> rfl

theorem neg_nearest (h : (nearest true num den).isFinite = true) :
    (nearest false num den).isFinite = true ∧ -(nearest false num den) = nearest true num den := by
  rcases nearest_cases num den with ⟨m, q, hf, hboth⟩ | hnone
  · have hfields := ofFloat?_ofFields false hf
    have hneg := neg_eq_ofFields hfields
    rw [Bool.not_false] at hneg
    rw [hboth, hboth]
    exact ⟨isFinite_of_ofFloat? hfields, hneg⟩
  · rw [hnone] at h
    exact absurd h Bool.false_ne_true

theorem nearestDecimal_eq (m : Nat) (e : Int) :
    ∃ num den, ∀ negative, nearestDecimal negative m e = nearest negative num den := by
  unfold nearestDecimal
  dsimp only
  split
  · exact ⟨_, _, fun _ => rfl⟩
  · split
    · exact ⟨_, _, fun _ => rfl⟩
    · exact ⟨_, _, fun _ => rfl⟩

/-- A negated decimal is rounded to the negative of what the decimal is rounded to. -/
theorem neg_nearestDecimal {m : Nat} {e : Int} (h : (nearestDecimal true m e).isFinite = true) :
    (nearestDecimal false m e).isFinite = true ∧
      -(nearestDecimal false m e) = nearestDecimal true m e := by
  obtain ⟨num, den, hsame⟩ := nearestDecimal_eq m e
  rw [hsame] at h
  rw [hsame, hsame]
  exact neg_nearest h

end Sign

section Ascii

variable {c : Char} {s : List Char}

/-- The ASCII digits. -/
def asciiDigitList : List Char := ['0', '1', '2', '3', '4', '5', '6', '7', '8', '9']

theorem asciiDigit_mem {d : Nat} (h : d < 10) : Char.ofNat (48 + d) ∈ asciiDigitList := by
  have hall : ∀ d ∈ List.range 10, Char.ofNat (48 + d) ∈ asciiDigitList := by decide
  exact hall d (List.mem_range.mpr h)

theorem digitValue?_ofNat {d : Nat} (h : d < 10) : digitValue? (Char.ofNat (48 + d)) = some d := by
  have hall : ∀ d ∈ List.range 10, digitValue? (Char.ofNat (48 + d)) = some d := by decide
  exact hall d (List.mem_range.mpr h)

theorem mem_asciiDigits (hs : AllDigits s) (h : c ∈ asciiDigits s) : c ∈ asciiDigitList := by
  obtain ⟨e, he, rfl⟩ := List.mem_map.mp h
  obtain ⟨d, hd⟩ := Option.isSome_iff_exists.mp (hs e he)
  rw [hd]
  exact asciiDigit_mem (digitValue?_lt hd)

theorem isDigit_of_mem_asciiDigitList (h : c ∈ asciiDigitList) : isDigit c = true := by
  have hall : ∀ d ∈ asciiDigitList, isDigit d = true :=
    List.all_iff_forall_prop.mp (by decide)
  exact hall c h

/-- Turning digits into ASCII digits keeps their value. -/
theorem digitsValue_asciiDigits (hs : AllDigits s) :
    digitsValue (asciiDigits s) = digitsValue s := by
  unfold digitsValue
  congr 1
  induction s with
  | nil => rfl
  | cons c s ih =>
    obtain ⟨d, hd⟩ := Option.isSome_iff_exists.mp (hs c List.mem_cons_self)
    have htail := ih fun e he => hs e (List.mem_cons_of_mem c he)
    unfold asciiDigits at htail ⊢
    rw [List.map_cons, hd, List.filterMap_cons_some (digitValue?_ofNat (digitValue?_lt hd)),
      List.filterMap_cons_some hd, htail]

theorem asciiDigits_append (s t : List Char) :
    asciiDigits (s ++ t) = asciiDigits s ++ asciiDigits t := List.map_append

theorem asciiDigits_ne_nil (h : s ≠ []) : asciiDigits s ≠ [] := fun h' =>
  h (List.map_eq_nil_iff.mp h')

theorem allDigits_asciiDigits (hs : AllDigits s) : AllDigits (asciiDigits s) := fun _ hc =>
  isDigit_of_mem_asciiDigitList (mem_asciiDigits hs hc)

/-- A numeral in ASCII digits. -/
theorem exists_ascii (n : Numeral) :
    ∃ m : Numeral, m.text = asciiDigits n.text ∧ m.mantissa = n.mantissa ∧ m.places = n.places ∧
      ∀ c ∈ m.text, c ∈ '.' :: asciiDigitList := by
  obtain ⟨whole, fraction, hw, hf, hne⟩ := n
  cases fraction with
  | none =>
    rw [Option.getD_none, List.append_nil] at hne
    have hvalue := digitsValue_asciiDigits hw
    refine ⟨.ofDigits (asciiDigits whole) (allDigits_asciiDigits hw) (asciiDigits_ne_nil hne),
      rfl, ?_, rfl, fun c hc => List.mem_cons_of_mem _ (mem_asciiDigits hw hc)⟩
    unfold Numeral.mantissa Numeral.ofDigits
    rw [Option.getD_none, List.append_nil, List.append_nil, hvalue]
  | some f =>
    have hf' : AllDigits f := hf
    have hvalue := digitsValue_asciiDigits (hw.append hf')
    rw [asciiDigits_append] at hvalue
    have hne' : asciiDigits whole ++ asciiDigits f ≠ [] := by
      rw [← asciiDigits_append]
      exact asciiDigits_ne_nil hne
    refine ⟨.ofParts (asciiDigits whole) (asciiDigits f) (allDigits_asciiDigits hw)
      (allDigits_asciiDigits hf') hne', ?_, hvalue, List.length_map _, fun c hc => ?_⟩
    · unfold Numeral.text
      rw [asciiDigits_append]
      rfl
    · rcases List.mem_append.mp hc with hc | hc
      · exact List.mem_cons_of_mem _ (mem_asciiDigits hw hc)
      · rcases List.mem_cons.mp hc with rfl | hc
        · exact List.mem_cons_self
        · exact List.mem_cons_of_mem _ (mem_asciiDigits hf' hc)

end Ascii

section Reading

variable {s : List Char}

theorem dropUnderscores_eq (h : ∀ c ∈ s, c ≠ '_') (after : Bool) :
    dropUnderscores after s = some s := by
  induction s generalizing after with
  | nil => rfl
  | cons c s ih =>
    have hc := h c List.mem_cons_self
    unfold dropUnderscores
    split
    · rename_i heq
      exact absurd heq (by simp)
    · rename_i heq
      exact absurd (List.cons.inj heq).1 hc
    · rename_i heq
      obtain ⟨rfl, rfl⟩ := List.cons.inj heq
      rw [ih (fun d hd => h d (List.mem_cons_of_mem c hd))]
      rfl

/-- Text in ASCII digits and points is no word for a number. -/
theorem asciiLower_ne {word : List Char} (hword : 'n' ∈ word)
    (h : ∀ c ∈ s, c ∈ '.' :: asciiDigitList) : (asciiLower s == word) = false := by
  have hall : ∀ d ∈ '.' :: asciiDigitList, d.toLower ≠ 'n' :=
    List.all_iff_forall_prop.mp (by decide)
  rw [Bool.eq_false_iff]
  intro heq
  rw [beq_iff_eq] at heq
  rw [← heq] at hword
  obtain ⟨d, hd, hlower⟩ := List.mem_map.mp hword
  exact hall d (h d hd) hlower

theorem trimMargins_eq (h : ∀ c ∈ s, isBlank c = false) : trimMargins s = s := by
  have hmargin : ∀ c ∈ s, isMargin c = false := fun c hc => by
    unfold isMargin
    rw [h c hc, Bool.false_and]
  unfold trimMargins
  rw [dropWhile_of_head fun c hc => hmargin c (List.mem_of_mem_head? hc), dropWhile_of_head,
    List.reverse_reverse]
  intro c hc
  exact hmargin c (List.mem_reverse.mp (List.mem_of_mem_head? hc))

theorem readFloat_of_split {negative : Bool} {n : Numeral}
    (hchars : ∀ c ∈ n.text, c ∈ '.' :: asciiDigitList)
    (h : splitSign (asciiDigits (trimMargins s)) = (negative, n.text)) :
    readFloat s = some (nearestDecimal negative n.mantissa (-(n.places : Int))) := by
  have hunderscore : ∀ c ∈ n.text, c ≠ '_' := by
    have hall : ∀ c ∈ '.' :: asciiDigitList, c ≠ '_' :=
      List.all_iff_forall_prop.mp (by decide)
    exact fun c hc => hall c (hchars c hc)
  unfold readFloat
  rw [h]
  dsimp only
  rw [asciiLower_ne (by decide) hchars, asciiLower_ne (by decide) hchars,
    asciiLower_ne (by decide) hchars, dropUnderscores_eq hunderscore]
  exact readDecimal_text n negative

theorem splitSign_eq (h : ∀ c ∈ s, c ∈ '.' :: asciiDigitList) : splitSign s = (false, s) := by
  have hall : ∀ c ∈ '.' :: asciiDigitList, c ≠ '-' ∧ c ≠ '+' :=
    List.all_iff_forall_prop.mp (by decide)
  unfold splitSign
  split
  · exact absurd rfl (hall _ (h _ List.mem_cons_self)).1
  · exact absurd rfl (hall _ (h _ List.mem_cons_self)).2
  · rfl

theorem isBlank_numeral (n : Numeral) : ∀ c ∈ n.text, isBlank c = false := by
  intro c hc
  rcases mem_numeral_text hc with hdigit | rfl
  · exact isBlank_of_isWord (isWord_of_isDigit hdigit)
  · decide

/-- Data reads a numeral, and a negated numeral, as the double nearest to it. -/
theorem readFloat_text (n : Numeral) :
    readFloat n.text = some (nearestDecimal false n.mantissa (-(n.places : Int))) := by
  obtain ⟨m, htext, hmantissa, hplaces, hchars⟩ := exists_ascii n
  rw [← hmantissa, ← hplaces]
  refine readFloat_of_split hchars ?_
  rw [trimMargins_eq (isBlank_numeral n), ← htext]
  exact splitSign_eq hchars

theorem readFloat_neg (n : Numeral) :
    readFloat ('-' :: n.text) = some (nearestDecimal true n.mantissa (-(n.places : Int))) := by
  obtain ⟨m, htext, hmantissa, hplaces, hchars⟩ := exists_ascii n
  rw [← hmantissa, ← hplaces]
  refine readFloat_of_split hchars ?_
  have hblank : ∀ c ∈ '-' :: n.text, isBlank c = false :=
    List.forall_mem_cons.mpr ⟨by decide, isBlank_numeral n⟩
  rw [trimMargins_eq hblank, htext]
  rfl

end Reading

end Reckoner.Number
