import Reckoner.Proofs.Formula.Letters

/-!
What is not reported as a fault of an expression. An evaluation breaks down at a line reference with
more digits than can be read and at a call of `round` whose power of ten is too small for a double;
everything else that can go wrong is a fault. Evaluations that break down are described here without
their results: which reference or which call is met first.
-/
namespace Reckoner.Formula

open Text Number Arith

section Outcome

variable {ε α β : Type} {b : Breakdown}

/-- A fault is no breakdown. -/
theorem asFailure_ne_breakdown (r : Except Fault α) : asFailure r ≠ .error (.breakdown b) := by
  cases r <;> simp [asFailure]

theorem asFailure_eq_ok {r : Except Fault α} {a : α} : asFailure r = .ok a ↔ r = .ok a := by
  cases r <;> simp [asFailure]

theorem asBreakdown_eq_error {r : Except Breakdown α} :
    asBreakdown r = .error (.breakdown b) ↔ r = .error b := by
  cases r <;> simp [asBreakdown]

end Outcome

section References

variable {scope : Scope} {s : List Char} {b : Breakdown}

/-- The digits of the line references of a text. -/
def references : List Char → List (List Char)
  | [] => []
  | c :: r =>
    let digits := r.takeWhile isDigit
    if c = '@' ∧ digits ≠ [] then digits :: references r else references r

/-- The first line reference of a text that has too many digits. -/
def overlong? (s : List Char) : Option (List Char) :=
  (references s).find? fun digits => digitLimit < digits.length

theorem mem_of_overlong? {digits : List Char} (h : overlong? s = some digits) : '@' ∈ s := by
  have hmem : digits ∈ references s := List.mem_of_find?_eq_some h
  clear h
  induction s with
  | nil => exact absurd hmem List.not_mem_nil
  | cons c r ih =>
    unfold references at hmem
    dsimp only at hmem
    split at hmem
    · rename_i hc
      exact hc.1 ▸ List.mem_cons_self
    · exact List.mem_cons_of_mem c (ih hmem)

theorem length_of_overlong? {digits : List Char} (h : overlong? s = some digits) :
    digitLimit < digits.length := by
  have hlong := List.find?_some (p := fun d : List Char => decide (digitLimit < d.length)) h
  exact of_decide_eq_true hlong

theorem literal_ne_error {x : Float} (h : x.isFinite = true) : literal x ≠ .error b := by
  rw [literal_eq_ofValue h]
  simp

/-- A scope whose values are finite. -/
structure Scope.Finite (scope : Scope) : Prop where
  named : ∀ e ∈ scope.named, e.2.isFinite = true
  lines : ∀ e ∈ scope.lines, e.2.isFinite = true

theorem Scope.Regular.finite (h : scope.Regular) : scope.Finite := ⟨h.named_finite, h.lines_finite⟩

theorem Scope.Finite.lineLiteral_eq_error (h : scope.Finite) {digits : List Char} :
    scope.lineLiteral digits = .error b ↔
      digitLimit < digits.length ∧ b = .tooManyDigits digits.length := by
  unfold Scope.lineLiteral
  split
  · rename_i hlong
    exact ⟨fun hb => ⟨hlong, (Except.error.inj hb).symm⟩, fun hb => hb.2 ▸ rfl⟩
  · rename_i hshort
    refine ⟨fun hb => ?_, fun hb => absurd hb.1 hshort⟩
    split at hb
    · rename_i x heq
      exact absurd hb (literal_ne_error (h.lines (_, x) (Assoc.mem_of_get? heq)))
    · exact absurd hb (by simp)

/-- Line references cannot be replaced when one of them has too many digits. -/
theorem Scope.Finite.substituteLines_eq_error (h : scope.Finite) {within : Bool} :
    scope.substituteLines within s = .error b ↔
      ∃ digits, overlong? s = some digits ∧ b = .tooManyDigits digits.length := by
  induction s generalizing within with
  | nil =>
    refine ⟨fun hb => absurd hb (by simp [Scope.substituteLines]), ?_⟩
    rintro ⟨_, hb, _⟩
    exact absurd hb (by simp [overlong?, references])
  | cons c r ih =>
    unfold Scope.substituteLines overlong? references
    dsimp only
    split
    · rename_i hdigit
      have hc : ¬ (c = '@' ∧ r.takeWhile isDigit ≠ []) := by
        rintro ⟨rfl, _⟩
        exact absurd (Bool.and_eq_true _ _ ▸ hdigit).2 (by decide)
      rw [if_neg hc]
      exact ih
    · split
      · rw [List.find?_cons]
        change Except.bind _ _ = _ ↔ _
        rw [bind_eq_error, h.lineLiteral_eq_error]
        split
        · rename_i hlong
          have hlong := of_decide_eq_true hlong
          refine ⟨?_, ?_⟩
          · rintro (⟨_, rfl⟩ | ⟨value, hvalue, _⟩)
            · exact ⟨_, rfl, rfl⟩
            · unfold Scope.lineLiteral at hvalue
              rw [if_pos hlong] at hvalue
              exact absurd hvalue (by simp)
          · rintro ⟨digits, hdigits, rfl⟩
            obtain rfl := Option.some.inj hdigits
            exact Or.inl ⟨hlong, rfl⟩
        · rename_i hshort
          have hshort := of_decide_eq_false hshort
          refine ⟨?_, fun hb => ?_⟩
          · rintro (⟨hlong, _⟩ | ⟨value, _, hb⟩)
            · exact absurd hlong hshort
            · exact ih.mp (bind_ok_eq_error.mp hb)
          · cases hvalue : scope.lineLiteral (r.takeWhile isDigit) with
            | error e => exact absurd (h.lineLiteral_eq_error.mp hvalue).1 hshort
            | ok value => exact Or.inr ⟨value, rfl, bind_ok_eq_error.mpr (ih.mpr hb)⟩
      · exact bind_ok_eq_error.trans ih

/-- Names with finite values can be replaced. -/
theorem substituteNames_ne_error (h : ∀ e ∈ scope.named, e.2.isFinite = true)
    (names : List (List Char)) (last : Option Char) (skip : Nat) :
    scope.substituteNames names last skip s ≠ .error b := by
  have hliteral : ∀ n, scope.nameLiteral n ≠ .error b := fun n =>
    literal_ne_error (Scope.named_getD_finite h n)
  induction s generalizing last skip with
  | nil =>
    unfold Scope.substituteNames
    split
    · exact hliteral []
    · simp
  | cons c r ih =>
    intro hb
    unfold Scope.substituteNames at hb
    split at hb
    · exact ih _ _ hb
    · split at hb
      · exact ih _ _ (bind_ok_eq_error.mp hb)
      · rcases bind_eq_error.mp hb with hb | ⟨_, _, hb⟩
        · exact hliteral [] hb
        · exact ih _ _ (bind_ok_eq_error.mp hb)
      · rcases bind_eq_error.mp hb with hb | ⟨_, _, hb⟩
        · exact hliteral _ hb
        · exact ih _ _ (bind_ok_eq_error.mp hb)

/-- A text can be prepared unless one of its line references has too many digits. -/
theorem prepare_eq_error (h : scope.Finite) :
    prepare scope s = .error (.breakdown b) ↔
      ∃ digits, overlong? s = some digits ∧ b = .tooManyDigits digits.length := by
  have hsubstitute : scope.substitute s = .error b ↔ scope.substituteLines false s = .error b := by
    refine bind_eq_error.trans ⟨?_, Or.inl⟩
    rintro (hb | ⟨_, _, hb⟩)
    · exact hb
    · exact absurd hb (substituteNames_ne_error h.named _ _ _)
  exact bind_ok_eq_error.trans <|
    asBreakdown_eq_error.trans (hsubstitute.trans h.substituteLines_eq_error)

end References

section Functions

namespace Builtin

variable {x d : Float}

/-- Numbers of places for which the power of ten is too small for a double. -/
def VanishingPower (d : Float) : Prop :=
  ∃ places factor, whole Binary.truncation d = .ok places ∧ powerOfTen places = .ok factor ∧
    (factor == 0) = true

theorem whole_ne_zeroFactor (rule : Binary → Int) (x : Float) :
    whole rule x ≠ .error .zeroFactor := by
  unfold whole
  split
  · simp
  · split <;> simp

theorem powerOfTen_ne_zeroFactor (places : Int) : powerOfTen places ≠ .error .zeroFactor := by
  unfold powerOfTen
  dsimp only
  split <;> simp

/-- A value that is multiplied by zero before it is rounded to a whole number has one. -/
theorem whole_of_zero {factor : Float} (hx : x.isFinite = true) (hfactor : (factor == 0) = true) :
    ∃ n, whole Binary.floor (x * factor + 0.5) = .ok n := by
  have hzero : IsZero (x * factor) := by
    obtain ⟨s, hs⟩ := (isZero_iff_beq_zero factor).mpr hfactor
    rw [isFinite_eq] at hx
    rw [mul_eq, hs]
    cases hparts : parts x with
    | zero r => exact ⟨_, parts_ofParts_zero _⟩
    | finite r m e hm => exact ⟨_, parts_ofParts_zero _⟩
    | infinity r =>
      rw [hparts] at hx
      exact absurd hx Bool.false_ne_true
    | notANumber =>
      rw [hparts] at hx
      exact absurd hx Bool.false_ne_true
  have hhalf : Alike (x * factor + 0.5) (0 + 0.5) :=
    Alike.add (Or.inr ⟨hzero, isZero_zero⟩) (Alike.refl 0.5)
  have hfinite : (x * factor + 0.5).isFinite = true := by
    rw [hhalf.isFinite]
    decide +kernel
  obtain ⟨b, hb⟩ := exists_binary hfinite
  exact ⟨Binary.floor b, by rw [whole, hb]⟩

/-- Rounding divides by zero exactly when the power of ten vanishes. -/
theorem roundTo_eq_zeroFactor (hx : x.isFinite = true) :
    roundTo x d = .error .zeroFactor ↔ VanishingPower d := by
  refine bind_eq_error.trans ⟨?_, ?_⟩
  · rintro (h | ⟨places, hplaces, h⟩)
    · exact absurd h (whole_ne_zeroFactor _ _)
    rcases bind_eq_error.mp h with h | ⟨factor, hfactor, h⟩
    · exact absurd h (powerOfTen_ne_zeroFactor _)
    rcases bind_eq_error.mp h with h | ⟨n, _, h⟩
    · exact absurd h (whole_ne_zeroFactor _ _)
    split at h
    · rename_i hzero
      exact ⟨places, factor, hplaces, hfactor, hzero⟩
    · exact absurd h (by simp)
  · rintro ⟨places, factor, hplaces, hfactor, hzero⟩
    obtain ⟨n, hn⟩ := whole_of_zero hx hzero
    refine Or.inr ⟨places, hplaces, ?_⟩
    refine bind_eq_error.mpr (Or.inr ⟨factor, hfactor, ?_⟩)
    exact bind_eq_error.mpr (Or.inr ⟨n, hn, if_pos hzero⟩)

theorem whole_zero : whole Binary.truncation 0 = .ok 0 := by
  obtain ⟨s, hs⟩ := ofFloat?_of_isZero isZero_zero
  rw [whole, hs]
  exact congrArg Except.ok (truncation_zero s)

theorem powerOfTen_zero : powerOfTen 0 = .ok 1 := by
  have hraised : raised 10 (ofInt 0) = 1 := if_pos (by decide +kernel)
  rw [powerOfTen, hraised]
  exact if_pos (by decide +kernel)

theorem not_vanishingPower_zero : ¬ VanishingPower 0 := by
  rintro ⟨places, factor, hplaces, hfactor, hzero⟩
  obtain rfl := Except.ok.inj (whole_zero.symm.trans hplaces)
  obtain rfl := Except.ok.inj (powerOfTen_zero.symm.trans hfactor)
  exact absurd hzero (by decide +kernel)

theorem round_eq_zeroFactor {xs : List Float} (h : ∀ x ∈ xs, x.isFinite = true) :
    round xs = .error .zeroFactor ↔ ∃ x d, xs = [x, d] ∧ VanishingPower d := by
  unfold round
  split
  · rename_i x
    rw [roundTo_eq_zeroFactor (h x List.mem_cons_self)]
    refine ⟨fun hzero => absurd hzero not_vanishingPower_zero, ?_⟩
    rintro ⟨_, _, hxs, _⟩
    exact absurd (congrArg List.length hxs) (by simp)
  · rename_i x d
    rw [roundTo_eq_zeroFactor (h x List.mem_cons_self)]
    refine ⟨fun hd => ⟨x, d, rfl, hd⟩, ?_⟩
    rintro ⟨_, _, hxs, hd⟩
    obtain ⟨_, hxs⟩ := List.cons.inj hxs
    exact (List.cons.inj hxs).1 ▸ hd
  · rename_i hne
    refine ⟨fun h => absurd h (by simp), ?_⟩
    rintro ⟨x, d, rfl, _⟩
    exact absurd rfl (hne x d)

theorem total_ne_zeroFactor (xs : List Float) : total xs ≠ .error .zeroFactor := by
  unfold total ofOption
  split <;> simp

theorem raise_ne_zeroFactor (x y : Float) : raise x y ≠ .error .zeroFactor := by
  unfold raise
  dsimp only
  split
  · simp
  · split <;> simp

theorem pow_ne_zeroFactor (xs : List Float) : pow xs ≠ .error .zeroFactor := by
  unfold pow
  split
  · exact raise_ne_zeroFactor _ _
  · exact raise_ne_zeroFactor _ _
  · simp

theorem average_ne_zeroFactor (xs : List Float) : average xs ≠ .error .zeroFactor :=
  fun h => total_ne_zeroFactor xs (bind_ok_eq_error.mp h)

theorem choose_ne_zeroFactor (pick : Float → Float → Float) (xs : List Float) :
    choose pick xs ≠ .error .zeroFactor := by
  cases xs <;> simp [choose]

theorem unary_ne_zeroFactor {f : Float → Result} (h : ∀ x, f x ≠ .error .zeroFactor)
    (xs : List Float) : unary f xs ≠ .error .zeroFactor := by
  unfold unary
  split
  · exact h _
  · simp

theorem squareRoot_ne_zeroFactor (x : Float) : squareRoot x ≠ .error .zeroFactor := by
  unfold squareRoot
  split <;> simp

theorem logarithm_ne_zeroFactor (f : Float → Float) (x : Float) :
    logarithm f x ≠ .error .zeroFactor := by
  unfold logarithm
  split <;> simp

/-- Of the functions that every expression may call only `round` divides by a power of ten. -/
theorem zeroFactor_table : ∀ e ∈ table,
    (e.2.name = "round".toList ∧ e.2.apply = round) ∨
      (e.2.name ≠ "round".toList ∧ ∀ xs, e.2.apply xs ≠ .error .zeroFactor) := by
  refine FunctionTable.forall_builtin (P := fun f => (f.name = "round".toList ∧ f.apply = round) ∨
    (f.name ≠ "round".toList ∧ ∀ xs, f.apply xs ≠ .error .zeroFactor)) ?_ ?_ ?_
  · intro name least most summary hname apply happly
    refine Or.inr ⟨hname, ?_⟩
    simp only [List.mem_cons, List.not_mem_nil, or_false] at happly
    rcases happly with rfl | rfl | rfl | rfl | rfl
    · exact total_ne_zeroFactor
    · exact average_ne_zeroFactor
    · exact choose_ne_zeroFactor smaller
    · exact choose_ne_zeroFactor larger
    · exact pow_ne_zeroFactor
  · intro least most summary
    exact Or.inl ⟨rfl, rfl⟩
  · intro name least most summary hname f hf
    refine Or.inr ⟨hname, unary_ne_zeroFactor ?_⟩
    simp only [List.mem_cons, List.not_mem_nil, or_false] at hf
    rcases hf with rfl | rfl | rfl | rfl | rfl | rfl | rfl | rfl | rfl
    · exact squareRoot_ne_zeroFactor
    · exact fun _ => by simp
    · exact fun x h => whole_ne_zeroFactor _ x (bind_ok_eq_error.mp h)
    · exact fun x h => whole_ne_zeroFactor _ x (bind_ok_eq_error.mp h)
    · exact fun _ => by simp
    · exact fun _ => by simp
    · exact fun _ => by simp
    · exact logarithm_ne_zeroFactor Float.log10
    · exact logarithm_ne_zeroFactor Float.log

theorem apply_eq_zeroFactor {name : List Char} {f : Function} {xs : List Float}
    (hf : table.find name = .ok f) (h : ∀ x ∈ xs, x.isFinite = true) :
    f.apply xs = .error .zeroFactor ↔
      f.name = "round".toList ∧ ∃ x d, xs = [x, d] ∧ VanishingPower d := by
  have hmem : (lower name, f) ∈ table := by
    unfold FunctionTable.find FunctionTable.find? at hf
    split at hf
    · rename_i heq
      obtain rfl := Except.ok.inj hf
      exact Assoc.mem_of_get? heq
    · exact absurd hf (by simp)
  rcases zeroFactor_table _ hmem with ⟨hname, happly⟩ | ⟨hname, happly⟩
  · dsimp only at hname happly
    rw [happly, round_eq_zeroFactor h]
    exact ⟨fun hd => ⟨hname, hd⟩, fun hd => hd.2⟩
  · exact ⟨fun hzero => absurd hzero (happly xs), fun hd => absurd hd.1 hname⟩

end Builtin

end Functions

section Calls

variable {table : FunctionTable} {resolve : Resolver} {s : List Char} {b : Breakdown}

theorem settleResult_eq_breakdown {f : List Char} {r : Except Mishap Float} :
    settleResult f r = .error (.breakdown b) ↔ r = .error .zeroFactor ∧ b = .zeroFactor := by
  unfold settleResult
  split
  · split <;> simp [Failure.of]
  · simp [Failure.of]
  · simp [Failure.of]
  · exact ⟨fun h => ⟨rfl, (Failure.breakdown.inj (Except.error.inj h)).symm⟩, fun h => h.2 ▸ rfl⟩

/-- The arguments of a call break down at the first one that does. -/
theorem resolveArguments_eq_breakdown {f : List Char} {arguments : List (List Char)} :
    resolveArguments f resolve arguments = .error (.breakdown b) ↔
      ∃ front a rest xs, arguments = front ++ a :: rest ∧
        resolveArguments f resolve front = .ok xs ∧
        resolveArgument f resolve a = .error (.breakdown b) := by
  induction arguments with
  | nil =>
    refine ⟨fun h => absurd h (by simp [resolveArguments]), ?_⟩
    rintro ⟨front, a, rest, _, h, _⟩
    exact absurd h (by simp)
  | cons first others ih =>
    refine bind_eq_error.trans ⟨?_, ?_⟩
    · rintro (h | ⟨x, hx, h⟩)
      · exact ⟨[], first, others, [], rfl, rfl, h⟩
      · obtain ⟨front, a, rest, xs, rfl, hxs, ha⟩ := ih.mp (bind_ok_eq_error.mp h)
        refine ⟨first :: front, a, rest, x :: xs, rfl, ?_, ha⟩
        rw [resolveArguments, hx, hxs]
        rfl
    · rintro ⟨front, a, rest, xs, h, hxs, ha⟩
      cases front with
      | nil =>
        obtain ⟨rfl, rfl⟩ := List.cons.inj h
        exact Or.inl ha
      | cons first' front =>
        obtain ⟨rfl, rfl⟩ := List.cons.inj h
        obtain ⟨x, hx, hxs⟩ := bind_eq_ok hxs
        obtain ⟨xs', hxs', _⟩ := bind_eq_ok hxs
        exact Or.inr ⟨x, hx, bind_ok_eq_error.mpr (ih.mpr ⟨front, a, rest, xs', rfl, hxs', ha⟩)⟩

theorem isFinite_of_resolveArgument (h : ∀ {s x}, resolve s = .ok x → x.isFinite = true)
    {f a : List Char} {x : Float} (hx : resolveArgument f resolve a = .ok x) :
    x.isFinite = true := by
  unfold resolveArgument at hx
  dsimp only at hx
  split at hx
  · exact absurd hx (by simp)
  · split at hx
    · rename_i heq
      obtain rfl := Except.ok.inj hx
      exact (Option.filter_eq_some_iff.mp heq).2
    · split at hx
      · exact absurd hx (by simp)
      · exact h hx

theorem isFinite_of_resolveArguments (h : ∀ {s x}, resolve s = .ok x → x.isFinite = true)
    {f : List Char} {arguments : List (List Char)} {xs : List Float}
    (hxs : resolveArguments f resolve arguments = .ok xs) : ∀ x ∈ xs, x.isFinite = true := by
  induction arguments generalizing xs with
  | nil =>
    obtain rfl := Except.ok.inj hxs
    exact fun _ hx => absurd hx List.not_mem_nil
  | cons a rest ih =>
    obtain ⟨x, hx, hxs⟩ := bind_eq_ok hxs
    obtain ⟨xs', hxs', hxs⟩ := bind_eq_ok hxs
    obtain rfl := Except.ok.inj hxs
    exact List.forall_mem_cons.mpr ⟨isFinite_of_resolveArgument h hx, ih hxs'⟩

/-- A call breaks down when an argument does, or when its function divides by a vanishing power of
ten. -/
theorem call_eq_breakdown (h : ∀ {s x}, resolve s = .ok x → x.isFinite = true) {name : List Char}
    {arguments : List (List Char)} :
    call Builtin.table resolve name arguments = .error (.breakdown b) ↔
      ∃ f, Builtin.table.find name = .ok f ∧ f.checkArity arguments.length = .ok () ∧
        (resolveArguments f.name resolve arguments = .error (.breakdown b) ∨
          b = .zeroFactor ∧ f.name = "round".toList ∧ ∃ x d,
            resolveArguments f.name resolve arguments = .ok [x, d] ∧
              Builtin.VanishingPower d) := by
  refine bind_eq_error.trans ⟨?_, ?_⟩
  · rintro (hb | ⟨f, hf, hb⟩)
    · exact absurd hb (asFailure_ne_breakdown _)
    rcases bind_eq_error.mp hb with hb | ⟨_, harity, hb⟩
    · exact absurd hb (asFailure_ne_breakdown _)
    refine ⟨f, asFailure_eq_ok.mp hf, asFailure_eq_ok.mp harity, ?_⟩
    rcases bind_eq_error.mp hb with hb | ⟨xs, hxs, hb⟩
    · exact Or.inl hb
    obtain ⟨hzero, hbreak⟩ := settleResult_eq_breakdown.mp hb
    obtain ⟨hname, x, d, rfl, hd⟩ := (Builtin.apply_eq_zeroFactor (asFailure_eq_ok.mp hf)
      (isFinite_of_resolveArguments h hxs)).mp hzero
    exact Or.inr ⟨hbreak, hname, x, d, hxs, hd⟩
  · rintro ⟨f, hf, harity, hb⟩
    refine Or.inr ⟨f, asFailure_eq_ok.mpr hf, ?_⟩
    refine bind_eq_error.mpr (Or.inr ⟨(), asFailure_eq_ok.mpr harity, ?_⟩)
    rcases hb with hb | ⟨rfl, hname, x, d, hxs, hd⟩
    · exact bind_eq_error.mpr (Or.inl hb)
    · have hzero := (Builtin.apply_eq_zeroFactor hf (isFinite_of_resolveArguments h hxs)).mpr
        ⟨hname, x, d, rfl, hd⟩
      exact bind_eq_error.mpr (Or.inr ⟨[x, d], hxs, settleResult_eq_breakdown.mpr ⟨hzero, rfl⟩⟩)

/-- Replacing calls breaks down at the last one that does. -/
theorem replaceCalls_eq_breakdown {calls : List Call} :
    replaceCalls table resolve s calls = .error (.breakdown b) ↔
      ∃ front c later t, calls = front ++ c :: later ∧
        replaceCalls table resolve s later = .ok t ∧
        call table resolve c.name (splitArguments c.arguments) = .error (.breakdown b) := by
  induction calls with
  | nil =>
    refine ⟨fun h => absurd h (by simp [replaceCalls]), ?_⟩
    rintro ⟨front, a, rest, _, h, _⟩
    exact absurd h (by simp)
  | cons first others ih =>
    refine bind_eq_error.trans ⟨?_, ?_⟩
    · rintro (h | ⟨t, ht, h⟩)
      · obtain ⟨front, c, later, u, rfl, hu, hc⟩ := ih.mp h
        exact ⟨first :: front, c, later, u, rfl, hu, hc⟩
      rcases bind_eq_error.mp h with h | ⟨x, hx, h⟩
      · exact ⟨[], first, others, t, rfl, ht, h⟩
      · have h := asBreakdown_eq_error.mp (bind_ok_eq_error.mp h)
        exact absurd h (literal_ne_error (call_isFinite hx))
    · rintro ⟨front, c, later, t, h, ht, hc⟩
      cases front with
      | nil =>
        obtain ⟨rfl, rfl⟩ := List.cons.inj h
        exact Or.inr ⟨t, ht, bind_eq_error.mpr (Or.inl hc)⟩
      | cons first' front =>
        obtain ⟨rfl, rfl⟩ := List.cons.inj h
        exact Or.inl (ih.mpr ⟨front, c, later, t, rfl, ht, hc⟩)

/-- That a call is evaluated when the calls of a text are replaced in a number of rounds: it is an
innermost one and the later ones have values, or it is met after a round. -/
inductive Reached (table : FunctionTable) (resolve : Resolver) : Nat → List Char → Call → Prop
  | now {left : Nat} {s t : List Char} {front later : List Call} {c : Call}
      (calls : innermostCalls s = .ok (front ++ c :: later))
      (replaced : replaceCalls table resolve s later = .ok t) :
      Reached table resolve (left + 1) s c
  | later {left : Nat} {s t : List Char} {calls : List Call} {c : Call}
      (calls_eq : innermostCalls s = .ok calls)
      (replaced : replaceCalls table resolve s calls = .ok t)
      (reached : Reached table resolve left t c) : Reached table resolve (left + 1) s c

/-- The arguments of a call that is evaluated have fewer letters than the text. -/
theorem Reached.letterCount_lt {left : Nat} {c : Call} (h : Reached table resolve left s c) :
    letterCount c.arguments < letterCount s := by
  induction h with
  | now hcalls _ => exact (mem_innermostCalls hcalls (by simp)).2
  | later hcalls hreplaced _ ih =>
    have hmem := fun c hc => (mem_innermostCalls hcalls (c := c) hc).1
    exact ih.trans_le (letterCount_replaceCalls hmem hreplaced)

theorem Reached.calls_ne_nil {left : Nat} {c : Call} (h : Reached table resolve left s c) :
    innermostCalls s ≠ .ok [] := by
  induction h with
  | now hcalls _ =>
    rw [hcalls]
    simp
  | later hcalls hreplaced _ ih =>
    intro hnil
    obtain rfl := Except.ok.inj (hcalls.symm.trans hnil)
    obtain rfl := Except.ok.inj hreplaced
    exact ih hnil

/-- Replacing the calls of a text breaks down when a call that is evaluated does. -/
theorem replaceRounds_eq_breakdown {bound : Int} {left : Nat} :
    replaceRounds table resolve bound left s = .error (.breakdown b) ↔
      ∃ c, Reached table resolve left s c ∧
        call table resolve c.name (splitArguments c.arguments) = .error (.breakdown b) := by
  induction left generalizing s with
  | zero =>
    unfold replaceRounds
    constructor
    · intro h
      rcases bind_eq_error.mp h with h | ⟨calls, _, h⟩
      · exact absurd h (asFailure_ne_breakdown _)
      · dsimp only at h
        split at h
        · exact absurd h (by simp [pure, Except.pure])
        · exact absurd h (by simp [Failure.within])
    · rintro ⟨_, h, _⟩
      cases h
  | succ left ih =>
    unfold replaceRounds
    refine bind_eq_error.trans ⟨?_, ?_⟩
    · rintro (h | ⟨calls, hcalls, h⟩)
      · exact absurd h (asFailure_ne_breakdown _)
      dsimp only at h
      split at h
      · exact absurd h (by simp [pure, Except.pure])
      rcases bind_eq_error.mp h with h | ⟨t, ht, h⟩
      · obtain ⟨front, c, later, u, rfl, hu, hc⟩ := replaceCalls_eq_breakdown.mp h
        exact ⟨c, .now (asFailure_eq_ok.mp hcalls) hu, hc⟩
      · obtain ⟨c, hreached, hc⟩ := ih.mp h
        exact ⟨c, .later (asFailure_eq_ok.mp hcalls) ht hreached, hc⟩
    · rintro ⟨c, hreached, hc⟩
      cases hreached with
      | @now _ _ t front later _ hcalls ht =>
        refine Or.inr ⟨_, asFailure_eq_ok.mpr hcalls, ?_⟩
        dsimp only
        rw [if_neg (by simp)]
        exact bind_eq_error.mpr <| Or.inl <|
          replaceCalls_eq_breakdown.mpr ⟨front, c, later, t, rfl, ht, hc⟩
      | @later _ _ t calls _ hcalls ht hreached =>
        refine Or.inr ⟨calls, asFailure_eq_ok.mpr hcalls, ?_⟩
        dsimp only
        have hne : ¬ calls.isEmpty = true := fun hnil =>
          (Reached.later hcalls ht hreached).calls_ne_nil (List.isEmpty_iff.mp hnil ▸ hcalls)
        rw [if_neg hne]
        exact bind_eq_error.mpr (Or.inr ⟨t, ht, ih.mpr ⟨c, hreached, hc⟩⟩)

end Calls

section Evaluation

variable {depth : Int} {scope : Scope} {s : List Char} {b : Breakdown}

/-- That the evaluation of a text breaks down: the text has a line reference with too many digits,
or it has a call that is evaluated and rounds by a vanishing power of ten, or has an argument whose
evaluation breaks down after those of the arguments before. -/
inductive Breaks (depth : Int) (scope : Scope) : List Char → Breakdown → Prop
  | reference {s digits : List Char} (overlong : overlong? s = some digits) :
      Breaks depth scope s (.tooManyDigits digits.length)
  | factor {s t : List Char} {c : Call} {f : Function} {x d : Float}
      (prepared : prepare scope s = .ok t)
      (reached : Reached Builtin.table (evaluate Builtin.table depth scope) depth.toNat t c)
      (found : Builtin.table.find c.name = .ok f) (round : f.name = "round".toList)
      (arity : f.checkArity (splitArguments c.arguments).length = .ok ())
      (values : resolveArguments f.name (evaluate Builtin.table depth scope)
        (splitArguments c.arguments) = .ok [x, d])
      (vanishing : Builtin.VanishingPower d) : Breaks depth scope s .zeroFactor
  | argument {s t a : List Char} {c : Call} {f : Function} {front rest : List (List Char)}
      {xs : List Float} {b : Breakdown} (prepared : prepare scope s = .ok t)
      (reached : Reached Builtin.table (evaluate Builtin.table depth scope) depth.toNat t c)
      (found : Builtin.table.find c.name = .ok f)
      (arity : f.checkArity (splitArguments c.arguments).length = .ok ())
      (arguments : splitArguments c.arguments = front ++ a :: rest)
      (values : resolveArguments f.name (evaluate Builtin.table depth scope) front = .ok xs)
      (breaks : Breaks depth scope (trim a) b) : Breaks depth scope s b

/-- There are two ways in which an evaluation can break down. -/
theorem Breaks.cases_breakdown (h : Breaks depth scope s b) :
    b = .zeroFactor ∨ ∃ n, digitLimit < n ∧ b = .tooManyDigits n := by
  induction h with
  | @reference s digits hlong =>
    exact Or.inr ⟨_, length_of_overlong? hlong, rfl⟩
  | factor => exact Or.inl rfl
  | argument _ _ _ _ _ _ _ ih => exact ih

theorem settleText_ne_breakdown : settleText s ≠ .error (.breakdown b) := by
  unfold settleText
  split
  · simp [Failure.within]
  · exact asFailure_ne_breakdown _

/-- A text breaks down in itself or at one of its calls. -/
theorem evaluate_eq_breakdown (hs : scope.Finite) :
    evaluate Builtin.table depth scope s = .error (.breakdown b) ↔
      (∃ digits, overlong? s = some digits ∧ b = .tooManyDigits digits.length) ∨
        ∃ t c, prepare scope s = .ok t ∧
          Reached Builtin.table (evaluate Builtin.table depth scope) depth.toNat t c ∧
          call Builtin.table (evaluate Builtin.table depth scope) c.name
            (splitArguments c.arguments) = .error (.breakdown b) := by
  rw [evaluate_rounds, bind_eq_error, prepare_eq_error hs]
  refine or_congr Iff.rfl ⟨?_, ?_⟩
  · rintro ⟨t, ht, h⟩
    rcases bind_eq_error.mp h with h | ⟨u, _, h⟩
    · obtain ⟨c, hreached, hc⟩ := replaceRounds_eq_breakdown.mp h
      exact ⟨t, c, ht, hreached, hc⟩
    · exact absurd h settleText_ne_breakdown
  · rintro ⟨t, c, ht, hreached, hc⟩
    exact ⟨t, ht, bind_eq_error.mpr (Or.inl (replaceRounds_eq_breakdown.mpr ⟨c, hreached, hc⟩))⟩

/-- A plain number cannot break down: it has no line reference and no letters. -/
theorem not_plain_of_breakdown (hs : scope.Finite)
    (h : evaluate Builtin.table depth scope s = .error (.breakdown b)) :
    s ≠ [] ∧ isPlainNumber s = false := by
  have hmarked : '@' ∈ s ∨ 0 < letterCount s := by
    rcases (evaluate_eq_breakdown hs).mp h with ⟨digits, hlong, _⟩ | ⟨t, c, ht, hreached, _⟩
    · exact Or.inl (mem_of_overlong? hlong)
    · exact Or.inr <| (Nat.zero_le _).trans_lt <|
        hreached.letterCount_lt.trans_le (letterCount_prepare ht)
  refine ⟨?_, ?_⟩
  · rintro rfl
    rcases hmarked with hmem | hpos
    · exact absurd hmem List.not_mem_nil
    · exact absurd hpos (by decide)
  · rw [Bool.eq_false_iff]
    intro hplain
    have hall := plainCharacter_of_isPlainNumber hplain
    rcases hmarked with hmem | hpos
    · exact not_plainCharacter (by simp) (hall '@' hmem)
    · obtain ⟨c, hc, hstart⟩ := List.countP_pos_iff.mp hpos
      exact not_plainCharacter_of_isNameStart hstart (hall c hc)

theorem resolveArgument_eq_breakdown (hs : scope.Finite) {f a : List Char} :
    resolveArgument f (evaluate Builtin.table depth scope) a = .error (.breakdown b) ↔
      evaluate Builtin.table depth scope (trim a) = .error (.breakdown b) := by
  unfold resolveArgument
  dsimp only
  refine ⟨fun h => ?_, fun h => ?_⟩
  · split at h
    · exact absurd h (by simp [argumentProblem, Failure.of])
    · split at h
      · exact absurd h (by simp)
      · split at h
        · exact absurd h (by simp [argumentProblem, Failure.of])
        · exact h
  · obtain ⟨hne, hplain⟩ := not_plain_of_breakdown hs h
    rw [if_neg fun hnil => hne (List.isEmpty_iff.mp hnil), hplain]
    simp only [Bool.false_eq_true, if_false, Option.filter_none, h]

/-- The evaluation of a text breaks down exactly when the text has a line reference with too many
digits, or an evaluated call rounds by a vanishing power of ten, or so in an argument. -/
theorem evaluate_breaks (hs : scope.Finite) :
    evaluate Builtin.table depth scope s = .error (.breakdown b) ↔ Breaks depth scope s b := by
  have hfinite : ∀ {t x}, evaluate Builtin.table depth scope t = .ok x → x.isFinite = true :=
    fun h => isFinite_of_evaluate h
  refine ⟨fun h => ?_, fun h => ?_⟩
  · induction hn : letterCount s using Nat.strongRecOn generalizing s with
    | ind n ih =>
      rcases (evaluate_eq_breakdown hs).mp h with ⟨digits, hlong, rfl⟩ | ⟨t, c, ht, hreached, hc⟩
      · exact .reference hlong
      obtain ⟨f, hf, harity, hc⟩ := (call_eq_breakdown hfinite).mp hc
      rcases hc with hc | ⟨rfl, hname, x, d, hxs, hd⟩
      · obtain ⟨front, a, rest, xs, hsplit, hxs, ha⟩ := resolveArguments_eq_breakdown.mp hc
        have ha := (resolveArgument_eq_breakdown hs).mp ha
        have hlt : letterCount (trim a) < n :=
          (letterCount_argument (hsplit ▸ by simp)).trans_lt <|
            hn ▸ hreached.letterCount_lt.trans_le (letterCount_prepare ht)
        exact .argument ht hreached hf harity hsplit hxs (ih _ hlt ha rfl)
      · exact .factor ht hreached hf hname harity hxs hd
  · refine (evaluate_eq_breakdown hs).mpr ?_
    induction h with
    | reference hlong => exact Or.inl ⟨_, hlong, rfl⟩
    | @factor s t c f x d ht hreached hf hname harity hxs hd =>
      refine Or.inr ⟨t, c, ht, hreached, (call_eq_breakdown hfinite).mpr ?_⟩
      exact ⟨f, hf, harity, Or.inr ⟨rfl, hname, x, d, hxs, hd⟩⟩
    | @argument s t a c f front rest xs b ht hreached hf harity hsplit hxs _ ih =>
      have ha : resolveArgument f.name (evaluate Builtin.table depth scope) a =
          .error (.breakdown b) :=
        (resolveArgument_eq_breakdown hs).mpr ((evaluate_eq_breakdown hs).mpr ih)
      refine Or.inr ⟨t, c, ht, hreached, (call_eq_breakdown hfinite).mpr ?_⟩
      refine ⟨f, hf, harity, Or.inl ?_⟩
      exact resolveArguments_eq_breakdown.mpr ⟨front, a, rest, xs, hsplit, hxs, ha⟩

end Evaluation

end Reckoner.Formula
