import Reckoner.Proofs.Formula.DressedValues

/-!
Rounds of call evaluation on layouts. A round turns every layout of an expression into a layout of
the expression after the round, when arguments have the same values in all their layouts.
-/
namespace Reckoner.Formula

open Text Number Arith

variable {table : FunctionTable} {resolve : Resolver}

/-- That arguments without calls have the same values in all their layouts. -/
def Faithful (table : FunctionTable) (resolve : Resolver) : Prop :=
  ∀ (f : List Char) (args : List (Expr × List Char)),
    (∀ p ∈ args, p.1.nesting = 0 ∧ Laid p.1 p.2) →
    (call table resolve f (args.map fun p => trim p.2)).toOption =
      (call table resolve f (args.map fun p => textOf p.1.lexemes)).toOption

/-- What a round makes of a layout of an expression. -/
structure LaidRound (table : FunctionTable) (resolve : Resolver) (e : Expr) (t : List Char)
    (result : Except Failure (Expr × List Char)) : Prop where
  rewritten : Rewritten table resolve (e.nesting = 0) t (result.map Prod.snd)
  laid : ∀ p, result = .ok p → Laid p.1 p.2
  round : Faithful table resolve → (e.round table resolve).toOption = (result.map Prod.fst).toOption

section Arguments

variable {p : Expr × List Char} {args rest : List (Expr × List Char)}
  {r : Except Failure (Expr × List Char)} {rs : Except Failure (List (Expr × List Char))}

/-- What a round makes of the arguments of a call. -/
structure LaidRounds (table : FunctionTable) (resolve : Resolver) (args : List (Expr × List Char))
    (results : Except Failure (List (Expr × List Char))) : Prop where
  laid : ∀ ps, results = .ok ps → ∀ p ∈ ps, Laid p.1 p.2
  round : Faithful table resolve →
    (fromLast ((args.map Prod.fst).map fun e => e.round table resolve)).toOption =
      (results.map fun ps => ps.map Prod.fst).toOption

theorem laidRounds_nil : LaidRounds table resolve [] (.ok []) :=
  ⟨fun _ h => Except.ok.inj h ▸ fun _ hp => absurd hp List.not_mem_nil, fun _ => rfl⟩

theorem LaidRounds.cons (hrest : LaidRounds table resolve rest rs)
    (hp : LaidRound table resolve p.1 p.2 r) :
    LaidRounds table resolve (p :: rest) (do
      let later ← rs
      let q ← r
      return q :: later) := by
  refine ⟨fun ps hps => ?_, fun hfaithful => ?_⟩
  · obtain ⟨later, hlater, hps⟩ := bind_eq_ok hps
    obtain ⟨q, hq, hps⟩ := bind_eq_ok hps
    obtain rfl := Except.ok.inj hps
    exact List.forall_mem_cons.mpr ⟨hp.laid q hq, hrest.laid later hlater⟩
  · rw [List.map_cons, List.map_cons, fromLast, toOption_bind, hrest.round hfaithful]
    cases rs with
    | error _ => rfl
    | ok later =>
      change (p.1.round table resolve >>= _).toOption = _
      rw [toOption_bind, hp.round hfaithful]
      cases r <;> rfl

/-- The texts of layouts, each after a comma. -/
def furtherLaid (args : List (Expr × List Char)) : List Char := args.flatMap fun p => ',' :: p.2

theorem stop_furtherLaid {s : List Char} (hs : Stop s) (args : List (Expr × List Char)) :
    Stop (furtherLaid args ++ s) := by
  cases args with
  | nil => exact hs
  | cons p rest => exact stop_mark (by decide) (by decide) (by decide) _

theorem intercalate_laid (p : Expr × List Char) (rest : List (Expr × List Char)) :
    [','].intercalate ((p :: rest).map Prod.snd) = p.2 ++ furtherLaid rest := by
  rw [List.map_cons, intercalate_cons, List.flatMap_map]
  rfl

theorem flatLaid_cons : (p.1.nesting = 0 ∧ ∀ q ∈ rest, q.1.nesting = 0) ↔
    ∀ q ∈ p :: rest, q.1.nesting = 0 :=
  (List.forall_mem_cons (p := fun q : Expr × List Char => q.1.nesting = 0)).symm

theorem exists_further (h : ∀ p ∈ args, ∃ r, LaidRound table resolve p.1 p.2 r) :
    ∃ rs, LaidRounds table resolve args rs ∧
      Rewritten table resolve (∀ p ∈ args, p.1.nesting = 0) (furtherLaid args)
        (rs.map furtherLaid) := by
  induction args with
  | nil => exact ⟨.ok [], laidRounds_nil, rewritten_nil.congr (by simp) rfl⟩
  | cons p rest ih =>
    obtain ⟨⟨r, hp⟩, hrest⟩ := List.forall_mem_cons.mp h
    obtain ⟨rs, hrounds, hrewritten⟩ := ih hrest
    refine ⟨_, hrounds.cons hp, ?_⟩
    have htexts := hp.rewritten.append hrewritten fun hs => stop_furtherLaid hs rest
    refine (htexts.cons (c := ',') (by decide)).congr flatLaid_cons ?_
    cases rs with
    | error _ => rfl
    | ok later => cases r <;> rfl

theorem exists_inside {inner : List Char} (hinner : ∀ c ∈ inner, c = ' ')
    (h : ∀ p ∈ args, ∃ r, LaidRound table resolve p.1 p.2 r) :
    ∃ rs, LaidRounds table resolve args rs ∧
      Rewritten table resolve (∀ p ∈ args, p.1.nesting = 0)
        (inner ++ [','].intercalate (args.map Prod.snd))
        (rs.map fun ps => inner ++ [','].intercalate (ps.map Prod.snd)) := by
  cases args with
  | nil => exact ⟨.ok [], laidRounds_nil, (rewritten_nil.spaces hinner).congr (by simp) rfl⟩
  | cons p rest =>
    obtain ⟨⟨r, hp⟩, hrest⟩ := List.forall_mem_cons.mp h
    obtain ⟨rs, hrounds, hrewritten⟩ := exists_further hrest
    refine ⟨_, hrounds.cons hp, ?_⟩
    have htexts := hp.rewritten.append hrewritten fun hs => stop_furtherLaid hs rest
    rw [intercalate_laid]
    refine (htexts.spaces hinner).congr flatLaid_cons ?_
    cases rs with
    | error _ => rfl
    | ok later =>
      cases r with
      | error _ => rfl
      | ok q => exact congrArg (fun t => Except.ok (inner ++ t)) (intercalate_laid q later).symm

end Arguments

section Rounds

variable {e : Expr} {t : List Char}

theorem exists_call_round {f : Name} {before inner : List Char} {args : List (Expr × List Char)}
    (hbefore : ∀ c ∈ before, c = ' ') (hinner : ∀ c ∈ inner, c = ' ')
    (hargs : ∀ p ∈ args, Laid p.1 p.2) (h : ∀ p ∈ args, ∃ r, LaidRound table resolve p.1 p.2 r) :
    ∃ r, LaidRound table resolve (.call f (args.map Prod.fst))
      (f.chars ++ (before ++ ('(' :: (inner ++ [','].intercalate (args.map Prod.snd)) ++ [')'])))
      r := by
  have hcalls : ¬ (Expr.call f (args.map Prod.fst)).nesting = 0 := by
    rw [Expr.nesting]
    omega
  have hflat : (∀ a ∈ args.map Prod.fst, a.nesting = 0) ↔ ∀ p ∈ args, p.1.nesting = 0 :=
    List.forall_mem_map
  have hbalanced : Balanced (inner ++ [','].intercalate (args.map Prod.snd)) :=
    (balanced_spaces hinner).append
      (balanced_intercalate (List.forall_mem_map.mpr fun p hp => (hargs p hp).balanced))
  obtain ⟨rs, hrounds, hrewritten⟩ := exists_inside hinner h
  by_cases hnone : ∀ p ∈ args, p.1.nesting = 0
  · refine ⟨(call table resolve f.chars (args.map fun p => trim p.2)).map fun x =>
      (.ofValue x, textOf (Expr.ofValue x).lexemes), ?_, fun p hp => ?_, fun hf => ?_⟩
    · refine (rewritten_innermost f hbefore hbalanced hrewritten hnone).congr
        (iff_of_false id hcalls) ?_
      rw [splitArguments_laid hinner hargs]
      cases call table resolve f.chars (args.map fun p => trim p.2) <;> rfl
    · obtain ⟨x, _, rfl⟩ := map_eq_ok hp
      exact laid_textOf _
    · have hcall := hf f.chars args fun p hp => ⟨hnone p hp, hargs p hp⟩
      rw [Expr.round, if_pos (hflat.mpr hnone), toOption_map, List.map_map]
      change (call table resolve f.chars (args.map fun p => textOf p.1.lexemes)).toOption.map _ = _
      rw [← hcall]
      cases call table resolve f.chars (args.map fun p => trim p.2) <;> rfl
  · refine ⟨rs.map fun ps => (.call f (ps.map Prod.fst),
      f.chars ++ (before ++ ('(' :: (inner ++ [','].intercalate (ps.map Prod.snd)) ++ [')']))),
      ?_, fun p hp => ?_, fun hf => ?_⟩
    · refine (hrewritten.call f hbefore hbalanced hnone).congr (iff_of_false id hcalls) ?_
      cases rs <;> rfl
    · obtain ⟨ps, hps, rfl⟩ := map_eq_ok hp
      have hlaid := Laid.call f hbefore hinner (hrounds.laid ps hps)
      rwa [List.append_assoc] at hlaid
    · rw [Expr.round, if_neg fun hnone' => hnone (hflat.mp hnone'), toOption_map,
        hrounds.round hf]
      cases rs <;> rfl

/-- A layout that a round leaves as it is. -/
theorem laidRound_kept (h : Laid e t) (hflat : e.nesting = 0) (hround : e.round table resolve = .ok e)
    (ht : Rewritten table resolve True t (.ok t)) : LaidRound table resolve e t (.ok (e, t)) := by
  refine ⟨ht.congr (iff_of_true trivial hflat) rfl, fun p hp => Except.ok.inj hp ▸ h, fun _ => ?_⟩
  rw [hround]
  rfl

section Whole

variable {a b e' : Expr} {t' u : List Char} {r ra rb : Except Failure (Expr × List Char)}

/-- What a round makes of a whole that has one part, by what it makes of the part. -/
theorem LaidRound.map {f : Expr → Expr} {g : List Char → List Char}
    (h : LaidRound table resolve e t r)
    (ht : Rewritten table resolve (e'.nesting = 0) t' ((r.map Prod.snd).map g))
    (hlaid : ∀ {e t}, Laid e t → Laid (f e) (g t))
    (hround : e'.round table resolve = (e.round table resolve).map f) :
    LaidRound table resolve e' t' (r.map fun p => (f p.1, g p.2)) := by
  refine ⟨ht.congr Iff.rfl (by cases r <;> rfl), fun p hp => ?_, fun hf => ?_⟩
  · obtain ⟨q, hq, rfl⟩ := map_eq_ok hp
    exact hlaid (h.laid q hq)
  · rw [hround, toOption_map, h.round hf]
    cases r <;> rfl

theorem LaidRound.binary (op : Op) (ha : LaidRound table resolve a t ra)
    (hb : LaidRound table resolve b u rb) :
    LaidRound table resolve (.binary op a b) (t ++ op.symbol :: u) (do
      let q ← rb
      let p ← ra
      return (.binary op p.1 q.1, p.2 ++ op.symbol :: q.2)) := by
  have hsymbol : allowsName (some op.symbol) = true := by cases op <;> decide
  refine ⟨?_, fun p hp => ?_, fun hf => ?_⟩
  · have htexts := ha.rewritten.append (hb.rewritten.cons hsymbol) fun _ => stop_symbol op _
    rw [Expr.nesting]
    refine htexts.congr Nat.max_eq_zero_iff.symm ?_
    cases rb with
    | error _ => rfl
    | ok q => cases ra <;> rfl
  · obtain ⟨q, hq, hp⟩ := bind_eq_ok hp
    obtain ⟨p', hp', hp⟩ := bind_eq_ok hp
    obtain rfl := Except.ok.inj hp
    exact .binary op (ha.laid p' hp') (hb.laid q hq)
  · rw [Expr.round, toOption_bind, hb.round hf]
    cases rb with
    | error _ => rfl
    | ok q =>
      change (a.round table resolve >>= _).toOption = _
      rw [toOption_bind, ha.round hf]
      cases ra <;> rfl

end Whole

/-- A round turns a layout into a layout. -/
theorem Laid.exists_round (table : FunctionTable) (resolve : Resolver) (h : Laid e t) :
    ∃ r, LaidRound table resolve e t r := by
  have hkept : ∀ e : Expr, (e.round table resolve).map id = e.round table resolve := fun e => by
    cases e.round table resolve <;> rfl
  induction h with
  | numeral n =>
    exact ⟨_, laidRound_kept (.numeral n) (by rw [Expr.nesting]) (by rw [Expr.round])
      (rewritten_unnamed (isNameStart_numeral n))⟩
  | name n =>
    exact ⟨_, laidRound_kept (.name n) (by rw [Expr.nesting]) (by rw [Expr.round])
      (rewritten_name n)⟩
  | line l =>
    exact ⟨_, laidRound_kept (.line l) (by rw [Expr.nesting]) (by rw [Expr.round])
      (rewritten_unnamed (isNameStart_of_not_named (a := .line l) rfl))⟩
  | group _ ih =>
    obtain ⟨r, hr⟩ := ih
    refine ⟨_, hr.map ?_ .group (by rw [Expr.round])⟩
    rw [Expr.nesting]
    exact hr.rewritten.enclosed
  | neg spaced _ ih =>
    obtain ⟨r, hr⟩ := ih
    refine ⟨_, hr.map ?_ (.neg spaced) (by rw [Expr.round])⟩
    rw [Expr.nesting]
    exact hr.rewritten.cons (by decide)
  | binary op _ _ iha ihb =>
    obtain ⟨ra, hra⟩ := iha
    obtain ⟨rb, hrb⟩ := ihb
    exact ⟨_, hra.binary op hrb⟩
  | call f hbefore hinner hargs ih =>
    rw [List.append_assoc]
    exact exists_call_round hbefore hinner hargs ih
  | @before e t _ ih =>
    obtain ⟨r, hr⟩ := ih
    exact ⟨_, hr.map (hr.rewritten.cons (by decide)) .before (hkept e).symm⟩
  | @after e t _ ih =>
    obtain ⟨r, hr⟩ := ih
    have hspace : Rewritten table resolve True [' '] (.ok [' ']) :=
      rewritten_unnamed (List.forall_mem_singleton.mpr (by decide))
    refine ⟨_, hr.map (g := (· ++ [' '])) ?_ .after (hkept e).symm⟩
    exact (hr.rewritten.append hspace fun hs => hs.space).congr (iff_of_eq (and_true _))
      (by cases r <;> rfl)

/-- The rounds of an expression on a layout of it. -/
theorem Laid.replaceRounds (h : Laid e t) (hf : e.nesting ≠ 0 → Faithful table resolve)
    (bound : Int) (left : Nat) : Option.Rel Laid (e.rounds table resolve bound left).toOption
      (replaceRounds table resolve bound left t).toOption := by
  induction left generalizing e t with
  | zero =>
    obtain ⟨r, hr⟩ := h.exists_round table resolve
    obtain ⟨calls, hcalls, hempty, _⟩ := hr.rewritten.innermostCalls
    rw [List.isEmpty_iff] at hempty
    by_cases hnone : e.nesting = 0
    · obtain rfl := hempty.mpr hnone
      rw [e.rounds_flat hnone, replaceRounds_settled hcalls]
      exact .some h
    · rw [e.rounds_exhausted hnone, replaceRounds_exhausted hcalls (mt hempty.mp hnone)]
      exact .none
  | succ left ih =>
    obtain ⟨r, hr⟩ := h.exists_round table resolve
    obtain ⟨calls, hcalls, hempty, hreplace⟩ := hr.rewritten.innermostCalls
    rw [List.isEmpty_iff] at hempty
    by_cases hnone : e.nesting = 0
    · obtain rfl := hempty.mpr hnone
      rw [e.rounds_flat hnone, replaceRounds_settled hcalls]
      exact .some h
    · have hround := hr.round (hf hnone)
      rw [e.rounds_step hnone, replaceRounds_step hcalls (mt hempty.mp hnone), hreplace]
      cases r with
      | error _ =>
        change Option.Rel Laid (e.round table resolve >>= _).toOption none
        rw [toOption_bind, hround]
        exact .none
      | ok p =>
        change Option.Rel Laid (e.round table resolve >>= _).toOption _
        rw [toOption_bind, hround]
        exact ih (hr.laid p rfl) fun _ => hf hnone

end Rounds

end Reckoner.Formula
