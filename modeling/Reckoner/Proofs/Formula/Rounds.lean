import Reckoner.Proofs.Except
import Reckoner.Proofs.Formula.CallText
import Reckoner.Proofs.Formula.Meaning

/-!
Rounds of call evaluation, on trees. A round replaces each call whose arguments hold no call by its
value, the last one first. The text of the outcome is what the replacement makes of the text, and
each round takes one level off the nesting.
-/
namespace Reckoner.Formula

open Text Number Arith

section Round

variable (table : FunctionTable) (resolve : Resolver)

/-- All results, found from the last one to the first. -/
def fromLast {α : Type} : List (Except Failure α) → Except Failure (List α)
  | [] => .ok []
  | r :: rest => do
    let later ← fromLast rest
    let a ← r
    return a :: later

/-- An expression after one round. -/
noncomputable def Expr.round : Expr → Except Failure Expr
  | numeral n => .ok (.numeral n)
  | name n => .ok (.name n)
  | line r => .ok (.line r)
  | group e => e.round.map .group
  | neg spaced e => e.round.map (.neg spaced)
  | binary op l r => do
    let r ← r.round
    let l ← l.round
    return .binary op l r
  | call f args =>
    if ∀ e ∈ args, e.nesting = 0 then
      (Formula.call table resolve f.chars (args.map fun e => textOf e.lexemes)).map .ofValue
    else (fromLast (args.map fun e => e.round)).map (.call f)

end Round

section Nesting

theorem foldr_max_eq_zero {ns : List Nat} : ns.foldr max 0 = 0 ↔ ∀ n ∈ ns, n = 0 := by
  induction ns with
  | nil => exact ⟨fun _ _ h => absurd h List.not_mem_nil, fun _ => rfl⟩
  | cons n ns ih =>
    rw [List.foldr_cons, List.forall_mem_cons, ← ih]
    omega

theorem forall_mem_joined {p : Lexeme → Prop} (hcomma : p .comma) {args : List Expr} :
    (∀ a ∈ joined (args.map fun e => e.lexemes), p a) ↔ ∀ e ∈ args, ∀ a ∈ e.lexemes, p a := by
  cases args with
  | nil => exact ⟨fun _ _ h => absurd h List.not_mem_nil, fun _ _ h => absurd h List.not_mem_nil⟩
  | cons e rest =>
    rw [List.map_cons, joined, List.forall_mem_append, List.forall_mem_cons]
    refine and_congr_right fun _ => ⟨fun h f hf a ha => ?_, fun h a ha => ?_⟩
    · exact h a (List.mem_flatMap.mpr
        ⟨f.lexemes, List.mem_map_of_mem hf, List.mem_cons_of_mem _ ha⟩)
    · obtain ⟨ls, hls, hmem⟩ := List.mem_flatMap.mp ha
      obtain ⟨f, hf, rfl⟩ := List.mem_map.mp hls
      rcases List.mem_cons.mp hmem with rfl | hmem
      · exact hcomma
      · exact h f hf a hmem

end Nesting

section Outcome

variable {table : FunctionTable} {resolve : Resolver}

theorem forall₂_of_fromLast {α β : Type} {f : α → Except Failure β} {as : List α} {bs : List β}
    (h : fromLast (as.map f) = .ok bs) : List.Forall₂ (fun a b => f a = .ok b) as bs := by
  induction as generalizing bs with
  | nil =>
    obtain rfl := Except.ok.inj h
    exact .nil
  | cons a as ih =>
    rw [List.map_cons, fromLast] at h
    obtain ⟨later, hlater, h⟩ := bind_eq_ok h
    obtain ⟨b, hb, h⟩ := bind_eq_ok h
    obtain rfl := Except.ok.inj h
    exact .cons hb (ih hlater)

theorem forall_of_forall₂ {α β : Type} {R : α → β → Prop} {p : β → Prop} {as : List α}
    {bs : List β} (h : List.Forall₂ R as bs) (hp : ∀ a ∈ as, ∀ b, R a b → p b) : ∀ b ∈ bs, p b := by
  induction h with
  | nil => exact fun _ h => absurd h List.not_mem_nil
  | @cons a b as bs hab _ ih =>
    refine List.forall_mem_cons.mpr ⟨hp a List.mem_cons_self b hab, ih fun c hc => ?_⟩
    exact hp c (List.mem_cons_of_mem a hc)

/-- The outcome of a round for an operation on two operands. -/
theorem round_binary {op : Op} {l r e : Expr}
    (h : (Expr.binary op l r).round table resolve = .ok e) :
    ∃ l' r', l.round table resolve = .ok l' ∧ r.round table resolve = .ok r' ∧
      e = .binary op l' r' := by
  rw [Expr.round] at h
  obtain ⟨r', hr, h⟩ := bind_eq_ok h
  obtain ⟨l', hl, h⟩ := bind_eq_ok h
  exact ⟨l', r', hl, hr, (Except.ok.inj h).symm⟩

/-- The outcome of a round for a call: its value, or the call with other arguments. -/
theorem round_call {f : Name} {args : List Expr} {e : Expr}
    (h : (Expr.call f args).round table resolve = .ok e) :
    ((∀ a ∈ args, a.nesting = 0) ∧ ∃ x, e = .ofValue x) ∨
      (¬ (∀ a ∈ args, a.nesting = 0) ∧ ∃ args', e = .call f args' ∧
        List.Forall₂ (fun a a' => a.round table resolve = .ok a') args args') := by
  rw [Expr.round] at h
  split at h
  · rename_i hflat
    obtain ⟨x, _, rfl⟩ := map_eq_ok h
    exact Or.inl ⟨hflat, x, rfl⟩
  · rename_i hflat
    obtain ⟨args', hargs, rfl⟩ := map_eq_ok h
    exact Or.inr ⟨hflat, args', rfl, forall₂_of_fromLast hargs⟩

theorem level_round {e e' : Expr} (h : e.round table resolve = .ok e') : e'.level = e.level := by
  cases e with
  | numeral n | name n | line r =>
    rw [Expr.round] at h
    obtain rfl := Except.ok.inj h
    rfl
  | group e =>
    rw [Expr.round] at h
    obtain ⟨_, _, rfl⟩ := map_eq_ok h
    rfl
  | neg spaced e =>
    rw [Expr.round] at h
    obtain ⟨_, _, rfl⟩ := map_eq_ok h
    rfl
  | binary op l r =>
    obtain ⟨l', r', _, _, rfl⟩ := round_binary h
    rfl
  | call f args =>
    rcases round_call h with ⟨_, x, rfl⟩ | ⟨_, args', rfl, _⟩
    · exact level_ofValue x
    · rfl

theorem foldr_max_pred {as bs : List Expr}
    (h : List.Forall₂ (fun a b => b.nesting = a.nesting - 1) as bs) :
    (bs.map fun e => e.nesting).foldr max 0 = (as.map fun e => e.nesting).foldr max 0 - 1 := by
  induction h with
  | nil => rfl
  | cons hab _ ih =>
    rw [List.map_cons, List.map_cons, List.foldr_cons, List.foldr_cons, ih, hab]
    omega

/-- A round takes one level off the nesting. -/
theorem nesting_round {e e' : Expr} (h : e.round table resolve = .ok e') :
    e'.nesting = e.nesting - 1 := by
  induction e generalizing e' with
  | numeral n | name n | line r =>
    rw [Expr.round] at h
    obtain rfl := Except.ok.inj h
    rw [Expr.nesting]
  | group e ih =>
    rw [Expr.round] at h
    obtain ⟨a, ha, rfl⟩ := map_eq_ok h
    rw [Expr.nesting, Expr.nesting, ih ha]
  | neg spaced e ih =>
    rw [Expr.round] at h
    obtain ⟨a, ha, rfl⟩ := map_eq_ok h
    rw [Expr.nesting, Expr.nesting, ih ha]
  | binary op l r ihl ihr =>
    obtain ⟨l', r', hl, hr, rfl⟩ := round_binary h
    rw [Expr.nesting, Expr.nesting, ihl hl, ihr hr]
    omega
  | call f args ih =>
    rw [Expr.nesting]
    rcases round_call h with ⟨hflat, x, rfl⟩ | ⟨hflat, args', rfl, hargs⟩
    · have hzero : (args.map fun e => e.nesting).foldr max 0 = 0 :=
        foldr_max_eq_zero.mpr (List.forall_mem_map.mpr hflat)
      rw [nesting_ofValue, hzero]
    · have hdeep : (args.map fun e => e.nesting).foldr max 0 ≠ 0 := fun hzero =>
        hflat (List.forall_mem_map.mp (foldr_max_eq_zero.mp hzero))
      have hpred := foldr_max_pred
        (((List.forall₂_and_left args args').mpr ⟨fun _ h => h, hargs⟩).imp
          fun a _ h => ih a h.1 h.2)
      rw [Expr.nesting, hpred]
      omega

/-- A round keeps the operands grouped. -/
theorem levelled_round {e e' : Expr} (hl : e.Levelled) (h : e.round table resolve = .ok e') :
    e'.Levelled := by
  induction e generalizing e' with
  | numeral n | name n | line r =>
    rw [Expr.round] at h
    obtain rfl := Except.ok.inj h
    exact hl
  | group e ih =>
    rw [Expr.round] at h
    obtain ⟨a, ha, rfl⟩ := map_eq_ok h
    cases hl with
    | group hl => exact .group (ih hl ha)
  | neg spaced e ih =>
    rw [Expr.round] at h
    obtain ⟨a, ha, rfl⟩ := map_eq_ok h
    cases hl with
    | neg hlevel hl => exact .neg (level_round ha ▸ hlevel) (ih hl ha)
  | binary op l r ihl ihr =>
    obtain ⟨l', r', hl', hr', rfl⟩ := round_binary h
    cases hl with
    | binary hleft hright hl hr =>
      exact .binary (level_round hl' ▸ hleft) (level_round hr' ▸ hright) (ihl hl hl') (ihr hr hr')
  | call f args ih =>
    rcases round_call h with ⟨_, x, rfl⟩ | ⟨_, args', rfl, hargs⟩
    · exact levelled_ofValue x
    · cases hl with
      | call hl =>
        exact .call (forall_of_forall₂ hargs fun a ha a' h => ih a ha (hl a ha) h)

/-- A round leaves nothing open that was closed. -/
theorem closed_round {scope : Scope} {e e' : Expr} (hc : Closed scope e.lexemes)
    (h : e.round table resolve = .ok e') : Closed scope e'.lexemes := by
  induction e generalizing e' with
  | numeral n | name n | line r =>
    rw [Expr.round] at h
    obtain rfl := Except.ok.inj h
    exact hc
  | group e ih =>
    rw [Expr.round] at h
    obtain ⟨a, ha, rfl⟩ := map_eq_ok h
    rw [Expr.lexemes, List.cons_append, closed_cons, closed_append] at hc ⊢
    exact ⟨hc.1, ih hc.2.1 ha, hc.2.2⟩
  | neg spaced e ih =>
    rw [Expr.round] at h
    obtain ⟨a, ha, rfl⟩ := map_eq_ok h
    rw [Expr.lexemes, closed_cons] at hc ⊢
    exact ⟨hc.1, ih hc.2 ha⟩
  | binary op l r ihl ihr =>
    obtain ⟨l', r', hl, hr, rfl⟩ := round_binary h
    rw [Expr.lexemes, closed_append, closed_cons] at hc ⊢
    exact ⟨ihl hc.1 hl, hc.2.1, ihr hc.2.2 hr⟩
  | call f args ih =>
    rcases round_call h with ⟨_, x, rfl⟩ | ⟨_, args', rfl, hargs⟩
    · exact closed_ofValue x
    · rw [Expr.lexemes, List.cons_append, List.cons_append, closed_cons, closed_cons,
        closed_append] at hc ⊢
      refine ⟨hc.1, hc.2.1, (forall_mem_joined trivial).mpr ?_, hc.2.2.2⟩
      have hclosed := (forall_mem_joined trivial).mp hc.2.2.1
      exact forall_of_forall₂ hargs fun a ha a' h => ih a ha (hclosed a ha) h

end Outcome

section Value

variable {table : FunctionTable} {resolve : Resolver} {scope : Scope}

theorem isFinite_of_settleResult {f : List Char} {r : Except Mishap Float} {x : Float}
    (h : settleResult f r = .ok x) : x.isFinite = true := by
  unfold settleResult at h
  split at h
  · split at h
    · rename_i hfinite
      obtain rfl := Except.ok.inj h
      exact hfinite
    · exact absurd h (by simp)
  · exact absurd h (by simp)
  · exact absurd h (by simp)
  · exact absurd h (by simp)

theorem call_isFinite {f : List Char} {arguments : List (List Char)} {x : Float}
    (h : Formula.call table resolve f arguments = .ok x) : x.isFinite = true := by
  obtain ⟨g, _, h⟩ := bind_eq_ok h
  obtain ⟨_, _, h⟩ := bind_eq_ok h
  obtain ⟨values, _, h⟩ := bind_eq_ok h
  exact isFinite_of_settleResult h

/-- That the values of calls on texts without calls are the meanings of these calls. -/
def Resolves (table : FunctionTable) (resolve : Resolver) (scope : Scope) : Prop :=
  ∀ (f : Name) (args : List Expr),
    (∀ a ∈ args, a.nesting = 0 ∧ a.Levelled ∧ Closed scope a.lexemes) →
    SameOutcome (Formula.call table resolve f.chars (args.map fun e => textOf e.lexemes)).toOption
      ((Expr.call f args).value table scope)

theorem mapM_fromLast (args : List Expr) :
    ((fromLast (args.map fun e => e.round table resolve)).toOption.bind fun es =>
      (es.map fun e => e.value table scope).mapM id) =
    (args.map fun e => (e.round table resolve).toOption.bind fun e =>
      e.value table scope).mapM id := by
  induction args with
  | nil => rfl
  | cons e args ih =>
    rw [List.map_cons, List.map_cons, fromLast, List.mapM_cons, ← ih]
    cases fromLast (args.map fun e => e.round table resolve) with
    | error _ =>
      cases (e.round table resolve).toOption.bind fun e => e.value table scope <;> rfl
    | ok later =>
      cases e.round table resolve with
      | error _ => rfl
      | ok e' =>
        change ((e' :: later).map fun e => e.value table scope).mapM id = _
        rw [List.map_cons, List.mapM_cons]
        rfl

/-- The meaning of an expression after a round, if the round completes. -/
noncomputable def Expr.valueAfter (table : FunctionTable) (resolve : Resolver) (scope : Scope)
    (e : Expr) : Option Float :=
  (e.round table resolve).toOption.bind fun e => e.value table scope

theorem valueAfter_group (e : Expr) :
    (Expr.group e).valueAfter table resolve scope = e.valueAfter table resolve scope := by
  unfold Expr.valueAfter
  rw [Expr.round]
  cases e.round table resolve with
  | error _ => rfl
  | ok e' =>
    change (Expr.group e').value table scope = e'.value table scope
    rw [Expr.value]

theorem valueAfter_neg (spaced : Bool) (e : Expr) :
    (Expr.neg spaced e).valueAfter table resolve scope =
      (e.valueAfter table resolve scope).map fun x => -x := by
  unfold Expr.valueAfter
  rw [Expr.round]
  cases e.round table resolve with
  | error _ => rfl
  | ok e' =>
    change (Expr.neg spaced e').value table scope = (e'.value table scope).map fun x => -x
    rw [Expr.value]

theorem valueAfter_binary (op : Op) (l r : Expr) :
    (Expr.binary op l r).valueAfter table resolve scope = (do
      let x ← l.valueAfter table resolve scope
      let y ← r.valueAfter table resolve scope
      (op.apply x y).toOption) := by
  unfold Expr.valueAfter
  rw [Expr.round]
  cases r.round table resolve with
  | error _ => cases (l.round table resolve).toOption.bind fun e => e.value table scope <;> rfl
  | ok r' =>
    cases l.round table resolve with
    | error _ => rfl
    | ok l' =>
      change (Expr.binary op l' r').value table scope = _
      rw [Expr.value]
      rfl

theorem valueAfter_call (f : Name) {args : List Expr} (h : ¬ ∀ e ∈ args, e.nesting = 0) :
    (Expr.call f args).valueAfter table resolve scope = (do
      let values ← (args.map fun e => e.valueAfter table resolve scope).mapM id
      application table f.chars values) := by
  unfold Expr.valueAfter
  rw [Expr.round, if_neg h, ← mapM_fromLast]
  cases fromLast (args.map fun e => e.round table resolve) with
  | error _ => rfl
  | ok args' =>
    change (Expr.call f args').value table scope = _
    rw [Expr.value]
    rfl

/-- A round keeps the meaning. -/
theorem value_round (ht : table.Insensitive) (hr : Resolves table resolve scope) {e : Expr}
    (hl : e.Levelled) (hc : Closed scope e.lexemes) :
    SameOutcome (e.valueAfter table resolve scope) (e.value table scope) := by
  induction e with
  | numeral n | name n | line r =>
    rw [Expr.valueAfter, Expr.round]
    exact sameOutcome_refl _
  | group e ih =>
    cases hl with
    | group hl =>
      rw [Expr.lexemes, List.cons_append, closed_cons, closed_append] at hc
      rw [valueAfter_group, Expr.value]
      exact ih hl hc.2.1
  | neg spaced e ih =>
    cases hl with
    | neg _ hl =>
      rw [Expr.lexemes, closed_cons] at hc
      rw [valueAfter_neg, Expr.value]
      exact sameOutcome_neg (ih hl hc.2)
  | binary op l r ihl ihr =>
    cases hl with
    | binary _ _ hl hr =>
      rw [Expr.lexemes, closed_append, closed_cons] at hc
      rw [valueAfter_binary, Expr.value]
      exact sameOutcome_binary op (ihl hl hc.1) (ihr hr hc.2.2)
  | call f args ih =>
    cases hl with
    | call hl =>
      rw [Expr.lexemes, List.cons_append, List.cons_append, closed_cons, closed_cons,
        closed_append] at hc
      have hclosed := (forall_mem_joined trivial).mp hc.2.2.1
      by_cases hflat : ∀ e ∈ args, e.nesting = 0
      · have h := hr f args fun a ha => ⟨hflat a ha, hl a ha, hclosed a ha⟩
        rw [Expr.valueAfter, Expr.round, if_pos hflat]
        cases hcall : Formula.call table resolve f.chars (args.map fun e => textOf e.lexemes) with
        | error _ => rw [hcall] at h; exact h
        | ok x =>
          rw [hcall] at h
          exact sameOutcome_trans (value_ofValue (call_isFinite hcall) table scope) h
      · rw [valueAfter_call f hflat, Expr.value]
        exact sameOutcome_call ht f.chars
          (forall₂_map fun a ha => ih a ha (hl a ha) (hclosed a ha))

end Value

end Reckoner.Formula
