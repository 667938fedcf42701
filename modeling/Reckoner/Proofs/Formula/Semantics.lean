import Reckoner.Proofs.Formula.RoundText
import Reckoner.Proofs.Formula.Settled
import Reckoner.Proofs.Number.Plain

/-!
Evaluation of canonical texts. The text of an expression is turned into the text of the expression
with its names substituted, the calls in it are resolved in rounds, and what is left is arithmetic.
An argument without calls is evaluated the same way, and the shortcut for plain numbers gives what
this evaluation gives. So evaluation finds the direct meaning of the expression, up to the sign of
zero.
-/
namespace Reckoner.Formula

open Text Number Arith

variable {table : FunctionTable} {scope : Scope} {depth : Int}

/-- How the arguments in a text get their values. -/
def resolverFor (table : FunctionTable) (depth : Int) (scope : Scope) (s : List Char) : Resolver :=
  fun argument =>
    if letterCount argument < letterCount s then evaluate table depth scope argument
    else settleText argument

theorem evaluate_eq (table : FunctionTable) (depth : Int) (scope : Scope) (s : List Char) :
    evaluate table depth scope s =
      (prepare scope s).bind fun text =>
        (resolveCalls table (resolverFor table depth scope s) depth text).bind settleText := by
  rw [evaluate]
  rfl

/-- The expression whose calls are resolved. -/
noncomputable def Expr.prepared (scope : Scope) (e : Expr) : Expr := (e.subst scope).widen

/-- The evaluation of a text follows the rounds of its expression. -/
theorem evaluate_lexemes (hs : scope.Regular) (e : Expr) :
    evaluate table depth scope (textOf e.lexemes) =
      ((e.prepared scope).rounds table (resolverFor table depth scope (textOf e.lexemes)) depth
        depth.toNat).bind fun e => settleText (textOf e.lexemes) := by
  have hprepare : prepare scope (textOf e.lexemes) = .ok (textOf (e.prepared scope).lexemes) := by
    unfold prepare
    rw [hs.substitute_text]
    exact congrArg Except.ok (canonical_textOf _)
  rw [evaluate_eq, hprepare]
  change (replaceRounds table _ depth depth.toNat (textOf (e.prepared scope).lexemes)).bind _ = _
  rw [replaceRounds_textOf]
  cases (e.prepared scope).rounds table _ depth depth.toNat <;> rfl

section Prepared

variable {e : Expr}

theorem levelled_prepared (h : e.Levelled) : (e.prepared scope).Levelled :=
  levelled_widen (levelled_subst h)

theorem closed_prepared (scope : Scope) (e : Expr) : Closed scope (e.prepared scope).lexemes := by
  unfold Expr.prepared
  rw [lexemes_widen]
  exact closed_widened (closed_subst e)

theorem nesting_prepared (scope : Scope) (e : Expr) : (e.prepared scope).nesting = e.nesting :=
  (nesting_widen _).trans (nesting_subst e)

theorem value_prepared (ht : table.Insensitive) (hs : scope.Regular) (e : Expr) :
    SameOutcome ((e.prepared scope).value table scope) (e.value table scope) := by
  unfold Expr.prepared
  rw [value_widen]
  exact value_subst ht hs e

/-- The evaluation of a text without calls finds its meaning. -/
theorem evaluate_flat (ht : table.Insensitive) (hs : scope.Regular) (hl : e.Levelled)
    (hflat : e.nesting = 0) :
    SameOutcome (evaluate table depth scope (textOf e.lexemes)).toOption (e.value table scope) := by
  have hzero : (e.prepared scope).nesting = 0 := (nesting_prepared scope e).trans hflat
  rw [evaluate_lexemes hs, Expr.rounds_flat hzero]
  change SameOutcome (settleText (textOf (e.prepared scope).lexemes)).toOption _
  rw [settleText_textOf (levelled_prepared hl) hzero (closed_prepared scope e)]
  exact value_prepared ht hs e

end Prepared

section Arguments

theorem mem_takeLiteral {s : List Char} {c : Char} (h : c ∈ takeLiteral s) :
    isDigit c = true ∨ c = '.' := by
  have hspan : ∀ {t : List Char}, c ∈ t.takeWhile isDigit → isDigit c = true :=
    fun hc => List.mem_takeWhile_imp hc
  unfold takeLiteral at h
  dsimp only at h
  split at h
  · split at h
    · exact absurd h List.not_mem_nil
    · rcases List.mem_append.mp h with h | h
      · exact Or.inl (hspan h)
      · rcases List.mem_cons.mp h with rfl | h
        · exact Or.inr rfl
        · exact Or.inl (hspan h)
  · exact Or.inl (hspan h)

/-- The characters of plain numbers. -/
def PlainCharacter (c : Char) : Prop := isDigit c = true ∨ c = '.' ∨ c = '-'

theorem plainCharacter_of_isPlainNumber {s : List Char} (h : isPlainNumber s = true) :
    ∀ c ∈ s, PlainCharacter c := by
  have hdigits : ∀ {t : List Char}, (t != [] && takeLiteral t == t) = true →
      ∀ c ∈ t, PlainCharacter c := by
    intro t ht c hc
    rw [Bool.and_eq_true, beq_iff_eq] at ht
    rw [← ht.2] at hc
    exact (mem_takeLiteral hc).imp_right Or.inl
  unfold isPlainNumber at h
  dsimp only at h
  split at h
  · exact List.forall_mem_cons.mpr ⟨Or.inr (Or.inr rfl), hdigits h⟩
  · exact hdigits h

theorem not_plainCharacter {c : Char} (h : c ∈ [' ', '(', '@']) : ¬ PlainCharacter c := by
  have hall : ∀ d ∈ [' ', '(', '@'], ¬ (isDigit d = true ∨ d = '.' ∨ d = '-') :=
    List.all_iff_forall_prop.mp (by decide)
  exact hall c h

theorem not_plainCharacter_of_isNameStart {c : Char} (h : isNameStart c = true) :
    ¬ PlainCharacter c := by
  rintro (hdigit | rfl | rfl)
  · rw [isDigit_of_isNameStart h] at hdigit
    exact absurd hdigit Bool.false_ne_true
  · exact absurd h (by decide)
  · exact absurd h (by decide)

/-- A whole operand of plain characters is a numeral. -/
theorem exists_numeral_of_plain {e : Expr} (hlevel : 5 ≤ e.level)
    (h : ∀ c ∈ textOf e.lexemes, PlainCharacter c) : ∃ n, e = .numeral n := by
  have hname : ∀ (n : Name) (s : List Char), ¬ ∀ c ∈ n.chars ++ s, PlainCharacter c := by
    intro n s hall
    obtain ⟨c, r, hn, hstart, _⟩ := n.exists_cons
    refine not_plainCharacter_of_isNameStart hstart (hall c ?_)
    rw [hn]
    exact List.mem_cons_self
  cases e with
  | numeral n => exact ⟨n, rfl⟩
  | name n =>
    rw [Expr.lexemes, textOf_cons] at h
    exact absurd h (hname n _)
  | call f args =>
    rw [Expr.lexemes, List.cons_append, textOf_cons] at h
    exact absurd h (hname f _)
  | line r =>
    rw [Expr.lexemes, textOf_cons] at h
    exact absurd (h '@' List.mem_cons_self) (not_plainCharacter (by decide))
  | group e =>
    rw [Expr.lexemes, List.cons_append, textOf_cons] at h
    exact absurd (h '(' List.mem_cons_self) (not_plainCharacter (by decide))
  | neg spaced e => exact absurd hlevel (Nat.not_succ_le_self 4)
  | binary op l r => exact absurd hlevel (Nat.not_le.mpr (level_lt op))

/-- The expressions whose texts are plain numbers. -/
theorem plain_cases {e : Expr} (hl : e.Levelled) (h : isPlainNumber (textOf e.lexemes) = true) :
    (∃ n, e = .numeral n) ∨ ∃ n, e = .neg false (.numeral n) := by
  have hplain := plainCharacter_of_isPlainNumber h
  cases e with
  | binary op l r =>
    rw [Expr.lexemes, textOf_append, textOf_cons] at hplain
    have hspace := hplain ' ' (List.mem_append_right _ List.mem_cons_self)
    exact absurd hspace (not_plainCharacter (by decide))
  | neg spaced e =>
    rw [Expr.lexemes, textOf_cons] at hplain
    cases spaced with
    | true =>
      have hspace := hplain ' ' (List.mem_cons_of_mem _ List.mem_cons_self)
      exact absurd hspace (not_plainCharacter (by decide))
    | false =>
      cases hl with
      | neg hlevel _ =>
        obtain ⟨n, rfl⟩ := exists_numeral_of_plain hlevel fun c hc =>
          hplain c (List.mem_append_right _ hc)
        exact Or.inr ⟨n, rfl⟩
  | _ => exact Or.inl (exists_numeral_of_plain (Nat.le_refl 5) hplain)

/-- A plain number is read as what its expression means. -/
theorem readFloat_plain {e : Expr} {x : Float} (hl : e.Levelled)
    (h : isPlainNumber (textOf e.lexemes) = true) (hread : readFloat (textOf e.lexemes) = some x)
    (hfinite : x.isFinite = true) : e.value table scope = some x := by
  have hnumeral : ∀ n : Numeral, (literalValue n.text).isFinite = true →
      (Expr.numeral n).value table scope = some (literalValue n.text) := by
    intro n hn
    rw [Expr.value]
    unfold finite
    rw [if_pos hn]
    rfl
  rcases plain_cases hl h with ⟨n, rfl⟩ | ⟨n, rfl⟩
  · rw [Expr.lexemes, textOf_cons, textOf_nil, List.append_nil] at hread
    have hx := (readFloat_text n).symm.trans hread
    rw [← literalValue_text, Option.some.injEq] at hx
    subst hx
    exact hnumeral n hfinite
  · rw [Expr.lexemes, Expr.lexemes, textOf_cons, textOf_cons, textOf_nil, List.append_nil] at hread
    have hx := Option.some.inj ((readFloat_neg n).symm.trans hread)
    rw [← hx] at hfinite ⊢
    obtain ⟨hpositive, hneg⟩ := neg_nearestDecimal hfinite
    rw [← literalValue_text] at hpositive hneg
    rw [Expr.value, hnumeral n hpositive, ← hneg]
    rfl

/-- The value of an argument text is the meaning of the argument. -/
theorem resolveArgument_textOf (f : List Char) {resolve : Resolver} {e : Expr} (hl : e.Levelled)
    (hr : SameOutcome (resolve (textOf e.lexemes)).toOption (e.value table scope)) :
    SameOutcome (resolveArgument f resolve (textOf e.lexemes)).toOption (e.value table scope) := by
  obtain ⟨c, r, htext, _⟩ := operand_text_cons (operand_lexemes e)
  have hne : (textOf e.lexemes).isEmpty = false := by
    rw [htext]
    rfl
  unfold resolveArgument
  rw [trim_textOf]
  dsimp only
  rw [hne, if_neg Bool.false_ne_true]
  split
  · rename_i x hx
    obtain ⟨hread, hfinite⟩ := Option.filter_eq_some_iff.mp hx
    split at hread
    · rename_i hplain
      rw [readFloat_plain hl hplain hread hfinite]
      exact sameOutcome_refl _
    · exact absurd hread (by simp)
  · split
    · rename_i heq
      rw [heq] at hr
      exact hr
    · exact hr

end Arguments

section Calls

variable {resolve : Resolver} {args : List Expr}

/-- That the argument texts of a call have the meanings of the arguments as their values. -/
def ArgumentsResolve (table : FunctionTable) (resolve : Resolver) (scope : Scope)
    (args : List Expr) : Prop :=
  ∀ a ∈ args, a.Levelled ∧
    SameOutcome (resolve (textOf a.lexemes)).toOption (a.value table scope)

theorem resolveArguments_textOf (f : List Char) (h : ArgumentsResolve table resolve scope args) :
    Option.Rel (List.Forall₂ Alike)
      (resolveArguments f resolve (args.map fun e => textOf e.lexemes)).toOption
      ((args.map fun e => e.value table scope).mapM id) := by
  induction args with
  | nil => exact .some .nil
  | cons a args ih =>
    obtain ⟨hl, hr⟩ := h a List.mem_cons_self
    have hhead := resolveArgument_textOf f hl hr
    have htail := ih fun b hb => h b (List.mem_cons_of_mem a hb)
    rw [List.map_cons, List.map_cons, resolveArguments, List.mapM_cons]
    revert hhead htail
    generalize (args.map fun e => e.value table scope).mapM id = values
    generalize a.value table scope = value
    intro hhead htail
    cases hargument : resolveArgument f resolve (textOf a.lexemes) with
    | error _ =>
      rw [hargument] at hhead
      cases hhead
      exact .none
    | ok x =>
      rw [hargument] at hhead
      cases hhead with
      | some hx =>
        cases hrest : resolveArguments f resolve (args.map fun e => textOf e.lexemes) with
        | error _ =>
          rw [hrest] at htail
          cases htail
          exact .none
        | ok xs =>
          rw [hrest] at htail
          cases htail with
          | some hxs => exact .some (.cons hx hxs)

theorem length_of_mapM {as : List (Option Float)} {xs : List Float} (h : as.mapM id = some xs) :
    xs.length = as.length := by
  induction as generalizing xs with
  | nil =>
    obtain rfl := Option.some.inj h
    rfl
  | cons a as ih =>
    rw [List.mapM_cons] at h
    obtain ⟨x, _, h⟩ := Option.bind_eq_some_iff.mp h
    obtain ⟨rest, hrest, h⟩ := Option.bind_eq_some_iff.mp h
    obtain rfl := Option.some.inj h
    rw [List.length_cons, List.length_cons, ih hrest]

/-- The value of a call on texts is the meaning of the call. -/
theorem call_textOf (ht : table.Insensitive) (f : Name)
    (h : ArgumentsResolve table resolve scope args) :
    SameOutcome (call table resolve f.chars (args.map fun e => textOf e.lexemes)).toOption
      ((Expr.call f args).value table scope) := by
  rw [Expr.value]
  unfold call application FunctionTable.find
  cases hg : table.find? f.chars with
  | none =>
    dsimp only
    cases (args.map fun e => e.value table scope).mapM id <;> exact .none
  | some g =>
    have hlength : ∀ {xs : List Float}, (args.map fun e => e.value table scope).mapM id = some xs →
        xs.length = args.length := fun hxs => (length_of_mapM hxs).trans (List.length_map _)
    have hvalues := resolveArguments_textOf g.name h
    revert hvalues hlength
    generalize (args.map fun e => e.value table scope).mapM id = values
    intro hlength hvalues
    dsimp only
    rw [List.length_map]
    change SameOutcome ((asFailure (g.checkArity args.length)).bind fun _ => _).toOption _
    unfold Function.checkArity
    cases hproblem : g.arityProblem? args.length with
    | some problem =>
      cases values with
      | none => exact .none
      | some xs =>
        change SameOutcome none (if (g.arityProblem? xs.length).isSome = true then none else _)
        rw [hlength rfl, hproblem]
        exact .none
    | none =>
      change SameOutcome ((resolveArguments g.name resolve _).bind fun values =>
        settleResult g.name (g.apply values)).toOption _
      cases hresolved : resolveArguments g.name resolve (args.map fun e => textOf e.lexemes) with
      | error _ =>
        rw [hresolved] at hvalues
        cases hvalues
        exact .none
      | ok xs =>
        rw [hresolved] at hvalues
        cases hvalues with
        | @some _ ys hxs =>
          change SameOutcome _ (if (g.arityProblem? ys.length).isSome = true then none else _)
          rw [hlength rfl, hproblem]
          exact sameOutcome_settleResult _ (ht _ (Assoc.mem_of_get? hg) _ _ hxs)

end Calls

section Finite

theorem isFinite_neg {x : Float} (h : x.isFinite = true) : (-x).isFinite = true := by
  obtain ⟨b, hb⟩ := exists_binary h
  rw [neg_eq_ofFields hb]
  exact isFinite_of_ofFloat? (ofFloat?_ofFields _ (fits_of_ofFloat? hb))

theorem isFinite_of_finite {step : Step} {x y : Float} (h : (finite step x).toOption = some y) :
    y.isFinite = true := by
  unfold finite at h
  split at h
  · rename_i hx
    obtain rfl := Option.some.inj h
    exact hx
  · exact absurd h (by simp [Except.toOption])

theorem isFinite_of_apply {op : Op} {x y z : Float} (h : (op.apply x y).toOption = some z) :
    z.isFinite = true := by
  cases op with
  | add | sub | mul => exact isFinite_of_finite h
  | div | mod =>
    unfold Op.apply at h
    dsimp only at h
    split at h
    · exact absurd h (by simp [Except.toOption])
    · exact isFinite_of_finite h
  | pow =>
    unfold Op.apply power at h
    dsimp only at h
    split at h
    · rename_i hx
      obtain rfl := Option.some.inj h
      exact hx
    · split at h <;> exact absurd h (by simp [Except.toOption])

theorem isFinite_tree {t : Tree} {x : Float} (h : t.value = .ok x) : x.isFinite = true := by
  induction t generalizing x with
  | number literal => exact isFinite_of_finite (congrArg Except.toOption h)
  | neg t ih =>
    obtain ⟨y, hy, h⟩ := bind_eq_ok h
    obtain rfl := Except.ok.inj h
    exact isFinite_neg (ih hy)
  | binary op l r _ _ =>
    obtain ⟨y, _, h⟩ := bind_eq_ok h
    obtain ⟨z, _, h⟩ := bind_eq_ok h
    exact isFinite_of_apply (congrArg Except.toOption h)

/-- Every value of a text is a finite number. -/
theorem isFinite_of_evaluate {s : List Char} {x : Float}
    (h : evaluate table depth scope s = .ok x) : x.isFinite = true := by
  rw [evaluate_eq] at h
  obtain ⟨text, _, h⟩ := bind_eq_ok h
  obtain ⟨text, _, h⟩ := bind_eq_ok h
  unfold settleText at h
  split at h
  · exact absurd h (by simp)
  · unfold asFailure at h
    split at h
    · rename_i heq
      obtain rfl := Except.ok.inj h
      obtain ⟨t, _, hvalue⟩ := bind_eq_ok heq
      split at hvalue
      · rename_i htree
        obtain rfl := Except.ok.inj hvalue
        exact isFinite_tree htree
      · exact absurd hvalue (by simp)
    · exact absurd h (by simp)

/-- Every meaning is a finite number. -/
theorem isFinite_value (hs : scope.Regular) {e : Expr} {x : Float}
    (h : e.value table scope = some x) : x.isFinite = true := by
  induction e generalizing x with
  | numeral n =>
    rw [Expr.value] at h
    exact isFinite_of_finite h
  | name n =>
    rw [Expr.value] at h
    by_cases hn : n.chars ∈ scope.names
    · rw [scope.meaning_of_mem hn] at h
      obtain rfl := Option.some.inj h
      exact Scope.named_getD_finite hs.named_finite _
    · rw [scope.meaning_of_not_mem hn] at h
      exact absurd h (by simp)
  | line r =>
    rw [Expr.value] at h
    obtain rfl := Option.some.inj h
    exact hs.lineMeaning_finite r
  | group e ih =>
    rw [Expr.value] at h
    exact ih h
  | neg spaced e ih =>
    rw [Expr.value] at h
    obtain ⟨y, hy, rfl⟩ := Option.map_eq_some_iff.mp h
    exact isFinite_neg (ih hy)
  | binary op l r _ _ =>
    rw [Expr.value] at h
    obtain ⟨y, _, h⟩ := Option.bind_eq_some_iff.mp h
    obtain ⟨z, _, h⟩ := Option.bind_eq_some_iff.mp h
    exact isFinite_of_apply h
  | call f args _ =>
    rw [Expr.value] at h
    obtain ⟨values, _, h⟩ := Option.bind_eq_some_iff.mp h
    unfold application at h
    split at h
    · exact absurd h (by simp)
    · split at h
      · exact absurd h (by simp)
      · exact isFinite_of_settleResult (eq_ok_of_toOption h)

end Finite

section Meaning

theorem resolves_resolverFor (ht : table.Insensitive) (hs : scope.Regular) (s : List Char) :
    Resolves table (resolverFor table depth scope s) scope := by
  intro f args hargs
  refine call_textOf ht f fun a ha => ?_
  obtain ⟨hflat, hl, hc⟩ := hargs a ha
  refine ⟨hl, ?_⟩
  unfold resolverFor
  split
  · exact evaluate_flat ht hs hl hflat
  · rw [settleText_textOf hl hflat hc]
    exact sameOutcome_refl _

/-- Evaluation finds the meaning if calls do not nest too deep. -/
theorem evaluate_levelled (ht : table.Insensitive) (hs : scope.Regular) {e : Expr}
    (hl : e.Levelled) (h : e.nesting ≤ depth.toNat) :
    SameOutcome (evaluate table depth scope (textOf e.lexemes)).toOption (e.value table scope) := by
  have hrounds : SameOutcome
      (((e.prepared scope).rounds table (resolverFor table depth scope (textOf e.lexemes)) depth
        depth.toNat).toOption.bind fun e => e.value table scope)
      ((e.prepared scope).value table scope) :=
    value_rounds ht (resolves_resolverFor ht hs _) (levelled_prepared hl) (closed_prepared scope e)
      ((nesting_prepared scope e).trans_le h)
  refine sameOutcome_trans ?_ (sameOutcome_trans hrounds (value_prepared ht hs e))
  rw [evaluate_lexemes hs]
  cases hround : (e.prepared scope).rounds table
      (resolverFor table depth scope (textOf e.lexemes)) depth depth.toNat with
  | error _ => exact .none
  | ok e' =>
    obtain ⟨hflat, hl', hc'⟩ := rounds_eq_ok (levelled_prepared hl) (closed_prepared scope e) hround
    change SameOutcome (settleText (textOf e'.lexemes)).toOption (e'.value table scope)
    rw [settleText_textOf hl' hflat hc']
    exact sameOutcome_refl _

/-- Evaluation fails if calls nest too deep. -/
theorem evaluate_too_deep (hs : scope.Regular) {e : Expr} (h : depth.toNat < e.nesting) :
    (evaluate table depth scope (textOf e.lexemes)).toOption = none := by
  have hrounds : ((e.prepared scope).rounds table
      (resolverFor table depth scope (textOf e.lexemes)) depth depth.toNat).toOption = none :=
    rounds_too_deep ((nesting_prepared scope e).symm ▸ h)
  rw [evaluate_lexemes hs]
  cases hround : (e.prepared scope).rounds table
      (resolverFor table depth scope (textOf e.lexemes)) depth depth.toNat with
  | error _ => rfl
  | ok e' =>
    rw [hround] at hrounds
    exact absurd hrounds (by simp [Except.toOption])

/-- The canonical text of an expression has the direct meaning of the expression as its value, up
to the sign of zero; where the meaning fails or calls nest deeper than allowed, so does the
evaluation. -/
theorem evaluate_text_eq_meaning (depth : Int) (scope : Scope) (hs : scope.Regular) (e : Expr) :
    (∀ v, e.value Builtin.table scope = some v → e.nesting ≤ depth.toNat →
      ∃ x, evaluate Builtin.table depth scope e.text = .ok x ∧ (x == v) = true) ∧
    (e.value Builtin.table scope = none ∨ depth.toNat < e.nesting →
      ∃ failure, evaluate Builtin.table depth scope e.text = .error failure) := by
  have hvalue : e.bracketed.value Builtin.table scope = e.value Builtin.table scope :=
    e.value_bracketed Builtin.table scope
  have herror : ∀ {r : Except Failure Float}, r.toOption = none →
      ∃ failure, r = .error failure := by
    intro r hr
    cases r with
    | error failure => exact ⟨failure, rfl⟩
    | ok x => exact absurd hr (by simp [Except.toOption])
  have hmeaning : e.nesting ≤ depth.toNat →
      SameOutcome (evaluate Builtin.table depth scope e.text).toOption
        (e.value Builtin.table scope) := by
    intro h
    rw [← hvalue]
    exact evaluate_levelled insensitive_table hs e.levelled_bracketed
      (e.nesting_bracketed.trans_le h)
  refine ⟨fun v hv h => ?_, fun h => herror ?_⟩
  · have hsame := hmeaning h
    rw [hv] at hsame
    cases hr : evaluate Builtin.table depth scope e.text with
    | error _ => rw [hr] at hsame; cases hsame
    | ok x =>
      rw [hr] at hsame
      cases hsame with
      | some hx =>
        have hfinite := isFinite_value hs hv
        rw [← hx.isFinite] at hfinite
        exact ⟨x, rfl, beq_of_alike hx (isNaN_of_isFinite hfinite)⟩
  · by_cases hdeep : depth.toNat < e.nesting
    · exact evaluate_too_deep hs (e.nesting_bracketed.symm ▸ hdeep)
    · have hsame := hmeaning (Nat.not_lt.mp hdeep)
      rw [h.resolve_right hdeep] at hsame
      cases hr : (evaluate Builtin.table depth scope e.text).toOption with
      | none => rfl
      | some x => rw [hr] at hsame; cases hsame

/-- The expression `x * (y - max(@1, 4))`. -/
def product : Expr :=
  .binary .mul (.name ⟨['x'], by decide⟩)
    (.binary .sub (.name ⟨['y'], by decide⟩)
      (.call ⟨"max".toList, by decide⟩ [
        .line ⟨['1'], allDigits_cons (by decide) allDigits_nil, by decide, by decide⟩,
        .numeral ⟨['4'], none, allDigits_cons (by decide) allDigits_nil, allDigits_nil,
          by decide⟩]))

/-- A scope in which `x` is two, the first line has given three and `y` is pending. -/
def productScope : Scope := ⟨[(['x'], 2)], [(1, 3)], [['y']]⟩

theorem evaluate_product :
    productScope.Regular ∧ product.text = "x * (y - max(@1, 4))".toList ∧
      ∃ x, evaluate Builtin.table 10 productScope product.text = .ok x ∧ (x == -8) = true := by
  have hscope : productScope.Regular := ⟨by decide, by decide +kernel, by decide +kernel⟩
  have hvalue : product.value Builtin.table productScope = some (-8) := by
    unfold product
    simp only [Expr.value, List.map_cons, List.map_nil]
    decide +kernel
  have hnesting : product.nesting ≤ (10 : Int).toNat := by
    unfold product
    simp only [Expr.nesting, List.map_cons, List.map_nil]
    decide
  have htext : product.text = "x * (y - max(@1, 4))".toList := by
    unfold Expr.text product
    simp [Expr.bracketed, Expr.lexemes, Expr.atLeast, Expr.level, leftLevel, rightLevel, Op.level,
      joined, textOf, Lexeme.text, Op.symbol, Numeral.text]
  exact ⟨hscope, htext,
    (evaluate_text_eq_meaning 10 productScope hscope product).1 (-8) hvalue hnesting⟩

end Meaning

end Reckoner.Formula
