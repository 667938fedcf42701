import Reckoner.Proofs.Formula.LayoutRounds
import Reckoner.Proofs.Formula.PlainNumbers
import Reckoner.Proofs.Formula.ScopeReading
import Reckoner.Proofs.Formula.Spacing

/-!
Dress and outcomes. What the evaluation makes of a dressed text depends on the expression only: the
clean-up leaves a layout of the expression with its values, each round of call evaluation keeps it
one, and arithmetic reads the same from all layouts. Arguments are evaluated as texts of their own,
so this is proved first for expressions without calls.
-/
namespace Reckoner.Formula

open Text Number Arith

variable {table : FunctionTable} {scope : Scope} {depth : Int} {e : Expr} {s t : List Char}

section Rounds

/-- The clean-up makes a layout of a dressed text. -/
theorem laid_canonical (h : e.Dressing s) : Laid e (canonical s) := by
  have hdressed : Dressed .bare .start (e.lexemes ++ []) (canonical s) := by
    rw [List.append_nil]
    exact canonical_dressing h
  obtain ⟨t, u, htext, hlaid, hu, hu'⟩ := hdressed.exists_laid (onlySpaces_canonical s)
  rw [htext]
  cases hu with
  | nil hgap => exact hlaid.spaces_after fun c hc => hu' c hc (filling_blank hgap c hc)

/-- That named values are finite, which the values of all scopes that are read from data are. -/
def Scope.NamedFinite (scope : Scope) : Prop := ∀ e ∈ scope.named, e.2.isFinite = true

/-- The evaluation of a dressed text follows the rounds of its expression. -/
theorem evaluate_dressing (hs : scope.Identifiers) (hfinite : scope.NamedFinite)
    (h : e.Dressing s) (hlines : ∀ r, .line r ∈ e.lexemes → (scope.lineMeaning r).isFinite = true)
    (hf : e.nesting ≠ 0 → Faithful table (evaluate table depth scope)) :
    (evaluate table depth scope s).toOption =
      ((e.subst scope).rounds table (evaluate table depth scope) depth depth.toNat).toOption.bind
        fun e => (settleText (textOf e.lexemes)).toOption := by
  obtain ⟨t, ht, hdressing⟩ := substitute_dressing hs hfinite h hlines
  have hprepare : prepare scope s = .ok (canonical t) := by
    unfold prepare
    rw [ht]
    rfl
  have hrounds := (laid_canonical hdressing).replaceRounds
    (fun hcalls => hf fun hflat => hcalls ((nesting_subst e).trans hflat)) depth depth.toNat
  rw [evaluate_rounds, hprepare]
  change (resolveCalls table (evaluate table depth scope) depth (canonical t) >>= settleText).toOption
    = _
  rw [toOption_bind]
  unfold resolveCalls
  revert hrounds
  generalize (replaceRounds table (evaluate table depth scope) depth depth.toNat
    (canonical t)).toOption = text
  generalize ((e.subst scope).rounds table (evaluate table depth scope) depth
    depth.toNat).toOption = outcome
  intro hrounds
  cases hrounds with
  | none => rfl
  | some hlaid => exact settleText_laid hlaid (laid_textOf _)

theorem evaluate_dressing_none {r : LineReference} (h : e.Dressing s) (hr : .line r ∈ e.lexemes)
    (hfinite : (scope.lineMeaning r).isFinite = false) :
    (evaluate table depth scope s).toOption = none := by
  have hsubstitute := substitute_dressing_none h hr hfinite
  have hprepare : (prepare scope s).toOption = none := by
    unfold prepare
    rw [toOption_bind]
    cases hs : scope.substitute s with
    | error _ => rfl
    | ok t =>
      rw [hs] at hsubstitute
      exact absurd hsubstitute (by simp [Except.toOption])
  rw [evaluate_rounds]
  change (prepare scope s >>= _).toOption = none
  rw [toOption_bind, hprepare]
  rfl

/-- All dressed texts of an expression have the same outcome. -/
theorem evaluate_dressing_congr (hs : scope.Identifiers) (hfinite : scope.NamedFinite) (h : e.Dressing s)
    (h' : e.Dressing t) (hf : e.nesting ≠ 0 → Faithful table (evaluate table depth scope)) :
    (evaluate table depth scope s).toOption = (evaluate table depth scope t).toOption := by
  by_cases hlines : ∀ r, .line r ∈ e.lexemes → (scope.lineMeaning r).isFinite = true
  · rw [evaluate_dressing hs hfinite h hlines hf, evaluate_dressing hs hfinite h' hlines hf]
  · push Not at hlines
    obtain ⟨r, hr, hnot⟩ := hlines
    have hnot := Bool.eq_false_iff.mpr hnot
    rw [evaluate_dressing_none h hr hnot, evaluate_dressing_none h' hr hnot]

end Rounds

section Arguments

theorem Dressed.ne_nil {dress : Dress} {o : Enclosure} {ls : List Lexeme} (h : Dressed dress o ls s)
    (hls : ls ≠ []) : s ≠ [] := by
  cases h with
  | nil _ => exact absurd rfl hls
  | cons _ hw _ =>
    exact List.append_ne_nil_of_right_ne_nil _ (List.append_ne_nil_of_left_ne_nil hw.ne_nil _)

/-- An argument has the value of its text, also when it is read as a plain number. -/
theorem toOption_resolveArgument {resolve : Resolver} (f : List Char)
    (hne : (trim t).isEmpty = false)
    (hplain : ∀ x, isPlainNumber (trim t) = true → readFloat (trim t) = some x →
      x.isFinite = true → (resolve (trim t)).toOption = some x) :
    (resolveArgument f resolve t).toOption = (resolve (trim t)).toOption := by
  rw [← toOption_resolveInFull f hne, resolveArgument_inFull f fun x h hread hx =>
    eq_ok_of_toOption (hplain x h hread hx)]

theorem resolveArgument_dressed (hs : scope.Identifiers) (f : List Char)
    (h : Dressed .bare .start e.lexemes t) :
    (resolveArgument f (evaluate table depth scope) t).toOption =
      (evaluate table depth scope (trim t)).toOption := by
  have htrim : Dressed .bare .start e.lexemes (trim t) := (h.trimLeft rfl).trimRight rfl
  refine toOption_resolveArgument f ?_ fun x hplain hread hx =>
    congrArg Except.toOption (evaluate_plain hs (trim_trim t) hplain hread hx)
  exact List.isEmpty_eq_false_iff.mpr (htrim.ne_nil (operand_lexemes e).ne_nil)

theorem toOption_resolveArguments {resolve : Resolver} (f : List Char) {as bs : List (List Char)}
    (h : List.Forall₂ (fun a b => (resolveArgument f resolve a).toOption =
      (resolveArgument f resolve b).toOption) as bs) :
    (resolveArguments f resolve as).toOption = (resolveArguments f resolve bs).toOption := by
  induction h with
  | nil => rfl
  | @cons a b as bs hab _ ih =>
    rw [resolveArguments, resolveArguments, toOption_bind, toOption_bind, hab]
    congr 1
    funext x
    rw [toOption_bind, toOption_bind, ih]

theorem toOption_call {resolve : Resolver} (f : List Char) {as bs : List (List Char)}
    (h : ∀ g, List.Forall₂ (fun a b => (resolveArgument g resolve a).toOption =
      (resolveArgument g resolve b).toOption) as bs) :
    (call table resolve f as).toOption = (call table resolve f bs).toOption := by
  have hvalues : ∀ g : Function, (resolveArguments g.name resolve as).toOption =
      (resolveArguments g.name resolve bs).toOption := fun g =>
    toOption_resolveArguments g.name (h g.name)
  unfold call
  simp only [toOption_bind, (h f).length_eq, hvalues]

/-- Layouts of an argument without calls have one outcome. -/
theorem faithful_evaluate (hs : scope.Identifiers) (hfinite : scope.NamedFinite) :
    Faithful table (evaluate table depth scope) := by
  intro f args hargs
  refine toOption_call f fun g => ?_
  rw [List.forall₂_map_left_iff, List.forall₂_map_right_iff, List.forall₂_same]
  intro p hp
  obtain ⟨hflat, hlaid⟩ := hargs p hp
  have hdressed : Dressed .bare .start p.1.lexemes (trim p.2) :=
    (hlaid.dressed_alone.trimLeft rfl).trimRight rfl
  have htrimmed : Dressed .bare .start p.1.lexemes (trim (trim p.2)) :=
    (hdressed.trimLeft rfl).trimRight rfl
  rw [resolveArgument_dressed hs g hdressed,
    resolveArgument_dressed hs g (laid_textOf p.1).dressed_alone, trim_textOf]
  exact evaluate_dressing_congr hs hfinite (Or.inl (htrimmed.mono .full)) (dressing_textOf p.1)
    (absurd hflat)

end Arguments

/-- The named values of a scope that is read from data are finite. -/
theorem Scope.namedFinite_create {named lines : Option Data.Value} {pending : List (List Char)}
    (h : Scope.create named lines pending = .ok scope) : scope.NamedFinite :=
  (Scope.finite_create h).named

/-- Dress does not change the outcome. Each dressed text of an expression has the value of its
canonical text, or both fail. The values that names stand for must be finite, since markup may
mention names. -/
theorem evaluate_dressed (table : FunctionTable) (depth : Int) (scope : Scope)
    (hs : scope.Identifiers) (hfinite : scope.NamedFinite) (e : Expr) (s : List Char)
    (h : e.bracketed.Dressing s) :
    (evaluate table depth scope s).toOption = (evaluate table depth scope e.text).toOption :=
  evaluate_dressing_congr hs hfinite h (dressing_textOf e.bracketed) fun _ => faithful_evaluate hs hfinite

/-- The expression `1234.5 * min(@9, rate)`. -/
def charge : Expr :=
  .binary .mul
    (.numeral ⟨['1', '2', '3', '4'], some ['5'],
      allDigits_cons (by decide) <| allDigits_cons (by decide) <| allDigits_cons (by decide) <|
        allDigits_cons (by decide) allDigits_nil,
      allDigits_cons (by decide) allDigits_nil, by decide⟩)
    (.call ⟨['m', 'i', 'n'], by decide⟩ [
      .line ⟨['9'], allDigits_cons (by decide) allDigits_nil, by decide, by decide⟩,
      .name ⟨['r', 'a', 't', 'e'], by decide⟩])

/-- A scope in which the ninth line has given three and `rate` is seven. -/
def chargeScope : Scope := ⟨[(['r', 'a', 't', 'e'], 7)], [(9, 3)], []⟩

/-- The expression with an equals sign, markup that mentions a name, a currency sign, groups of
digits, a typographic sign and other white space. -/
def dressedCharge : List Char := "=<b rate>$1,234.5 ×\tmin  (@9 ,rate<i>)</b>".toList

theorem dressing_charge : charge.bracketed.Dressing dressedCharge := by
  have hbracketed : charge.bracketed = charge := by
    unfold charge
    simp [Expr.bracketed, Expr.atLeast, Expr.level, leftLevel, rightLevel, Op.level]
  have hgap : ∀ {o : Enclosure} {a : Lexeme} {gap : List Char}, o.callee = false →
      Filling true a.isNumeral gap → Gap .full o a gap := by
    intro o a gap ho h
    unfold Gap
    rw [if_neg (by rw [ho]; exact Bool.false_ne_true)]
    exact h
  have hspace : ∀ {currency : Bool}, Filling true currency [' '] := .blank (by decide) .nil
  have hdollar : Filling true true (['<'] ++ ['b', ' ', 'r', 'a', 't', 'e'] ++ ['>', '$']) :=
    .tag rfl (List.all_iff_forall_prop.mp (by decide)) (.sign rfl (by decide) .nil)
  have hitalic : Filling true false (['<'] ++ ['i'] ++ ['>']) :=
    .tag rfl (List.all_iff_forall_prop.mp (by decide)) .nil
  have hbold : Filling true false (['<'] ++ ['/', 'b'] ++ ['>']) :=
    .tag rfl (List.all_iff_forall_prop.mp (by decide)) .nil
  have hgroups : Grouping ['1', '2', '3', '4'] ['1', ',', '2', '3', '4'] :=
    ⟨['1'], [['2', '3', '4']], by decide, by decide, by decide, by decide, by decide, by decide⟩
  have htext : dressedCharge = [] ++ '=' :: ((['<'] ++ ['b', ' ', 'r', 'a', 't', 'e'] ++ ['>', '$']) ++
      ((['1', ',', '2', '3', '4'] ++ ['.', '5']) ++ ([' '] ++ (['×'] ++
      (['\t'] ++ (['m', 'i', 'n'] ++ ([' ', ' '] ++ (['('] ++ ([] ++ (['@', '9'] ++
      ([' '] ++ ([','] ++ ([] ++ (['r', 'a', 't', 'e'] ++ ((['<'] ++ ['i'] ++ ['>']) ++ ([')'] ++
      (['<'] ++ ['/', 'b'] ++ ['>']))))))))))))))))) := by decide
  rw [hbracketed, htext]
  refine Or.inr ⟨[], _, .nil, rfl, ?_⟩
  unfold charge
  simp only [Expr.lexemes, List.map_cons, List.map_nil, joined]
  refine .cons (hgap rfl hdollar) (.grouped rfl rfl hgroups) ?_
  refine .cons (hgap rfl hspace) (.operator .mul (Or.inr ⟨rfl, by decide⟩)) ?_
  refine .cons (hgap rfl (.blank (by decide) .nil)) (.callee _) ?_
  refine .cons (List.all_iff_forall_prop.mp (by decide)) .opening ?_
  refine .cons (hgap rfl .nil) (.line _) ?_
  refine .cons (hgap rfl hspace) .comma ?_
  refine .cons (hgap rfl .nil) (.name _) ?_
  exact .cons (hgap rfl hitalic) .closing (.nil hbold)

theorem evaluate_dressedCharge :
    chargeScope.Identifiers ∧ chargeScope.NamedFinite ∧ charge.bracketed.Dressing dressedCharge ∧
      (evaluate Builtin.table 10 chargeScope dressedCharge).toOption =
        (evaluate Builtin.table 10 chargeScope charge.text).toOption ∧
      ∃ x, evaluate Builtin.table 10 chargeScope dressedCharge = .ok x ∧ (x == 3703.5) = true := by
  have hregular : chargeScope.Regular := ⟨by decide, by decide +kernel, by decide +kernel⟩
  have hsame := evaluate_dressed Builtin.table 10 chargeScope hregular.identifiers
    hregular.named_finite charge dressedCharge dressing_charge
  have hvalue : charge.value Builtin.table chargeScope = some 3703.5 := by
    unfold charge
    simp only [Expr.value, List.map_cons, List.map_nil]
    decide +kernel
  have hnesting : charge.nesting ≤ (10 : Int).toNat := by
    unfold charge
    simp only [Expr.nesting, List.map_cons, List.map_nil]
    decide
  have hmeaning := evaluate_levelled insensitive_table hregular charge.levelled_bracketed
    (charge.nesting_bracketed.trans_le hnesting)
  rw [charge.value_bracketed, hvalue] at hmeaning
  change SameOutcome (evaluate Builtin.table 10 chargeScope charge.text).toOption _ at hmeaning
  refine ⟨hregular.identifiers, hregular.named_finite, dressing_charge, hsame, ?_⟩
  rw [← hsame] at hmeaning
  cases hresult : evaluate Builtin.table 10 chargeScope dressedCharge with
  | error _ =>
    rw [hresult] at hmeaning
    cases hmeaning
  | ok x =>
    rw [hresult] at hmeaning
    cases hmeaning with
    | some hx =>
      have hfinite : x.isFinite = true := hx.isFinite.trans (by decide +kernel)
      exact ⟨x, rfl, beq_of_alike hx (isNaN_of_isFinite hfinite)⟩

end Reckoner.Formula
