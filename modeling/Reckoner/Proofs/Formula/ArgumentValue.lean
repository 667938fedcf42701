import Reckoner.Proofs.Formula.Depth
import Reckoner.Proofs.Formula.DressedOutcome
import Reckoner.Proofs.Formula.Steady

/-!
Arguments and texts of their own. The value of a text without commas is the value of `sum` on it,
which needs one round more. The other way round this holds where the canonical text can be read once
more: an argument is prepared after the text around it has been, so what comes up in the first
preparation, a reference or a name, an equals sign in front or parentheses out of balance, means
something to the second.
-/
namespace Reckoner.Formula

open Text Number Arith

variable {table : FunctionTable} {resolve : Resolver} {scope : Scope} {lead trail e t u : List Char}
  {f : List Char} {x y : Float} {depth : Int}

section Sum

theorem settleResult_total (f : List Char) (hx : x.isFinite = true) :
    ∃ y, settleResult f (Builtin.total [x]) = .ok y ∧ Alike x y := by
  unfold Builtin.total
  rw [exactSum_single]
  split
  · rename_i hzero
    exact ⟨0, rfl, Or.inr ⟨(isZero_iff_beq_zero x).mpr hzero, isZero_zero⟩⟩
  · exact ⟨x, if_pos hx, Alike.refl x⟩

theorem isFinite_of_settleResult_total (h : settleResult f (Builtin.total [x]) = .ok y) :
    x.isFinite = true := by
  unfold Builtin.total at h
  rw [exactSum_single] at h
  split at h
  · rename_i hzero
    have halike : Alike x 0 := Or.inr ⟨(isZero_iff_beq_zero x).mpr hzero, isZero_zero⟩
    exact halike.isFinite.trans isFinite_zero
  · by_contra hx
    rw [if_neg hx] at h
    exact absurd h (by simp [settleResult, Builtin.ofOption])

def sumName : Name := ⟨['s', 'u', 'm'], by decide⟩

theorem find_sum : Builtin.table.find sumName.chars =
    .ok ⟨sumName.chars, 1, none, "Sum of all arguments.".toList, Builtin.total⟩ := rfl

theorem call_sum_nil (resolve : Resolver) :
    (call Builtin.table resolve sumName.chars []).toOption = none := by
  unfold call
  rw [find_sum]
  rfl

theorem call_sum (resolve : Resolver) (a : List Char) :
    (call Builtin.table resolve sumName.chars [a]).toOption =
      (resolveArgument sumName.chars resolve a).toOption.bind fun x =>
        (settleResult sumName.chars (Builtin.total [x])).toOption := by
  unfold call
  rw [find_sum]
  change (Except.bind (Except.bind (resolveArgument sumName.chars resolve a) fun x => Except.ok [x])
    fun xs => settleResult sumName.chars (Builtin.total xs)).toOption = _
  cases resolveArgument sumName.chars resolve a <;> rfl

theorem settleText_ofValue (hx : x.isFinite = true) :
    ∃ y, settleText (textOf (Expr.ofValue x).lexemes) = .ok y ∧ Alike y x := by
  have hvalue : (settleText (textOf (Expr.ofValue x).lexemes)).toOption =
      (Expr.ofValue x).value [] Scope.empty :=
    settleText_textOf (levelled_ofValue x) (nesting_ofValue x) (closed_ofValue x)
  have hsame := value_ofValue hx [] Scope.empty
  rw [← hvalue] at hsame
  cases hsettled : settleText (textOf (Expr.ofValue x).lexemes) with
  | error _ =>
    rw [hsettled] at hsame
    cases hsame
  | ok y =>
    rw [hsettled] at hsame
    cases hsame with
    | some halike => exact ⟨y, rfl, halike⟩

end Sum

section Argument

theorem all_blank_of_trim (h : trim t = []) : t.all isBlank = true := by
  obtain ⟨before, after, hsplit, hbefore, hafter⟩ := exists_around_trim t
  rw [hsplit, h, List.append_nil, List.all_eq_true]
  exact List.forall_mem_append.mpr ⟨hbefore, hafter⟩

/-- A plain number is read to the value of the text in it. -/
theorem Steady.settleText_plain_around (ht : Steady scope.names t) (hlead : Lead lead)
    (htrail : ∀ c ∈ trail, c = ' ') (hplain : isPlainNumber (trim (lead ++ t ++ trail)) = true)
    (hread : readFloat (trim (lead ++ t ++ trail)) = some x) (hx : x.isFinite = true) :
    (settleText t).toOption = some x := by
  have hall := plainCharacter_of_isPlainNumber hplain
  have hequals : ¬ PlainCharacter '=' := by
    change ¬ (isDigit '=' = true ∨ '=' = '.' ∨ '=' = '-')
    decide
  have hsegments : segments (trim (lead ++ t ++ trail)) = segments t := by
    rw [segments_trim]
    refine (segments_around hlead htrail t).resolve_right fun hmarked => ?_
    have hmem : Segment.mark '=' ∈ segments (trim (lead ++ t ++ trail)) := by
      rw [segments_trim, hmarked]
      exact List.mem_cons_self
    exact hequals (hall '=' (mark_mem_segments.mp hmem).1)
  have hspaces : OnlySpaces (trim (lead ++ t ++ trail)) := by
    intro c hc hblank
    rcases hall c hc with hdigit | rfl | rfl
    · rw [isBlank_of_isWord (isWord_of_isDigit hdigit)] at hblank
      exact absurd hblank Bool.false_ne_true
    · exact absurd hblank (by decide)
    · exact absurd hblank (by decide)
  rw [← settleText_congr hsegments hspaces ht.spaces]
  exact settleText_plain hplain hread hx

/-- The value of `sum` on a text without calls that means the same when it is read once more. -/
theorem Steady.call_sum_around (hs : scope.Identifiers) (ht : Steady scope.names t)
    (hflat : callStarts t = []) (hlead : Lead lead) (htrail : ∀ c ∈ trail, c = ' ') (depth : Int) :
    (call Builtin.table (evaluate Builtin.table depth scope) sumName.chars
        (splitArguments (lead ++ t ++ trail))).toOption =
      (settleText t).toOption.bind fun x =>
        (settleResult sumName.chars (Builtin.total [x])).toOption := by
  have hvalue : (evaluate Builtin.table depth scope (trim (lead ++ t ++ trail))).toOption = _ :=
    ht.evaluate_around hs hflat hlead htrail depth
  rw [splitArguments_of_no_comma (ht.washed.around hlead htrail).commas]
  split
  · rename_i hblank
    have hnone : segments (lead ++ t ++ trail) = [] := segments_blanks (List.all_eq_true.mp hblank)
    have hsettled : (settleText t).toOption = (settleText []).toOption := by
      refine settleText_congr ?_ ht.spaces fun _ hc => absurd hc List.not_mem_nil
      rcases segments_around hlead htrail t with hsame | hmarked
      · exact hsame.symm.trans hnone
      · exact absurd (hmarked.symm.trans hnone) (List.cons_ne_nil _ _)
    rw [call_sum_nil, hsettled]
    rfl
  · rename_i hblank
    have hne : (trim (trim (lead ++ t ++ trail))).isEmpty = false := by
      rw [trim_trim, List.isEmpty_eq_false_iff]
      exact fun h => hblank (all_blank_of_trim h)
    rw [call_sum, toOption_resolveArgument sumName.chars hne, trim_trim, hvalue]
    rw [trim_trim]
    intro x hplain hread hx
    exact hvalue.trans (ht.settleText_plain_around hlead htrail hplain hread hx)

end Argument

/-- That a canonical text means the same when it is prepared once more: its parentheses are balanced,
no line reference and no known name stands in it, and no equals sign in front. -/
structure Rereadable (scope : Scope) (c : List Char) : Prop where
  balanced : imbalance c = none
  lines : '@' ∉ c
  names : Unnamed scope.names none c
  equals : c.head? ≠ some '='

/-- The text of `sum` on another text. -/
def summed (e : List Char) : List Char := "sum(".toList ++ e ++ [')']

section Summed

variable {c : List Char}

theorem comma_not_mem_prepare (hcomma : ',' ∉ e) (h : prepare scope e = .ok c) : ',' ∉ c := by
  obtain ⟨u, hu, rfl⟩ := exists_canonical h
  exact not_mem_canonical (by decide) (not_mem_substitute (by decide) (by decide) hcomma hu)

theorem Rereadable.steady (h : Rereadable scope c) (hcomma : ',' ∉ e)
    (hprepare : prepare scope e = .ok c) : Steady scope.names c := by
  have hfree := comma_not_mem_prepare hcomma hprepare
  obtain ⟨u, _, rfl⟩ := exists_canonical hprepare
  have htrimmed : (canonical u).dropWhile isBlank = canonical u := by
    unfold canonical
    dsimp only
    rw [← trimLeft_trimRight]
    exact List.dropWhile_idempotent isBlank _
  exact ⟨⟨clean_canonical u, hfree, h.lines⟩, h.names, by rw [htrimmed]; exact h.equals,
    onlySpaces_canonical u⟩

theorem evaluate_ok_iff : evaluate table depth scope e = .ok x ↔
    ∃ c u, prepare scope e = .ok c ∧
      replaceRounds table (evaluate table depth scope) depth depth.toNat c = .ok u ∧
        settleText u = .ok x := by
  rw [evaluate_rounds]
  constructor
  · intro h
    obtain ⟨c, hc, h⟩ := bind_eq_ok h
    obtain ⟨u, hu, h⟩ := bind_eq_ok h
    exact ⟨c, u, hc, hu, h⟩
  · rintro ⟨c, u, hc, hu, h⟩
    rw [hc]
    change (resolveCalls table (evaluate table depth scope) depth c).bind settleText = _
    unfold resolveCalls
    rw [hu]
    exact h

/-- The value of `sum` on a text, as the rounds on the text give it. -/
theorem evaluate_summed_iff (hs : scope.Identifiers) (hcomma : ',' ∉ e)
    (hprepare : prepare scope e = .ok c) (hbalanced : depthThrough 0 c = some 0)
    (depth : Int) : ∃ lead trail, Lead lead ∧ (∀ c ∈ trail, c = ' ') ∧ ∀ y,
      (evaluate Builtin.table (max depth 0 + 1) scope (summed e) = .ok y ↔
        ∃ u, replaceRounds Builtin.table (evaluate Builtin.table (max depth 0 + 1) scope) depth
            depth.toNat c = .ok u ∧
          ∃ v, call Builtin.table (evaluate Builtin.table (max depth 0 + 1) scope) sumName.chars
              (splitArguments (lead ++ u ++ trail)) = .ok v ∧
            settleText (textOf (Expr.ofValue v).lexemes) = .ok y) := by
  obtain ⟨lead, trail, hlead, htrail, hcalled⟩ := (prepare_called hs sumName hcomma).2 c hprepare
  have hbound : (max depth 0 + 1).toNat = depth.toNat + 1 := by omega
  have htext : summed e = callText sumName [] e := rfl
  refine ⟨lead, trail, hlead, htrail, fun y => ?_⟩
  rw [evaluate_ok_iff, htext, hbound]
  constructor
  · rintro ⟨c', t, hc', ht, hy⟩
    obtain rfl := Except.ok.inj (hcalled.symm.trans hc')
    obtain ⟨u, hu, v, hv, rfl⟩ :=
      (replaceRounds_called sumName hlead htrail _ depth _ hbalanced t).mp ht
    exact ⟨u, hu, v, hv, hy⟩
  · rintro ⟨u, hu, v, hv, hy⟩
    exact ⟨_, _, hcalled,
      (replaceRounds_called sumName hlead htrail _ depth _ hbalanced _).mpr ⟨u, hu, v, hv, rfl⟩, hy⟩

/-- A value of a text is the value of `sum` on the text. -/
theorem evaluate_summed_of_ok (hs : scope.Identifiers) (hcomma : ',' ∉ e)
    (h : evaluate Builtin.table depth scope e = .ok x) :
    ∃ y, evaluate Builtin.table (max depth 0 + 1) scope (summed e) = .ok y ∧ (x == y) = true := by
  obtain ⟨c, u, hc, hu, hx⟩ := evaluate_ok_iff.mp h
  have hextends : Resolver.Extends (evaluate Builtin.table (max depth 0 + 1) scope)
      (evaluate Builtin.table depth scope) := fun _ ha => evaluate_of_le (by omega) ha
  have hdeep : ¬ TooDeep (replaceRounds Builtin.table (evaluate Builtin.table depth scope) depth
      depth.toNat c) := by
    rw [hu]
    rintro ⟨_, _, herror⟩
    exact absurd herror (by simp)
  have hrounds : replaceRounds Builtin.table (evaluate Builtin.table (max depth 0 + 1) scope) depth
      depth.toNat c = .ok u :=
    (replaceRounds_extends hextends (Nat.le_refl _) hdeep).trans hu
  have hspaces : OnlySpaces c := by
    obtain ⟨s, _, rfl⟩ := exists_canonical hc
    exact onlySpaces_canonical s
  obtain ⟨⟨hspaces, hdepth⟩, hflat⟩ :=
    replaceRounds_induction (P := fun t => OnlySpaces t ∧ depthThrough 0 t = depthThrough 0 c)
      (fun hround ht => ⟨hround.onlySpaces ht.1, (hround.depthThrough_eq 0).trans ht.2⟩)
      ⟨hspaces, rfl⟩ hrounds
  obtain ⟨d, hlexed, _⟩ := exists_lexed hx rfl hspaces
  have hbalanced : depthThrough 0 c = some 0 :=
    hdepth.symm.trans (imbalance_eq_none_iff.mp (imbalance_of_lexed hlexed))
  obtain ⟨lead, trail, hlead, htrail, hiff⟩ := evaluate_summed_iff hs hcomma hc hbalanced depth
  have hcall := (steady_of_lexed hs.names hlexed hspaces).call_sum_around hs hflat hlead htrail
    (max depth 0 + 1)
  obtain ⟨v, hv, halike⟩ := settleResult_total sumName.chars (isFinite_of_evaluate h)
  rw [hx] at hcall
  change _ = (settleResult sumName.chars (Builtin.total [x])).toOption at hcall
  rw [hv] at hcall
  have hfinite := isFinite_of_settleResult hv
  obtain ⟨y, hy, hsame⟩ := settleText_ofValue hfinite
  refine ⟨y, (hiff y).mpr ⟨u, hrounds, v, eq_ok_of_toOption hcall, hy⟩, ?_⟩
  exact (halike.beq hsame).trans (beq_of_alike (Alike.refl v) (isNaN_of_isFinite hfinite))

/-- A value of `sum` on a text is the value of the text, if that can be read once more. -/
theorem ok_of_evaluate_summed (hs : scope.Identifiers) (hcomma : ',' ∉ e)
    (hread : ∀ c, prepare scope e = .ok c → Rereadable scope c)
    (h : evaluate Builtin.table (max depth 0 + 1) scope (summed e) = .ok y) :
    ∃ x, evaluate Builtin.table depth scope e = .ok x ∧ (x == y) = true := by
  obtain ⟨_, _, hprepare, _⟩ := evaluate_ok_iff.mp h
  cases hc : prepare scope e with
  | error why =>
    have hfails := (prepare_called hs sumName hcomma).1 why hc
    exact absurd (hfails.symm.trans hprepare) (by simp)
  | ok c =>
  have hread := hread c hc
  have hsteady := hread.steady hcomma hc
  obtain ⟨lead, trail, hlead, htrail, hiff⟩ :=
    evaluate_summed_iff hs hcomma hc (imbalance_eq_none_iff.mp hread.balanced) depth
  obtain ⟨u, hu, v, hv, hy⟩ := (hiff y).mp h
  rw [hsteady.replaceRounds_eq hs depth _ depth] at hu
  obtain ⟨hsettled, hflat⟩ :=
    replaceRounds_induction (P := Steady scope.names) (fun hround => hround.steady hs.names)
      hsteady hu
  have hcall := hsettled.call_sum_around hs hflat hlead htrail (max depth 0 + 1)
  rw [hv] at hcall
  obtain ⟨x, hx, hsum⟩ := Option.bind_eq_some_iff.mp hcall.symm
  have hx := eq_ok_of_toOption hx
  have hsum := eq_ok_of_toOption hsum
  obtain ⟨v', hv', halike⟩ :=
    settleResult_total sumName.chars (isFinite_of_settleResult_total hsum)
  obtain rfl := Except.ok.inj (hsum.symm.trans hv')
  have hfinite := isFinite_of_settleResult hsum
  obtain ⟨y', hy', hsame⟩ := settleText_ofValue hfinite
  obtain rfl := Except.ok.inj (hy.symm.trans hy')
  refine ⟨x, evaluate_ok_iff.mpr ⟨c, u, hc, hu, hx⟩, ?_⟩
  exact (halike.beq hsame).trans (beq_of_alike (Alike.refl v) (isNaN_of_isFinite hfinite))

end Summed

/-- An argument means what it means on its own. A text without commas has a value only if `sum` on it
has an equal one, where one round more is allowed; and if the canonical text can be read once more,
`sum` on the text has a value only if the text has an equal one. -/
theorem evaluate_summed (hs : scope.Identifiers) (hcomma : ',' ∉ e) (depth : Int) :
    (∀ x, evaluate Builtin.table depth scope e = .ok x →
      ∃ y, evaluate Builtin.table (max depth 0 + 1) scope (summed e) = .ok y ∧ (x == y) = true) ∧
    ((∀ c, prepare scope e = .ok c → Rereadable scope c) →
      ∀ y, evaluate Builtin.table (max depth 0 + 1) scope (summed e) = .ok y →
        ∃ x, evaluate Builtin.table depth scope e = .ok x ∧ (x == y) = true) :=
  ⟨fun _ h => evaluate_summed_of_ok hs hcomma h,
    fun hread _ h => ok_of_evaluate_summed hs hcomma hread h⟩

/-- A text with a name and a line reference between parentheses. -/
def difference : List Char := "2*(rate-@9)".toList

theorem prepare_difference : prepare chargeScope difference = .ok "2*(7-3)".toList := by
  have hnames : chargeScope.names = [['r', 'a', 't', 'e']] := List.mergeSort_singleton _
  refine eq_ok_of_toOption ?_
  unfold prepare Scope.substitute
  rw [hnames]
  decide +kernel

theorem evaluate_summed_difference :
    chargeScope.Identifiers ∧ ',' ∉ difference ∧
      (∀ c, prepare chargeScope difference = .ok c → Rereadable chargeScope c) ∧
      ∃ y, evaluate Builtin.table 11 chargeScope (summed difference) = .ok y ∧ ((8 : Float) == y) = true ∧
        ∃ x, evaluate Builtin.table 10 chargeScope difference = .ok x ∧ (x == y) = true := by
  have hregular : chargeScope.Regular := ⟨by decide, by decide +kernel, by decide +kernel⟩
  have hs : chargeScope.Identifiers := hregular.identifiers
  have hcomma : ',' ∉ difference := by decide
  have hread : ∀ c, prepare chargeScope difference = .ok c → Rereadable chargeScope c := by
    intro c hc
    obtain rfl := Except.ok.inj (prepare_difference.symm.trans hc)
    have hunnamed : Unnamed chargeScope.names none ("2*(7-3)".toList ++ []) :=
      unnamed_append hs.names (List.all_iff_forall_prop.mp (by decide)) (unnamed_nil hs.names)
    exact ⟨by decide, by decide, hunnamed, by decide⟩
  have hvalue : evaluate Builtin.table 10 chargeScope difference = .ok 8 :=
    evaluate_ok_iff.mpr ⟨_, _, prepare_difference, replaceRounds_flat (by decide) 10 _,
      eq_ok_of_toOption (by decide +kernel)⟩
  obtain ⟨y, hy, hsame⟩ := (evaluate_summed hs hcomma 10).1 8 hvalue
  exact ⟨hs, hcomma, hread, y, hy, hsame, (evaluate_summed hs hcomma 10).2 hread y hy⟩

end Reckoner.Formula
