import Reckoner.Proofs.Formula.DressedValues
import Reckoner.Proofs.Text.Spans

/-!
Texts that refer to no line. No step of an evaluation makes a line reference, so the arguments of
their calls refer to no line either, and their value is the same whatever results the lines have.
Where no name is known either, substitution leaves such a text as it is.
-/
namespace Reckoner.Formula

open Text Number Arith

section Characters

variable {s t : List Char} {c : Char}

theorem mem_spaceAfterNames {named : Bool} (h : c ∈ spaceAfterNames named s) :
    c = ' ' ∨ c ∈ s := by
  induction s generalizing named with
  | nil => exact absurd h List.not_mem_nil
  | cons d r ih =>
    have hkept : ∀ {named}, c ∈ d :: spaceAfterNames named r → c = ' ' ∨ c ∈ d :: r := by
      intro named hmem
      rcases List.mem_cons.mp hmem with rfl | hmem
      · exact Or.inr List.mem_cons_self
      · exact (ih hmem).imp_right (List.mem_cons_of_mem d)
    unfold spaceAfterNames at h
    split at h
    · exact hkept h
    · split at h
      · rcases List.mem_cons.mp h with rfl | h
        · exact Or.inl rfl
        · exact hkept h
      · split at h
        · exact (ih h).imp_right (List.mem_cons_of_mem d)
        · exact hkept h

theorem mem_spaceBeforeNames {spaced : Bool} (h : c ∈ spaceBeforeNames spaced s) :
    c = ' ' ∨ c ∈ s := by
  induction s generalizing spaced with
  | nil => exact absurd h List.not_mem_nil
  | cons d r ih =>
    have hlater : ∀ {spaced}, c ∈ spaceBeforeNames spaced r → c = ' ' ∨ c ∈ d :: r :=
      fun hmem => (ih hmem).imp_right (List.mem_cons_of_mem d)
    unfold spaceBeforeNames at h
    split at h
    · exact hlater h
    · split at h
      · rcases List.mem_cons.mp h with rfl | h
        · exact Or.inr List.mem_cons_self
        · exact (List.mem_cons.mp h).elim Or.inl hlater
      · rcases List.mem_cons.mp h with rfl | h
        · exact Or.inr List.mem_cons_self
        · exact hlater h

theorem mem_collapseBlanks {after : Bool} (h : c ∈ collapseBlanks after s) : c = ' ' ∨ c ∈ s := by
  induction s generalizing after with
  | nil => exact absurd h List.not_mem_nil
  | cons d r ih =>
    have hlater : ∀ {after}, c ∈ collapseBlanks after r → c = ' ' ∨ c ∈ d :: r :=
      fun hmem => (ih hmem).imp_right (List.mem_cons_of_mem d)
    unfold collapseBlanks at h
    split at h
    · split at h
      · exact hlater h
      · exact (List.mem_cons.mp h).elim Or.inl hlater
    · rcases List.mem_cons.mp h with rfl | h
      · exact Or.inr List.mem_cons_self
      · exact hlater h

/-- The canonical form is made of spaces and of what the characters of the text stand for. -/
theorem mem_canonical (h : c ∈ canonical s) : c = ' ' ∨ ∃ d ∈ s, operatorOf d = c := by
  have hbare : ∀ {c}, c ∈ ungroup (dropCurrency ((dropEquals (trim (dropTags s))).map operatorOf)) →
      ∃ d ∈ s, operatorOf d = c := by
    intro c hc
    obtain ⟨d, hd, rfl⟩ := List.mem_map.mp
      (List.filter_sublist.subset ((ungroupFrom_sublist .start false _).subset hc))
    refine ⟨d, ?_, rfl⟩
    exact (((dropEquals_sublist _).trans (trim_sublist _)).trans
      (dropTagsFrom_sublist false s)).subset hd
  rcases mem_collapseBlanks ((trim_sublist _).subset h) with hspace | h
  · exact Or.inl hspace
  rcases mem_spaceBeforeNames h with hspace | h
  · exact Or.inl hspace
  · exact (mem_spaceAfterNames h).imp_right hbare

theorem not_mem_canonical (hc : c ∉ [' ', '*', '/', '-']) (h : c ∉ s) : c ∉ canonical s := by
  obtain ⟨hspace, hsign⟩ := List.ne_and_not_mem_of_not_mem_cons hc
  intro hmem
  rcases mem_canonical hmem with heq | ⟨d, hd, heq⟩
  · exact hspace heq
  · exact h (eq_of_operatorOf_eq hsign heq ▸ hd)

/-- The text of a value holds digits and a few marks. -/
theorem not_mem_literal {x : Float} (hdigit : isDigit c = false) (hmark : c ∉ ['.', '(', '-', ')'])
    (h : literal x = .ok t) : c ∉ t := by
  intro hc
  rcases mem_literal h c hc with hc | hc
  · exact Bool.false_ne_true (hdigit.symm.trans hc)
  · exact hmark hc

theorem argument_sublist {a : List Char} (h : a ∈ splitArguments s) : (trim a).Sublist s := by
  unfold splitArguments at h
  split at h
  · exact absurd h List.not_mem_nil
  · obtain ⟨piece, hpiece, rfl⟩ := List.mem_map.mp h
    exact (trim_sublist _).trans ((trim_sublist piece).trans (piecesFrom_sublist 0 piece hpiece))

end Characters

section Substitution

variable {scope : Scope} {s t : List Char}

theorem substituteLines_unreferenced (h : '@' ∉ s) : scope.substituteLines false s = .ok s := by
  induction s with
  | nil => rfl
  | cons c r ih =>
    obtain ⟨hc, hr⟩ := List.ne_and_not_mem_of_not_mem_cons h
    rw [Scope.substituteLines, Bool.false_and, if_neg Bool.false_ne_true]
    dsimp only
    rw [if_neg fun hat => hc hat.1.symm, ih hr]
    rfl

theorem nameAt?_of_no_names (last : Option Char) (s : List Char) :
    Scope.nameAt? [] last s = none := ite_self none

theorem substituteNames_of_no_names (last : Option Char) (s : List Char) :
    scope.substituteNames [] last 0 s = .ok s := by
  induction s generalizing last with
  | nil =>
    rw [Scope.substituteNames, nameAt?_of_no_names, if_neg (by simp)]
  | cons c r ih =>
    rw [Scope.substituteNames, nameAt?_of_no_names]
    dsimp only
    rw [ih]
    rfl

theorem names_empty : Scope.empty.names = [] := List.mergeSort_nil

/-- Where nothing is known, a text without line references stays as it is. -/
theorem substitute_of_no_names (hnames : scope.names = []) (h : '@' ∉ s) :
    scope.substitute s = .ok s := by
  unfold Scope.substitute
  rw [substituteLines_unreferenced h, hnames]
  exact substituteNames_of_no_names none s

section Values

variable {c : Char} (hdigit : isDigit c = false) (hmark : c ∉ ['.', '(', '-', ')'])
include hdigit hmark

theorem not_mem_lineLiteral {digits : List Char} (h : scope.lineLiteral digits = .ok t) :
    c ∉ t := by
  unfold Scope.lineLiteral at h
  split at h
  · exact absurd h (by simp)
  · split at h
    · exact not_mem_literal hdigit hmark h
    · obtain rfl := Except.ok.inj h
      intro hc
      rw [List.mem_singleton.mp hc] at hdigit
      exact absurd hdigit (by decide)

theorem not_mem_substituteLines {within : Bool} (hs : c ∉ s)
    (h : scope.substituteLines within s = .ok t) : c ∉ t := by
  induction s generalizing within t with
  | nil =>
    unfold Scope.substituteLines at h
    obtain rfl := Except.ok.inj h
    exact hs
  | cons d r ih =>
    obtain ⟨hd, hr⟩ := List.ne_and_not_mem_of_not_mem_cons hs
    unfold Scope.substituteLines at h
    split at h
    · exact ih hr h
    · dsimp only at h
      split at h
      · obtain ⟨value, hvalue, h⟩ := bind_eq_ok h
        obtain ⟨rest, hrest, h⟩ := bind_eq_ok h
        obtain rfl := Except.ok.inj h
        exact fun hmem => (List.mem_append.mp hmem).elim
          (not_mem_lineLiteral hdigit hmark hvalue) (ih hr hrest)
      · obtain ⟨rest, hrest, h⟩ := bind_eq_ok h
        obtain rfl := Except.ok.inj h
        exact List.not_mem_cons_of_ne_of_not_mem hd (ih hr hrest)

theorem not_mem_substituteNames {names : List (List Char)} {last : Option Char} {skip : Nat}
    (hs : c ∉ s) (h : scope.substituteNames names last skip s = .ok t) : c ∉ t := by
  have hspliced : ∀ {v u : List Char}, c ∉ v → c ∉ u → c ∉ v ++ u :=
    fun hv hu hmem => (List.mem_append.mp hmem).elim hv hu
  induction s generalizing last skip t with
  | nil =>
    unfold Scope.substituteNames at h
    split at h
    · exact not_mem_literal hdigit hmark h
    · obtain rfl := Except.ok.inj h
      exact hs
  | cons d r ih =>
    obtain ⟨hd, hr⟩ := List.ne_and_not_mem_of_not_mem_cons hs
    unfold Scope.substituteNames at h
    split at h
    · exact ih hr h
    · split at h
      · obtain ⟨rest, hrest, h⟩ := bind_eq_ok h
        obtain rfl := Except.ok.inj h
        exact List.not_mem_cons_of_ne_of_not_mem hd (ih hr hrest)
      · obtain ⟨value, hvalue, h⟩ := bind_eq_ok h
        obtain ⟨rest, hrest, h⟩ := bind_eq_ok h
        obtain rfl := Except.ok.inj h
        exact hspliced (not_mem_literal hdigit hmark hvalue)
          (List.not_mem_cons_of_ne_of_not_mem hd (ih hr hrest))
      · obtain ⟨value, hvalue, h⟩ := bind_eq_ok h
        obtain ⟨rest, hrest, h⟩ := bind_eq_ok h
        obtain rfl := Except.ok.inj h
        exact hspliced (not_mem_literal hdigit hmark hvalue) (ih hr hrest)

/-- Substitution brings only characters of values. -/
theorem not_mem_substitute (hs : c ∉ s) (h : scope.substitute s = .ok t) : c ∉ t := by
  obtain ⟨u, hu, h⟩ := bind_eq_ok h
  exact not_mem_substituteNames hdigit hmark (not_mem_substituteLines hdigit hmark hs hu) h

end Values

theorem exists_canonical (h : prepare scope s = .ok t) :
    ∃ u, scope.substitute s = .ok u ∧ t = canonical u := by
  obtain ⟨u, hu, h⟩ := bind_eq_ok h
  exact ⟨u, asBreakdown_eq_ok hu, (Except.ok.inj h).symm⟩

theorem at_not_mem_prepare (hs : '@' ∉ s) (h : prepare scope s = .ok t) : '@' ∉ t := by
  obtain ⟨u, hu, rfl⟩ := exists_canonical h
  exact not_mem_canonical (by decide) (not_mem_substitute (by decide) (by decide) hs hu)

end Substitution

section Rounds

variable {table : FunctionTable} {resolve resolve' : Resolver} {s t : List Char}

theorem at_not_mem_replaceCalls {calls : List Call} (hs : '@' ∉ s)
    (h : replaceCalls table resolve s calls = .ok t) : '@' ∉ t := by
  induction calls generalizing t with
  | nil =>
    obtain rfl := Except.ok.inj h
    exact hs
  | cons c later ih =>
    obtain ⟨u, x, value, hu, _, hvalue, rfl⟩ := replaceCalls_cons_eq_ok h
    have hu := ih hu
    intro hmem
    rcases List.mem_append.mp hmem with hmem | hmem
    · rcases List.mem_append.mp hmem with hmem | hmem
      · exact hu ((List.take_sublist _ _).subset hmem)
      · exact not_mem_literal (by decide) (by decide) hvalue hmem
    · exact hu ((List.drop_sublist _ _).subset hmem)

theorem rest_sublist {last : Option Char} {position : Nat} {call : CallStart}
    (h : call ∈ callStartsFrom last position s) : call.rest.Sublist s := by
  induction s generalizing last position with
  | nil => exact absurd h List.not_mem_nil
  | cons c r ih =>
    have hlater : call ∈ callStartsFrom (some c) (position + 1) r → call.rest.Sublist (c :: r) :=
      fun hmem => (ih hmem).cons c
    unfold callStartsFrom at h
    dsimp only at h
    split at h
    · split at h
      · rename_i first hfirst
        rcases List.mem_cons.mp h with rfl | h
        · exact (callStartAt?_spec hfirst).2.trans (List.dropWhile_sublist isWord)
        · exact hlater h
      · exact hlater h
    · exact hlater h

theorem arguments_sublist {calls : List Call} {c : Call} (h : innermostCalls s = .ok calls)
    (hc : c ∈ calls) : c.arguments.Sublist s := by
  obtain ⟨call, hcall, _, _, harguments⟩ := mem_innermostAmong h hc
  exact harguments.trans (rest_sublist hcall)

/-- Only what a resolver gives for texts with fewer letters and no line references matters. -/
theorem replaceRounds_unreferenced (hs : '@' ∉ s)
    (h : ∀ a, letterCount a < letterCount s → '@' ∉ a → resolve a = resolve' a)
    (bound : Int) (left : Nat) :
    replaceRounds table resolve bound left s = replaceRounds table resolve' bound left s := by
  refine replaceRounds_eq_of_step (P := fun t => '@' ∉ t ∧ letterCount t ≤ letterCount s)
    ?_ ?_ ⟨hs, Nat.le_refl _⟩ bound left
  · rintro t calls ⟨ht, hle⟩ hcalls
    refine replaceCalls_congr (fun c hc a ha => h _ ?_ fun hat => ht ?_) t
    · exact (letterCount_argument ha).trans_lt ((mem_innermostCalls hcalls hc).2.trans_le hle)
    · exact ((argument_sublist ha).trans (arguments_sublist hcalls hc)).subset hat
  · rintro t calls u ⟨ht, hle⟩ hcalls hround
    have hspans := fun c hc => (mem_innermostCalls hcalls (c := c) hc).1
    exact ⟨at_not_mem_replaceCalls ht hround, (letterCount_replaceCalls hspans hround).trans hle⟩

end Rounds

section Value

variable {s : List Char}

theorem substituteNames_lines (scope : Scope) (lines : Assoc Int Float) (names : List (List Char))
    (last : Option Char) (skip : Nat) (s : List Char) :
    Scope.substituteNames { scope with lines } names last skip s =
      scope.substituteNames names last skip s := by
  induction s generalizing last skip with
  | nil =>
    unfold Scope.substituteNames
    rfl
  | cons c r ih =>
    have hliteral : ∀ n, Scope.nameLiteral { scope with lines } n = scope.nameLiteral n :=
      fun _ => rfl
    unfold Scope.substituteNames
    simp only [ih, hliteral]

theorem prepare_lines (scope : Scope) (lines : Assoc Int Float) (h : '@' ∉ s) :
    prepare { scope with lines } s = prepare scope s := by
  unfold prepare Scope.substitute
  rw [substituteLines_unreferenced h, substituteLines_unreferenced h]
  exact congrArg (fun r => (asBreakdown r).bind fun t => Except.ok (canonical t))
    (substituteNames_lines scope lines scope.names none 0 s)

/-- The value of a text that refers to no line does not depend on the results of lines. -/
theorem evaluate_lines (table : FunctionTable) (depth : Int) (scope : Scope)
    (lines : Assoc Int Float) (h : '@' ∉ s) :
    evaluate table depth { scope with lines } s = evaluate table depth scope s := by
  induction hn : letterCount s using Nat.strongRecOn generalizing s with
  | ind n ih =>
    rw [evaluate_rounds, evaluate_rounds table depth scope, prepare_lines scope lines h]
    refine bind_congr_of_ok fun text hprepare => ?_
    have hcalls : resolveCalls table (evaluate table depth { scope with lines }) depth text =
        resolveCalls table (evaluate table depth scope) depth text := by
      refine replaceRounds_unreferenced (at_not_mem_prepare h hprepare) (fun a ha hat => ?_) _ _
      exact ih _ (hn ▸ ha.trans_le (letterCount_prepare hprepare)) hat rfl
    rw [hcalls]

theorem canonical_trim (h : '<' ∉ s) : canonical (trim s) = canonical s := by
  have htrim : '<' ∉ trim s := fun hmem => h ((trim_sublist s).subset hmem)
  unfold canonical
  rw [dropTags_eq htrim, dropTags_eq h, trim_trim]

/-- Where no name is known, outer white space does not matter to a text without markup. -/
theorem evaluate_trim {scope : Scope} (table : FunctionTable) (depth : Int) (hnames : scope.names = [])
    (hat : '@' ∉ s) (htags : '<' ∉ s) :
    evaluate table depth scope (trim s) = evaluate table depth scope s := by
  have hprepare : prepare scope (trim s) = prepare scope s := by
    unfold prepare
    rw [substitute_of_no_names hnames hat, substitute_of_no_names hnames
      fun hmem => hat ((trim_sublist s).subset hmem)]
    exact congrArg Except.ok (canonical_trim htags)
  rw [evaluate_rounds, hprepare, ← evaluate_rounds]

end Value

end Reckoner.Formula
