import Reckoner.Proofs.Formula.SubstitutedText

/-!
Meanings up to the signs of zeros. Operators and calls carry alike operands to alike results, so
the meaning of an expression does not change when parts of it are replaced by expressions of alike
meaning. In particular substitution keeps the meaning. What is left of the names afterwards has no
meaning in the scope.
-/
namespace Reckoner.Formula

open Text Number Arith

section Congruence

variable {a a' b b' : Option Float}

theorem sameOutcome_neg (h : SameOutcome a a') :
    SameOutcome (a.map fun x => -x) (a'.map fun x => -x) := by
  cases h with
  | none => exact .none
  | some hx => exact .some hx.neg

theorem sameOutcome_binary (op : Op) (h : SameOutcome a a') (h' : SameOutcome b b') :
    SameOutcome (do let x ← a; let y ← b; (op.apply x y).toOption)
      (do let x ← a'; let y ← b'; (op.apply x y).toOption) :=
  sameOutcome_bind h fun _ _ hx => sameOutcome_bind h' fun _ _ hy => sameOutcome_apply op hx hy

theorem sameOutcome_values {as bs : List (Option Float)} (h : List.Forall₂ SameOutcome as bs) :
    Option.Rel (List.Forall₂ Alike) (as.mapM id) (bs.mapM id) := by
  induction h with
  | nil => exact .some .nil
  | @cons a b as bs hab _ ih =>
    rw [List.mapM_cons, List.mapM_cons]
    cases hab with
    | none => exact .none
    | some hx =>
      revert ih
      generalize as.mapM id = xs
      generalize bs.mapM id = ys
      intro ih
      cases ih with
      | none => exact .none
      | some hxs => exact .some (.cons hx hxs)

variable {table : FunctionTable}

theorem sameOutcome_application (ht : table.Insensitive) (f : List Char) {xs ys : List Float}
    (h : List.Forall₂ Alike xs ys) :
    SameOutcome (application table f xs) (application table f ys) := by
  unfold application
  cases hg : table.find? f with
  | none => exact .none
  | some g =>
    dsimp only
    rw [h.length_eq]
    split
    · exact .none
    · exact sameOutcome_settleResult _ (ht _ (Assoc.mem_of_get? hg) xs ys h)

theorem sameOutcome_call (ht : table.Insensitive) (f : List Char) {as bs : List (Option Float)}
    (h : List.Forall₂ SameOutcome as bs) :
    SameOutcome (do let values ← as.mapM id; application table f values)
      (do let values ← bs.mapM id; application table f values) := by
  have hvalues := sameOutcome_values h
  revert hvalues
  generalize as.mapM id = xs
  generalize bs.mapM id = ys
  intro hvalues
  cases hvalues with
  | none => exact .none
  | some hxs => exact sameOutcome_application ht f hxs

theorem forall₂_map {α : Type} {R : Option Float → Option Float → Prop} {f g : α → Option Float}
    {l : List α} (h : ∀ e ∈ l, R (f e) (g e)) : List.Forall₂ R (l.map f) (l.map g) := by
  rw [List.forall₂_map_left_iff, List.forall₂_map_right_iff]
  exact List.forall₂_same.mpr h

end Congruence

namespace Scope

variable (scope : Scope)

/-- A known name means the value that is substituted for it. -/
theorem meaning_of_mem {n : List Char} (h : n ∈ scope.names) :
    scope.meaning n = some ((Assoc.get? scope.named n).getD 0) := by
  unfold meaning
  cases hn : Assoc.get? scope.named n with
  | some x => rfl
  | none =>
    have hpending := (List.mem_append.mp (mem_names.mp h)).resolve_left (Assoc.get?_eq_none.mp hn)
    dsimp only
    rw [if_pos hpending, Option.getD_none]

theorem meaning_of_not_mem {n : List Char} (h : n ∉ scope.names) : scope.meaning n = none := by
  have hn : n ∉ Assoc.keys scope.named ∧ n ∉ scope.pending := by
    rw [mem_names, List.mem_append] at h
    exact ⟨fun hk => h (Or.inl hk), fun hp => h (Or.inr hp)⟩
  unfold meaning
  rw [Assoc.get?_eq_none.mpr hn.1]
  exact if_neg hn.2

end Scope

section Subst

variable {table : FunctionTable} {scope : Scope}

/-- Substitution keeps the meaning. -/
theorem value_subst (ht : table.Insensitive) (hs : scope.Regular) (e : Expr) :
    SameOutcome ((e.subst scope).value table scope) (e.value table scope) := by
  unfold Expr.subst
  induction e with
  | numeral n =>
    rw [Expr.replace]
    exact sameOutcome_refl _
  | name n =>
    rw [Expr.replace, Expr.value]
    by_cases hn : n.chars ∈ scope.names
    · rw [Scope.nameExpr_of_mem hn, scope.meaning_of_mem hn]
      exact value_ofValue (Scope.named_getD_finite hs.named_finite _) table scope
    · rw [Scope.nameExpr_of_not_mem hn, Expr.value]
      exact sameOutcome_refl _
  | line r =>
    rw [Expr.replace, Expr.value]
    exact value_ofValue (hs.lineMeaning_finite r) table scope
  | group e ih =>
    rw [Expr.replace, Expr.value, Expr.value]
    exact ih
  | neg spaced e ih =>
    rw [Expr.replace, Expr.value, Expr.value]
    exact sameOutcome_neg ih
  | binary op l r ihl ihr =>
    rw [Expr.replace, Expr.value, Expr.value]
    exact sameOutcome_binary op ihl ihr
  | call f args ih =>
    rw [Expr.replace, Expr.value, Expr.value, List.map_map]
    exact sameOutcome_call ht f.chars (forall₂_map ih)

/-- Whether a lexeme means the same in every text: no line reference, and no name that the scope
knows. -/
def Lexeme.Closed (scope : Scope) : Lexeme → Prop
  | .name n => n.chars ∉ scope.names
  | .line _ => False
  | _ => True

def Closed (scope : Scope) (ls : List Lexeme) : Prop := ∀ a ∈ ls, a.Closed scope

theorem closed_append {ls ms : List Lexeme} :
    Closed scope (ls ++ ms) ↔ Closed scope ls ∧ Closed scope ms := List.forall_mem_append

theorem closed_cons {a : Lexeme} {ls : List Lexeme} :
    Closed scope (a :: ls) ↔ a.Closed scope ∧ Closed scope ls := List.forall_mem_cons

theorem closed_ofValue (x : Float) : Closed scope (Expr.ofValue x).lexemes := by
  unfold Expr.ofValue
  split <;> simp [Expr.lexemes, Closed, Lexeme.Closed]

/-- After substitution no known name and no line reference is left. -/
theorem closed_subst (e : Expr) : Closed scope (e.subst scope).lexemes := by
  intro a ha
  unfold Expr.subst at ha
  rw [lexemes_replace] at ha
  obtain ⟨b, _, hab⟩ := List.mem_flatMap.mp ha
  cases b with
  | name n =>
    change a ∈ (scope.nameExpr n).lexemes at hab
    by_cases hn : n.chars ∈ scope.names
    · rw [Scope.nameExpr_of_mem hn] at hab
      exact closed_ofValue _ a hab
    · rw [Scope.nameExpr_of_not_mem hn, Expr.lexemes] at hab
      obtain rfl := List.mem_singleton.mp hab
      exact hn
  | line r => exact closed_ofValue _ a hab
  | _ =>
    obtain rfl := List.mem_singleton.mp hab
    exact trivial

theorem nesting_subst (e : Expr) : (e.subst scope).nesting = e.nesting := by
  refine nesting_replace (fun n => ?_) (fun r => nesting_ofValue _) e
  by_cases hn : n.chars ∈ scope.names
  · rw [Scope.nameExpr_of_mem hn]
    exact nesting_ofValue _
  · rw [Scope.nameExpr_of_not_mem hn, Expr.nesting]

theorem levelled_subst {e : Expr} (h : e.Levelled) : (e.subst scope).Levelled := by
  refine levelled_replace (fun n => ?_) (fun r => level_ofValue _) (fun n => ?_)
    (fun r => levelled_ofValue _) h
  · by_cases hn : n.chars ∈ scope.names
    · rw [Scope.nameExpr_of_mem hn]
      exact level_ofValue _
    · rw [Scope.nameExpr_of_not_mem hn]
      rfl
  · by_cases hn : n.chars ∈ scope.names
    · rw [Scope.nameExpr_of_mem hn]
      exact levelled_ofValue _
    · rw [Scope.nameExpr_of_not_mem hn]
      exact .name n

end Subst

end Reckoner.Formula
