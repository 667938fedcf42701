import Reckoner.Proofs.Formula.CallText

/-!
Reading the text of an arithmetic expression. The tokens of the text are those of its lexemes, its
parentheses balance, and a run over the tokens of an expression leaves exactly the operands of the
expression waiting, so the parser returns the tree of the expression.
-/
namespace Reckoner.Formula

open Text Number Arith

/-- Expressions without names, line references and calls. -/
inductive Expr.Arithmetic : Expr → Prop
  | numeral (n) : Arithmetic (.numeral n)
  | group {e} : Arithmetic e → Arithmetic (.group e)
  | neg {spaced e} : Arithmetic e → Arithmetic (.neg spaced e)
  | binary {op l r} : Arithmetic l → Arithmetic r → Arithmetic (.binary op l r)

/-- The tree of an arithmetic expression. -/
def Expr.tree : Expr → Tree
  | numeral n => .number n.text
  | group e => e.tree
  | neg _ e => .neg e.tree
  | binary op l r => .binary op l.tree r.tree
  | _ => .number []

/-- The token that an arithmetic lexeme is read as. -/
def Lexeme.token : Lexeme → Token
  | minus _ => .operator .sub
  | operator op => .operator op
  | opening => .opening
  | closing => .closing
  | a => .number a.text

def Lexeme.arithmetic : Lexeme → Bool
  | name _ | line _ | callee _ | comma => false
  | _ => true

theorem Expr.Arithmetic.lexemes {e : Expr} (h : e.Arithmetic) :
    ∀ a ∈ e.lexemes, a.arithmetic = true := by
  induction h with
  | numeral n =>
    rw [Expr.lexemes]
    exact fun a ha => List.mem_singleton.mp ha ▸ rfl
  | group _ ih =>
    rw [Expr.lexemes, List.cons_append, List.forall_mem_cons, List.forall_mem_append]
    exact ⟨rfl, ih, fun a ha => List.mem_singleton.mp ha ▸ rfl⟩
  | neg _ ih =>
    rw [Expr.lexemes, List.forall_mem_cons]
    exact ⟨rfl, ih⟩
  | binary _ _ ihl ihr =>
    rw [Expr.lexemes, List.forall_mem_append, List.forall_mem_cons]
    exact ⟨ihl, rfl, ihr⟩

section Tokens

variable {position : Nat}

theorem takeLiteral_text (n : Numeral) {s : List Char}
    (hs : ∀ c ∈ s.head?, isDigit c = false ∧ c ≠ '.') : takeLiteral (n.text ++ s) = n.text := by
  have hdigit : ∀ c ∈ s.head?, isDigit c = false := fun c hc => (hs c hc).1
  obtain ⟨whole, fraction, hw, hf, hne⟩ := n
  unfold takeLiteral Numeral.text
  cases fraction with
  | none =>
    dsimp only
    rw [takeWhile_append_stop hw hdigit, dropWhile_append_stop hw hdigit]
    split
    · exact absurd rfl (hs '.' rfl).2
    · rfl
  | some f =>
    have hf' : AllDigits f := hf
    have hpoint : ∀ c ∈ ('.' :: f ++ s).head?, isDigit c = false := by
      intro c hc
      obtain rfl := Option.some.inj hc
      decide
    dsimp only
    rw [List.append_assoc, takeWhile_append_stop hw hpoint, dropWhile_append_stop hw hpoint]
    change (if whole.isEmpty && ((f ++ s).takeWhile isDigit).isEmpty then []
      else whole ++ '.' :: (f ++ s).takeWhile isDigit) = _
    rw [takeWhile_append_stop hf' hdigit, if_neg]
    rw [Bool.and_eq_true, List.isEmpty_iff, List.isEmpty_iff]
    rintro ⟨rfl, rfl⟩
    exact hne rfl

theorem takeLiteral_nil {c : Char} (hdigit : isDigit c = false) (hpoint : c ≠ '.') (r : List Char) :
    takeLiteral (c :: r) = [] := by
  have hc : ¬ isDigit c = true := by rw [hdigit]; exact Bool.false_ne_true
  unfold takeLiteral
  rw [List.takeWhile_cons_of_neg hc, List.dropWhile_cons_of_neg hc]
  split
  · rename_i heq
    exact absurd (List.cons.inj heq).1 hpoint
  · rfl

theorem tokens_gap {c : Char} (h : isGap c = true) (r : List Char) :
    tokens position (c :: r) = tokens (position + 1) r := by
  rw [tokens, if_pos h]

/-- A token at the beginning of a text, and the tokens of the rest. -/
theorem tokens_cons (position : Nat) {c : Char} (h : isGap c = false) {r s : List Char}
    {token : Token}
    (htoken : tokenAt c (c :: r) = token) (hdrop : r.drop (token.text.length - 1) = s) :
    ∃ next, tokens position (c :: r) = (position, token) :: tokens next s := by
  rw [tokens, if_neg (by rw [h]; exact Bool.false_ne_true)]
  dsimp only
  rw [htoken, hdrop]
  exact ⟨_, rfl⟩

theorem isGap_of_isBlank {c : Char} (h : isBlank c = false) : isGap c = false := by
  rw [Bool.eq_false_iff]
  intro hgap
  unfold isGap at hgap
  simp only [Bool.or_eq_true, beq_iff_eq] at hgap
  rcases hgap with (((rfl | rfl) | rfl) | rfl) | rfl <;> exact absurd h (by decide)

theorem tokenAt_symbol (op : Op) (r : List Char) :
    tokenAt op.symbol (op.symbol :: r) = .operator op := by
  unfold tokenAt
  rw [takeLiteral_nil (by cases op <;> decide) (by cases op <;> decide)]
  cases op <;> rfl

theorem tokens_symbol (position : Nat) (op : Op) (r : List Char) :
    ∃ next, tokens position (op.symbol :: r) = (position, .operator op) :: tokens next r :=
  tokens_cons position (by cases op <;> decide) (tokenAt_symbol op r) rfl

theorem tokenAt_opening (r : List Char) : tokenAt '(' ('(' :: r) = .opening := by
  unfold tokenAt
  rw [takeLiteral_nil (by decide) (by decide)]
  rfl

theorem tokenAt_closing (r : List Char) : tokenAt ')' (')' :: r) = .closing := by
  unfold tokenAt
  rw [takeLiteral_nil (by decide) (by decide)]
  rfl

theorem tokens_opening (position : Nat) (r : List Char) :
    ∃ next, tokens position ('(' :: r) = (position, .opening) :: tokens next r :=
  tokens_cons position (by decide) (tokenAt_opening r) rfl

theorem tokens_closing (position : Nat) (r : List Char) :
    ∃ next, tokens position (')' :: r) = (position, .closing) :: tokens next r :=
  tokens_cons position (by decide) (tokenAt_closing r) rfl

theorem tokens_numeral (position : Nat) (n : Numeral) {s : List Char}
    (hs : ∀ c ∈ s.head?, isDigit c = false ∧ c ≠ '.') :
    ∃ next, tokens position (n.text ++ s) = (position, .number n.text) :: tokens next s := by
  obtain ⟨c, r, hn⟩ := List.exists_cons_of_ne_nil (numeral_text_ne_nil n)
  have hliteral := takeLiteral_text n hs
  have hgap : isGap c = false :=
    isGap_of_isBlank (solid_numeral n c (by rw [hn]; exact List.mem_cons_self)).2.1
  rw [hn, List.cons_append] at hliteral ⊢
  refine tokens_cons position hgap ?_ ?_
  · unfold tokenAt
    rw [hliteral]
  · change (r ++ s).drop ((c :: r).length - 1) = s
    rw [List.length_cons, Nat.add_sub_cancel, List.drop_left]

/-- The tokens of a text are those of its lexemes. -/
theorem tokens_textOf {ls : List Lexeme} (hls : Phrase ls) (ha : ∀ a ∈ ls, a.arithmetic = true) :
    (tokens position (textOf ls)).map (·.2) = ls.map Lexeme.token := by
  induction ls generalizing position with
  | nil => rw [textOf_nil, tokens]; rfl
  | cons a ls ih =>
    have hrest : ∀ position, (tokens position (textOf ls)).map (·.2) = ls.map Lexeme.token :=
      fun position => ih hls.tail fun b hb => ha b (List.mem_cons_of_mem a hb)
    have hhead := ha a List.mem_cons_self
    have hgap : ∀ position s, tokens position (' ' :: s) = tokens (position + 1) s :=
      fun position s => tokens_gap (by decide) s
    have hcons : ∀ {next : Nat} {token : Token} {s : List Char},
        tokens position s = (position, token) :: tokens next (textOf ls) →
          (tokens position s).map (·.2) = token :: ls.map Lexeme.token := fun {next} _ _ h => by
      rw [h, List.map_cons, hrest next]
    rw [textOf_cons, List.map_cons]
    cases a with
    | name n | line r | callee f | comma => exact absurd hhead Bool.false_ne_true
    | numeral n =>
      have hboundary := hls.boundary rfl
      obtain ⟨next, hnext⟩ := tokens_numeral position n fun c hc =>
        ⟨hboundary.head_not_digit c hc, hboundary.head_ne_point c hc⟩
      exact hcons hnext
    | minus spaced =>
      cases spaced with
      | false =>
        obtain ⟨next, hnext⟩ := tokens_symbol position .sub (textOf ls)
        exact hcons hnext
      | true =>
        obtain ⟨next, hnext⟩ := tokens_symbol position .sub (' ' :: textOf ls)
        rw [hgap] at hnext
        exact hcons hnext
    | operator op =>
      obtain ⟨next, hnext⟩ := tokens_symbol (position + 1) op (' ' :: textOf ls)
      rw [hgap next] at hnext
      change (tokens position (' ' :: op.symbol :: ' ' :: textOf ls)).map (·.2) = _
      rw [hgap, hnext, List.map_cons, hrest]
      rfl
    | opening =>
      obtain ⟨next, hnext⟩ := tokens_opening position (textOf ls)
      exact hcons hnext
    | closing =>
      obtain ⟨next, hnext⟩ := tokens_closing position (textOf ls)
      exact hcons hnext

end Tokens

section Balance

theorem imbalanceFrom_opening (opened : List Nat) (position : Nat) (r : List Char) :
    imbalanceFrom opened position ('(' :: r) =
      imbalanceFrom (position :: opened) (position + 1) r :=
  rfl

theorem imbalanceFrom_closing (last : Nat) (opened : List Nat) (position : Nat) (r : List Char) :
    imbalanceFrom (last :: opened) position (')' :: r) = imbalanceFrom opened (position + 1) r :=
  rfl

theorem imbalanceFrom_other {c : Char} (hopen : c ≠ '(') (hclose : c ≠ ')') (opened : List Nat)
    (position : Nat) (r : List Char) :
    imbalanceFrom opened position (c :: r) = imbalanceFrom opened (position + 1) r :=
  (if_neg hopen).trans (if_neg hclose)

/-- Texts that leave the open parentheses as they are. -/
def Closes (t : List Char) : Prop :=
  ∀ opened position s, imbalanceFrom opened position (t ++ s) =
    imbalanceFrom opened (position + t.length) s

theorem closes_solid {t : List Char} (ht : ∀ c ∈ t, c ≠ '(' ∧ c ≠ ')') : Closes t := by
  intro opened position s
  induction t generalizing position with
  | nil => rfl
  | cons c t ih =>
    obtain ⟨hopen, hclose⟩ := ht c List.mem_cons_self
    rw [List.cons_append, imbalanceFrom_other hopen hclose,
      ih fun d hd => ht d (List.mem_cons_of_mem c hd), List.length_cons, Nat.add_right_comm,
      Nat.add_assoc]

theorem Closes.append {t u : List Char} (ht : Closes t) (hu : Closes u) : Closes (t ++ u) := by
  intro opened position s
  rw [List.append_assoc, ht, hu, List.length_append, Nat.add_assoc]

theorem Closes.enclosed {t : List Char} (ht : Closes t) : Closes ('(' :: t ++ [')']) := by
  intro opened position s
  rw [List.cons_append, List.cons_append, imbalanceFrom_opening, List.append_assoc, ht,
    List.singleton_append, imbalanceFrom_closing, List.length_cons, List.length_append,
    List.length_singleton]
  congr 1
  omega

theorem closes_lexeme {a : Lexeme} (ho : a ≠ .opening) (hc : a ≠ .closing) : Closes a.text :=
  closes_solid (solid_lexeme ho hc)

/-- The parentheses of an arithmetic text are balanced. -/
theorem Expr.Arithmetic.closes {e : Expr} (h : e.Arithmetic) : Closes (textOf e.lexemes) := by
  induction h with
  | numeral n =>
    rw [Expr.lexemes, textOf_cons, textOf_nil, List.append_nil]
    exact closes_lexeme (by simp) (by simp)
  | group _ ih =>
    rw [Expr.lexemes, List.cons_append, textOf_cons, textOf_append]
    exact ih.enclosed
  | neg _ ih =>
    rw [Expr.lexemes, textOf_cons]
    exact (closes_lexeme (by simp) (by simp)).append ih
  | binary _ _ ihl ihr =>
    rw [Expr.lexemes, textOf_append, textOf_cons]
    exact ihl.append ((closes_lexeme (by simp) (by simp)).append ihr)

theorem imbalance_eq_none {t : List Char} (h : Closes t) : imbalance t = none := by
  have hend := h [] 0 []
  rw [List.append_nil] at hend
  exact hend

end Balance

section Reading

/-- What a run over the tokens of an expression does. After an operand is asked for, the run ends
with operands waiting that make up the expression; their operators bind as tight as it. An
expression that holds together is taken as a whole. -/
structure Expr.Read (e : Expr) : Prop where
  operand : ∀ stack, Passes e.level stack → ∃ pending t,
    (State.operand stack).after? (e.lexemes.map Lexeme.token) =
        some (.operator (waiting pending ++ stack) t) ∧
      collapse pending t = e.tree ∧ ∀ f ∈ pending, e.level ≤ f.2.level
  primary : 5 ≤ e.level → ∀ stack,
    (State.primary stack).after? (e.lexemes.map Lexeme.token) = some (settle stack e.tree)

/-- Expressions that hold together are read the same way wherever they stand. -/
theorem read_of_primary {e : Expr}
    (h : ∀ stack, (State.operand stack).after? (e.lexemes.map Lexeme.token) =
        some (settle stack e.tree) ∧
      (State.primary stack).after? (e.lexemes.map Lexeme.token) = some (settle stack e.tree)) :
    e.Read := by
  refine ⟨fun stack hs => ⟨[], e.tree, ?_, rfl, fun _ hf => absurd hf List.not_mem_nil⟩,
    fun _ stack => (h stack).2⟩
  rw [(h stack).1, settle_of_passes hs]
  rfl

theorem level_lt (op : Op) : op.level < 5 := by
  cases op <;> decide

theorem Expr.Arithmetic.read {e : Expr} (ha : e.Arithmetic) (hl : e.Levelled) : e.Read := by
  induction ha with
  | numeral n =>
    refine read_of_primary fun stack => ?_
    rw [Expr.lexemes]
    exact ⟨rfl, rfl⟩
  | @group e _ ih =>
    cases hl with
    | group hl =>
      refine read_of_primary fun stack => ?_
      obtain ⟨pending, t, hrun, htree, _⟩ := (ih hl).operand (.paren :: stack) trivial
      have hinner : (State.operand (.paren :: stack)).after?
          ((e.lexemes ++ [Lexeme.closing]).map Lexeme.token) = some (settle stack e.tree) := by
        have hjoin : joinAll (waiting pending ++ .paren :: stack) t =
            (.paren :: stack, e.tree) := by
          rw [joinAll_waiting, htree]
          rfl
        rw [List.map_append, State.after?_append, hrun, Option.bind_some]
        exact congrArg (Option.bind · _) (next?_closing hjoin)
      rw [Expr.lexemes, List.cons_append, List.map_cons, State.after?_cons, State.after?_cons]
      exact ⟨hinner, hinner⟩
  | @neg spaced e _ ih =>
    cases hl with
    | neg hlevel hl =>
      refine ⟨fun stack hs => ⟨[], _, ?_, rfl, fun _ hf => absurd hf List.not_mem_nil⟩,
        fun h => absurd h (Nat.not_succ_le_self 4)⟩
      have hinner := (ih hl).primary hlevel (.minus :: stack)
      rw [Expr.lexemes, List.map_cons, State.after?_cons]
      exact hinner
  | @binary op l r _ _ ihl ihr =>
    cases hl with
    | binary hleft hright hl hr =>
      refine ⟨fun stack hs => ?_, fun h => absurd h (Nat.not_le.mpr (level_lt op))⟩
      have hlevel : op.level ≤ l.level := Nat.le_trans (by cases op <;> decide) hleft
      obtain ⟨earlier, t, hrun, htree, hpending⟩ := (ihl hl).operand stack (hs.mono hlevel)
      obtain ⟨later, u, hrun', htree', hpending'⟩ :=
        (ihr hr).operand (.left l.tree op :: stack) hright
      have hjoin : joinBefore op (waiting earlier ++ stack) t = (stack, l.tree) := by
        rw [joinBefore_waiting fun f hf =>
          takesBefore_of_leftLevel (Nat.le_trans hleft (hpending f hf)), htree]
        exact joinBefore_of_passes hs
      refine ⟨later ++ [(l.tree, op)], u, ?_, ?_, ?_⟩
      · rw [Expr.lexemes, List.map_append, State.after?_append, hrun, Option.bind_some,
          List.map_cons, State.after?_cons]
        refine (congrArg (Option.bind · _) (next?_operator hjoin)).trans ?_
        rw [Option.bind_some, hrun']
        unfold waiting
        rw [List.map_append, List.append_assoc]
        rfl
      · rw [Expr.tree, ← htree']
        exact List.foldl_append
      · intro f hf
        rcases List.mem_append.mp hf with hf | hf
        · have hrightmost : op.level ≤ rightLevel op := by cases op <;> decide
          exact Nat.le_trans hrightmost (Nat.le_trans hright (hpending' f hf))
        · rw [List.mem_singleton.mp hf]
          exact Nat.le_refl _

/-- An arithmetic text is parsed as the tree of its expression. -/
theorem parse_textOf {e : Expr} (ha : e.Arithmetic) (hl : e.Levelled) :
    parse (textOf e.lexemes) = .ok e.tree := by
  obtain ⟨pending, t, hrun, htree, _⟩ := (ha.read hl).operand [] trivial
  obtain ⟨c, r, htext, _⟩ := operand_text_cons (operand_lexemes e)
  have hne : (textOf e.lexemes).isEmpty = false := by
    rw [htext]
    rfl
  have hresult : (State.operator (waiting pending ++ []) t).result? = some e.tree := by
    unfold State.result?
    dsimp only
    rw [joinAll_waiting, htree]
    rfl
  have htokens : (tokens 0 (textOf e.lexemes)).map (·.2) = e.lexemes.map Lexeme.token :=
    tokens_textOf (phrase_lexemes e) ha.lexemes
  rw [← htokens] at hrun
  unfold parse parseTrimmed
  rw [trim_textOf, hne, if_neg Bool.false_ne_true, imbalance_eq_none ha.closes]
  dsimp only
  rw [runTokens_eq_ok hrun hresult]

theorem value_tree {e : Expr} (ha : e.Arithmetic) (table : FunctionTable) (scope : Scope) :
    e.tree.value.toOption = e.value table scope := by
  induction ha with
  | numeral n => rw [Expr.value]; rfl
  | group _ ih => rw [Expr.value, ← ih]; rfl
  | @neg _ e _ ih =>
    rw [Expr.value, ← ih]
    change (e.tree.value.bind fun x => .ok (-x)).toOption = _
    cases e.tree.value <;> rfl
  | @binary op l r _ _ ihl ihr =>
    rw [Expr.value, ← ihl, ← ihr]
    change (l.tree.value.bind fun x => r.tree.value.bind fun y => op.apply x y).toOption = _
    cases l.tree.value with
    | error _ => rfl
    | ok x => cases r.tree.value <;> rfl

/-- A fault of an operation stands in the whole text. -/
theorem evaluate_eq_mapError (s : List Char) : Arith.evaluate s =
    parse s >>= fun t => t.value.mapError fun cause => ⟨cause, some s⟩ := by
  unfold Arith.evaluate
  congr 1
  funext t
  cases t.value <;> rfl

/-- The value of an arithmetic text is the meaning of its expression. -/
theorem evaluate_textOf {e : Expr} (ha : e.Arithmetic) (hl : e.Levelled) (table : FunctionTable)
    (scope : Scope) : (Arith.evaluate (textOf e.lexemes)).toOption = e.value table scope := by
  rw [← value_tree ha, evaluate_eq_mapError, parse_textOf ha hl]
  change (e.tree.value.mapError _).toOption = _
  cases e.tree.value <;> rfl

end Reading

end Reckoner.Formula
