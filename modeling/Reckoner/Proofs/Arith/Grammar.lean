import Reckoner.Proofs.Arith.Stack

/-!
The grammar of arithmetic. A derivation has one node for each production that it uses, so it keeps
the parentheses, which leave no node in its tree. The grammar is unambiguous: the tokens of a
derivation determine it. A derivation of one category is read off the tokens up to the first one
that it could not take, and sums, products and powers are read as chains of operands.
-/
namespace Reckoner.Arith

/-- The nonterminals of the grammar. What belongs to one of them belongs to all before it. -/
inductive Category
  | expr
  | term
  | factor
  | unary
  | primary

/-- The derivations of the grammar, with a constructor for each production. The right sides for
`expr` are `term`, `expr + term` and `expr - term`; for `term` they are `factor`, `term * factor`,
`term / factor` and `term % factor`; for `factor` they are `unary` and `unary ^ factor`; for `unary`
they are `primary` and `- primary`; and a `primary` is a number or an `expr` in parentheses. -/
inductive Derivation : Category → Type
  | term (t : Derivation .term) : Derivation .expr
  | add (l : Derivation .expr) (r : Derivation .term) : Derivation .expr
  | sub (l : Derivation .expr) (r : Derivation .term) : Derivation .expr
  | factor (f : Derivation .factor) : Derivation .term
  | mul (l : Derivation .term) (r : Derivation .factor) : Derivation .term
  | div (l : Derivation .term) (r : Derivation .factor) : Derivation .term
  | mod (l : Derivation .term) (r : Derivation .factor) : Derivation .term
  | unary (u : Derivation .unary) : Derivation .factor
  | pow (l : Derivation .unary) (r : Derivation .factor) : Derivation .factor
  | primary (p : Derivation .primary) : Derivation .unary
  | neg (p : Derivation .primary) : Derivation .unary
  | number (literal : List Char) : Derivation .primary
  | group (e : Derivation .expr) : Derivation .primary

/-- The tokens that are derived. -/
def Derivation.tokens : {c : Category} → Derivation c → List Token
  | _, term t => t.tokens
  | _, add l r => l.tokens ++ .operator .add :: r.tokens
  | _, sub l r => l.tokens ++ .operator .sub :: r.tokens
  | _, factor f => f.tokens
  | _, mul l r => l.tokens ++ .operator .mul :: r.tokens
  | _, div l r => l.tokens ++ .operator .div :: r.tokens
  | _, mod l r => l.tokens ++ .operator .mod :: r.tokens
  | _, unary u => u.tokens
  | _, pow l r => l.tokens ++ .operator .pow :: r.tokens
  | _, primary p => p.tokens
  | _, neg p => .operator .sub :: p.tokens
  | _, number literal => [.number literal]
  | _, group e => .opening :: e.tokens ++ [.closing]

def Derivation.tree : {c : Category} → Derivation c → Tree
  | _, term t => t.tree
  | _, add l r => .binary .add l.tree r.tree
  | _, sub l r => .binary .sub l.tree r.tree
  | _, factor f => f.tree
  | _, mul l r => .binary .mul l.tree r.tree
  | _, div l r => .binary .div l.tree r.tree
  | _, mod l r => .binary .mod l.tree r.tree
  | _, unary u => u.tree
  | _, pow l r => .binary .pow l.tree r.tree
  | _, primary p => p.tree
  | _, neg p => .neg p.tree
  | _, number literal => .number literal
  | _, group e => e.tree

section Categories

variable {c k : Category}

def Category.level : Category → Nat
  | expr => 1
  | term => 2
  | factor => 3
  | unary => 4
  | primary => 5

/-- The category of the operands of an operator and of what it makes of them. -/
def Op.leftCategory : Op → Category
  | add | sub => .expr
  | mul | div | mod => .term
  | pow => .unary

def Op.rightCategory : Op → Category
  | add | sub => .term
  | mul | div | mod | pow => .factor

def Op.category : Op → Category
  | add | sub => .expr
  | mul | div | mod => .term
  | pow => .factor

theorem level_leftCategory (op : Op) : op.leftCategory.level = leftLevel op := by
  cases op <;> rfl

theorem level_rightCategory (op : Op) : op.rightCategory.level = rightLevel op := by
  cases op <;> rfl

theorem level_category (op : Op) : op.category.level = op.level := by
  cases op <;> rfl

def Derivation.binary : (op : Op) → Derivation op.leftCategory → Derivation op.rightCategory →
    Derivation op.category
  | .add, l, r => .add l r
  | .sub, l, r => .sub l r
  | .mul, l, r => .mul l r
  | .div, l, r => .div l r
  | .mod, l, r => .mod l r
  | .pow, l, r => .pow l r

def Category.wider : Category → Category
  | expr | term => expr
  | factor => term
  | unary => factor
  | primary => unary

def Derivation.widen : {c : Category} → Derivation c → Derivation c.wider
  | .expr, d => d
  | .term, d => .term d
  | .factor, d => .factor d
  | .unary, d => .unary d
  | .primary, d => .primary d

@[simp] theorem tokens_binary (op : Op) (l : Derivation op.leftCategory)
    (r : Derivation op.rightCategory) :
    (Derivation.binary op l r).tokens = l.tokens ++ .operator op :: r.tokens := by
  cases op <;> rfl

@[simp] theorem tree_binary (op : Op) (l : Derivation op.leftCategory)
    (r : Derivation op.rightCategory) :
    (Derivation.binary op l r).tree = .binary op l.tree r.tree := by
  cases op <;> rfl

@[simp] theorem tokens_widen (d : Derivation c) : d.widen.tokens = d.tokens := by
  cases c <;> rfl

@[simp] theorem tree_widen (d : Derivation c) : d.widen.tree = d.tree := by
  cases c <;> rfl

/-- Induction over derivations with one case for all operators and one for all productions with a
single nonterminal. -/
@[elab_as_elim]
theorem Derivation.induct {motive : (c : Category) → Derivation c → Prop}
    (number : ∀ literal, motive .primary (.number literal))
    (group : ∀ e, motive .expr e → motive .primary (.group e))
    (neg : ∀ p, motive .primary p → motive .unary (.neg p))
    (binary : ∀ op l r, motive op.leftCategory l → motive op.rightCategory r →
      motive op.category (.binary op l r))
    (widen : ∀ c d, motive c d → motive c.wider d.widen)
    {c : Category} (d : Derivation c) : motive c d := by
  induction d with
  | term t ih => exact widen .term t ih
  | add l r ihl ihr => exact binary .add l r ihl ihr
  | sub l r ihl ihr => exact binary .sub l r ihl ihr
  | factor f ih => exact widen .factor f ih
  | mul l r ihl ihr => exact binary .mul l r ihl ihr
  | div l r ihl ihr => exact binary .div l r ihl ihr
  | mod l r ihl ihr => exact binary .mod l r ihl ihr
  | unary u ih => exact widen .unary u ih
  | pow l r ihl ihr => exact binary .pow l r ihl ihr
  | primary p ih => exact widen .primary p ih
  | neg p ih => exact neg p ih
  | number literal => exact number literal
  | group e ih => exact group e ih

theorem level_le_five (c : Category) : c.level ≤ 5 := by
  cases c <;> decide

theorem level_wider (c : Category) : c.wider.level ≤ c.level := by
  cases c <;> decide

/-- What belongs to a category belongs to every wider one. -/
theorem exists_of_level_le (d : Derivation c) (h : k.level ≤ c.level) :
    ∃ e : Derivation k, e.tokens = d.tokens ∧ e.tree = d.tree := by
  induction hn : c.level - k.level generalizing c with
  | zero =>
    obtain rfl : k = c := by
      cases k <;> cases c <;> first | rfl | exact absurd h (by decide) | exact absurd hn (by decide)
    exact ⟨d, rfl, rfl⟩
  | succ n ih =>
    have hwider : c.wider.level + 1 = c.level := by
      cases c with
      | expr => cases k <;> simp [Category.level] at hn
      | _ => rfl
    obtain ⟨e, htokens, htree⟩ := ih d.widen (by omega) (by omega)
    exact ⟨e, htokens.trans (tokens_widen d), htree.trans (tree_widen d)⟩

end Categories

section Unambiguous

variable {c k : Category} {n : Nat} {ts ts' : List Token}

/-- That no token comes next that an expression of the category could take. -/
def Stops (c : Category) (ts : List Token) : Prop :=
  ∀ op rest, ts = .operator op :: rest → op.level < c.level

theorem Stops.mono (h : Stops k ts) (hle : k.level ≤ c.level) : Stops c ts :=
  fun op rest hts => Nat.lt_of_lt_of_le (h op rest hts) hle

theorem stops_closing (c : Category) (ts : List Token) : Stops c (.closing :: ts) :=
  fun _ _ h => absurd (List.cons.inj h).1 (by simp)

theorem stops_unary (c : Category) (hc : 4 ≤ c.level) (ts : List Token) : Stops c ts :=
  fun op _ _ => Nat.lt_of_lt_of_le (by cases op <;> decide) hc

/-- That a derivation with at most `n` tokens is the only one at the beginning of a text after which
no token comes that it could take. -/
def Determined (c : Category) (n : Nat) : Prop :=
  ∀ (d d' : Derivation c) (ts ts' : List Token), d.tokens.length ≤ n → Stops c ts → Stops c ts' →
    d.tokens ++ ts = d'.tokens ++ ts' → d = d' ∧ ts = ts'

/-- A primary expression starts with a number or a parenthesis. -/
theorem primary_tokens (p : Derivation .primary) :
    ∃ token rest, p.tokens = token :: rest ∧ ∀ op, token ≠ .operator op := by
  cases p with
  | number literal => exact ⟨_, _, rfl, fun _ => by simp⟩
  | group e => exact ⟨_, _, rfl, fun _ => by simp⟩

theorem determined_primary (h : Determined .expr n) : Determined .primary (n + 1) := by
  intro d d' ts ts' hn _ _ heq
  cases d with
  | number literal =>
    cases d' with
    | number literal' =>
      obtain ⟨hliteral, hts⟩ := List.cons.inj heq
      exact ⟨congrArg _ (Token.number.inj hliteral), hts⟩
    | group e' => exact absurd (List.cons.inj heq).1 (by simp)
  | group e =>
    cases d' with
    | number literal' => exact absurd (List.cons.inj heq).1 (by simp)
    | group e' =>
      simp only [Derivation.tokens, List.cons_append, List.length_cons, List.length_append] at hn
      simp only [Derivation.tokens, List.cons_append, List.append_assoc, List.cons.injEq,
        true_and] at heq
      obtain ⟨rfl, hts⟩ := h e e' _ _ (by omega) (stops_closing .expr ts)
        (stops_closing .expr ts') heq
      exact ⟨rfl, (List.cons.inj hts).2⟩

theorem determined_unary (h : Determined .primary n) : Determined .unary n := by
  have hminus : ∀ (p p' : Derivation .primary) (ts ts' : List Token),
      p.tokens ++ ts ≠ .operator .sub :: p'.tokens ++ ts' := by
    intro p p' ts ts' heq
    obtain ⟨token, rest, hp, hne⟩ := primary_tokens p
    rw [hp] at heq
    exact hne .sub (List.cons.inj heq).1
  intro d d' ts ts' hn _ _ heq
  have hstops := fun ts => stops_unary .primary (by decide) ts
  cases d with
  | primary p =>
    cases d' with
    | primary p' =>
      obtain ⟨rfl, hts⟩ := h p p' ts ts' hn (hstops ts) (hstops ts') heq
      exact ⟨rfl, hts⟩
    | neg p' => exact absurd heq (hminus p p' ts ts')
  | neg p =>
    cases d' with
    | primary p' => exact absurd heq.symm (hminus p' p ts' ts)
    | neg p' =>
      obtain ⟨rfl, hts⟩ := h p p' ts ts' (Nat.le_of_succ_le hn) (hstops ts) (hstops ts')
        (List.cons.inj heq).2
      exact ⟨rfl, hts⟩

/-- Operands with operators between them. -/
structure Chain (c : Category) where
  first : Derivation c
  rest : List (Op × Derivation c)

def restTokens (rest : List (Op × Derivation c)) : List Token :=
  rest.flatMap fun p => .operator p.1 :: p.2.tokens

def Chain.tokens (x : Chain c) : List Token := x.first.tokens ++ restTokens x.rest

def Chain.concat (x : Chain c) (op : Op) (d : Derivation c) : Chain c :=
  ⟨x.first, x.rest ++ [(op, d)]⟩

theorem tokens_concat (x : Chain c) (op : Op) (d : Derivation c) :
    (x.concat op d).tokens = x.tokens ++ .operator op :: d.tokens := by
  simp [Chain.tokens, Chain.concat, restTokens]

theorem concat_inj {x y : Chain c} {op op' : Op} {d d' : Derivation c} :
    x.concat op d = y.concat op' d' ↔ x = y ∧ op = op' ∧ d = d' := by
  cases x
  cases y
  simp [Chain.concat, and_assoc]

theorem concat_ne_single {x : Chain c} {op : Op} {d first : Derivation c} :
    x.concat op d ≠ ⟨first, []⟩ := by
  simp [Chain.concat]

/-- Between operands stand operators of the level of the chain, and after it none. -/
theorem stops_restTokens {rest : List (Op × Derivation c)} (hkc : k.level < c.level)
    (hlevel : ∀ p ∈ rest, p.1.level = k.level) (hts : Stops k ts) :
    Stops c (restTokens rest ++ ts) := by
  cases rest with
  | nil => exact hts.mono (Nat.le_of_lt hkc)
  | cons p rest =>
    intro op more heq
    obtain rfl := Token.operator.inj (List.cons.inj heq).1
    exact hlevel p List.mem_cons_self ▸ hkc

theorem determined_rest (h : Determined c n) (hkc : k.level < c.level)
    {xs ys : List (Op × Derivation c)} (hxs : ∀ p ∈ xs, p.1.level = k.level)
    (hys : ∀ p ∈ ys, p.1.level = k.level) (hn : (restTokens xs).length ≤ n) (hts : Stops k ts)
    (hts' : Stops k ts') (heq : restTokens xs ++ ts = restTokens ys ++ ts') :
    xs = ys ∧ ts = ts' := by
  induction xs generalizing ys with
  | nil =>
    cases ys with
    | nil => exact ⟨rfl, heq⟩
    | cons q ys =>
      have hlt := hts q.1 _ heq
      exact absurd (hys q List.mem_cons_self) (Nat.ne_of_lt hlt)
  | cons p xs ih =>
    cases ys with
    | nil =>
      have hlt := hts' p.1 _ heq.symm
      exact absurd (hxs p List.mem_cons_self) (Nat.ne_of_lt hlt)
    | cons q ys =>
      obtain ⟨op, d⟩ := p
      obtain ⟨op', d'⟩ := q
      rw [List.forall_mem_cons] at hxs hys
      simp only [restTokens, List.flatMap_cons, List.cons_append, List.length_cons,
        List.length_append] at hn
      simp only [restTokens, List.flatMap_cons, List.cons_append, List.append_assoc,
        List.cons.injEq, Token.operator.injEq] at heq
      obtain ⟨rfl, hrest⟩ := heq
      obtain ⟨rfl, hmore⟩ := h d d' _ _ (by omega) (stops_restTokens hkc hxs.2 hts)
        (stops_restTokens hkc hys.2 hts') hrest
      obtain ⟨rfl, hend⟩ := ih hxs.2 hys.2 (by unfold restTokens; omega) hmore
      exact ⟨rfl, hend⟩

/-- The category of the operands in the chains of a category. -/
def Category.tighter : Category → Category
  | expr => term
  | term => factor
  | factor => unary
  | unary => primary
  | primary => primary

/-- The chain of a sum, a product or a power; any other derivation has a single operand. -/
def Derivation.operands : {c : Category} → Derivation c → Chain c.tighter
  | _, term t => ⟨t, []⟩
  | _, add l r => Chain.concat l.operands .add r
  | _, sub l r => Chain.concat l.operands .sub r
  | _, factor f => ⟨f, []⟩
  | _, mul l r => Chain.concat l.operands .mul r
  | _, div l r => Chain.concat l.operands .div r
  | _, mod l r => Chain.concat l.operands .mod r
  | _, unary u => ⟨u, []⟩
  | _, pow l r => ⟨l, (.pow, r.operands.first) :: r.operands.rest⟩
  | _, primary p => ⟨p, []⟩
  | _, neg p => ⟨p, []⟩
  | _, number literal => ⟨.number literal, []⟩
  | _, group e => ⟨.group e, []⟩

theorem tokens_operands (hc : c.level ≤ 3) (d : Derivation c) : d.operands.tokens = d.tokens := by
  induction d with
  | term d | factor d | unary d => exact List.append_nil d.tokens
  | add l r ih | sub l r ih | mul l r ih | div l r ih | mod l r ih =>
    exact (tokens_concat _ _ _).trans (congrArg (· ++ _ :: r.tokens) (ih hc))
  | pow l r _ ih => exact congrArg (l.tokens ++ .operator .pow :: ·) (ih hc)
  | primary | neg | number | group => exact absurd hc (by decide)

theorem level_operands (hc : c.level ≤ 3) (d : Derivation c) :
    ∀ p ∈ d.operands.rest, p.1.level = c.level := by
  have hconcat : ∀ {k : Category} (x : Chain k) (op : Op) (r : Derivation k),
      (∀ p ∈ x.rest, p.1.level = op.level) → ∀ p ∈ (x.concat op r).rest, p.1.level = op.level := by
    intro k x op r hx p hp
    rcases List.mem_append.mp hp with hp | hp
    · exact hx p hp
    · obtain rfl := List.mem_singleton.mp hp
      rfl
  induction d with
  | term d | factor d | unary d => exact fun p hp => absurd hp List.not_mem_nil
  | add l r ih | sub l r ih | mul l r ih | div l r ih | mod l r ih => exact hconcat _ _ r (ih hc)
  | pow l r _ ih => exact List.forall_mem_cons.mpr ⟨rfl, ih hc⟩
  | primary | neg | number | group => exact absurd hc (by decide)

theorem operands_injective (hc : c.level ≤ 3) (d d' : Derivation c)
    (h : d.operands = d'.operands) : d = d' := by
  induction d with
  | term d | factor d | unary d =>
    cases d' <;> first
      | exact congrArg _ (Chain.mk.inj h).1
      | exact absurd h.symm concat_ne_single
      | exact absurd (Chain.mk.inj h).2.symm (List.cons_ne_nil _ _)
  | add l r ih | sub l r ih | mul l r ih | div l r ih | mod l r ih =>
    -- the last operators are the same, and so are the operands on both sides of them
    cases d' <;> first
      | exact absurd h concat_ne_single
      | exact absurd (concat_inj.mp h).2.1 (by decide)
      | (obtain ⟨hl, _, rfl⟩ := concat_inj.mp h
         rw [ih hc _ hl])
  | pow l r _ ih =>
    cases d' with
    | unary u => exact absurd (Chain.mk.inj h).2 (List.cons_ne_nil _ _)
    | pow l' r' =>
      obtain ⟨rfl, hrest⟩ := Chain.mk.inj h
      obtain ⟨hfirst, hmore⟩ := List.cons.inj hrest
      have hr : r.operands = r'.operands := by
        cases hx : r.operands
        cases hy : r'.operands
        rw [hx, hy] at hfirst hmore
        exact congr (congrArg Chain.mk (Prod.mk.inj hfirst).2) hmore
      rw [ih hc r' hr]
  | primary | neg | number | group => exact absurd hc (by decide)

/-- A chain is determined by its tokens when its operands are. -/
theorem determined_chain (hc : c.level ≤ 3) (h : Determined c.tighter n) : Determined c n := by
  have htighter : c.level < c.tighter.level := by
    cases c <;> first | decide | exact absurd hc (by decide)
  intro d d' ts ts' hn hts hts' heq
  have hlevel := level_operands hc
  rw [← tokens_operands hc] at hn
  rw [← tokens_operands hc d, ← tokens_operands hc d'] at heq
  unfold Chain.tokens at hn heq
  rw [List.length_append] at hn
  rw [List.append_assoc, List.append_assoc] at heq
  obtain ⟨hfirst, hrest⟩ := h _ _ _ _ (by omega) (stops_restTokens htighter (hlevel d) hts)
    (stops_restTokens htighter (hlevel d') hts') heq
  obtain ⟨hoperands, hend⟩ := determined_rest h htighter (hlevel d) (hlevel d') (by omega) hts hts'
    hrest
  refine ⟨operands_injective hc d d' ?_, hend⟩
  cases hd : d.operands
  cases hd' : d'.operands
  rw [hd, hd'] at hfirst hoperands
  exact congr (congrArg Chain.mk hfirst) hoperands

/-- Derivations with the same tokens are the same, wherever they stand. -/
theorem determined (n : Nat) (c : Category) : Determined c n := by
  have hwider : ∀ n, Determined .primary n → ∀ c, Determined c n := by
    intro n hprimary
    have hunary := determined_unary hprimary
    have hfactor : Determined .factor n := determined_chain (by decide) hunary
    have hterm : Determined .term n := determined_chain (by decide) hfactor
    have hexpr : Determined .expr n := determined_chain (by decide) hterm
    intro c
    cases c <;> assumption
  induction n generalizing c with
  | zero =>
    refine hwider 0 (fun d _ _ _ hn => ?_) c
    obtain ⟨token, rest, hd, _⟩ := primary_tokens d
    rw [hd] at hn
    exact absurd hn (Nat.not_succ_le_zero _)
  | succ n ih => exact hwider (n + 1) (determined_primary (ih .expr)) c

/-- The grammar is unambiguous. -/
theorem tokens_injective (d d' : Derivation c) (h : d.tokens = d'.tokens) : d = d' := by
  have hend : Stops c [] := fun _ _ h => absurd h (by simp)
  exact (determined _ c d d' [] [] (Nat.le_refl _) hend hend (congrArg (· ++ []) h)).1

end Unambiguous

end Reckoner.Arith
