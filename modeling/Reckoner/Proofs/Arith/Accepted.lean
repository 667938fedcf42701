import Reckoner.Proofs.Arith.Lexed

/-!
The parser and the grammar. The stack of the parser stands for the tokens that have been read, as
derivations of the operands that wait on it; so what the parser accepts is derived from the grammar,
with the tree that it returns. Conversely it accepts every text whose tokens are derived. A tree is
printed with the parentheses that the categories of its operands need, and with no others.
-/
namespace Reckoner.Arith

open Text Number Formula

section Stack

variable {stack : List Frame} {state next : State} {ts us : List Token} {token : Token} {t : Tree}

/-- That a stack stands for the tokens before the operand that is read next. -/
inductive Holds : List Frame → List Token → Prop
  | empty : Holds [] []
  | paren {rest : List Frame} {ts : List Token} : Holds rest ts →
      Holds (.paren :: rest) (ts ++ [.opening])
  | minus {rest : List Frame} {ts : List Token} : Holds rest ts → Passes 4 rest →
      Holds (.minus :: rest) (ts ++ [.operator .sub])
  | left {rest : List Frame} {ts : List Token} {op : Op} (l : Derivation op.leftCategory) :
      Holds rest ts → Passes op.level rest →
      Holds (.left l.tree op :: rest) (ts ++ l.tokens ++ [.operator op])

/-- That a state stands for the tokens that have been read. A complete operand is a unary
expression, since operators are only joined to their operands when the next token comes. -/
def State.Covers : State → List Token → Prop
  | .operand stack, ts => Holds stack ts ∧ Passes 4 stack
  | .primary stack, ts => Holds stack ts
  | .operator stack t, ts => ∃ us, ∃ d : Derivation .unary, Holds stack us ∧ Passes 4 stack ∧
      d.tree = t ∧ us ++ d.tokens = ts

theorem covers_settle (h : Holds stack us) (p : Derivation .primary) :
    (settle stack p.tree).Covers (us ++ p.tokens) := by
  cases h with
  | empty => exact ⟨[], .primary p, .empty, trivial, rfl, rfl⟩
  | paren h => exact ⟨_, .primary p, .paren h, trivial, rfl, rfl⟩
  | @minus stack ts h hpasses =>
    refine ⟨ts, .neg p, h, hpasses, rfl, ?_⟩
    rw [List.append_assoc]
    rfl
  | @left stack ts op l h hpasses =>
    refine ⟨_, .primary p, .left l h hpasses, ?_, rfl, rfl⟩
    change rightLevel op ≤ 4
    cases op <;> decide

/-- The operand on top of the stack after joining, and what it stands for. -/
theorem exists_joinBefore {c : Category} (op : Op) (h : Holds stack us) (d : Derivation c)
    (hpasses : Passes c.level stack) (hlevel : leftLevel op ≤ c.level) :
    ∃ stack' us', ∃ l : Derivation op.leftCategory, joinBefore op stack d.tree = (stack', l.tree) ∧
      Holds stack' us' ∧ Passes op.level stack' ∧ us' ++ l.tokens = us ++ d.tokens := by
  have hdone : ∀ {c : Category} {stack : List Frame} {us : List Token} (d : Derivation c),
      leftLevel op ≤ c.level → Holds stack us → Passes op.level stack →
      joinBefore op stack d.tree = (stack, d.tree) →
      ∃ stack' us', ∃ l : Derivation op.leftCategory,
        joinBefore op stack d.tree = (stack', l.tree) ∧
        Holds stack' us' ∧ Passes op.level stack' ∧ us' ++ l.tokens = us ++ d.tokens := by
    intro c stack us d hlevel h hpasses hjoin
    obtain ⟨l, htokens, htree⟩ := exists_of_level_le d ((level_leftCategory op).le.trans hlevel)
    exact ⟨stack, us, l, by rw [hjoin, htree], h, hpasses, by rw [htokens]⟩
  induction h generalizing c with
  | empty => exact hdone d hlevel .empty trivial rfl
  | paren h => exact hdone d hlevel (.paren h) trivial rfl
  | minus => exact absurd hpasses id
  | @left stack ts earlier l h hearlier ih =>
    by_cases hjoin : earlier.takesBefore op = true
    · obtain ⟨r, hrtokens, hrtree⟩ :=
        exists_of_level_le d ((level_rightCategory earlier).le.trans hpasses)
      have hle : leftLevel op ≤ earlier.category.level := by
        rw [level_category]
        revert hjoin
        cases earlier <;> cases op <;> decide
      obtain ⟨stack', us', l', hrest, hholds, hpasses', htokens⟩ :=
        ih (.binary earlier l r) ((level_category earlier).symm ▸ hearlier) hle
      rw [tree_binary, hrtree] at hrest
      rw [tokens_binary, hrtokens] at htokens
      refine ⟨stack', us', l', ?_, hholds, hpasses', ?_⟩
      · rw [joinBefore, if_pos hjoin, hrest]
      · rw [htokens]
        simp only [List.append_assoc, List.singleton_append]
    · refine hdone d hlevel (.left l h hearlier) ?_ (by rw [joinBefore, if_neg hjoin])
      change rightLevel earlier ≤ op.level
      revert hjoin
      cases earlier <;> cases op <;> decide

/-- All operands up to a parenthesis make up one expression. -/
theorem exists_joinAll {c : Category} (h : Holds stack us) (d : Derivation c)
    (hpasses : Passes c.level stack) :
    ∃ stack' us', ∃ e : Derivation .expr, joinAll stack d.tree = (stack', e.tree) ∧
      Holds stack' us' ∧ us' ++ e.tokens = us ++ d.tokens := by
  have hdone : ∀ {c : Category} {stack : List Frame} {us : List Token} (d : Derivation c),
      Holds stack us → joinAll stack d.tree = (stack, d.tree) →
      ∃ stack' us', ∃ e : Derivation .expr, joinAll stack d.tree = (stack', e.tree) ∧
        Holds stack' us' ∧ us' ++ e.tokens = us ++ d.tokens := by
    intro c stack us d h hjoin
    obtain ⟨e, htokens, htree⟩ : ∃ e : Derivation .expr, e.tokens = d.tokens ∧ e.tree = d.tree :=
      exists_of_level_le d (by cases c <;> decide)
    exact ⟨stack, us, e, by rw [hjoin, htree], h, by rw [htokens]⟩
  induction h generalizing c with
  | empty => exact hdone d .empty rfl
  | paren h => exact hdone d (.paren h) rfl
  | minus => exact absurd hpasses id
  | @left stack ts op l h hop ih =>
    obtain ⟨r, hrtokens, hrtree⟩ := exists_of_level_le d ((level_rightCategory op).le.trans hpasses)
    obtain ⟨stack', us', e, hrest, hholds, htokens⟩ :=
      ih (.binary op l r) ((level_category op).symm ▸ hop)
    rw [tree_binary, hrtree] at hrest
    rw [tokens_binary, hrtokens] at htokens
    refine ⟨stack', us', e, hrest, hholds, ?_⟩
    rw [htokens]
    simp only [List.append_assoc, List.singleton_append]

/-- A token leads to a state that stands for it too. -/
theorem covers_next (h : state.Covers ts) (hnext : state.next? token = some next) :
    next.Covers (ts ++ [token]) := by
  unfold State.next? at hnext
  split at hnext
  · rename_i literal
    obtain rfl := Option.some.inj hnext
    exact covers_settle h.1 (.number literal)
  · obtain rfl := Option.some.inj hnext
    exact ⟨.paren h.1, trivial⟩
  · obtain rfl := Option.some.inj hnext
    exact .minus h.1 h.2
  · rename_i literal
    obtain rfl := Option.some.inj hnext
    exact covers_settle h (.number literal)
  · obtain rfl := Option.some.inj hnext
    exact ⟨.paren h, trivial⟩
  · rename_i stack t op
    obtain rfl := Option.some.inj hnext
    obtain ⟨us, d, hholds, hpasses, rfl, rfl⟩ := h
    obtain ⟨stack', us', l, hjoin, hholds', hpasses', htokens⟩ :=
      exists_joinBefore op hholds d hpasses (by cases op <;> decide)
    rw [hjoin, ← htokens]
    refine ⟨.left l hholds' hpasses', ?_⟩
    change rightLevel op ≤ 4
    cases op <;> decide
  · rename_i stack t
    obtain ⟨us, d, hholds, hpasses, rfl, rfl⟩ := h
    obtain ⟨stack', us', e, hjoin, hholds', htokens⟩ := exists_joinAll hholds d hpasses
    rw [hjoin] at hnext
    split at hnext
    · rename_i heq
      obtain rfl := Option.some.inj hnext
      obtain ⟨rfl, rfl⟩ := Prod.mk.inj heq
      cases hholds' with
      | paren hholds' =>
        have hgroup := covers_settle hholds' (.group e)
        rw [← htokens]
        rw [List.append_assoc, List.append_assoc]
        exact hgroup
    · exact absurd hnext (by simp)
  · exact absurd hnext (by simp)

/-- A complete state stands for an expression. -/
theorem covers_result (h : state.Covers ts) (ht : state.result? = some t) :
    ∃ e : Derivation .expr, e.tokens = ts ∧ e.tree = t := by
  unfold State.result? at ht
  split at ht
  · obtain ⟨us, d, hholds, hpasses, rfl, rfl⟩ := h
    obtain ⟨stack', us', e, hjoin, hholds', htokens⟩ := exists_joinAll hholds d hpasses
    rw [hjoin] at ht
    split at ht
    · rename_i heq
      obtain rfl := Option.some.inj ht
      obtain ⟨rfl, rfl⟩ := Prod.mk.inj heq
      cases hholds'
      exact ⟨e, htokens, rfl⟩
    · exact absurd ht (by simp)
  · exact absurd ht (by simp)

/-- What a run over tokens accepts is derived from the grammar. -/
theorem derivation_of_runTokens {length : Nat} {rest : List (Nat × Token)}
    (h : state.Covers ts) (hrun : runTokens length state rest = .ok t) :
    ∃ e : Derivation .expr, e.tokens = ts ++ rest.map (·.2) ∧ e.tree = t := by
  induction rest generalizing state ts with
  | nil =>
    rw [runTokens] at hrun
    split at hrun
    · rename_i hresult
      obtain rfl := Except.ok.inj hrun
      rw [List.map_nil, List.append_nil]
      exact covers_result h hresult
    · exact absurd hrun (by simp)
  | cons token rest ih =>
    obtain ⟨position, token⟩ := token
    rw [runTokens] at hrun
    split at hrun
    · rename_i hnext
      obtain ⟨e, htokens, htree⟩ := ih (covers_next h hnext) hrun
      exact ⟨e, by rw [htokens, List.append_assoc]; rfl, htree⟩
    · exact absurd hrun (by simp)

end Stack

section Text

variable {c : Category} {s : List Char} {t : Tree}

/-- A derivation from literals is an expression, with the parentheses as groups. -/
theorem exists_expression (d : Derivation c)
    (h : ∀ literal, .number literal ∈ d.tokens → IsLiteral literal) :
    ∃ e : Expr, e.Arithmetic ∧ e.Levelled ∧ c.level ≤ e.level ∧ e.tree = d.tree ∧
      e.lexemes.map Lexeme.token = d.tokens := by
  induction d using Derivation.induct with
  | number literal =>
    obtain ⟨n, rfl⟩ := h literal List.mem_cons_self
    exact ⟨.numeral n, .numeral n, .numeral n, Nat.le_refl 5, rfl, by rw [Expr.lexemes]; rfl⟩
  | group e ih =>
    obtain ⟨e', ha, hl, _, htree, htokens⟩ := ih fun literal hmem =>
      h literal (List.mem_cons_of_mem _ (List.mem_append_left _ hmem))
    refine ⟨.group e', .group ha, .group hl, Nat.le_refl 5, htree, ?_⟩
    rw [Expr.lexemes, List.map_append, List.map_cons, htokens]
    rfl
  | neg p ih =>
    obtain ⟨e', ha, hl, hlevel, htree, htokens⟩ := ih fun literal hmem =>
      h literal (List.mem_cons_of_mem _ hmem)
    refine ⟨.neg false e', .neg ha, .neg hlevel hl, Nat.le_refl 4, congrArg Tree.neg htree, ?_⟩
    rw [Expr.lexemes, List.map_cons, htokens]
    rfl
  | binary op l r ihl ihr =>
    rw [tokens_binary] at h
    obtain ⟨l', hla, hll, hllevel, hltree, hltokens⟩ := ihl fun literal hmem =>
      h literal (List.mem_append_left _ hmem)
    obtain ⟨r', hra, hrl, hrlevel, hrtree, hrtokens⟩ := ihr fun literal hmem =>
      h literal (List.mem_append_right _ (List.mem_cons_of_mem _ hmem))
    refine ⟨.binary op l' r', .binary hla hra,
      .binary ((level_leftCategory op).ge.trans hllevel)
        ((level_rightCategory op).ge.trans hrlevel) hll hrl, (level_category op).le, ?_, ?_⟩
    · rw [tree_binary, ← hltree, ← hrtree]
      rfl
    · rw [tokens_binary, Expr.lexemes, List.map_append, List.map_cons, hltokens, hrtokens]
      rfl
  | widen c d ih =>
    rw [tokens_widen] at h ⊢
    obtain ⟨e, ha, hl, hlevel, htree, htokens⟩ := ih h
    exact ⟨e, ha, hl, (level_wider c).trans hlevel, htree.trans (tree_widen d).symm, htokens⟩

theorem tokens_ne_nil (d : Derivation c) : d.tokens ≠ [] := by
  induction d using Derivation.induct with
  | number literal => exact List.cons_ne_nil _ _
  | group e => exact List.cons_ne_nil _ _
  | neg p => exact List.cons_ne_nil _ _
  | binary op l r ih =>
    rw [tokens_binary]
    exact List.append_ne_nil_of_left_ne_nil ih _
  | widen c d ih => rwa [tokens_widen]

/-- A text whose tokens are derived is parsed as the tree of the derivation. -/
theorem parseTrimmed_of_lexed {d : Derivation .expr} (h : Lexed s d.tokens) :
    parseTrimmed s = .ok d.tree := by
  obtain ⟨e, ha, hl, _, htree, htokens⟩ := exists_expression d h.isLiteral
  obtain ⟨pending, t, hrun, hpending, _⟩ := (ha.read hl).operand [] trivial
  have hresult : (State.operator (waiting pending ++ []) t).result? = some d.tree := by
    unfold State.result?
    dsimp only
    rw [joinAll_waiting, hpending, htree]
    rfl
  have hne : s.isEmpty = false := by
    rw [List.isEmpty_eq_false_iff]
    rintro rfl
    have htokens := h.tokens 0
    rw [Arith.tokens] at htokens
    exact tokens_ne_nil d htokens.symm
  rw [htokens, ← h.tokens 0] at hrun
  unfold parseTrimmed
  rw [hne, if_neg Bool.false_ne_true, imbalance_of_lexed h]
  exact runTokens_eq_ok hrun hresult

theorem not_illegal (d : Derivation c) (x : Char) : .illegal x ∉ d.tokens := by
  induction d using Derivation.induct with
  | number literal => simp [Derivation.tokens]
  | group e ih => simp [Derivation.tokens, ih]
  | neg p ih => simp [Derivation.tokens, ih]
  | binary op l r ihl ihr => simp [ihl, ihr]
  | widen c d ih => rwa [tokens_widen]

/-- What is parsed is derived from the grammar. -/
theorem exists_derivation (h : parseTrimmed s = .ok t) :
    ∃ d : Derivation .expr, Lexed s d.tokens ∧ d.tree = t := by
  unfold parseTrimmed at h
  split at h
  · exact absurd h (by simp)
  · split at h
    · exact absurd h (by simp)
    · have hstart : (State.operand []).Covers [] := ⟨.empty, trivial⟩
      obtain ⟨d, htokens, htree⟩ := derivation_of_runTokens hstart h
      refine ⟨d, ?_, htree⟩
      rw [htokens]
      refine lexed_of_tokens 0 s fun token htoken c hc => not_illegal d c ?_
      rw [htokens, ← hc]
      exact List.mem_map_of_mem htoken

/-- The texts that the grammar derives. -/
def IsSentence (s : List Char) : Prop := ∃ d : Derivation .expr, Lexed s d.tokens

theorem isSentence_iff : IsSentence s ↔ ∃ t, parseTrimmed s = .ok t := by
  constructor
  · rintro ⟨d, h⟩
    exact ⟨d.tree, parseTrimmed_of_lexed h⟩
  · rintro ⟨t, h⟩
    obtain ⟨d, hd, _⟩ := exists_derivation h
    exact ⟨d, hd⟩

theorem isSentence_iff_isSome : IsSentence s ↔ (parseTrimmed s).toOption.isSome = true := by
  rw [isSentence_iff]
  cases parseTrimmed s with
  | ok t => exact ⟨fun _ => rfl, fun _ => ⟨t, rfl⟩⟩
  | error e => exact ⟨fun ⟨_, h⟩ => absurd h (by simp), fun h => absurd h Bool.false_ne_true⟩

theorem parse_eq_ok {s : List Char} : parse s = .ok t ↔ parseTrimmed (trim s) = .ok t := by
  unfold parse
  split <;> rename_i heq <;> rw [heq] <;> simp

end Text

section Printing

variable {c k place : Category} {s : List Char} {ts : List Token} {t : Tree}

/-- Tokens of a category at a place that takes another one; they are put in parentheses if the place
does not take them. -/
def enclosed (place k : Category) (ts : List Token) : List Token :=
  if k.level < place.level then .opening :: ts ++ [.closing] else ts

/-- The tokens of a tree at a place. -/
def Tree.printed : Tree → Category → List Token
  | number literal, _ => [.number literal]
  | neg t, place => enclosed place .unary (.operator .sub :: t.printed .primary)
  | binary op l r, place => enclosed place op.category
      (l.printed op.leftCategory ++ .operator op :: r.printed op.rightCategory)

/-- The text of a tree with the parentheses that it needs. -/
def Tree.text (t : Tree) : List Char := (t.printed .expr).flatMap Token.text

theorem exists_enclosed (place : Category) (d : Derivation k) :
    ∃ e : Derivation place, e.tree = d.tree ∧ e.tokens = enclosed place k d.tokens := by
  unfold enclosed
  split
  · obtain ⟨inner, htokens, htree⟩ : ∃ e : Derivation .expr, e.tokens = d.tokens ∧ e.tree = d.tree :=
      exists_of_level_le d (by cases k <;> decide)
    obtain ⟨e, hetokens, hetree⟩ := exists_of_level_le (.group inner) (level_le_five place)
    exact ⟨e, hetree.trans htree, by rw [hetokens, ← htokens]; rfl⟩
  · rename_i hlevel
    obtain ⟨e, htokens, htree⟩ := exists_of_level_le d (Nat.le_of_not_lt hlevel)
    exact ⟨e, htree, htokens⟩

/-- Every tree has a derivation, and it is the one that is printed. -/
theorem exists_printed (t : Tree) (place : Category) :
    ∃ d : Derivation place, d.tree = t ∧ d.tokens = t.printed place := by
  induction t generalizing place with
  | number literal =>
    obtain ⟨d, htokens, htree⟩ := exists_of_level_le (.number literal) (level_le_five place)
    exact ⟨d, htree, htokens⟩
  | neg t ih =>
    obtain ⟨p, rfl, htokens⟩ := ih .primary
    obtain ⟨d, htree, hd⟩ := exists_enclosed place (.neg p)
    refine ⟨d, htree, ?_⟩
    rw [hd, Derivation.tokens, htokens]
    rfl
  | binary op l r ihl ihr =>
    obtain ⟨l', rfl, hltokens⟩ := ihl op.leftCategory
    obtain ⟨r', rfl, hrtokens⟩ := ihr op.rightCategory
    obtain ⟨d, htree, hd⟩ := exists_enclosed place (.binary op l' r')
    refine ⟨d, htree.trans (tree_binary op l' r'), ?_⟩
    rw [hd, tokens_binary, hltokens, hrtokens]
    rfl

theorem length_enclosed_mono (h : c.level ≤ place.level) :
    (enclosed c k ts).length ≤ (enclosed place k ts).length := by
  unfold enclosed
  split
  · rw [if_pos (by omega)]
  · split
    · simp only [List.length_cons, List.length_append]
      omega
    · exact Nat.le_refl _

theorem length_enclosed_le (place c k : Category) (ts : List Token) :
    (enclosed place k ts).length ≤ (enclosed c k ts).length + 2 := by
  have hlower : ts.length ≤ (enclosed c k ts).length := by
    unfold enclosed
    split
    · simp only [List.length_cons, List.length_append]
      omega
    · exact Nat.le_refl _
  have hupper : (enclosed place k ts).length ≤ ts.length + 2 := by
    unfold enclosed
    split
    · simp
    · exact Nat.le_add_right _ _
  exact hupper.trans (Nat.add_le_add_right hlower 2)

/-- A wider place takes no more parentheses, and a single pair is enough for any place. -/
theorem length_printed_mono (t : Tree) (h : c.level ≤ place.level) :
    (t.printed c).length ≤ (t.printed place).length := by
  cases t with
  | number literal => exact Nat.le_refl _
  | neg t => exact length_enclosed_mono h
  | binary op l r => exact length_enclosed_mono h

theorem length_printed_le (t : Tree) (place c : Category) :
    (t.printed place).length ≤ (t.printed c).length + 2 := by
  cases t with
  | number literal => exact Nat.le_add_right _ _
  | neg t => exact length_enclosed_le place c _ _
  | binary op l r => exact length_enclosed_le place c _ _

/-- No derivation of a tree has fewer tokens than are printed: all parentheses are needed. -/
theorem length_printed (d : Derivation c) : (d.tree.printed c).length ≤ d.tokens.length := by
  induction d using Derivation.induct with
  | number literal => exact Nat.le_refl 1
  | group e ih =>
    change (e.tree.printed .primary).length ≤ (.opening :: e.tokens ++ [.closing] : List Token).length
    have hle := length_printed_le e.tree .primary .expr
    simp only [List.length_cons, List.length_append, List.length_nil]
    omega
  | neg p ih => exact Nat.succ_le_succ ih
  | binary op l r ihl ihr =>
    rw [tree_binary, tokens_binary, Tree.printed, enclosed, if_neg (Nat.lt_irrefl _)]
    simp only [List.length_cons, List.length_append]
    omega
  | widen c d ih =>
    rw [tree_widen, tokens_widen]
    exact (length_printed_mono d.tree (level_wider c)).trans ih

def Tree.literals : Tree → List (List Char)
  | number literal => [literal]
  | neg t => t.literals
  | binary _ l r => l.literals ++ r.literals

theorem mem_literals {literal : List Char} (d : Derivation c) (h : .number literal ∈ d.tokens) :
    literal ∈ d.tree.literals := by
  induction d using Derivation.induct with
  | number _ => simpa [Derivation.tokens, Derivation.tree, Tree.literals] using h
  | group e ih =>
    simp only [Derivation.tokens, List.cons_append, List.mem_cons, List.mem_append,
      List.not_mem_nil, or_false, reduceCtorEq, false_or] at h
    exact ih h
  | neg p ih =>
    simp only [Derivation.tokens, List.mem_cons, reduceCtorEq, false_or] at h
    exact ih h
  | binary op l r ihl ihr =>
    simp only [tokens_binary, List.mem_append, List.mem_cons, reduceCtorEq, false_or] at h
    rw [tree_binary, Tree.literals, List.mem_append]
    exact h.imp ihl ihr
  | widen c d ih =>
    rw [tokens_widen] at h
    rw [tree_widen]
    exact ih h

/-- The text of derived tokens is a sequence of these tokens. -/
theorem lexed_tokens (d : Derivation c)
    (h : ∀ literal, .number literal ∈ d.tokens → IsLiteral literal) (hs : Lexed s ts)
    (hhead : ∀ x ∈ s.head?, isDigit x = false ∧ x ≠ '.') :
    Lexed (d.tokens.flatMap Token.text ++ s) (d.tokens ++ ts) := by
  induction d using Derivation.induct generalizing s ts with
  | number literal =>
    obtain ⟨n, rfl⟩ := h literal List.mem_cons_self
    have hnumber := Lexed.number ⟨n, rfl⟩ (longest_of_boundary n hhead) hs
    rwa [Derivation.tokens, List.flatMap_singleton]
  | group e ih =>
    have hinner := ih (fun literal hmem => h literal
      (List.mem_cons_of_mem _ (List.mem_append_left _ hmem))) (.closing hs) (by simp; decide)
    have hgroup := Lexed.opening hinner
    rw [Derivation.tokens, List.cons_append, List.flatMap_cons, List.flatMap_append]
    simpa [Token.text] using hgroup
  | neg p ih =>
    exact .operator .sub (ih (fun literal hmem => h literal (List.mem_cons_of_mem _ hmem)) hs hhead)
  | binary op l r ihl ihr =>
    rw [tokens_binary] at h ⊢
    have hr := ihr (fun literal hmem =>
      h literal (List.mem_append_right _ (List.mem_cons_of_mem _ hmem))) hs hhead
    have hl := ihl (fun literal hmem => h literal (List.mem_append_left _ hmem))
      (.operator op hr) (by cases op <;> simp [Op.symbol] <;> decide)
    rw [List.flatMap_append, List.flatMap_cons]
    simpa [Token.text] using hl
  | widen c d ih =>
    rw [tokens_widen] at h ⊢
    exact ih h hs hhead

theorem isBlank_tokens (d : Derivation c)
    (h : ∀ literal, .number literal ∈ d.tokens → IsLiteral literal) :
    ∀ x ∈ d.tokens.flatMap Token.text, isBlank x = false := by
  intro x hx
  obtain ⟨token, htoken, hx⟩ := List.mem_flatMap.mp hx
  cases token with
  | number literal =>
    obtain ⟨n, rfl⟩ := h literal htoken
    exact (solid_numeral n x hx).2.1
  | operator op =>
    rw [List.mem_singleton.mp hx]
    cases op <;> decide
  | opening | closing =>
    rw [List.mem_singleton.mp hx]
    decide
  | illegal y => exact absurd htoken (not_illegal d y)

/-- A printed tree is parsed as the tree. -/
theorem parse_text (t : Tree) (h : ∀ literal ∈ t.literals, IsLiteral literal) :
    parse t.text = .ok t := by
  obtain ⟨d, rfl, htokens⟩ := exists_printed t .expr
  have hliteral : ∀ literal, .number literal ∈ d.tokens → IsLiteral literal :=
    fun literal hmem => h literal (mem_literals d hmem)
  have htext : d.tree.text = d.tokens.flatMap Token.text := by rw [htokens]; rfl
  have hlexed := lexed_tokens d hliteral .nil (by simp)
  rw [List.append_nil, List.append_nil, ← htext] at hlexed
  have hblank := htext ▸ isBlank_tokens d hliteral
  rw [parse_eq_ok, trim_eq (fun c hc => hblank c (List.mem_of_mem_head? hc))
    (fun c hc => hblank c (List.mem_of_getLast? hc))]
  exact parseTrimmed_of_lexed hlexed

end Printing

/-- The parser accepts exactly the texts whose tokens are derived from the grammar, and returns the
tree of the derivation, of which there is only one. Every tree of the grammar is parsed from its
printed text, and no derivation of the tree has fewer tokens. -/
theorem parse_iff_derivation (s : List Char) :
    (∀ t, parse s = .ok t ↔ ∃ d : Derivation .expr, Lexed (trim s) d.tokens ∧ d.tree = t) ∧
    (∀ d d' : Derivation .expr, Lexed (trim s) d.tokens → Lexed (trim s) d'.tokens → d = d') ∧
    ∀ t : Tree, (∀ literal ∈ t.literals, IsLiteral literal) → parse t.text = .ok t ∧
      ∀ d : Derivation .expr, d.tree = t → (t.printed .expr).length ≤ d.tokens.length := by
  refine ⟨fun t => ?_, fun d d' h h' => ?_, fun t h => ⟨parse_text t h, ?_⟩⟩
  · rw [parse_eq_ok]
    refine ⟨exists_derivation, ?_⟩
    rintro ⟨d, h, rfl⟩
    exact parseTrimmed_of_lexed h
  · exact tokens_injective d d' ((h.tokens 0).symm.trans (h'.tokens 0))
  · rintro d rfl
    exact length_printed d

example : (parse " 2 - 3 - -4 ^ 2 ".toList).toOption.map Tree.written =
    some "(sub (sub (number 2) (number 3)) (pow (neg (number 4)) (number 2)))".toList := by
  decide +kernel

theorem isLiteral_digit (c : Char) (h : isDigit c = true) : IsLiteral [c] :=
  ⟨.ofDigits [c] (fun _ hx => List.mem_singleton.mp hx ▸ h) (List.cons_ne_nil c []), rfl⟩

/-- A product of a difference, which needs parentheses, and a power with a minus sign before it. -/
def differenceTimesPower : Tree :=
  .binary .mul
    (.binary .sub (.binary .sub (.number ['2']) (.number ['3'])) (.number ['4']))
    (.binary .pow (.neg (.number ['5'])) (.binary .pow (.number ['6']) (.number ['7'])))

theorem parse_differenceTimesPower :
    differenceTimesPower.text = "(2-3-4)*-5^6^7".toList ∧
      parse "(2-3-4)*-5^6^7".toList = .ok differenceTimesPower ∧
      ∃ d : Derivation .expr, d.tree = differenceTimesPower ∧
        Lexed (trim "(2-3-4)*-5^6^7".toList) d.tokens ∧
        ∀ d' : Derivation .expr, Lexed (trim "(2-3-4)*-5^6^7".toList) d'.tokens → d' = d := by
  have htext : differenceTimesPower.text = "(2-3-4)*-5^6^7".toList := by decide
  obtain ⟨hparse, hunique, hprinted⟩ := parse_iff_derivation "(2-3-4)*-5^6^7".toList
  have hliterals : ∀ literal ∈ differenceTimesPower.literals, IsLiteral literal := by
    intro literal h
    have hdigit : ∃ c, isDigit c = true ∧ literal = [c] := by
      simp only [differenceTimesPower, Tree.literals, List.mem_append, List.mem_singleton] at h
      rcases h with ((rfl | rfl) | rfl) | rfl | rfl | rfl <;> exact ⟨_, by decide, rfl⟩
    obtain ⟨c, hc, rfl⟩ := hdigit
    exact isLiteral_digit c hc
  have hok := htext ▸ (hprinted differenceTimesPower hliterals).1
  obtain ⟨d, hd, htree⟩ := (hparse _).mp hok
  exact ⟨htext, hok, d, htree, hd, fun d' hd' => hunique d' d hd' hd⟩

end Reckoner.Arith
