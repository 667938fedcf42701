import Reckoner.Arith.Labelled
import Reckoner.Proofs.Arith.Accepted
import Reckoner.Proofs.Formula.Breakdowns

/-!
The outcome of an arithmetic text. A text that is no sentence is refused by the parser. Of a
sentence the nodes of the tree are evaluated in post-order, operands from left to right and then
their operator. Either all of them have a finite value, or the first one that fails settles the
outcome: as a division by zero if it divides by a zero, and as a plain failure otherwise. No other
failure can come out of the walk over the tree, not even one of its nodes' names or children.
-/
namespace Reckoner.Arith

open Text Number Formula

namespace Op

def divides : Op → Bool
  | div | mod => true
  | _ => false

/-- The result as a double, which may be infinite or undefined. -/
def result : Op → Float → Float → Float
  | add, x, y => x + y
  | sub, x, y => x - y
  | mul, x, y => x * y
  | div, x, y => x / y
  | mod, x, y => (remainder x y).getD undefinedNumber
  | pow, x, y => raised x y

/-- The fault of a division by zero. -/
def zeroCause : Op → Cause
  | mod => .zeroModulus
  | _ => .zeroDivisor

/-- The fault of a result that is not finite. -/
def overflowCause : Op → Float → Float → Cause
  | add, _, _ => .nonFinite .addition
  | sub, _, _ => .nonFinite .subtraction
  | mul, _, _ => .nonFinite .multiplication
  | div, _, _ => .nonFinite .division
  | mod, _, _ => .nonFinite .modulo
  | pow, x, y =>
    if (raised x y).isNaN || x == 0 then .powerUndefined x y else .powerTooLarge x y

/-- The divisor is looked at first, and then whether the result is finite. -/
theorem apply_eq (op : Op) (x y : Float) : op.apply x y =
    if op.divides && y == 0 then .error op.zeroCause
    else if (op.result x y).isFinite then .ok (op.result x y)
    else .error (op.overflowCause x y) := by
  cases op with
  | add | sub | mul => rfl
  | div | mod =>
    dsimp only [Op.apply]
    cases y == 0 with
    | true => rfl
    | false => rfl
  | pow =>
    change power x y = if (raised x y).isFinite then .ok (raised x y)
      else .error (if (raised x y).isNaN || x == 0 then .powerUndefined x y
        else .powerTooLarge x y)
    unfold power
    dsimp only
    split
    · rfl
    · split
      · rfl
      · rfl

end Op

section Nodes

/-- The nodes of a tree, each with what is below it, in the order of their evaluation. -/
def Tree.postorder : Tree → List Tree
  | number literal => [.number literal]
  | neg t => t.postorder ++ [.neg t]
  | binary op l r => l.postorder ++ (r.postorder ++ [.binary op l r])

/-- That a tree has a value, and that all literals and results of operators in it are finite. -/
inductive Tree.Denotes : Tree → Float → Prop
  | number {literal} : (literalValue literal).isFinite = true →
      Denotes (.number literal) (literalValue literal)
  | neg {t x} : Denotes t x → Denotes (.neg t) (-x)
  | binary {op l r x y} : Denotes l x → Denotes r y → (op.divides && y == 0) = false →
      (op.result x y).isFinite = true → Denotes (.binary op l r) (op.result x y)

/-- That a node fails itself, although its operands have values. -/
inductive Tree.Fails : Tree → Cause → Prop
  | literal {literal} : (literalValue literal).isFinite = false →
      Fails (.number literal) (.nonFinite .literal)
  | zero {op l r x y} : Denotes l x → Denotes r y → (op.divides && y == 0) = true →
      Fails (.binary op l r) op.zeroCause
  | overflow {op l r x y} : Denotes l x → Denotes r y → (op.divides && y == 0) = false →
      (op.result x y).isFinite = false → Fails (.binary op l r) (op.overflowCause x y)

/-- A division or a remainder whose right operand is a zero of either sign. -/
def Tree.DividesByZero (u : Tree) : Prop :=
  ∃ op l r x y, u = .binary op l r ∧ (op = .div ∨ op = .mod) ∧ l.Denotes x ∧ r.Denotes y ∧
    (y == 0) = true

def Tree.HasFiniteValue (u : Tree) : Prop := ∃ y, u.Denotes y ∧ y.isFinite = true

/-- That a node fails and all nodes before it have finite values. -/
def FirstFailure (nodes : List Tree) (u : Tree) (cause : Cause) : Prop :=
  ∃ before after, nodes = before ++ u :: after ∧ (∀ w ∈ before, w.HasFiniteValue) ∧ u.Fails cause

variable {t u : Tree} {x y : Float} {cause : Cause} {ns ms : List Tree}

theorem FirstFailure.before (h : FirstFailure ns u cause) (ms : List Tree) :
    FirstFailure (ns ++ ms) u cause := by
  obtain ⟨before, after, rfl, hbefore, hu⟩ := h
  refine ⟨before, after ++ ms, ?_, hbefore, hu⟩
  rw [List.append_assoc]
  rfl

theorem FirstFailure.after (h : FirstFailure ns u cause) (hms : ∀ w ∈ ms, w.HasFiniteValue) :
    FirstFailure (ms ++ ns) u cause := by
  obtain ⟨before, after, rfl, hbefore, hu⟩ := h
  refine ⟨ms ++ before, after, (List.append_assoc ms before _).symm, ?_, hu⟩
  exact List.forall_mem_append.mpr ⟨hms, hbefore⟩

theorem Tree.Fails.first (h : u.Fails cause) : FirstFailure [u] u cause :=
  ⟨[], [], rfl, fun _ h => absurd h List.not_mem_nil, h⟩

end Nodes

section Value

variable {t u : Tree} {x y : Float} {cause : Cause}

/-- The evaluator finds exactly the value that a tree denotes. -/
theorem value_eq_ok_iff : t.value = .ok x ↔ t.Denotes x := by
  constructor
  · intro h
    induction t generalizing x with
    | number literal =>
      change finite .literal (literalValue literal) = .ok x at h
      unfold finite at h
      split at h
      · rename_i hfinite
        obtain rfl := Except.ok.inj h
        exact .number hfinite
      · exact absurd h (by simp)
    | neg t ih =>
      obtain ⟨y, hy, h⟩ := bind_eq_ok h
      obtain rfl := Except.ok.inj h
      exact .neg (ih hy)
    | binary op l r ihl ihr =>
      obtain ⟨y, hy, h⟩ := bind_eq_ok h
      obtain ⟨z, hz, h⟩ := bind_eq_ok h
      rw [Op.apply_eq] at h
      split at h
      · exact absurd h (by simp)
      · rename_i hzero
        split at h
        · rename_i hfinite
          obtain rfl := Except.ok.inj h
          exact .binary (ihl hy) (ihr hz) (Bool.eq_false_iff.mpr hzero) hfinite
        · exact absurd h (by simp)
  · intro h
    induction h with
    | number hfinite => exact if_pos hfinite
    | @neg t x _ ih =>
      change t.value.bind (fun x => Except.ok (-x)) = _
      rw [ih]
      rfl
    | @binary op l r x y _ _ hzero hfinite ihl ihr =>
      change (l.value.bind fun x => r.value.bind fun y => op.apply x y) = _
      rw [ihl, ihr]
      change op.apply x y = _
      rw [Op.apply_eq, hzero, if_neg Bool.false_ne_true, if_pos hfinite]

theorem Tree.Denotes.unique (h : t.Denotes x) (h' : t.Denotes y) : x = y :=
  Except.ok.inj ((value_eq_ok_iff.mpr h).symm.trans (value_eq_ok_iff.mpr h'))

theorem Tree.Denotes.isFinite (h : t.Denotes x) : x.isFinite = true :=
  isFinite_tree (value_eq_ok_iff.mpr h)

/-- All nodes of a tree with a value have finite values. -/
theorem Tree.Denotes.nodes (h : t.Denotes x) : ∀ u ∈ t.postorder, u.HasFiniteValue := by
  induction h with
  | number hfinite =>
    intro u hu
    rw [List.mem_singleton.mp hu]
    exact ⟨_, .number hfinite, hfinite⟩
  | neg h ih =>
    refine List.forall_mem_append.mpr ⟨ih, fun u hu => ?_⟩
    rw [List.mem_singleton.mp hu]
    exact ⟨_, .neg h, isFinite_neg h.isFinite⟩
  | binary hl hr hzero hfinite ihl ihr =>
    refine List.forall_mem_append.mpr ⟨ihl, List.forall_mem_append.mpr ⟨ihr, fun u hu => ?_⟩⟩
    rw [List.mem_singleton.mp hu]
    exact ⟨_, .binary hl hr hzero hfinite, hfinite⟩

/-- The fault of an evaluation is the one of the first node that fails. -/
theorem exists_firstFailure (h : t.value = .error cause) :
    ∃ u, FirstFailure t.postorder u cause := by
  induction t generalizing cause with
  | number literal =>
    change finite .literal (literalValue literal) = .error cause at h
    unfold finite at h
    split at h
    · exact absurd h (by simp)
    · rename_i hfinite
      obtain rfl := Except.error.inj h
      exact ⟨_, (Tree.Fails.literal (Bool.eq_false_iff.mpr hfinite)).first⟩
  | neg t ih =>
    obtain ⟨u, hu⟩ := ih (bind_ok_eq_error.mp h)
    exact ⟨u, hu.before _⟩
  | binary op l r ihl ihr =>
    rcases bind_eq_error.mp h with h | ⟨x, hx, h⟩
    · obtain ⟨u, hu⟩ := ihl h
      exact ⟨u, hu.before _⟩
    have hl := value_eq_ok_iff.mp hx
    rcases bind_eq_error.mp h with h | ⟨y, hy, h⟩
    · obtain ⟨u, hu⟩ := ihr h
      exact ⟨u, (hu.before _).after hl.nodes⟩
    have hr := value_eq_ok_iff.mp hy
    have hfails : (Tree.binary op l r).Fails cause := by
      rw [Op.apply_eq] at h
      split at h
      · rename_i hzero
        obtain rfl := Except.error.inj h
        exact .zero hl hr hzero
      · rename_i hzero
        split at h
        · exact absurd h (by simp)
        · rename_i hfinite
          obtain rfl := Except.error.inj h
          exact .overflow hl hr (Bool.eq_false_iff.mpr hzero) (Bool.eq_false_iff.mpr hfinite)
    exact ⟨_, (hfails.first.after hr.nodes).after hl.nodes⟩

theorem divides_iff {op : Op} : op.divides = true ↔ op = .div ∨ op = .mod := by
  cases op <;> decide

/-- A failure is a division by zero exactly when the node divides by a zero. -/
theorem Tree.Fails.kind (h : u.Fails cause) :
    u.DividesByZero ∧ cause.kind = .divisionByZero ∨
      ¬ u.DividesByZero ∧ cause.kind = .evaluation := by
  cases h with
  | literal hfinite =>
    refine Or.inr ⟨?_, rfl⟩
    rintro ⟨op, l, r, x, y, hu, _⟩
    exact absurd hu (by simp)
  | @zero op l r x y hl hr hzero =>
    obtain ⟨hdivides, hy⟩ := Bool.and_eq_true_iff.mp hzero
    refine Or.inl ⟨⟨op, l, r, x, y, rfl, divides_iff.mp hdivides, hl, hr, hy⟩, ?_⟩
    cases op <;> rfl
  | @overflow op l r x y hl hr hzero hfinite =>
    refine Or.inr ⟨?_, ?_⟩
    · rintro ⟨op', l', r', x', y', hu, hdivides, _, hr', hy'⟩
      obtain ⟨rfl, rfl, rfl⟩ := Tree.binary.inj hu
      obtain rfl := hr.unique hr'
      rw [divides_iff.mpr hdivides, hy'] at hzero
      exact absurd hzero (by decide)
    · cases op with
      | pow =>
        dsimp only [Op.overflowCause]
        split
        · rfl
        · rfl
      | _ => rfl

end Value

section Walk

/-- The tree as the walk over it sees it: each node by the name of its production. -/
def Tree.labelled : Tree → Labelled
  | number literal => .node "number".toList [.leaf literal]
  | neg t => .node "neg".toList [t.labelled]
  | binary op l r => .node op.name [l.labelled, r.labelled]

/-- A parse tree has a node for the whole text above all others. -/
def Tree.rooted (t : Tree) : Labelled := .node "start".toList [t.labelled]

theorem readFloat_literal {literal : List Char} (h : IsLiteral literal) :
    readFloat literal = some (literalValue literal) := by
  obtain ⟨n, rfl⟩ := h
  rw [readFloat_text, literalValue_text]

theorem nodeValue_op (op : Op) (parts : List Part) :
    nodeValue op.name parts = operatorValue op parts := by
  unfold nodeValue
  cases op <;> rfl

theorem operatorValue_numbers (op : Op) (x y : Float) :
    operatorValue op [.number x, .number y] = operate (op.apply x y) := by
  cases op <;> rfl

theorem parts_unary {rule : List Char} {t : Labelled} : (Labelled.node rule [t]).parts =
    t.parts.bind fun p => nodeValue rule [p] := by
  rw [Labelled.parts, Labelled.partsOf, Labelled.partsOf]
  cases t.parts <;> rfl

theorem parts_binary {rule : List Char} {l r : Labelled} : (Labelled.node rule [l, r]).parts =
    l.parts.bind fun p => r.parts.bind fun q => nodeValue rule [p, q] := by
  rw [Labelled.parts, Labelled.partsOf, Labelled.partsOf, Labelled.partsOf]
  cases l.parts with
  | error _ => rfl
  | ok p => cases r.parts <;> rfl

/-- No node of a parse tree has an unknown name or the wrong children. -/
theorem parts_labelled {t : Tree} (h : ∀ literal ∈ t.literals, IsLiteral literal) :
    t.labelled.parts = operate t.value := by
  induction t with
  | number literal =>
    rw [Tree.labelled, parts_unary, Labelled.parts]
    change nodeValue "number".toList [.literal literal] = _
    have hread := readFloat_literal (h literal List.mem_cons_self)
    unfold nodeValue
    rw [if_neg (by decide), if_pos rfl]
    dsimp only
    rw [hread]
    rfl
  | neg t ih =>
    rw [Tree.labelled, parts_unary, ih h, Tree.value]
    cases t.value <;> rfl
  | binary op l r ihl ihr =>
    obtain ⟨hl, hr⟩ := List.forall_mem_append.mp h
    rw [Tree.labelled, parts_binary, ihl hl, ihr hr, Tree.value]
    cases l.value with
    | error _ => rfl
    | ok x =>
      cases r.value with
      | error _ => rfl
      | ok y =>
        change nodeValue op.name [.number x, .number y] = operate (op.apply x y)
        rw [nodeValue_op, operatorValue_numbers]

/-- The walk over a parse tree has the outcome of the tree, in the text of the expression. -/
theorem value_rooted {t : Tree} (h : ∀ literal ∈ t.literals, IsLiteral literal) (s : List Char) :
    t.rooted.value (some s) = t.value.mapError fun cause => .fault ⟨cause, some s⟩ := by
  unfold Labelled.value
  rw [Tree.rooted, parts_unary, parts_labelled h]
  cases t.value with
  | error cause => rfl
  | ok x => rfl

theorem literals_tree {c : Category} (d : Derivation c) :
    ∀ literal ∈ d.tree.literals, .number literal ∈ d.tokens := by
  induction d using Derivation.induct with
  | number literal =>
    intro literal' h
    rw [List.mem_singleton.mp h]
    exact List.mem_cons_self
  | group e ih =>
    exact fun literal h => List.mem_cons_of_mem _ (List.mem_append_left _ (ih literal h))
  | neg p ih => exact fun literal h => List.mem_cons_of_mem _ (ih literal h)
  | binary op l r ihl ihr =>
    rw [tree_binary, tokens_binary]
    refine List.forall_mem_append.mpr ⟨fun literal h => ?_, fun literal h => ?_⟩
    · exact List.mem_append_left _ (ihl literal h)
    · exact List.mem_append_right _ (List.mem_cons_of_mem _ (ihr literal h))
  | widen c d ih =>
    rw [tree_widen, tokens_widen]
    exact ih

end Walk

theorem evaluate_of_lexed {s : List Char} {d : Derivation .expr} (h : Lexed (trim s) d.tokens) :
    evaluate s = d.tree.value.mapError fun cause => ⟨cause, some s⟩ := by
  rw [evaluate_eq_mapError, parse_eq_ok.mpr (parseTrimmed_of_lexed h)]
  rfl

theorem exists_parse_error {s : List Char} (h : ¬ IsSentence (trim s)) :
    ∃ problem position, evaluate s = .error ⟨.parse problem position, some (trim s)⟩ := by
  rw [evaluate_eq_mapError]
  unfold parse
  cases hparse : parseTrimmed (trim s) with
  | ok t => exact absurd (isSentence_iff.mpr ⟨t, hparse⟩) h
  | error e => exact ⟨e.1, e.2, rfl⟩

/-- The outcome of any text. If it is no sentence, it is a parse error. If it is one, then either all
nodes of its tree have finite values and the value of the tree is returned, or the fault is that of
the first node that fails in post-order, a division by zero if the node divides by a zero and a
plain failure otherwise. The walk over the parse tree by the names of its nodes ends in the same
way, so that it meets no unknown or malformed node. -/
theorem arithmetic_outcome (s : List Char) :
    (¬ IsSentence (trim s) ∧
      ∃ problem position, evaluate s = .error ⟨.parse problem position, some (trim s)⟩) ∨
    ∃ d : Derivation .expr, Lexed (trim s) d.tokens ∧
      d.tree.rooted.value (some s) = (evaluate s).mapError .fault ∧
      ((∃ x, evaluate s = .ok x ∧ x.isFinite = true ∧ d.tree.Denotes x ∧
          ∀ u ∈ d.tree.postorder, u.HasFiniteValue) ∨
        ∃ u cause, evaluate s = .error ⟨cause, some s⟩ ∧ FirstFailure d.tree.postorder u cause ∧
          (u.DividesByZero ∧ cause.kind = .divisionByZero ∨
            ¬ u.DividesByZero ∧ cause.kind = .evaluation)) := by
  by_cases hsentence : IsSentence (trim s)
  · obtain ⟨d, hd⟩ := hsentence
    have hevaluate := evaluate_of_lexed hd
    have hliterals : ∀ literal ∈ d.tree.literals, IsLiteral literal :=
      fun literal h => hd.isLiteral literal (literals_tree d literal h)
    refine Or.inr ⟨d, hd, ?_, ?_⟩
    · rw [value_rooted hliterals, hevaluate]
      cases d.tree.value <;> rfl
    · cases hvalue : d.tree.value with
      | ok x =>
        have hdenotes := value_eq_ok_iff.mp hvalue
        rw [hvalue] at hevaluate
        exact Or.inl ⟨x, hevaluate, hdenotes.isFinite, hdenotes, hdenotes.nodes⟩
      | error cause =>
        rw [hvalue] at hevaluate
        obtain ⟨u, hu⟩ := exists_firstFailure hvalue
        obtain ⟨_, _, _, _, hfails⟩ := id hu
        exact Or.inr ⟨u, cause, hevaluate, hu, hfails.kind⟩
  · exact Or.inl ⟨hsentence, exists_parse_error hsentence⟩

end Reckoner.Arith
