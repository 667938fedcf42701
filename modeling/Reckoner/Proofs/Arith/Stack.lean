import Reckoner.Arith.Value

/-!
The stack of the parser. Left operands wait on it until an operator comes that does not bind
tighter than theirs, or until the end of what they belong to; then they are joined. A stack lets an
expression of a level pass when no operand on top of it takes a part of the expression.
-/
namespace Reckoner.Arith

variable {stack : List Frame} {t : Tree} {op : Op}

/-- Left operands that wait on a stack, the last one first. -/
def waiting (pending : List (Tree × Op)) : List Frame := pending.map fun f => .left f.1 f.2

/-- The tree of an operand that has been joined with all that wait. -/
def collapse (pending : List (Tree × Op)) (t : Tree) : Tree :=
  pending.foldl (fun t f => .binary f.2 f.1 t) t

theorem joinAll_waiting (pending : List (Tree × Op)) :
    joinAll (waiting pending ++ stack) t = joinAll stack (collapse pending t) := by
  induction pending generalizing t with
  | nil => rfl
  | cons f pending ih => exact ih

theorem joinBefore_waiting {pending : List (Tree × Op)}
    (h : ∀ f ∈ pending, f.2.takesBefore op = true) :
    joinBefore op (waiting pending ++ stack) t = joinBefore op stack (collapse pending t) := by
  induction pending generalizing t with
  | nil => rfl
  | cons f pending ih =>
    change joinBefore op (.left f.1 f.2 :: (waiting pending ++ stack)) t = _
    rw [joinBefore, if_pos (h f List.mem_cons_self)]
    exact ih fun g hg => h g (List.mem_cons_of_mem f hg)

/-- The least levels that the operands of an operator have without parentheses. -/
def leftLevel (op : Op) : Nat := if op = .pow then 4 else op.level

def rightLevel (op : Op) : Nat := if op = .pow then 3 else op.level + 1

/-- Whether an expression of a level stays whole on a stack: no minus sign takes its beginning, and
it is a right operand for the operator before it. -/
def Passes (level : Nat) : List Frame → Prop
  | .minus :: _ => False
  | .left _ op :: _ => rightLevel op ≤ level
  | _ => True

theorem Passes.mono {n m : Nat} (h : Passes n stack) (hnm : n ≤ m) : Passes m stack := by
  cases stack with
  | nil => trivial
  | cons f rest =>
    cases f with
    | paren => trivial
    | minus => exact h
    | left l op => exact Nat.le_trans h hnm

theorem settle_of_passes {level : Nat} (h : Passes level stack) :
    settle stack t = .operator stack t := by
  cases stack with
  | nil => rfl
  | cons f rest =>
    cases f with
    | paren => rfl
    | minus => exact absurd h id
    | left l op => rfl

/-- An operator waits for its right operand before it gives itself to the operator before it. -/
theorem joinBefore_of_passes (h : Passes op.level stack) : joinBefore op stack t = (stack, t) := by
  cases stack with
  | nil => rfl
  | cons f rest =>
    cases f with
    | paren => rfl
    | minus => rfl
    | left l earlier =>
      have hkeeps : earlier.takesBefore op = false := by
        change rightLevel earlier ≤ op.level at h
        revert h
        cases earlier <;> cases op <;> decide
      rw [joinBefore, hkeeps, if_neg Bool.false_ne_true]

/-- An operator takes all operators of a left operand. -/
theorem takesBefore_of_leftLevel {earlier : Op} (h : leftLevel op ≤ earlier.level) :
    earlier.takesBefore op = true := by
  revert h
  cases earlier <;> cases op <;> decide

section Run

theorem next?_operator {rest : List Frame} {u : Tree} (h : joinBefore op stack t = (rest, u)) :
    (State.operator stack t).next? (.operator op) = some (.operand (.left u op :: rest)) := by
  unfold State.next?
  dsimp only
  rw [h]

theorem next?_closing {rest : List Frame} {u : Tree} (h : joinAll stack t = (.paren :: rest, u)) :
    (State.operator stack t).next? .closing = some (settle rest u) := by
  unfold State.next?
  dsimp only
  rw [h]

/-- The state after some tokens. -/
def State.after? (state : State) (ts : List Token) : Option State :=
  ts.foldlM (fun state token => state.next? token) state

theorem State.after?_append (state : State) (ts us : List Token) :
    state.after? (ts ++ us) = (state.after? ts).bind fun state => state.after? us :=
  List.foldlM_append

theorem State.after?_cons (state : State) (token : Token) (ts : List Token) :
    state.after? (token :: ts) = (state.next? token).bind fun state => state.after? ts :=
  List.foldlM_cons

/-- A run over tokens that ends in a complete state gives its tree, wherever the tokens stand. -/
theorem runTokens_eq_ok {length : Nat} {state last : State} {ts : List (Nat × Token)}
    (h : state.after? (ts.map (·.2)) = some last) (ht : last.result? = some t) :
    runTokens length state ts = .ok t := by
  induction ts generalizing state with
  | nil =>
    obtain rfl : state = last := Option.some.inj h
    rw [runTokens, ht]
  | cons token ts ih =>
    rw [List.map_cons, State.after?_cons] at h
    obtain ⟨next, hnext, hrest⟩ := Option.bind_eq_some_iff.mp h
    obtain ⟨position, token⟩ := token
    rw [runTokens, hnext]
    exact ih hrest

end Run

end Reckoner.Arith
