import Reckoner.Proofs.Arith.Accepted
import Reckoner.Proofs.Formula.Segments

/-!
The grammar of expressions. It is the grammar of arithmetic with three more primary expressions:
a name, a line reference, and a call of a name with arguments. Its sentences are sequences of
segments. A sentence is also what a recursive descent reads from the left, one operand after the
other and without regard to how tight an operator binds; the two agree since an operand with an
operator in front of an expression makes an expression again.
-/
namespace Reckoner.Formula

open Text Number Arith

/-- The words that are line references. -/
def IsReference (w : List Char) : Prop := ∃ digits, digits ≠ [] ∧ AllDigits digits ∧ w = '@' :: digits

/-- The words that are primary expressions by themselves. -/
def IsOperand (w : List Char) : Prop := IsLiteral w ∨ isIdentifier w = true ∨ IsReference w

/-- The sentences of each nonterminal of the grammar. Names, line references and calls are the
primary expressions that arithmetic does not have. -/
inductive Sentence : Category → List Segment → Prop
  | number {w} : IsLiteral w → Sentence .primary [.word w]
  | name {w} : isIdentifier w = true → Sentence .primary [.word w]
  | reference {w} : IsReference w → Sentence .primary [.word w]
  | call {f} {args : List (List Segment)} : isIdentifier f = true →
      (∀ a ∈ args, Sentence .expr a) →
      Sentence .primary (.word f :: .mark '(' :: [Segment.mark ','].intercalate args ++ [.mark ')'])
  | group {ps} : Sentence .expr ps → Sentence .primary (.mark '(' :: ps ++ [.mark ')'])
  | neg {ps} : Sentence .primary ps → Sentence .unary (.mark '-' :: ps)
  | binary (op : Op) {ps qs} : Sentence op.leftCategory ps → Sentence op.rightCategory qs →
      Sentence op.category (ps ++ .mark op.symbol :: qs)
  | widen {c ps} : Sentence c ps → Sentence c.wider ps

section Sentences

variable {c k : Category} {ps qs us : List Segment} {w : List Char}

theorem IsOperand.sentence (h : IsOperand w) : Sentence .primary [.word w] := by
  rcases h with h | h | h
  · exact .number h
  · exact .name h
  · exact .reference h

/-- A sentence of a nonterminal is one of every wider one. -/
theorem Sentence.mono (h : Sentence c ps) (hle : k.level ≤ c.level) : Sentence k ps := by
  induction hn : c.level - k.level generalizing c with
  | zero =>
    obtain rfl : k = c := by
      cases k <;> cases c <;>
        first | rfl | exact absurd hle (by decide) | exact absurd hn (by decide)
    exact h
  | succ n ih =>
    have hwider : c.wider.level + 1 = c.level := by
      cases c with
      | expr => cases k <;> simp [Category.level] at hn
      | _ => rfl
    exact ih h.widen (by omega) (by omega)

/-- An operand in front of an operator that takes the whole sentence after it. -/
theorem Sentence.infront (h : Sentence c qs) (hu : Sentence .unary us) (op : Op)
    (hc : op.rightCategory.level ≤ c.level) :
    Sentence op.category (us ++ .mark op.symbol :: qs) :=
  .binary op (hu.mono (by cases op <;> decide)) (h.mono hc)

/-- An operand and an operator in front of a sentence make a sentence. An operator that binds
tighter than those of the sentence takes only the first operand of the sentence. -/
theorem Sentence.prepend (h : Sentence c qs) (hu : Sentence .unary us) (op : Op)
    (hc : k.level ≤ c.level) (hop : k.level ≤ op.category.level) :
    Sentence k (us ++ .mark op.symbol :: qs) := by
  have htight : ∀ d : Category, 4 ≤ d.level → op.rightCategory.level ≤ d.level := by
    intro d hd
    exact Nat.le_trans (by cases op <;> decide) hd
  induction h generalizing k with
  | number h => exact (infront (.number h) hu op (htight _ (by decide))).mono hop
  | name h => exact (infront (.name h) hu op (htight _ (by decide))).mono hop
  | reference h => exact (infront (.reference h) hu op (htight _ (by decide))).mono hop
  | call hf hargs _ => exact (infront (.call hf hargs) hu op (htight _ (by decide))).mono hop
  | group h _ => exact (infront (.group h) hu op (htight _ (by decide))).mono hop
  | neg h _ => exact (infront (.neg h) hu op (htight _ (by decide))).mono hop
  | @binary op' ls rs hl hr ihl _ =>
    by_cases hle : op.rightCategory.level ≤ op'.category.level
    · exact (infront (.binary op' hl hr) hu op hle).mono hop
    · -- the left operand of the sentence starts with what the operator takes
      have hleft : op'.leftCategory.level ≤ op.category.level := by
        cases op <;> cases op' <;> revert hle <;> decide
      have hboth := Sentence.binary op' (ihl (Nat.le_refl _) hleft) hr
      rw [List.append_assoc, List.cons_append] at hboth
      exact hboth.mono hc
  | @widen d _ _ ih => exact ih (hc.trans (level_wider d)) hop

/-- The segments with which an operand may end. -/
def Segment.endsOperand : Segment → Bool
  | word _ => true
  | mark c => c == ')'
  | joint => true

/-- The segments with which an operand may begin. -/
def Segment.beginsOperand : Segment → Bool
  | word _ => true
  | mark c => c == '('
  | joint => true

/-- That an operand comes right after another. A name with a parenthesis after it is the beginning
of one operand. -/
def Adjoining (p q : Segment) : Prop :=
  p.endsOperand = true ∧ q.beginsOperand = true ∧
    ¬ ∃ f, p = .word f ∧ isIdentifier f = true ∧ q = .mark '('

theorem chain_cons_mark {p : Segment} (hp : p.endsOperand = false)
    (h : ps.IsChain fun p q => ¬ Adjoining p q) :
    (p :: ps).IsChain fun p q => ¬ Adjoining p q := by
  refine List.isChain_cons.mpr ⟨fun q _ hadjoining => ?_, h⟩
  exact Bool.false_ne_true (hp.symm.trans hadjoining.1)

theorem chain_append_mark {q : Segment} (hq : q.beginsOperand = false)
    (hps : ps.IsChain fun p q => ¬ Adjoining p q)
    (h : (q :: qs).IsChain fun p q => ¬ Adjoining p q) :
    (ps ++ q :: qs).IsChain fun p q => ¬ Adjoining p q := by
  refine List.isChain_append.mpr ⟨hps, h, fun p _ r hr hadjoining => ?_⟩
  rw [← Option.some.inj hr] at hadjoining
  exact Bool.false_ne_true (hq.symm.trans hadjoining.2.1)

theorem chain_intercalate {args : List (List Segment)}
    (h : ∀ a ∈ args, a.IsChain fun p q => ¬ Adjoining p q) :
    ([Segment.mark ','].intercalate args).IsChain fun p q => ¬ Adjoining p q := by
  induction args with
  | nil => exact .nil
  | cons a args ih =>
    have hrest := ih fun b hb => h b (List.mem_cons_of_mem a hb)
    cases args with
    | nil =>
      rw [List.intercalate_singleton]
      exact h a List.mem_cons_self
    | cons b args =>
      rw [List.intercalate_cons_cons, List.append_assoc, List.singleton_append]
      exact chain_append_mark (by decide) (h a List.mem_cons_self)
        (chain_cons_mark (by decide) hrest)

/-- In a sentence no operand comes right after another. -/
theorem Sentence.chain (h : Sentence c ps) : ps.IsChain fun p q => ¬ Adjoining p q := by
  have hclosing : [Segment.mark ')'].IsChain fun p q => ¬ Adjoining p q := .singleton _
  induction h with
  | number _ | name _ | reference _ => exact .singleton _
  | @call f args hf _ ih =>
    have hopening := chain_cons_mark (p := .mark '(') (by decide)
      (chain_append_mark (by decide) (chain_intercalate ih) hclosing)
    refine List.isChain_cons.mpr ⟨fun q hq hadjoining => ?_, hopening⟩
    exact hadjoining.2.2 ⟨f, rfl, hf, (Option.some.inj hq).symm⟩
  | group _ ih =>
    exact chain_cons_mark (by decide) (chain_append_mark (by decide) ih hclosing)
  | neg _ ih => exact chain_cons_mark (by decide) ih
  | binary op _ _ ihl ihr =>
    exact chain_append_mark (by cases op <;> decide) ihl
      (chain_cons_mark (by cases op <;> decide) ihr)
  | widen _ ih => exact ih

end Sentences

/-- The names that can be called. -/
def IsFunction (table : FunctionTable) (f : List Char) : Prop :=
  isIdentifier f = true ∧ ∃ g, table.find f = .ok g

/-- What a recursive descent reads. -/
inductive Reading
  | primary
  | unary
  | expr
  | arguments

/-- That a recursive descent reads something at the beginning of a list of segments, and what it
leaves. -/
inductive Reads (table : FunctionTable) : Reading → List Segment → List Segment → Prop
  | operand {w rest} : IsOperand w → Reads table .primary (.word w :: rest) rest
  | group {ps rest} : Reads table .expr ps (.mark ')' :: rest) →
      Reads table .primary (.mark '(' :: ps) rest
  | empty {f rest} : IsFunction table f →
      Reads table .primary (.word f :: .mark '(' :: .mark ')' :: rest) rest
  | call {f ps rest} : IsFunction table f → Reads table .arguments ps (.mark ')' :: rest) →
      Reads table .primary (.word f :: .mark '(' :: ps) rest
  | plain {ps rest} : Reads table .primary ps rest → Reads table .unary ps rest
  | neg {ps rest} : Reads table .primary ps rest → Reads table .unary (.mark '-' :: ps) rest
  | last {ps rest} : Reads table .unary ps rest → Reads table .expr ps rest
  | chain (op : Op) {ps qs rest} : Reads table .unary ps (.mark op.symbol :: qs) →
      Reads table .expr qs rest → Reads table .expr ps rest
  | argument {ps rest} : Reads table .expr ps rest → Reads table .arguments ps rest
  | comma {ps qs rest} : Reads table .expr ps (.mark ',' :: qs) →
      Reads table .arguments qs rest → Reads table .arguments ps rest

section Readings

variable {table : FunctionTable} {reading : Reading} {ps qs rest : List Segment} {c : Category}

/-- What is read does not depend on what comes after. -/
theorem Reads.append (h : Reads table reading ps rest) (qs : List Segment) :
    Reads table reading (ps ++ qs) (rest ++ qs) := by
  induction h with
  | operand h => exact .operand h
  | group _ ih => exact .group ih
  | empty hf => exact .empty hf
  | call hf _ ih => exact .call hf ih
  | plain _ ih => exact .plain ih
  | neg _ ih => exact .neg ih
  | last _ ih => exact .last ih
  | chain op _ _ ihl ihr => exact .chain op ihl ihr
  | argument _ ih => exact .argument ih
  | comma _ _ ihl ihr => exact .comma ihl ihr

/-- Two expressions with an operator between them. -/
theorem Reads.join {op : Op} (h : Reads table .expr ps (.mark op.symbol :: qs))
    (hqs : Reads table .expr qs rest) : Reads table .expr ps rest := by
  generalize hr : Reading.expr = reading at h
  generalize hm : Segment.mark op.symbol :: qs = middle at h
  induction h with
  | last h _ =>
    subst hm
    exact .chain op h hqs
  | chain op' h _ _ ih => exact .chain op' h (ih hr hm)
  | _ => exact absurd hr (by simp)

/-- The sentences that are read. -/
def Reading.Sentences : Reading → List Segment → Prop
  | primary, ps => Sentence .primary ps
  | unary, ps => Sentence .unary ps
  | expr, ps => Sentence .expr ps
  | arguments, ps => ∃ args, ps = [Segment.mark ','].intercalate args ∧ args ≠ [] ∧
      ∀ a ∈ args, Sentence .expr a

/-- What is read is a sentence. -/
theorem Reads.sentence (h : Reads table reading ps rest) :
    ∃ as, ps = as ++ rest ∧ reading.Sentences as := by
  induction h with
  | @operand w rest h => exact ⟨[.word w], rfl, h.sentence⟩
  | group _ ih =>
    obtain ⟨as, rfl, h⟩ := ih
    refine ⟨.mark '(' :: as ++ [.mark ')'], by simp, ?_⟩
    exact Sentence.group h
  | @empty f rest hf =>
    exact ⟨[.word f, .mark '(', .mark ')'], rfl,
      Sentence.call hf.1 (fun a ha => absurd ha List.not_mem_nil)⟩
  | @call f _ rest hf _ ih =>
    obtain ⟨as, rfl, args, rfl, _, h⟩ := ih
    refine ⟨.word f :: .mark '(' :: [Segment.mark ','].intercalate args ++ [.mark ')'],
      by simp, ?_⟩
    exact Sentence.call hf.1 h
  | plain _ ih =>
    obtain ⟨as, rfl, h⟩ := ih
    exact ⟨as, rfl, Sentence.widen h⟩
  | neg _ ih =>
    obtain ⟨as, rfl, h⟩ := ih
    exact ⟨.mark '-' :: as, rfl, Sentence.neg h⟩
  | last _ ih =>
    obtain ⟨as, rfl, h⟩ := ih
    exact ⟨as, rfl, Sentence.mono (c := .unary) h (by decide)⟩
  | chain op _ _ ihl ihr =>
    obtain ⟨us, rfl, hu⟩ := ihl
    obtain ⟨as, rfl, h⟩ := ihr
    exact ⟨us ++ .mark op.symbol :: as, by simp,
      Sentence.prepend (c := .expr) h hu op (Nat.le_refl _) (by cases op <;> decide)⟩
  | argument _ ih =>
    obtain ⟨as, rfl, h⟩ := ih
    refine ⟨as, rfl, [as], by simp, List.cons_ne_nil _ _, fun a ha => ?_⟩
    rw [List.mem_singleton.mp ha]
    exact h
  | comma _ _ ihl ihr =>
    obtain ⟨as, rfl, h⟩ := ihl
    obtain ⟨bs, rfl, args, rfl, hne, hargs⟩ := ihr
    obtain ⟨b, later, rfl⟩ := List.exists_cons_of_ne_nil hne
    refine ⟨as ++ .mark ',' :: [Segment.mark ','].intercalate (b :: later), by simp,
      as :: b :: later, by rw [List.intercalate_cons_cons]; simp, List.cons_ne_nil _ _,
      fun a ha => ?_⟩
    rcases List.mem_cons.mp ha with rfl | ha
    · exact h
    · exact hargs a ha

/-- The segment of a token. -/
def segmentOf : Token → Segment
  | .number literal => .word literal
  | .operator op => .mark op.symbol
  | .opening => .mark '('
  | .closing => .mark ')'
  | .illegal c => .mark c

/-- How a nonterminal of arithmetic is read. -/
def readingOf : Category → Reading
  | .expr | .term | .factor => .expr
  | .unary => .unary
  | .primary => .primary

theorem Reads.expr_of_level (hc : c.level ≤ 4) (h : Reads table (readingOf c) ps rest) :
    Reads table .expr ps rest := by
  cases c with
  | expr | term | factor => exact h
  | unary => exact .last h
  | primary => exact absurd hc (by decide)

/-- The tokens of a derivation are read. -/
theorem reads_derivation (d : Derivation c)
    (h : ∀ literal, .number literal ∈ d.tokens → IsLiteral literal) (rest : List Segment) :
    Reads table (readingOf c) (d.tokens.map segmentOf ++ rest) rest := by
  induction d using Derivation.induct generalizing rest with
  | number literal => exact .operand (Or.inl (h literal List.mem_cons_self))
  | group e ih =>
    have hinner := ih (fun literal hmem => h literal
      (List.mem_cons_of_mem _ (List.mem_append_left _ hmem))) (.mark ')' :: rest)
    rw [Derivation.tokens, List.cons_append, List.map_cons, List.map_append, List.cons_append,
      List.append_assoc]
    exact .group hinner
  | neg p ih =>
    exact .neg (ih (fun literal hmem => h literal (List.mem_cons_of_mem _ hmem)) rest)
  | binary op l r ihl ihr =>
    rw [tokens_binary] at h ⊢
    have hl := (ihl (fun literal hmem => h literal (List.mem_append_left _ hmem))
      (.mark op.symbol :: (r.tokens.map segmentOf ++ rest))).expr_of_level
        (by cases op <;> decide)
    have hr := (ihr (fun literal hmem =>
      h literal (List.mem_append_right _ (List.mem_cons_of_mem _ hmem))) rest).expr_of_level
        (by cases op <;> decide)
    have hboth := hl.join hr
    rw [List.map_append, List.map_cons, List.append_assoc]
    cases op <;> exact hboth
  | widen c d ih =>
    rw [tokens_widen] at h ⊢
    have hd := ih h rest
    cases c with
    | expr | term | factor => exact hd
    | unary => exact .last hd
    | primary => exact .plain hd

end Readings

end Reckoner.Formula
