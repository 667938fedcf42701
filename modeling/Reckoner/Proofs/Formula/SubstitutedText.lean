import Reckoner.Proofs.Formula.Substituted

/-!
Substitution in the text of an expression. The two passes over the text go through its lexemes: all
text without an at sign passes the first one unchanged, all text without a name start and all names
of calls pass the second one, and the references and names are met as wholes.
-/
namespace Reckoner.Formula

open Text Number Arith

/-- Scopes whose names are identifiers and whose values are finite. -/
structure Scope.Regular (scope : Scope) : Prop where
  identifiers : ∀ n ∈ Assoc.keys scope.named ++ scope.pending, isIdentifier n = true
  named_finite : ∀ e ∈ scope.named, e.2.isFinite = true
  lines_finite : ∀ e ∈ scope.lines, e.2.isFinite = true

namespace Scope

variable {scope : Scope}

theorem mem_names {n : List Char} :
    n ∈ scope.names ↔ n ∈ Assoc.keys scope.named ++ scope.pending := by
  unfold names
  exact List.mem_mergeSort

theorem Regular.lineMeaning_finite (h : scope.Regular) (r : LineReference) :
    (scope.lineMeaning r).isFinite = true := by
  unfold lineMeaning
  cases hr : Assoc.get? scope.lines (digitsValue r.digits) with
  | none => rw [Option.getD_none]; exact isFinite_zero
  | some x => exact h.lines_finite (_, x) (Assoc.mem_of_get? hr)

theorem named_getD_finite (h : ∀ e ∈ scope.named, e.2.isFinite = true) (n : List Char) :
    ((Assoc.get? scope.named n).getD 0).isFinite = true := by
  cases hn : Assoc.get? scope.named n with
  | none => rw [Option.getD_none]; exact isFinite_zero
  | some x => exact h (n, x) (Assoc.mem_of_get? hn)

section Lines

theorem substituteLines_append {t : List Char} (ht : '@' ∉ t) (s : List Char) :
    scope.substituteLines false (t ++ s) =
      (scope.substituteLines false s).map fun rest => t ++ rest := by
  induction t with
  | nil => cases hs : scope.substituteLines false s <;> simp [hs, Except.map]
  | cons c t ih =>
    have hc : c ≠ '@' := fun hc => ht (hc ▸ List.mem_cons_self)
    have hrest := ih fun hmem => ht (List.mem_cons_of_mem c hmem)
    rw [List.cons_append, substituteLines, Bool.false_and, if_neg Bool.false_ne_true]
    dsimp only
    rw [if_neg fun h => hc h.1, hrest]
    cases scope.substituteLines false s <;> rfl

theorem substituteLines_within {s : List Char} (hs : ∀ c ∈ s.head?, isDigit c = false) :
    scope.substituteLines true s = scope.substituteLines false s := by
  cases s with
  | nil => unfold substituteLines; rfl
  | cons c r =>
    have hc := hs c rfl
    rw [substituteLines, substituteLines, hc, Bool.and_false, Bool.false_and]

theorem substituteLines_digits {digits : List Char} (hd : AllDigits digits) (s : List Char) :
    scope.substituteLines true (digits ++ s) = scope.substituteLines true s := by
  induction digits with
  | nil => rfl
  | cons c r ih =>
    have hc := hd c List.mem_cons_self
    rw [List.cons_append, substituteLines, if_pos (by rw [hc]; rfl)]
    exact ih fun d hmem => hd d (List.mem_cons_of_mem c hmem)

/-- The literal of a line reference is the text of its value. -/
theorem lineLiteral_eq {r : LineReference} (h : (scope.lineMeaning r).isFinite = true) :
    scope.lineLiteral r.digits = .ok (textOf (Expr.ofValue (scope.lineMeaning r)).lexemes) := by
  rw [← literal_eq_ofValue h]
  unfold lineLiteral lineMeaning
  rw [if_neg (Nat.not_lt.mpr r.readable)]
  cases Assoc.get? scope.lines (digitsValue r.digits) with
  | none => exact (literal_of_isZero isZero_zero).symm
  | some x => rfl

/-- A line reference and the text after it. -/
theorem substituteLines_line (r : LineReference) {s : List Char}
    (hs : ∀ c ∈ s.head?, isDigit c = false) :
    scope.substituteLines false ('@' :: r.digits ++ s) = (scope.lineLiteral r.digits).bind
      fun value => (scope.substituteLines false s).map fun rest => value ++ rest := by
  have htake : (r.digits ++ s).takeWhile isDigit = r.digits :=
    takeWhile_append_stop r.all_digits hs
  rw [List.cons_append, substituteLines, Bool.false_and, if_neg Bool.false_ne_true, htake]
  dsimp only
  rw [if_pos ⟨rfl, r.some_digit⟩, substituteLines_digits r.all_digits, substituteLines_within hs]
  cases scope.lineLiteral r.digits with
  | error _ => rfl
  | ok value => cases scope.substituteLines false s <;> rfl

theorem at_not_mem_numeral (n : Numeral) : '@' ∉ n.text := by
  intro h
  rcases mem_numeral_text h with hdigit | hpoint
  · exact not_mem_marks (isWord_of_isDigit hdigit) (by decide)
  · exact absurd hpoint (by decide)

theorem at_not_mem_name (n : Name) : '@' ∉ n.chars := fun h =>
  not_mem_marks (n.isWord_of_mem h) (by decide)

/-- The first pass replaces the line references. -/
theorem Regular.substituteLines_textOf (h : scope.Regular) {ls : List Lexeme}
    (hls : Phrase ls) :
    scope.substituteLines false (textOf ls) = .ok (textOf (ls.flatMap
      (Lexeme.replace .name fun r => Expr.ofValue (scope.lineMeaning r)))) := by
  induction ls with
  | nil => unfold substituteLines; rfl
  | cons a ls ih =>
    have hrest := ih hls.tail
    have hplain : '@' ∉ a.text →
        (Lexeme.replace .name (fun r => Expr.ofValue (scope.lineMeaning r)) a) = [a] →
        scope.substituteLines false (textOf (a :: ls)) = .ok (textOf ((a :: ls).flatMap
          (Lexeme.replace .name fun r => Expr.ofValue (scope.lineMeaning r)))) := by
      intro hat hsame
      rw [textOf_cons, substituteLines_append hat, hrest, List.flatMap_cons, hsame]
      rfl
    cases a with
    | numeral n => exact hplain (at_not_mem_numeral n) rfl
    | name n => exact hplain (at_not_mem_name n) (by simp [Lexeme.replace, Expr.lexemes])
    | callee f => exact hplain (at_not_mem_name f) rfl
    | minus spaced => exact hplain (by cases spaced <;> decide) rfl
    | operator op => exact hplain (by cases op <;> decide) rfl
    | opening => exact hplain (by decide) rfl
    | closing => exact hplain (by decide) rfl
    | comma => exact hplain (by decide) rfl
    | line r =>
      have hboundary := hls.boundary rfl
      rw [textOf_cons, List.flatMap_cons, textOf_append]
      change scope.substituteLines false ('@' :: r.digits ++ textOf ls) = _
      rw [substituteLines_line r hboundary.head_not_digit,
        lineLiteral_eq (h.lineMeaning_finite r), hrest]
      rfl

end Lines

section Names

variable {names : List (List Char)} {last : Option Char}

theorem nameAt?_of_word {d : Char} (hd : isWord d = true) (s : List Char) :
    nameAt? names (some d) s = none := by
  have hlast : ¬ allowsNameAfter (some d) = true := by
    unfold allowsNameAfter
    simp [hd]
  unfold nameAt?
  rw [if_neg hlast]

/-- No name stands where none can start. -/
theorem nameAt?_of_head (hnames : ∀ n ∈ names, isIdentifier n = true) {s : List Char}
    (hs : ∀ c ∈ s.head?, isNameStart c = false) : nameAt? names last s = none := by
  unfold nameAt?
  split
  · rw [List.find?_eq_none]
    intro n hn hmatch
    obtain ⟨hstarts, _⟩ := Bool.and_eq_true_iff.mp hmatch
    obtain ⟨t, rfl⟩ := List.isPrefixOf_iff_prefix.mp hstarts
    cases n with
    | nil => exact absurd (hnames [] hn) (by decide)
    | cons c r =>
      have hstart := (Bool.and_eq_true_iff.mp (hnames _ hn)).1
      rw [hs c rfl] at hstart
      exact absurd hstart (by decide)
  · rfl

theorem isWord_of_identifier {n : List Char} (h : isIdentifier n = true) :
    ∀ c ∈ n, isWord c = true := fun _ hc => Name.isWord_of_mem ⟨n, h⟩ hc

/-- A word that ends before `rest` matches itself only. -/
private theorem matches_iff {m n rest : List Char} (hm : ∀ c ∈ m, isWord c = true)
    (hn : ∀ c ∈ n, isWord c = true) (hrest : ∀ c ∈ rest.head?, isWord c = false) :
    (m.isPrefixOf (n ++ rest) && endsName ((n ++ rest).drop m.length)) = true ↔
      m = n ∧ endsName rest = true := by
  constructor
  · intro h
    obtain ⟨hstarts, hends⟩ := Bool.and_eq_true_iff.mp h
    obtain ⟨t, ht⟩ := List.isPrefixOf_iff_prefix.mp hstarts
    rw [← ht, List.drop_left] at hends
    rcases List.append_eq_append_iff.mp ht with ⟨u, hu, ht'⟩ | ⟨u, hu, hrest'⟩
    · cases u with
      | nil =>
        rw [List.append_nil] at hu
        rw [List.nil_append] at ht'
        exact ⟨hu.symm, ht' ▸ hends⟩
      | cons c u =>
        have hc : isWord c = true := hn c (by rw [hu]; simp)
        rw [ht'] at hends
        unfold endsName at hends
        simp [hc] at hends
    · cases u with
      | nil =>
        rw [List.append_nil] at hu
        rw [List.nil_append] at hrest'
        exact ⟨hu, hrest' ▸ hends⟩
      | cons c u =>
        have hc : isWord c = true := hm c (by rw [hu]; simp)
        rw [hrest c (by rw [hrest']; rfl)] at hc
        exact absurd hc (by decide)
  · rintro ⟨rfl, hends⟩
    rw [List.drop_left, hends, Bool.and_true, List.isPrefixOf_iff_prefix]
    exact List.prefix_append m rest

/-- The name at the beginning of a word is the word itself, if it is known and no call. -/
theorem nameAt?_word (hnames : ∀ n ∈ names, isIdentifier n = true)
    (hlast : allowsNameAfter last = true)
    {n rest : List Char} (hn : ∀ c ∈ n, isWord c = true)
    (hrest : ∀ c ∈ rest.head?, isWord c = false) :
    nameAt? names last (n ++ rest) = if n ∈ names ∧ endsName rest = true then some n else none := by
  have hiff : ∀ m ∈ names,
      (m.isPrefixOf (n ++ rest) && endsName ((n ++ rest).drop m.length)) = true ↔
      m = n ∧ endsName rest = true :=
    fun m hm => matches_iff (isWord_of_identifier (hnames m hm)) hn hrest
  unfold nameAt?
  rw [if_pos hlast]
  split
  · rename_i h
    cases hfind : names.find? fun m =>
        m.isPrefixOf (n ++ rest) && endsName ((n ++ rest).drop m.length) with
    | none => exact absurd ((hiff n h.1).mpr ⟨rfl, h.2⟩) (List.find?_eq_none.mp hfind n h.1)
    | some m =>
      have hm := List.mem_of_find?_eq_some hfind
      have hmatch := List.find?_some hfind
      rw [((hiff m hm).mp hmatch).1]
  · rename_i h
    rw [List.find?_eq_none]
    intro m hm hmatch
    obtain ⟨rfl, hends⟩ := (hiff m hm).mp hmatch
    exact h ⟨hm, hends⟩

/-- The only name that may stand at a place is the whole word there. -/
theorem nameAt?_eq (hnames : ∀ n ∈ names, isIdentifier n = true) (last : Option Char)
    (s : List Char) :
    nameAt? names last s =
      if allowsNameAfter last = true ∧ s.takeWhile isWord ∈ names ∧
        endsName (s.dropWhile isWord) = true then some (s.takeWhile isWord) else none := by
  by_cases hlast : allowsNameAfter last = true
  · have hat := nameAt?_word (n := s.takeWhile isWord) hnames hlast
      (fun c hc => List.mem_takeWhile_imp hc) (head_dropWhile isWord s)
    rw [List.takeWhile_append_dropWhile] at hat
    rw [hat]
    simp only [hlast, true_and]
  · unfold nameAt?
    rw [if_neg hlast, if_neg fun h => hlast h.1]

theorem endsName_of_boundary {s : List Char} (h : Boundary s) : endsName s = true := by
  have hblank := h.head_not_opening
  unfold endsName
  rw [Bool.and_eq_true]
  constructor
  · cases s with
    | nil => rfl
    | cons c r => simp [h.head_not_word c rfl]
  · split
    · rename_i heq
      exact absurd rfl (hblank '(' (by rw [heq]; rfl))
    · rfl

theorem endsName_opening (s : List Char) : endsName ('(' :: s) = false := by
  have hblank : isBlank '(' = false := by decide
  unfold endsName
  rw [List.dropWhile_cons_of_neg (by rw [hblank]; decide)]
  simp

/-- The last character after more text. -/
def lastOf (last : Option Char) (t : List Char) : Option Char := t.getLast?.or last

theorem lastOf_cons (last : Option Char) (c : Char) (t : List Char) :
    lastOf last (c :: t) = lastOf (some c) t := by
  unfold lastOf
  rw [List.getLast?_cons]
  cases t.getLast? <;> rfl

theorem lastOf_of_ne_nil {t : List Char} (h : t ≠ []) : lastOf last t = t.getLast? := by
  unfold lastOf
  rw [List.getLast?_eq_some_getLast h]
  rfl

/-- A character at which no name stands is kept. -/
theorem substituteNames_cons {c : Char} {r : List Char} (h : nameAt? names last (c :: r) = none) :
    scope.substituteNames names last 0 (c :: r) =
      (scope.substituteNames names (some c) 0 r).map fun rest => c :: rest := by
  rw [substituteNames, h]
  cases scope.substituteNames names (some c) 0 r <;> rfl

/-- Text without name starts is kept. -/
theorem substituteNames_plain (hnames : ∀ n ∈ names, isIdentifier n = true) {t : List Char}
    (ht : ∀ c ∈ t, isNameStart c = false) (s : List Char) :
    scope.substituteNames names last 0 (t ++ s) =
      (scope.substituteNames names (lastOf last t) 0 s).map fun rest => t ++ rest := by
  induction t generalizing last with
  | nil =>
    change scope.substituteNames names last 0 s = _
    unfold lastOf
    cases hs : scope.substituteNames names last 0 s <;> simp [hs, Except.map]
  | cons c t ih =>
    have hc := ht c List.mem_cons_self
    have hnone : nameAt? names last (c :: (t ++ s)) = none :=
      nameAt?_of_head hnames fun d hd => by rwa [← Option.some.inj hd]
    rw [List.cons_append, substituteNames_cons hnone,
      ih fun d hd => ht d (List.mem_cons_of_mem c hd), lastOf_cons]
    cases scope.substituteNames names (lastOf (some c) t) 0 s <;> rfl

/-- The rest of a word is kept. -/
theorem substituteNames_within {d : Char} (hd : isWord d = true) {t : List Char}
    (ht : ∀ c ∈ t, isWord c = true) (s : List Char) :
    scope.substituteNames names (some d) 0 (t ++ s) =
      (scope.substituteNames names (lastOf (some d) t) 0 s).map fun rest => t ++ rest := by
  induction t generalizing d with
  | nil =>
    change scope.substituteNames names (some d) 0 s = _
    unfold lastOf
    cases hs : scope.substituteNames names (some d) 0 s <;> simp [hs, Except.map]
  | cons c t ih =>
    have hc := ht c List.mem_cons_self
    rw [List.cons_append, substituteNames_cons (nameAt?_of_word hd _),
      ih hc fun e he => ht e (List.mem_cons_of_mem c he), lastOf_cons]
    cases scope.substituteNames names (lastOf (some c) t) 0 s <;> rfl

theorem substituteNames_skip (t s : List Char) :
    scope.substituteNames names last t.length (t ++ s) =
      scope.substituteNames names (lastOf last t) 0 s := by
  induction t generalizing last with
  | nil => rfl
  | cons c t ih =>
    rw [List.cons_append, List.length_cons, substituteNames, ih, lastOf_cons]

theorem allowsNameAfter_of_fresh (h : Fresh last) : allowsNameAfter last = true := by
  cases last with
  | none => rfl
  | some c => rcases h c rfl with rfl | rfl | rfl <;> decide

/-- A word at which no name stands is kept. -/
theorem substituteNames_kept {w s : List Char} (hw : w ≠ []) (hall : ∀ c ∈ w, isWord c = true)
    (hat : nameAt? names last (w ++ s) = none) :
    scope.substituteNames names last 0 (w ++ s) =
      (scope.substituteNames names (lastOf last w) 0 s).map fun rest => w ++ rest := by
  obtain ⟨c, r, rfl⟩ := List.exists_cons_of_ne_nil hw
  rw [List.cons_append] at hat ⊢
  rw [substituteNames_cons hat, substituteNames_within (hall c List.mem_cons_self)
    (fun d hd => hall d (List.mem_cons_of_mem c hd)), lastOf_cons]
  cases scope.substituteNames names (lastOf (some c) r) 0 s <;> rfl

/-- A word that is the name found at its place is replaced by the literal of that name. -/
theorem substituteNames_taken {w s : List Char} (hw : w ≠ [])
    (hat : nameAt? names last (w ++ s) = some w) :
    scope.substituteNames names last 0 (w ++ s) = (scope.nameLiteral w).bind fun value =>
      (scope.substituteNames names (lastOf last w) 0 s).map fun rest => value ++ rest := by
  obtain ⟨c, r, rfl⟩ := List.exists_cons_of_ne_nil hw
  rw [List.cons_append] at hat ⊢
  rw [substituteNames, hat]
  dsimp only
  rw [substituteNames_skip, lastOf_cons]
  cases scope.nameLiteral (c :: r) with
  | error why => rfl
  | ok value => cases scope.substituteNames names (lastOf (some c) r) 0 s <;> rfl

/-- A known name is replaced. -/
theorem substituteNames_known (hnames : ∀ n ∈ names, isIdentifier n = true)
    (hlast : allowsNameAfter last = true) {n : Name} {s : List Char}
    (hs : ∀ c ∈ s.head?, isWord c = false) (hn : n.chars ∈ names ∧ endsName s = true)
    {value : List Char} (hvalue : scope.nameLiteral n.chars = .ok value) :
    scope.substituteNames names last 0 (n.chars ++ s) =
      (scope.substituteNames names (lastOf last n.chars) 0 s).map fun rest => value ++ rest := by
  have hat := nameAt?_word hnames hlast (fun c => n.isWord_of_mem) hs
  rw [if_pos hn] at hat
  obtain ⟨c, r, hcons, _, _⟩ := n.exists_cons
  rw [substituteNames_taken (hcons ▸ List.cons_ne_nil c r) hat, hvalue]
  rfl

/-- Any other word is kept. -/
theorem substituteNames_unknown (hnames : ∀ n ∈ names, isIdentifier n = true)
    (hlast : allowsNameAfter last = true) {n : Name} {s : List Char}
    (hs : ∀ c ∈ s.head?, isWord c = false) (hn : ¬ (n.chars ∈ names ∧ endsName s = true)) :
    scope.substituteNames names last 0 (n.chars ++ s) =
      (scope.substituteNames names (lastOf last n.chars) 0 s).map fun rest => n.chars ++ rest := by
  have hat := nameAt?_word hnames hlast (fun c => n.isWord_of_mem) hs
  rw [if_neg hn] at hat
  obtain ⟨c, r, hcons, _, _⟩ := n.exists_cons
  exact substituteNames_kept (hcons ▸ List.cons_ne_nil c r) (fun c => n.isWord_of_mem) hat

/-- The expression that takes the place of a name. -/
noncomputable def nameExpr (scope : Scope) (n : Name) : Expr :=
  if scope.names.contains n.chars then .ofValue ((Assoc.get? scope.named n.chars).getD 0)
  else .name n

theorem nameExpr_of_mem {n : Name} (h : n.chars ∈ scope.names) :
    scope.nameExpr n = .ofValue ((Assoc.get? scope.named n.chars).getD 0) :=
  if_pos (List.contains_iff_mem.mpr h)

theorem nameExpr_of_not_mem {n : Name} (h : n.chars ∉ scope.names) : scope.nameExpr n = .name n :=
  if_neg fun hc => h (List.contains_iff_mem.mp hc)

noncomputable def lineExpr (scope : Scope) (r : LineReference) : Expr :=
  .ofValue (scope.lineMeaning r)

/-- The second pass replaces the known names. -/
theorem Regular.substituteNames_textOf (h : scope.Regular) {ls : List Lexeme}
    (hls : Phrase ls) (hlast : ∀ a ∈ ls.head?, a.named = true → Fresh last) :
    scope.substituteNames scope.names last 0 (textOf ls) =
      .ok (textOf (ls.flatMap (Lexeme.replace scope.nameExpr .line))) := by
  have hnames : ∀ n ∈ scope.names, isIdentifier n = true := fun n hn =>
    h.identifiers n (mem_names.mp hn)
  induction ls generalizing last with
  | nil =>
    rw [textOf_nil, substituteNames, nameAt?_of_head hnames (by simp)]
    rfl
  | cons a ls ih =>
    have hrest : scope.substituteNames scope.names (lastOf last a.text) 0 (textOf ls) =
        .ok (textOf (ls.flatMap (Lexeme.replace scope.nameExpr .line))) := by
      refine ih hls.tail fun b hb hnamed => ?_
      rw [lastOf_of_ne_nil a.text_ne_nil]
      exact fresh_of_follows ((List.isChain_cons.mp hls.chain).1 b hb) hnamed
    have hplain : (∀ c ∈ a.text, isNameStart c = false) →
        Lexeme.replace scope.nameExpr .line a = [a] →
        scope.substituteNames scope.names last 0 (textOf (a :: ls)) =
          .ok (textOf ((a :: ls).flatMap (Lexeme.replace scope.nameExpr .line))) := by
      intro hstart hsame
      rw [textOf_cons, substituteNames_plain hnames hstart, hrest, List.flatMap_cons, hsame]
      rfl
    cases a with
    | numeral n | line r | minus spaced | operator op | opening | closing | comma =>
      exact hplain (isNameStart_of_not_named rfl) (by simp [Lexeme.replace, Expr.lexemes])
    | name n =>
      have hallows := allowsNameAfter_of_fresh (hlast _ rfl rfl)
      have hboundary := hls.boundary rfl
      rw [textOf_cons, List.flatMap_cons, textOf_append]
      change scope.substituteNames scope.names last 0 (n.chars ++ textOf ls) =
        .ok (textOf (scope.nameExpr n).lexemes ++ _)
      change scope.substituteNames scope.names (lastOf last n.chars) 0 (textOf ls) = _ at hrest
      by_cases hn : n.chars ∈ scope.names
      · have hvalue := literal_eq_ofValue (named_getD_finite h.named_finite n.chars)
        rw [substituteNames_known hnames hallows hboundary.head_not_word
          ⟨hn, endsName_of_boundary hboundary⟩ hvalue, hrest, nameExpr_of_mem hn]
        rfl
      · rw [substituteNames_unknown hnames hallows hboundary.head_not_word fun hn' => hn hn'.1,
          hrest, nameExpr_of_not_mem hn, Expr.lexemes, textOf_cons, textOf_nil, List.append_nil]
        rfl
    | callee f =>
      have hallows := allowsNameAfter_of_fresh (hlast _ rfl rfl)
      obtain ⟨rest, rfl⟩ := hls.callee
      have hopening : ∀ c ∈ (textOf (.opening :: rest)).head?, isWord c = false := by
        intro c hc
        obtain rfl := Option.some.inj hc
        decide
      rw [textOf_cons]
      change scope.substituteNames scope.names last 0 (f.chars ++ textOf (.opening :: rest)) = _
      rw [substituteNames_unknown hnames hallows hopening]
      · change
          (scope.substituteNames scope.names (lastOf last (Lexeme.callee f).text) 0 _).map _ = _
        rw [hrest]
        rfl
      · rintro ⟨_, hends⟩
        change endsName ('(' :: textOf rest) = true at hends
        rw [endsName_opening] at hends
        exact absurd hends (by decide)

end Names

end Scope

/-- The expression with the values of its names and line references. -/
noncomputable def Expr.subst (scope : Scope) (e : Expr) : Expr :=
  e.replace scope.nameExpr scope.lineExpr

private theorem replace_ofValue (onName : Name → Expr) (onLine : LineReference → Expr) (x : Float) :
    (Expr.ofValue x).lexemes.flatMap (Lexeme.replace onName onLine) = (Expr.ofValue x).lexemes := by
  rw [← lexemes_replace]
  unfold Expr.ofValue
  split <;> simp [Expr.replace]

/-- The lexemes that are left after both passes. -/
theorem lexemes_subst (scope : Scope) (e : Expr) :
    (e.replace .name scope.lineExpr).lexemes.flatMap (Lexeme.replace scope.nameExpr .line) =
      (e.subst scope).lexemes := by
  unfold Expr.subst
  rw [lexemes_replace, lexemes_replace, List.flatMap_assoc]
  congr 1
  funext a
  cases a with
  | name n => simp [Lexeme.replace, Expr.lexemes]
  | line r => exact replace_ofValue _ _ _
  | _ => simp [Lexeme.replace]

/-- Substitution in the text of an expression is substitution in the expression. -/
theorem Scope.Regular.substitute_text {scope : Scope} (h : scope.Regular) (e : Expr) :
    scope.substitute (textOf e.lexemes) = .ok (textOf (e.subst scope).lexemes) := by
  have hfirst := h.substituteLines_textOf (phrase_lexemes e)
  rw [← lexemes_replace] at hfirst
  have hsecond := h.substituteNames_textOf (phrase_lexemes (e.replace .name scope.lineExpr))
    fun _ _ _ => fresh_none
  rw [lexemes_subst] at hsecond
  unfold Scope.substitute
  rw [hfirst]
  exact hsecond

end Reckoner.Formula
