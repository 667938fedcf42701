import Reckoner.Proofs.Formula.Layout

/-!
Calls in the layouts of an expression. A scan finds a call where a name stands before a
parenthesis, the parenthesis that closes a call is the one the tree has, and the text between the
parentheses falls into the texts of the arguments.
-/
namespace Reckoner.Formula

open Text Number Arith

section Starts

variable {last : Option Char} {position : Nat} {s : List Char} {c : Char}

/-- What may follow an operand: neither the rest of a word nor the parenthesis of a call. -/
structure Stop (s : List Char) : Prop where
  word : ∀ c ∈ s.head?, isWord c = false
  opening : ∀ c ∈ (s.dropWhile isBlank).head?, c ≠ '('

theorem stop_nil : Stop [] := ⟨fun _ hc => absurd hc (by simp), fun _ hc => absurd hc (by simp)⟩

theorem stop_mark (hword : isWord c = false) (hblank : isBlank c = false) (hopen : c ≠ '(')
    (s : List Char) : Stop (c :: s) := by
  refine ⟨fun d hd => Option.some.inj hd ▸ hword, fun d hd => ?_⟩
  rw [dropWhile_cons_of_false hblank] at hd
  exact Option.some.inj hd ▸ hopen

theorem stop_symbol (op : Op) (s : List Char) : Stop (op.symbol :: s) := by
  cases op <;> exact stop_mark (by decide) (by decide) (by decide) s

theorem Stop.space (h : Stop s) : Stop (' ' :: s) := by
  refine ⟨fun d hd => Option.some.inj hd ▸ by decide, ?_⟩
  rw [List.dropWhile_cons_of_pos (by decide)]
  exact h.opening

/-- The character before a text matters only where a word goes on. -/
theorem callStartsFrom_stop (hs : ∀ c ∈ s.head?, isWord c = false) (last : Option Char) :
    callStartsFrom last position s = callStartsFrom none position s := by
  cases s with
  | nil => rfl
  | cons c s =>
    have hstart : isNameStart c = false := Bool.eq_false_iff.mpr fun h =>
      absurd ((hs c rfl).symm.trans (isWord_of_isNameStart h)) Bool.false_ne_true
    rw [callStartsFrom, callStartsFrom, hstart, Bool.and_false, Bool.and_false]

/-- A character after which a name may start. -/
theorem callStartsFrom_free (hc : allowsName (some c) = true) (s : List Char) :
    callStartsFrom none position (c :: s) = callStartsFrom none (position + 1) s := by
  have hfree : isWord c = false ∧ (c == '.') = false := by
    have hc : (!(isWord c || c == '.')) = true := hc
    rwa [Bool.not_eq_true', Bool.or_eq_false_iff] at hc
  have hstart : isNameStart c = false := Bool.eq_false_iff.mpr fun h =>
    absurd (hfree.1.symm.trans (isWord_of_isNameStart h)) Bool.false_ne_true
  rw [callStartsFrom, hstart, Bool.and_false, if_neg Bool.false_ne_true]
  cases s with
  | nil => rfl
  | cons d s => rw [callStartsFrom, callStartsFrom, hc]; rfl

theorem callStartsFrom_append {t : List Char} (ht : ∀ c ∈ t, isNameStart c = false)
    (s : List Char) :
    callStartsFrom last position (t ++ s) =
      callStartsFrom (Scope.lastOf last t) (position + t.length) s := by
  induction t generalizing last position with
  | nil => rfl
  | cons c t ih =>
    rw [List.cons_append, callStartsFrom, ht c List.mem_cons_self, Bool.and_false,
      if_neg Bool.false_ne_true, ih fun d hd => ht d (List.mem_cons_of_mem c hd),
      Scope.lastOf_cons, List.length_cons, Nat.add_right_comm, Nat.add_assoc]

/-- No call starts in a run of characters of which none has a name after it. -/
theorem callStartsFrom_disallowed {p : Char → Prop} (hp : ∀ c, p c → allowsName (some c) = false)
    {d : Char} (hd : p d) {t : List Char} (ht : ∀ c ∈ t, p c) (s : List Char) :
    callStartsFrom (some d) position (t ++ s) =
      callStartsFrom (Scope.lastOf (some d) t) (position + t.length) s := by
  induction t generalizing d position with
  | nil => rfl
  | cons c t ih =>
    rw [List.cons_append, callStartsFrom, hp d hd, Bool.false_and, if_neg Bool.false_ne_true,
      ih (ht c List.mem_cons_self) fun e he => ht e (List.mem_cons_of_mem c he),
      Scope.lastOf_cons, List.length_cons, Nat.add_right_comm, Nat.add_assoc]

theorem allowsName_of_isWord {c : Char} (hc : isWord c = true) : allowsName (some c) = false := by
  unfold allowsName
  simp [hc]

theorem allowsName_of_fresh (h : Fresh last) : allowsName last = true := by
  cases last with
  | none => rfl
  | some c => rcases h c rfl with rfl | rfl | rfl <;> decide

/-- A word at which a name may start. -/
theorem callStartsFrom_name (n : Name) (hs : ∀ c ∈ s.head?, isWord c = false) :
    callStartsFrom none position (n.chars ++ s) =
      (callStartAt? position (n.chars ++ s)).toList ++
        callStartsFrom none (position + n.chars.length) s := by
  obtain ⟨c, r, hn, hstart, hall⟩ := n.exists_cons
  have hrest : callStartsFrom (some c) (position + 1) (r ++ s) = _ :=
    callStartsFrom_disallowed (fun _ => allowsName_of_isWord) (hall c List.mem_cons_self)
      (fun d hd => hall d (List.mem_cons_of_mem c hd)) s
  rw [hn, List.cons_append, callStartsFrom, hstart, hrest, callStartsFrom_stop hs,
    List.length_cons, Nat.add_right_comm, Nat.add_assoc]
  have hfresh : allowsName none = true := rfl
  rw [hfresh, Bool.and_self, if_pos rfl]
  cases callStartAt? position (c :: (r ++ s)) <;> rfl

theorem callStartAt?_stop (n : Name) (hs : Stop s) :
    callStartAt? position (n.chars ++ s) = none := by
  unfold callStartAt?
  dsimp only
  rw [dropWhile_append_stop (fun c => n.isWord_of_mem) hs.word]
  split
  · rename_i rest heq
    exact absurd rfl (hs.opening '(' (by rw [heq]; rfl))
  · rfl

theorem head_opening {before : List Char} (hbefore : ∀ c ∈ before, c = ' ') (s : List Char) :
    ∀ c ∈ (before ++ '(' :: s).head?, isWord c = false := by
  intro c hc
  cases before with
  | nil => exact Option.some.inj hc ▸ by decide
  | cons d before =>
    rw [← Option.some.inj hc, hbefore d List.mem_cons_self]
    decide

theorem callStartAt?_opening (n : Name) {before : List Char} (hbefore : ∀ c ∈ before, c = ' ')
    (s : List Char) :
    callStartAt? position (n.chars ++ (before ++ '(' :: s)) =
      some ⟨n.chars, position, position + n.chars.length + before.length, '(' :: s⟩ := by
  have hword := head_opening hbefore s
  have hblank : ∀ c ∈ before, isBlank c = true := fun c hc => hbefore c hc ▸ by decide
  have hhead : ∀ c ∈ ('(' :: s).head?, isBlank c = false := fun c hc =>
    Option.some.inj hc ▸ by decide
  unfold callStartAt?
  rw [dropWhile_append_stop (fun c => n.isWord_of_mem) hword,
    takeWhile_append_stop (fun c => n.isWord_of_mem) hword, dropWhile_append_stop hblank hhead,
    takeWhile_append_stop hblank hhead]
  rfl

end Starts

section Parentheses

variable {depth : Int} {distance : Nat}

theorem closingFrom_append {t : List Char} (ht : ∀ c ∈ t, c ≠ '(' ∧ c ≠ ')') (s : List Char) :
    closingFrom depth distance (t ++ s) = closingFrom depth (distance + t.length) s := by
  induction t generalizing distance with
  | nil => rfl
  | cons c t ih =>
    obtain ⟨hopen, hclose⟩ := ht c List.mem_cons_self
    rw [List.cons_append, closingFrom, if_neg hopen, if_neg hclose,
      ih fun d hd => ht d (List.mem_cons_of_mem c hd), List.length_cons, Nat.add_right_comm,
      Nat.add_assoc]

/-- Texts in which every parenthesis has its partner. -/
def Balanced (t : List Char) : Prop :=
  ∀ (depth : Int) (distance : Nat) (s : List Char), 1 ≤ depth →
    closingFrom depth distance (t ++ s) = closingFrom depth (distance + t.length) s

theorem balanced_solid {t : List Char} (ht : ∀ c ∈ t, c ≠ '(' ∧ c ≠ ')') : Balanced t :=
  fun _ _ s _ => closingFrom_append ht s

theorem Balanced.append {t u : List Char} (ht : Balanced t) (hu : Balanced u) :
    Balanced (t ++ u) := by
  intro depth distance s h
  rw [List.append_assoc, ht depth distance _ h, hu depth _ s h, List.length_append, Nat.add_assoc]

theorem Balanced.enclosed {t : List Char} (ht : Balanced t) : Balanced ('(' :: t ++ [')']) := by
  intro depth distance s h
  have hclose : ¬ depth + 1 = 1 := by omega
  rw [List.cons_append, List.cons_append, closingFrom, if_pos rfl, List.append_assoc,
    ht (depth + 1) _ _ (by omega), List.singleton_append, closingFrom, if_neg (by decide),
    if_pos rfl, if_neg hclose, Int.add_sub_cancel, List.length_cons, List.length_append,
    List.length_singleton]
  congr 1
  omega

theorem solid_lexeme {a : Lexeme} (ho : a ≠ .opening) (hc : a ≠ .closing) :
    ∀ c ∈ a.text, c ≠ '(' ∧ c ≠ ')' := by
  have hword : ∀ c : Char, isWord c = true → c ≠ '(' ∧ c ≠ ')' := fun c h =>
    ⟨fun heq => not_mem_marks h (heq ▸ by decide), fun heq => not_mem_marks h (heq ▸ by decide)⟩
  cases a with
  | numeral n =>
    intro c hc
    rcases mem_numeral_text hc with hdigit | rfl
    · exact hword c (isWord_of_isDigit hdigit)
    · decide
  | name n | callee n => exact fun c hc => hword c (n.isWord_of_mem hc)
  | line r =>
    intro c hc
    rcases List.mem_cons.mp hc with rfl | hc
    · decide
    · exact hword c (isWord_of_isDigit (r.all_digits c hc))
  | minus spaced => cases spaced <;> exact List.all_iff_forall_prop.mp (by decide)
  | operator op => cases op <;> exact List.all_iff_forall_prop.mp (by decide)
  | opening => exact absurd rfl ho
  | closing => exact absurd rfl hc
  | comma => exact List.all_iff_forall_prop.mp (by decide)

theorem balanced_spaces {gap : List Char} (hgap : ∀ c ∈ gap, c = ' ') : Balanced gap :=
  balanced_solid fun c hc => hgap c hc ▸ by decide

theorem balanced_intercalate {ts : List (List Char)} (h : ∀ t ∈ ts, Balanced t) :
    Balanced ([','].intercalate ts) := by
  induction ts with
  | nil => exact balanced_solid fun c hc => absurd hc List.not_mem_nil
  | cons t ts ih =>
    obtain ⟨ht, hrest⟩ := List.forall_mem_cons.mp h
    cases ts with
    | nil => rwa [List.intercalate_singleton]
    | cons u ts =>
      rw [List.intercalate_cons_cons]
      exact (ht.append (balanced_solid (List.forall_mem_singleton.mpr (by decide)))).append
        (ih hrest)

/-- The parentheses of an expression balance. -/
theorem Laid.balanced {e : Expr} {t : List Char} (h : Laid e t) : Balanced t := by
  have hname : ∀ n : Name, Balanced n.chars := fun n =>
    balanced_solid (solid_lexeme (a := .name n) (by simp) (by simp))
  induction h with
  | numeral n => exact balanced_solid (solid_lexeme (a := .numeral n) (by simp) (by simp))
  | name n => exact hname n
  | line r => exact balanced_solid (solid_lexeme (a := .line r) (by simp) (by simp))
  | group _ ih => exact ih.enclosed
  | neg _ _ ih => exact (balanced_solid (List.forall_mem_singleton.mpr (by decide))).append ih
  | binary op _ _ ihl ihr =>
    have hsymbol : Balanced [op.symbol] := balanced_solid <| List.forall_mem_singleton.mpr <| by
      cases op <;> decide
    exact ihl.append (hsymbol.append ihr)
  | call f hbefore hinner _ ih =>
    have harguments := balanced_intercalate (List.forall_mem_map.mpr ih)
    rw [List.append_assoc]
    exact (hname f).append
      ((balanced_spaces hbefore).append ((balanced_spaces hinner).append harguments).enclosed)
  | before _ ih => exact (balanced_solid (List.forall_mem_singleton.mpr (by decide))).append ih
  | after _ ih => exact ih.append (balanced_solid (List.forall_mem_singleton.mpr (by decide)))

/-- The parenthesis that closes a call. -/
theorem closingFrom_call {t : List Char} (ht : Balanced t) (s : List Char) :
    closingFrom 0 0 ('(' :: t ++ ')' :: s) = some (t.length + 1) := by
  rw [List.cons_append, closingFrom, if_pos rfl, ht (0 + 1) _ _ (by omega), closingFrom,
    if_neg (by decide), if_pos rfl, if_pos (by omega)]
  congr 1
  omega

end Parentheses

section Pieces

/-- Puts text in front of the first piece. -/
def prependTo (t : List Char) : List (List Char) → List (List Char)
  | [] => [t]
  | piece :: rest => (t ++ piece) :: rest

theorem piecesFrom_ne_nil (depth : Int) (s : List Char) : piecesFrom depth s ≠ [] := by
  cases s with
  | nil => exact List.cons_ne_nil _ _
  | cons c r =>
    unfold piecesFrom
    split
    · exact List.cons_ne_nil _ _
    · dsimp only
      split <;> exact List.cons_ne_nil _ _

theorem prependTo_append (t u : List Char) {ps : List (List Char)} :
    prependTo (t ++ u) ps = prependTo t (prependTo u ps) := by
  cases ps with
  | nil => rfl
  | cons p ps =>
    change ((t ++ u) ++ p) :: ps = (t ++ (u ++ p)) :: ps
    rw [List.append_assoc]

theorem prependTo_nil {ps : List (List Char)} (h : ps ≠ []) : prependTo [] ps = ps := by
  cases ps with
  | nil => exact absurd rfl h
  | cons p ps => rfl

/-- The depth after a character. -/
def depthAfter (depth : Int) (c : Char) : Int :=
  if c = '(' then depth + 1 else if c = ')' then depth - 1 else depth

theorem piecesFrom_cons {depth : Int} {c : Char} (h : ¬ (c = ',' ∧ depth = 0)) (r : List Char) :
    piecesFrom depth (c :: r) = prependTo [c] (piecesFrom (depthAfter depth c) r) := by
  rw [piecesFrom, if_neg h]
  unfold depthAfter
  dsimp only
  split <;> rename_i heq <;> rw [heq] <;> rfl

/-- Texts that are not cut at a depth and end where they began. -/
def Uncut (depth : Int) (t : List Char) : Prop :=
  ∀ s, piecesFrom depth (t ++ s) = prependTo t (piecesFrom depth s)

theorem uncut_nil (depth : Int) : Uncut depth [] := fun s =>
  (prependTo_nil (piecesFrom_ne_nil depth s)).symm

theorem Uncut.append {depth : Int} {t u : List Char} (ht : Uncut depth t) (hu : Uncut depth u) :
    Uncut depth (t ++ u) := by
  intro s
  rw [List.append_assoc, ht, hu, prependTo_append]

theorem uncut_solid {depth : Int} {t : List Char}
    (ht : ∀ c ∈ t, ¬ (c = ',' ∧ depth = 0) ∧ c ≠ '(' ∧ c ≠ ')') : Uncut depth t := by
  induction t with
  | nil => exact uncut_nil depth
  | cons c t ih =>
    obtain ⟨hcomma, hopen, hclose⟩ := ht c List.mem_cons_self
    have hone : Uncut depth [c] := by
      intro s
      rw [List.singleton_append, piecesFrom_cons hcomma]
      unfold depthAfter
      rw [if_neg hopen, if_neg hclose]
    exact hone.append (ih fun d hd => ht d (List.mem_cons_of_mem c hd))

theorem Uncut.enclosed {depth : Int} {t : List Char} (ht : Uncut (depth + 1) t) :
    Uncut depth ('(' :: t ++ [')']) := by
  intro s
  have hopen : ¬ ('(' = ',' ∧ depth = 0) := fun h => absurd h.1 (by decide)
  have hclose : ¬ (')' = ',' ∧ depth + 1 = 0) := fun h => absurd h.1 (by decide)
  have hup : depthAfter depth '(' = depth + 1 := if_pos rfl
  have hdown : depthAfter (depth + 1) ')' = depth := by
    unfold depthAfter
    rw [if_neg (by decide), if_pos rfl, Int.add_sub_cancel]
  rw [List.cons_append, List.cons_append, piecesFrom_cons hopen, hup, List.append_assoc, ht,
    List.singleton_append, piecesFrom_cons hclose, hdown, ← prependTo_append, ← prependTo_append]
  rfl

theorem comma_not_mem {a : Lexeme} (h : a ≠ .comma) : ',' ∉ a.text := by
  have hword : ∀ c : Char, isWord c = true → c ≠ ',' := fun c h hc =>
    not_mem_marks h (hc ▸ by decide)
  cases a with
  | numeral n =>
    intro hc
    exact (solid_numeral n ',' hc).1 rfl
  | name n | callee n => exact fun hc => hword ',' (n.isWord_of_mem hc) rfl
  | line r =>
    intro hc
    rcases List.mem_cons.mp hc with h | hc
    · exact absurd h (by decide)
    · exact hword ',' (isWord_of_isDigit (r.all_digits ',' hc)) rfl
  | minus spaced => cases spaced <;> decide
  | operator op => cases op <;> decide
  | opening => decide
  | closing => decide
  | comma => exact absurd rfl h

theorem uncut_intercalate {depth : Int} (hdepth : depth ≠ 0) {ts : List (List Char)}
    (h : ∀ t ∈ ts, Uncut depth t) : Uncut depth ([','].intercalate ts) := by
  induction ts with
  | nil => exact uncut_nil depth
  | cons t ts ih =>
    obtain ⟨ht, hrest⟩ := List.forall_mem_cons.mp h
    have hcomma : Uncut depth [','] := uncut_solid <| List.forall_mem_singleton.mpr
      ⟨fun hcut => hdepth hcut.2, by decide⟩
    cases ts with
    | nil => rwa [List.intercalate_singleton]
    | cons u ts =>
      rw [List.intercalate_cons_cons]
      exact (ht.append hcomma).append (ih hrest)

/-- An expression is never cut: its commas lie within parentheses. -/
theorem Laid.uncut {e : Expr} {t : List Char} (h : Laid e t) {depth : Int} (hdepth : 0 ≤ depth) :
    Uncut depth t := by
  have hmark : ∀ {depth : Int} {c : Char}, c ≠ ',' → c ≠ '(' ∧ c ≠ ')' → Uncut depth [c] :=
    fun hcomma hsolid => uncut_solid <| List.forall_mem_singleton.mpr
      ⟨fun hcut => hcomma hcut.1, hsolid⟩
  have hspaces : ∀ {depth : Int} {gap : List Char}, (∀ c ∈ gap, c = ' ') → Uncut depth gap :=
    fun hgap => uncut_solid fun c hc => ⟨fun hcut => absurd hcut.1 (hgap c hc ▸ by decide),
      hgap c hc ▸ by decide⟩
  have hatom : ∀ {depth : Int} {a : Lexeme}, a ≠ .opening → a ≠ .closing → a ≠ .comma →
      Uncut depth a.text := fun ho hc hcomma => uncut_solid fun c hmem =>
    ⟨fun hcut => comma_not_mem hcomma (hcut.1 ▸ hmem), solid_lexeme ho hc c hmem⟩
  induction h generalizing depth with
  | numeral n => exact hatom (a := .numeral n) (by simp) (by simp) (by simp)
  | name n => exact hatom (a := .name n) (by simp) (by simp) (by simp)
  | line r => exact hatom (a := .line r) (by simp) (by simp) (by simp)
  | group _ ih => exact (ih (by omega)).enclosed
  | neg _ _ ih => exact (hmark (by decide) (by decide)).append (ih hdepth)
  | binary op _ _ ihl ihr =>
    have hsymbol : Uncut depth [op.symbol] := by cases op <;> exact hmark (by decide) (by decide)
    exact (ihl hdepth).append (hsymbol.append (ihr hdepth))
  | call f hbefore hinner _ ih =>
    have hinside : depth + 1 ≠ 0 := by omega
    have harguments := uncut_intercalate hinside
      (List.forall_mem_map.mpr fun p hp => ih p hp (by omega))
    have hname : Uncut depth f.chars := hatom (a := .name f) (by simp) (by simp) (by simp)
    rw [List.append_assoc]
    exact hname.append ((hspaces hbefore).append ((hspaces hinner).append harguments).enclosed)
  | before _ ih => exact (hmark (by decide) (by decide)).append (ih hdepth)
  | after _ ih => exact (ih hdepth).append (hmark (by decide) (by decide))

/-- The texts between the commas are found again. -/
theorem piecesFrom_intercalate {t : List Char} {ts : List (List Char)}
    (h : ∀ u ∈ t :: ts, Uncut 0 u) : piecesFrom 0 ([','].intercalate (t :: ts)) = t :: ts := by
  induction ts generalizing t with
  | nil =>
    have huncut := h t List.mem_cons_self []
    rw [List.append_nil] at huncut
    rw [List.intercalate_singleton, huncut]
    exact congrArg (· :: []) (List.append_nil t)
  | cons u ts ih =>
    obtain ⟨ht, hrest⟩ := List.forall_mem_cons.mp h
    rw [List.intercalate_cons_cons, List.append_assoc, ht, List.singleton_append, piecesFrom,
      if_pos ⟨rfl, rfl⟩, ih hrest]
    exact congrArg (· :: u :: ts) (List.append_nil t)

/-- The arguments of a call are found again. -/
theorem splitArguments_laid {inner : List Char} {args : List (Expr × List Char)}
    (hinner : ∀ c ∈ inner, c = ' ') (h : ∀ p ∈ args, Laid p.1 p.2) :
    splitArguments (inner ++ [','].intercalate (args.map Prod.snd)) =
      args.map fun p => trim p.2 := by
  unfold splitArguments
  cases args with
  | nil =>
    refine if_pos (List.all_eq_true.mpr fun c hc => ?_)
    rcases List.mem_append.mp hc with hc | hc
    · rw [hinner c hc]
      decide
    · exact absurd hc List.not_mem_nil
  | cons p args =>
    obtain ⟨c, hc, hblank⟩ := (h p List.mem_cons_self).exists_not_blank
    have hfirst : inner ++ [','].intercalate ((p :: args).map Prod.snd) =
        [','].intercalate ((inner ++ p.2) :: args.map Prod.snd) := by
      rw [List.map_cons, intercalate_cons, intercalate_cons, List.append_assoc]
    have hnotBlank : ¬ ([','].intercalate ((inner ++ p.2) :: args.map Prod.snd)).all isBlank := by
      rw [intercalate_cons, List.all_eq_true]
      intro hall
      have hmem := hall c (List.mem_append_left _ (List.mem_append_right _ hc))
      exact absurd (hblank.symm.trans hmem) Bool.false_ne_true
    have huncut : ∀ u ∈ (inner ++ p.2) :: args.map Prod.snd, Uncut 0 u := by
      refine List.forall_mem_cons.mpr ⟨?_, List.forall_mem_map.mpr fun q hq => ?_⟩
      · exact ((h p List.mem_cons_self).spaces_before hinner).uncut (Int.le_refl 0)
      · exact (h q (List.mem_cons_of_mem p hq)).uncut (Int.le_refl 0)
    rw [hfirst, if_neg hnotBlank, piecesFrom_intercalate huncut, List.map_cons, List.map_map,
      trim_spaces hinner]
    rfl

end Pieces

end Reckoner.Formula
