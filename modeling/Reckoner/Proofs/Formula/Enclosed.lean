import Reckoner.Proofs.Formula.Spacing
import Reckoner.Proofs.Formula.Unnamed
import Reckoner.Proofs.Formula.Unreferenced

/-!
The text of one call. Substitution and clean-up do between the parentheses of a call what they do
with the text there when it stands alone, except that the outer white space and an equals sign in
front are left.
-/
namespace Reckoner.Formula

open Text Number Arith

variable {scope : Scope} {names : List (List Char)} {last : Option Char}
  {a b e p q s t u z : List Char} {c : Char}

section Substitution

theorem substituteLines_closing (within : Bool) (e : List Char) :
    scope.substituteLines within (e ++ [')']) =
      (scope.substituteLines within e).map (· ++ [')']) := by
  induction e generalizing within with
  | nil =>
    unfold Scope.substituteLines
    cases within <;> rfl
  | cons c r ih =>
    have hdigits : (r ++ [')']).takeWhile isDigit = r.takeWhile isDigit :=
      takeWhile_append_of_head (fun c hc => Option.some.inj hc ▸ by decide) r
    rw [List.cons_append]
    unfold Scope.substituteLines
    rw [hdigits, ih, ih]
    dsimp only
    split
    · rfl
    · split
      · cases scope.lineLiteral (r.takeWhile isDigit) with
        | error _ => rfl
        | ok value =>
          cases scope.substituteLines true r with
          | error _ => rfl
          | ok rest => exact congrArg Except.ok (List.append_assoc value rest [')']).symm
      · cases scope.substituteLines false r <;> rfl

theorem stop_closing : Stop [')'] := stop_mark (by decide) (by decide) (by decide) []

theorem substituteNames_closing (hnames : ∀ n ∈ names, isIdentifier n = true)
    (last : Option Char) {skip : Nat} (hskip : skip ≤ e.length) :
    scope.substituteNames names last skip (e ++ [')']) =
      (scope.substituteNames names last skip e).map (· ++ [')']) := by
  induction e generalizing last skip with
  | nil =>
    obtain rfl := Nat.le_zero.mp hskip
    have hnil : ∀ last, scope.substituteNames names last 0 [] = .ok [] := fun last => by
      rw [Scope.substituteNames, Scope.nameAt?_of_head hnames (by simp), if_neg (by simp)]
    have hnone : Scope.nameAt? names last [')'] = none :=
      Scope.nameAt?_of_head hnames fun c hc => Option.some.inj hc ▸ by decide
    rw [List.nil_append, Scope.substituteNames_cons hnone, hnil, hnil]
    rfl
  | cons c r ih =>
    have hat : Scope.nameAt? names last (c :: (r ++ [')'])) = Scope.nameAt? names last (c :: r) :=
      nameAt?_append hnames stop_closing last (c :: r)
    cases skip with
    | succ more =>
      rw [List.cons_append]
      unfold Scope.substituteNames
      exact ih (some c) (Nat.le_of_succ_le_succ hskip)
    | zero =>
      cases hname : Scope.nameAt? names last (c :: r) with
      | none =>
        rw [List.cons_append, Scope.substituteNames_cons (hat.trans hname),
          Scope.substituteNames_cons hname, ih (some c) (Nat.zero_le _)]
        cases scope.substituteNames names (some c) 0 r <;> rfl
      | some n =>
        obtain ⟨hn, hinitial⟩ := nameAt?_eq_some hname
        cases n with
        | nil => exact absurd (hnames [] hn) Bool.false_ne_true
        | cons d more =>
          rw [List.cons_append]
          unfold Scope.substituteNames
          rw [hat, hname]
          dsimp only
          rw [ih (some c) (Nat.le_of_succ_le_succ hinitial.length_le)]
          cases scope.nameLiteral (d :: more) with
          | error _ => rfl
          | ok value =>
            cases scope.substituteNames names (some c) more.length r with
            | error _ => rfl
            | ok rest => exact congrArg Except.ok (List.append_assoc value rest [')']).symm

/-- A text after a parenthesis is a text on its own. -/
theorem substituteNames_opening (t : List Char) :
    scope.substituteNames names (some '(') 0 t = scope.substituteNames names none 0 t := by
  have hallows : Scope.allowsNameAfter (some '(') = true := by decide
  have hat : ∀ t, Scope.nameAt? names (some '(') t = Scope.nameAt? names none t := fun t => by
    unfold Scope.nameAt?
    rw [hallows]
    rfl
  cases t with
  | nil => rw [Scope.substituteNames, Scope.substituteNames, hat]
  | cons c r => rw [Scope.substituteNames, Scope.substituteNames, hat]

theorem substituteNames_called (hnames : ∀ n ∈ names, isIdentifier n = true) (f : Name)
    (e : List Char) : scope.substituteNames names none 0 (callText f [] e) =
      (scope.substituteNames names none 0 e).map (callText f []) := by
  have hname : scope.substituteNames names none 0 (f.chars ++ '(' :: (e ++ [')'])) = _ :=
    Scope.substituteNames_unknown hnames rfl (s := '(' :: (e ++ [')']))
      (fun c hc => Option.some.inj hc ▸ by decide)
      fun h => absurd (Scope.endsName_opening (e ++ [')'])) (by rw [h.2]; decide)
  have hopening : ∀ last, Scope.nameAt? names last ('(' :: (e ++ [')'])) = none := fun last =>
    Scope.nameAt?_of_head hnames fun c hc => Option.some.inj hc ▸ by decide
  have htext : callText f [] e = f.chars ++ '(' :: (e ++ [')']) := rfl
  rw [htext, hname, Scope.substituteNames_cons (hopening _), substituteNames_opening,
    substituteNames_closing hnames none (Nat.zero_le _)]
  cases scope.substituteNames names none 0 e <;> rfl

theorem substituteLines_called (f : Name) (e : List Char) :
    scope.substituteLines false (callText f [] e) =
      (scope.substituteLines false e).map (callText f []) := by
  have hat : '@' ∉ f.chars ++ ['('] := fun hmem =>
    (List.mem_append.mp hmem).elim (Scope.at_not_mem_name f) (by decide)
  have htext : callText f [] e = f.chars ++ ['('] ++ (e ++ [')']) := by simp [callText]
  rw [htext, Scope.substituteLines_append hat, substituteLines_closing]
  cases scope.substituteLines false e with
  | error _ => rfl
  | ok rest => simp [Except.map, callText]

/-- Substitution in the text of a call is substitution between its parentheses. -/
theorem substitute_called (hscope : scope.Identifiers) (f : Name) (e : List Char) :
    scope.substitute (callText f [] e) = (scope.substitute e).map (callText f []) := by
  unfold Scope.substitute
  rw [substituteLines_called]
  cases scope.substituteLines false e with
  | error _ => rfl
  | ok t => exact substituteNames_called hscope.names f t

end Substitution

section Spacing

/-- That a text holds neither operators nor characters of operands. -/
def Inert (z : List Char) : Prop := ∀ c ∈ z, isOperator c = false ∧ isOperandChar c = false

theorem Inert.of_cons (hz : Inert (c :: z)) : Inert z := fun d hd => hz d (List.mem_cons_of_mem c hd)

theorem inert_blank (hp : ∀ c ∈ p, isBlank c = true) : Inert p := by
  intro c hc
  exact ⟨isOperator_of_isBlank (hp c hc), isOperandChar_of_isBlank (hp c hc)⟩

theorem Inert.not_isWord (hz : Inert z) : ∀ c ∈ z, isWord c = false := by
  intro c hc
  have hoperand := (hz c hc).2
  unfold isOperandChar at hoperand
  simp only [Bool.or_eq_false_iff] at hoperand
  exact hoperand.1.1

theorem Inert.not_startsOperand (hz : Inert z) : ∀ c ∈ z, startsOperand c = false := by
  intro c hc
  have hoperand := (hz c hc).2
  unfold isOperandChar at hoperand
  simp only [Bool.or_eq_false_iff] at hoperand
  unfold startsOperand
  rw [hoperand.2, Bool.or_false, Bool.eq_false_iff]
  intro hstart
  rw [isWord_of_isNameStart hstart] at hoperand
  exact Bool.false_ne_true hoperand.1.1.symm

/-- What comes next after white space comes before a text without such characters. -/
theorem startsWith_dropWhile_append {f : Char → Bool} (hz : ∀ c ∈ z, f c = false)
    (s : List Char) :
    startsWith f ((s ++ z).dropWhile isBlank) = startsWith f (s.dropWhile isBlank) := by
  rw [List.dropWhile_append]
  cases s.dropWhile isBlank with
  | cons c r => rfl
  | nil =>
    rw [List.isEmpty_nil, if_pos rfl]
    cases hd : z.dropWhile isBlank with
    | nil => rfl
    | cons c r => exact hz c ((List.dropWhile_sublist isBlank).subset (hd ▸ List.mem_cons_self))

theorem spaceAfterNames_append (hz : Inert z) (named : Bool) (s : List Char) :
    spaceAfterNames named (s ++ z) = spaceAfterNames named s ++ z := by
  have hops : ∀ {z}, Inert z → ∀ c ∈ z, isOperator c = false := fun hz c hc => (hz c hc).1
  induction s generalizing named with
  | nil =>
    rw [List.nil_append, spaceAfterNames, List.nil_append]
    induction z generalizing named with
    | nil => rfl
    | cons c r ih =>
      have hnext := startsWith_dropWhile_append (hops hz.of_cons) []
      rw [List.nil_append] at hnext
      rw [spaceAfterNames, hz.not_isWord c List.mem_cons_self, (hz c List.mem_cons_self).1, hnext]
      simp only [Bool.and_false, startsWith, List.dropWhile_nil, Bool.false_eq_true, if_false,
        ih hz.of_cons]
  | cons c r ih =>
    rw [List.cons_append]
    unfold spaceAfterNames
    rw [startsWith_dropWhile_append (hops hz), ih, ih, ih]
    split
    · rfl
    · split
      · rfl
      · split <;> rfl

theorem spaceAfterNames_inert (hz : Inert z) (s : List Char) :
    spaceAfterNames false (z ++ s) = z ++ spaceAfterNames false s := by
  induction z with
  | nil => rfl
  | cons c z ih =>
    rw [List.cons_append, spaceAfterNames, hz.not_isWord c List.mem_cons_self,
      ih hz.of_cons]
    rfl

theorem spaceAfterNames_word (ht : ∀ c ∈ t, isWord c = true) (s : List Char) (named : Bool) :
    ∃ named', spaceAfterNames named (t ++ s) = t ++ spaceAfterNames named' s := by
  induction t generalizing named with
  | nil => exact ⟨named, rfl⟩
  | cons c t ih =>
    obtain ⟨hc, ht⟩ := List.forall_mem_cons.mp ht
    obtain ⟨named', heq⟩ := ih ht (named || isNameStart c)
    exact ⟨named', by rw [List.cons_append, spaceAfterNames, if_pos hc, heq, List.cons_append]⟩

theorem spaceBeforeNames_inert (hz : Inert z) (spaced : Bool)
    (hspaced : spaced = true → startsWith startsOperand (s.dropWhile isBlank) = true) :
    spaceBeforeNames spaced (s ++ z) = spaceBeforeNames spaced s ++ z := by
  induction s generalizing spaced with
  | nil =>
    have hsame := spaceBeforeNames_append (fun c hc => (hz c hc).1) []
    rw [List.append_nil, spaceBeforeNames, List.append_nil] at hsame
    cases spaced with
    | false => exact hsame
    | true => exact absurd (hspaced rfl) Bool.false_ne_true
  | cons c r ih =>
    rw [List.cons_append]
    unfold spaceBeforeNames
    rw [startsWith_dropWhile_append hz.not_startsOperand, ih false fun h => absurd h (by decide)]
    split
    · rename_i hblank
      obtain ⟨hspace, hc⟩ := Bool.and_eq_true_iff.mp hblank
      have hrest := hspaced hspace
      rw [List.dropWhile_cons_of_pos hc] at hrest
      exact ih true fun _ => hrest
    · split
      · rename_i hop
        rw [ih true fun _ => (Bool.and_eq_true_iff.mp hop).2]
        rfl
      · rfl

theorem collapseBlanks_append (hc : isBlank c = false) (after : Bool) (s t : List Char) :
    collapseBlanks after (s ++ c :: t) = collapseBlanks after s ++ c :: collapseBlanks false t := by
  induction s generalizing after with
  | nil =>
    have hsolid : ¬ isBlank c = true := by
      rw [hc]
      exact Bool.false_ne_true
    exact if_neg hsolid
  | cons d r ih =>
    rw [List.cons_append, collapseBlanks, collapseBlanks, ih, ih]
    split
    · split <;> rfl
    · rfl

theorem collapseBlanks_solid (ht : ∀ c ∈ t, isBlank c = false) (after : Bool) :
    collapseBlanks after t = t := by
  induction t generalizing after with
  | nil => rfl
  | cons c t ih =>
    obtain ⟨hc, ht⟩ := List.forall_mem_cons.mp ht
    rw [collapseBlanks, hc, if_neg Bool.false_ne_true, ih ht]

/-- White space in front does not matter to what is left inside. -/
theorem trim_collapseBlanks_before (hp : ∀ c ∈ p, isBlank c = true) (after : Bool)
    (s : List Char) : trim (collapseBlanks after (p ++ s)) = trim (collapseBlanks false s) := by
  have hspace : ∀ s, trim (collapseBlanks true s) = trim (collapseBlanks false s) := by
    intro s
    cases s with
    | nil => rfl
    | cons c r =>
      unfold collapseBlanks
      split
      · exact (trim_space _).symm
      · rfl
  induction p generalizing after with
  | nil =>
    cases after with
    | true => exact hspace s
    | false => rfl
  | cons c p ih =>
    obtain ⟨hc, hp⟩ := List.forall_mem_cons.mp hp
    rw [List.cons_append, collapseBlanks, if_pos hc]
    split
    · exact ih hp true
    · rw [trim_space, ih hp true]

theorem collapseBlanks_after (hq : ∀ c ∈ q, isBlank c = true) (after : Bool) (s : List Char) :
    ∃ q', (∀ c ∈ q', isBlank c = true) ∧
      collapseBlanks after (s ++ q) = collapseBlanks after s ++ q' := by
  induction s generalizing after with
  | nil =>
    refine ⟨collapseBlanks after q, fun c hc => ?_, rfl⟩
    rcases mem_collapseBlanks hc with rfl | hc
    · decide
    · exact hq c hc
  | cons c r ih =>
    rw [List.cons_append]
    unfold collapseBlanks
    split
    · obtain ⟨q', hq', heq⟩ := ih true
      refine ⟨q', hq', ?_⟩
      rw [heq]
      split <;> rfl
    · obtain ⟨q', hq', heq⟩ := ih false
      exact ⟨q', hq', by rw [heq]; rfl⟩

/-- Collapsed white space around a text is spaces around what is left of it. -/
theorem collapseBlanks_around (hp : ∀ c ∈ p, isBlank c = true) (hq : ∀ c ∈ q, isBlank c = true)
    (s : List Char) : ∃ before after, (∀ c ∈ before, c = ' ') ∧ (∀ c ∈ after, c = ' ') ∧
      collapseBlanks false (p ++ s ++ q) = before ++ trim (collapseBlanks false s) ++ after := by
  have htrim : trim (collapseBlanks false (p ++ s ++ q)) = trim (collapseBlanks false s) := by
    obtain ⟨q', hq', heq⟩ := collapseBlanks_after hq false (p ++ s)
    have haround : trim ([] ++ collapseBlanks false (p ++ s) ++ q') = _ :=
      trim_around (fun c hc => absurd hc List.not_mem_nil) hq' _
    rw [heq]
    exact haround.trans (trim_collapseBlanks_before hp false s)
  obtain ⟨before, after, hsplit, hbefore, hafter⟩ :=
    exists_around_trim (collapseBlanks false (p ++ s ++ q))
  have hspaces := blank_collapseBlanks false (p ++ s ++ q)
  rw [hsplit, htrim] at hspaces
  refine ⟨before, after, fun c hc => hspaces c ?_ (hbefore c hc),
    fun c hc => hspaces c (List.mem_append_right _ hc) (hafter c hc), htrim ▸ hsplit⟩
  exact List.mem_append_left _ (List.mem_append_left _ hc)

/-- Spacing between the parentheses of a call. -/
theorem collapseBlanks_called (f : Name) (hp : Inert p) (hq : Inert q) (s : List Char) :
    collapseBlanks false (spaceBeforeNames false
        (spaceAfterNames false (callText f [] (p ++ s ++ q)))) =
      callText f [] (collapseBlanks false
        (p ++ spaceBeforeNames false (spaceAfterNames false s) ++ q)) := by
  have hz : Inert (q ++ [')']) := by
    refine List.forall_mem_append.mpr ⟨hq, List.forall_mem_singleton.mpr ?_⟩
    exact ⟨by decide, (commonMark (by decide)).1⟩
  have hfront : ∀ c ∈ f.chars ++ '(' :: p, isOperator c = false :=
    List.forall_mem_append.mpr ⟨fun c hc => isOperator_of_isWord (f.isWord_of_mem hc),
      List.forall_mem_cons.mpr ⟨by decide, fun c hc => (hp c hc).1⟩⟩
  have htext : ∀ s, callText f [] (p ++ s ++ q) = f.chars ++ '(' :: (p ++ (s ++ (q ++ [')']))) :=
    fun s => by simp [callText]
  have hafter : spaceAfterNames false (callText f [] (p ++ s ++ q)) =
      callText f [] (p ++ spaceAfterNames false s ++ q) := by
    obtain ⟨named, hname⟩ := spaceAfterNames_word (fun c => f.isWord_of_mem)
      ('(' :: (p ++ (s ++ (q ++ [')'])))) false
    have hopening : ∀ r, spaceAfterNames named ('(' :: r) = '(' :: spaceAfterNames false r :=
      fun r => by
        have hop : isOperator '(' = false := by decide
        have hblank : isBlank '(' = false := by decide
        rw [spaceAfterNames, if_neg (by decide), hop, hblank, Bool.and_false,
          Bool.false_and, if_neg Bool.false_ne_true, if_neg Bool.false_ne_true]
    rw [htext, htext, hname, hopening, spaceAfterNames_inert hp, spaceAfterNames_append hz]
  have hbefore : ∀ r, spaceBeforeNames false (callText f [] (p ++ r ++ q)) =
      callText f [] (p ++ spaceBeforeNames false r ++ q) := by
    intro r
    have hsplit : ∀ t, f.chars ++ '(' :: (p ++ t) = f.chars ++ '(' :: p ++ t := fun t => by simp
    rw [htext, htext, hsplit, hsplit, spaceBeforeNames_append hfront,
      spaceBeforeNames_inert hz false fun h => absurd h Bool.false_ne_true]
  have hsolid : ∀ c ∈ f.chars, isBlank c = false := fun c hc =>
    isBlank_of_isWord (f.isWord_of_mem hc)
  have hcall : ∀ t, callText f [] t = f.chars ++ '(' :: (t ++ ')' :: []) := fun _ => rfl
  rw [hafter, hbefore, hcall, collapseBlanks_append (by decide),
    collapseBlanks_append (by decide), collapseBlanks_solid hsolid]
  rfl

end Spacing

section CleanUp

/-- White space with at most one equals sign in it. -/
inductive Lead : List Char → Prop
  | spaces {gap} : (∀ c ∈ gap, c = ' ') → Lead gap
  | equals {gap more} : (∀ c ∈ gap, c = ' ') → (∀ c ∈ more, c = ' ') → Lead (gap ++ '=' :: more)

theorem dropTagsFrom_closing {inside : Bool} (h : inside = true → '>' ∈ t) :
    dropTagsFrom inside (t ++ [')']) = dropTagsFrom inside t ++ [')'] := by
  induction t generalizing inside with
  | nil =>
    cases inside with
    | false => rfl
    | true => exact absurd (h rfl) List.not_mem_nil
  | cons c r ih =>
    have hcontains : (r ++ [')']).contains '>' = r.contains '>' := by
      rw [List.contains_append]
      exact Bool.or_false _
    rw [List.cons_append]
    unfold dropTagsFrom
    rw [hcontains, ih fun h => absurd h Bool.false_ne_true]
    split
    · rename_i hinside
      refine ih fun hne => ?_
      exact (List.mem_cons.mp (h hinside)).resolve_left fun heq => bne_iff_ne.mp hne heq.symm
    · split
      · rename_i hopen
        exact ih fun _ => List.contains_iff_mem.mp (Bool.and_eq_true_iff.mp hopen).2
      · rfl

theorem plain_called (f : Name) : Plain (f.chars ++ ['(']) :=
  List.forall_mem_append.mpr ⟨fun _ hc => Or.inl (f.isWord_of_mem hc),
    List.forall_mem_singleton.mpr (Or.inr (by decide))⟩

theorem dropTags_called (f : Name) (t : List Char) :
    dropTags (callText f [] t) = callText f [] (dropTags t) := by
  have htext : ∀ t, callText f [] t = f.chars ++ ['('] ++ (t ++ [')']) := fun t => by
    simp [callText]
  have hopen : '<' ∉ f.chars ++ ['('] := (plain_called f).not_mem (by decide) (by decide)
  rw [htext, htext, dropTags_append hopen]
  exact congrArg (f.chars ++ ['('] ++ ·) (dropTagsFrom_closing fun h => absurd h Bool.false_ne_true)

theorem trim_called (f : Name) (t : List Char) : trim (callText f [] t) = callText f [] t := by
  obtain ⟨c, r, hf, hc, _⟩ := f.exists_cons
  have htext : callText f [] t = f.chars ++ '(' :: t ++ [')'] := by simp [callText]
  refine trim_eq (fun d hd => ?_) fun d hd => ?_
  · rw [callText, hf] at hd
    obtain rfl := Option.some.inj hd
    exact isBlank_of_isWord (isWord_of_isNameStart hc)
  · rw [htext, List.getLast?_concat] at hd
    obtain rfl := Option.some.inj hd
    decide

/-- The signs of a text in their plain form. -/
def plainSigns (s : List Char) : List Char := dropCurrency (s.map operatorOf)

theorem plainSigns_append (s t : List Char) :
    plainSigns (s ++ t) = plainSigns s ++ plainSigns t := by
  unfold plainSigns
  rw [List.map_append, dropCurrency_append]

theorem plainSigns_blank (hp : ∀ c ∈ p, isBlank c = true) : plainSigns p = p := by
  have hfilling : Filling false false p := filling_blanks hp
  unfold plainSigns
  rw [map_operatorOf_of_not_glyph (not_glyph_of_filling hfilling)]
  refine dropCurrency_eq_self fun c hc hsign => ?_
  have hblank := hp c hc
  have hall : ∀ d ∈ currencySigns, isBlank d = false := List.all_iff_forall_prop.mp (by decide)
  rw [hall c hsign] at hblank
  exact Bool.false_ne_true hblank

theorem comma_not_mem_plainSigns (h : ',' ∉ s) : ',' ∉ plainSigns s := by
  intro hmem
  obtain ⟨d, hd, heq⟩ := List.mem_map.mp (List.mem_filter.mp hmem).1
  exact h (eq_of_operatorOf_eq (by decide) heq ▸ hd)

theorem bare_called (f : Name) (hcomma : ',' ∉ t) :
    bare (callText f [] t) = callText f [] (plainSigns (dropTags t)) := by
  obtain ⟨c, r, hf, hc, _⟩ := f.exists_cons
  have hequals : dropEquals (callText f [] (dropTags t)) = callText f [] (dropTags t) := by
    unfold dropEquals
    split
    · rename_i r' heq
      rw [callText, hf] at heq
      obtain rfl := (List.cons.inj heq).1
      exact absurd hc (by decide)
    · rfl
  have hsigns : plainSigns (callText f [] (dropTags t)) = callText f [] (plainSigns (dropTags t)) := by
    have htext : ∀ t, callText f [] t = f.chars ++ ['('] ++ (t ++ [')']) := fun t => by
      simp [callText]
    have hplain : plainSigns (f.chars ++ ['(']) = f.chars ++ ['('] := by
      unfold plainSigns
      rw [map_operatorOf (plain_called f), dropCurrency_eq (plain_called f)]
    rw [htext, htext, plainSigns_append (f.chars ++ ['(']), hplain, plainSigns_append]
    rfl
  have hfree : ',' ∉ callText f [] (plainSigns (dropTags t)) := by
    have hinside := comma_not_mem_plainSigns fun hmem =>
      hcomma ((dropTagsFrom_sublist false t).subset hmem)
    have hname : ',' ∉ f.chars := fun hmem =>
      absurd (f.isWord_of_mem hmem) (by decide)
    simp only [callText, List.nil_append, List.cons_append, List.mem_append, List.mem_cons,
      List.not_mem_nil, or_false, not_or]
    exact ⟨hname, by decide, hinside, by decide⟩
  unfold bare
  rw [dropTags_called, trim_called, hequals]
  change ungroup (plainSigns (callText f [] (dropTags t))) = _
  rw [hsigns, ungroup_eq_self hfree]

/-- What stands before and after the text that is left before names are spaced. -/
theorem exists_around_bare (hcomma : ',' ∉ t) : ∃ before after, (∀ c ∈ after, isBlank c = true) ∧
    plainSigns (dropTags t) = before ++ bare t ++ after ∧
      ((∀ c ∈ before, isBlank c = true) ∨
        ∃ blanks, (∀ c ∈ blanks, isBlank c = true) ∧ before = blanks ++ ['=']) := by
  obtain ⟨before, after, hsplit, hbefore, hafter⟩ := exists_around_trim (dropTags t)
  have hbare : bare t = plainSigns (dropEquals (trim (dropTags t))) :=
    ungroup_eq_self (comma_not_mem_plainSigns fun hmem => hcomma
      (((dropEquals_sublist _).trans ((trim_sublist _).trans (dropTagsFrom_sublist false t))).subset
        hmem))
  have hsigns : plainSigns (dropTags t) = before ++ plainSigns (trim (dropTags t)) ++ after := by
    conv_lhs => rw [hsplit]
    rw [plainSigns_append, plainSigns_append, plainSigns_blank hbefore, plainSigns_blank hafter]
  by_cases hequals : ∃ r, trim (dropTags t) = '=' :: r
  · obtain ⟨r, hr⟩ := hequals
    refine ⟨before ++ ['='], after, hafter, ?_, Or.inr ⟨before, hbefore, rfl⟩⟩
    rw [hsigns, hbare, hr]
    change before ++ ('=' :: plainSigns r) ++ after = before ++ ['='] ++ plainSigns r ++ after
    simp
  · have hkept : dropEquals (trim (dropTags t)) = trim (dropTags t) := by
      unfold dropEquals
      split
      · rename_i r heq
        exact absurd ⟨r, heq⟩ hequals
      · rfl
    exact ⟨before, after, hafter, by rw [hsigns, hbare, hkept], Or.inl hbefore⟩

/-- The canonical form of a call holds the canonical form of the text between its parentheses. -/
theorem canonical_called (f : Name) (hcomma : ',' ∉ t) : ∃ lead trail, Lead lead ∧
    (∀ c ∈ trail, c = ' ') ∧ canonical (callText f [] t) =
      callText f [] (lead ++ canonical t ++ trail) := by
  obtain ⟨before, after, hafter, hsplit, hbefore⟩ := exists_around_bare hcomma
  have hspaced : ∀ s, canonical s = trim (collapseBlanks false (spaceBeforeNames false
    (spaceAfterNames false (bare s)))) := fun _ => rfl
  have hequals : Inert ['='] :=
    List.forall_mem_singleton.mpr ⟨by decide, (commonMark (by decide)).1⟩
  have hinert : Inert before := by
    rcases hbefore with hbefore | ⟨blanks, hblanks, rfl⟩
    · exact inert_blank hbefore
    · exact List.forall_mem_append.mpr ⟨inert_blank hblanks, hequals⟩
  rw [hspaced, bare_called f hcomma, hsplit, collapseBlanks_called f hinert (inert_blank hafter),
    trim_called, hspaced]
  rcases hbefore with hbefore | ⟨blanks, hblanks, rfl⟩
  · obtain ⟨lead, trail, hlead, htrail, heq⟩ := collapseBlanks_around hbefore hafter
      (spaceBeforeNames false (spaceAfterNames false (bare t)))
    exact ⟨lead, trail, .spaces hlead, htrail, congrArg (callText f []) heq⟩
  · obtain ⟨lead, trail, hlead, htrail, heq⟩ :=
      collapseBlanks_around (p := []) (fun c hc => absurd hc List.not_mem_nil) hafter
        (spaceBeforeNames false (spaceAfterNames false (bare t)))
    refine ⟨collapseBlanks false blanks ++ '=' :: lead, trail, .equals (fun c hc => ?_) hlead,
      htrail, congrArg (callText f []) ?_⟩
    · rcases mem_collapseBlanks hc with hspace | hmem
      · exact hspace
      · exact blank_collapseBlanks false blanks c hc (hblanks c hmem)
    · have hassoc : ∀ s, blanks ++ ['='] ++ s ++ after = blanks ++ '=' :: ([] ++ s ++ after) :=
        fun s => by simp
      rw [hassoc, collapseBlanks_append (by decide), heq]
      simp

/-- The canonical text of a call on an expression without commas. -/
theorem prepare_called (hscope : scope.Identifiers) (f : Name) (hcomma : ',' ∉ e) :
    (∀ why, prepare scope e = .error why → prepare scope (callText f [] e) = .error why) ∧
      ∀ c, prepare scope e = .ok c → ∃ lead trail, Lead lead ∧ (∀ c ∈ trail, c = ' ') ∧
        prepare scope (callText f [] e) = .ok (callText f [] (lead ++ c ++ trail)) := by
  unfold prepare
  rw [substitute_called hscope]
  cases hsubstitute : scope.substitute e with
  | error why => exact ⟨fun _ h => h, fun _ h => absurd h (by simp [asBreakdown, bind, Except.bind])⟩
  | ok t =>
    refine ⟨fun _ h => absurd h (by simp [asBreakdown, bind, Except.bind, pure, Except.pure]),
      fun c h => ?_⟩
    obtain rfl := Except.ok.inj h
    obtain ⟨lead, trail, hlead, htrail, heq⟩ :=
      canonical_called f (not_mem_substitute (by decide) (by decide) hcomma hsubstitute)
    exact ⟨lead, trail, hlead, htrail, congrArg Except.ok heq⟩

end CleanUp

end Reckoner.Formula
