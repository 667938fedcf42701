import Reckoner.Proofs.Document.Entries
import Reckoner.Proofs.Document.InOrder
import Reckoner.Proofs.Document.Dependencies

/-!
Documents in which no line depends on itself. A run of such a document converges within one pass
more than it has lines to evaluate, and its outcome is that of evaluating the lines once, each after
those that it mentions. When lines mention each other by name only, the values of the names do not
depend on the order of the lines.
-/
namespace Reckoner.Document

open Text Number Formula Data Relation

variable {s s' : List Char} {entries entries' : List Entry}

/-- A document whose lines are made of entries, that assigns no name twice and in which no line
depends on itself. -/
structure Acyclic (s : List Char) (entries : List Entry) : Prop where
  text : splitLines s = entries.map Entry.text
  names : (declared (ofText s)).Nodup
  acyclic : ∀ i, ¬ TransGen (Mentions entries) i i

section Runs

theorem run_of_settle (precision : Int) {limit : Nat} {settled : Settled}
    (h : settle (ofText s) limit 0 ⟨.empty, []⟩ limit = .ok settled) :
    ∃ o, run s (.int precision) limit = .ok o ∧ o.converged = settled.converged ∧
      o.passes = settled.passes := by
  unfold run
  dsimp only
  rw [h]
  exact ⟨_, rfl, rfl, rfl⟩

/-- A run of a document without cycles converges. -/
theorem runChecked_acyclic (h : Acyclic s entries) (precision : Int) {limit : Int}
    (hlimit : (calculations (ofText s)).length + 1 ≤ limit)
    (hunbroken : (passes (ofText s) limit.toNat .empty limit.toNat).2 = none) :
    ∃ o, runChecked s (.int precision) limit = .ok o ∧ o.converged = true ∧
      o.passes ≤ (calculations (ofText s)).length + 1 := by
  obtain ⟨settled, hsettled, hconverged, hpasses⟩ := settle_acyclic (distinct_ofText h.names)
    (local_of_entries h.text limit.toNat) h.acyclic (by omega) hunbroken
  obtain ⟨o, hrun, hc, hp⟩ := run_of_settle precision hsettled
  refine ⟨o, ?_, hc.trans hconverged, hp ▸ hpasses⟩
  unfold runChecked
  rw [if_neg (by omega), hrun]

/-- The outcome of a run that has converged is that of one pass in dependency order. -/
theorem inOrder_of_converged (h : Acyclic s entries) {precision : Value} {limit : Int} {o : Outcome}
    (hrun : runChecked s precision limit = .ok o) (hconverged : o.converged = true)
    {order : List Line} (horder : DependencyOrder (Mentions entries) (ofText s) order) :
    ∃ out, pass order limit.toNat .empty = .ok out ∧
      (∀ i, Assoc.get? o.results i = Assoc.get? out.standing.results i) ∧
      (∀ n, Assoc.get? o.named n = Assoc.get? out.standing.named n) ∧
      ∀ i, Assoc.get? o.errors i = Assoc.get? out.errors i := by
  obtain ⟨before, after, hbefore, hpass, hagrees, hnamed, hresults, herrors⟩ :=
    runChecked_converged hrun hconverged
  obtain ⟨out, hout, hresults', hnamed', herrors'⟩ := pass_in_order (distinct_ofText h.names)
    (fun n hn => isIdentifier_declared hn) (local_of_entries h.text limit.toNat)
    (fun i hi => h.acyclic i (.single hi)) horder hbefore hpass hagrees
  have ha := (of_pass hbefore hpass).proper
  refine ⟨out, hout, fun i => ?_, fun n => ?_, fun i => ?_⟩
  · rw [hresults' i, Assoc.get?_perm ha.results_nodup hresults]
  · rw [hnamed' n, Assoc.get?_perm ha.named_nodup hnamed]
  · rw [herrors' i, herrors]

end Runs

section Reordered

/-- Whether no expression mentions a line by its number. -/
def NamesOnly (entries : List Entry) : Prop :=
  ∀ a ∈ entries, ∀ e, a.expression? = some e → ∀ r, Lexeme.line r ∉ e.bracketed.lexemes

theorem forms_number (k : Nat) (entries : List Entry) :
    (number k (entries.map Entry.text)).map (·.form) = entries.map Entry.form := by
  induction entries generalizing k with
  | nil => rfl
  | cons a entries ih =>
    rw [List.map_cons, number, List.map_cons, List.map_cons, ih, classify_text]

theorem forms_perm (hs : splitLines s = entries.map Entry.text)
    (hs' : splitLines s' = entries'.map Entry.text) (hperm : entries'.Perm entries) :
    ((ofText s').map (·.form)).Perm ((ofText s).map (·.form)) := by
  unfold ofText
  rw [hs, hs', forms_number, forms_number]
  exact hperm.map _

theorem declared_eq (doc : List Line) :
    declared doc = (doc.map (·.form)).filterMap Form.name? := by
  unfold declared
  rw [List.filterMap_map]
  rfl

theorem length_calculations (doc : List Line) :
    (calculations doc).length = (doc.map (·.form)).countP (· ≠ .blank) := by
  unfold calculations
  rw [List.countP_map, List.countP_eq_length_filter]
  rfl

theorem entry_unique {a b : Entry} {i k : Nat} (ha : (a, i) ∈ entries.zipIdx k)
    (hb : (b, i) ∈ entries.zipIdx k) : a = b := by
  rw [List.mk_mem_zipIdx_iff_le_and_getElem?_sub] at ha hb
  exact Option.some.inj (ha.2.symm.trans hb.2)

theorem exists_index {a : Entry} (h : a ∈ entries) (k : Nat) : ∃ i, (a, i) ∈ entries.zipIdx k := by
  rw [← List.zipIdx_map_fst k entries] at h
  obtain ⟨⟨b, i⟩, hb, rfl⟩ := List.mem_map.mp h
  exact ⟨i, hb⟩

/-- Lines that mention each other by name do not depend on themselves in another order either. -/
theorem acyclic_of_perm (hnames : NamesOnly entries) (hperm : entries'.Perm entries)
    (hacyclic : ∀ i, ¬ TransGen (Mentions entries) i i) :
    ∀ i, ¬ TransGen (Mentions entries') i i := by
  have hindex : ∀ i, ∃ k, ∀ a, (a, i) ∈ entries'.zipIdx 1 → (a, k) ∈ entries.zipIdx 1 := by
    intro i
    by_cases hi : ∃ a, (a, i) ∈ entries'.zipIdx 1
    · obtain ⟨a, ha⟩ := hi
      obtain ⟨k, hk⟩ := exists_index (hperm.mem_iff.mp (List.fst_mem_of_mem_zipIdx ha)) 1
      exact ⟨k, fun b hb => entry_unique ha hb ▸ hk⟩
    · exact ⟨0, fun a ha => absurd ⟨a, ha⟩ hi⟩
  choose f hf using hindex
  intro i hi
  refine hacyclic (f i) (hi.lift f fun k l hmentions => ?_)
  cases hmentions with
  | line ha he hr _ =>
    exact absurd hr (hnames _ (hperm.mem_iff.mp (List.fst_mem_of_mem_zipIdx ha)) _ he _)
  | name ha he hn hb hname => exact .name (hf k _ ha) he hn (hf l _ hb) hname

theorem Acyclic.of_perm (h : Acyclic s entries) (hnames : NamesOnly entries)
    (hs' : splitLines s' = entries'.map Entry.text) (hperm : entries'.Perm entries) :
    Acyclic s' entries' := by
  refine ⟨hs', ?_, acyclic_of_perm hnames hperm h.acyclic⟩
  have hforms := (forms_perm h.text hs' hperm).filterMap Form.name?
  rw [← declared_eq, ← declared_eq] at hforms
  exact hforms.nodup_iff.mpr h.names

/-- Documents with the same entries that mention names only give the same values to the names. -/
theorem named_of_perm (h : Acyclic s entries) (hnames : NamesOnly entries)
    (hs' : splitLines s' = entries'.map Entry.text) (hperm : entries'.Perm entries) {depth : Nat}
    {after after' : PassResult} (hafter : after.standing.Of (ofText s))
    (hafter' : after'.standing.Of (ofText s')) (hsolves : Solves depth (ofText s) after)
    (hsolves' : Solves depth (ofText s') after') (n : List Char) :
    Assoc.get? after.standing.named n = Assoc.get? after'.standing.named n := by
  have hdeclared : ∀ n, n ∈ declared (ofText s) ↔ n ∈ declared (ofText s') := by
    intro n
    rw [declared_eq, declared_eq]
    exact ((forms_perm h.text hs' hperm).filterMap Form.name?).mem_iff.symm
  obtain ⟨order, horder⟩ := exists_dependencyOrder h.acyclic (ofText s)
  have hlines : ∀ i (hi : i < order.length) n, order[i].form.name? = some n →
      Assoc.get? after.standing.named n = Assoc.get? after'.standing.named n := by
    intro i
    induction i using Nat.strongRecOn with
    | ind i ih =>
      intro hi n hn
      have hline : order[i] ∈ ofText s := horder.perm.mem_iff.mp (List.getElem_mem hi)
      have hform := form_ne_blank hn
      obtain ⟨a, ha, haform⟩ := entry_of_mem h.text hline
      obtain ⟨e, he, htext⟩ := Entry.form_eq (haform ▸ hform)
      have hmem := hperm.mem_iff.mpr (List.fst_mem_of_mem_zipIdx ha)
      obtain ⟨line', hline', hform'⟩ := exists_line_of_mem hs' hmem
      obtain ⟨r, hvalue, hrecorded⟩ := hsolves order[i] hline hform
      obtain ⟨r', hvalue', hrecorded'⟩ := hsolves' line' hline' (hform' ▸ haform ▸ hform)
      have hr : r = r' := by
        refine asFailure_injective ?_
        rw [← hvalue, ← hvalue', haform, hform', htext]
        refine evaluate_congr (regular_scope hafter.proper fun n => isIdentifier_declared)
          (regular_scope hafter'.proper fun n => isIdentifier_declared) (fun n => ?_) fun b hb => ?_
        · rw [mem_names_scope hafter.proper, mem_names_scope hafter'.proper, hdeclared]
        · cases b with
          | name m =>
            intro hm
            obtain ⟨l, hl, hname⟩ := mem_declared.mp ((mem_names_scope hafter.proper).mp hm)
            obtain ⟨c, hc, hcform⟩ := entry_of_mem h.text hl
            obtain ⟨j, hj, rfl⟩ := List.getElem_of_mem (horder.perm.mem_iff.mpr hl)
            have hlt := horder.lt (fun k hk => h.acyclic k (.single hk)) hi hj
              (.name ha he hb hc (hcform ▸ hname))
            exact ih j hlt hj m.chars hname
          | line r => exact absurd hb (hnames a (List.fst_mem_of_mem_zipIdx ha) e he r)
          | _ => exact trivial
      rw [hrecorded.value n hn, hr, hrecorded'.value n (hform' ▸ haform ▸ hn)]
  by_cases hn : n ∈ declared (ofText s)
  · obtain ⟨line, hline, hname⟩ := mem_declared.mp hn
    obtain ⟨i, hi, rfl⟩ := List.getElem_of_mem (horder.perm.mem_iff.mpr hline)
    exact hlines i hi n hname
  · rw [Assoc.get?_eq_none.mpr fun hk => hn (hafter.proper.declared hk),
      Assoc.get?_eq_none.mpr fun hk => hn ((hdeclared n).mpr (hafter'.proper.declared hk))]

end Reordered

section Acyclic

/-- A document in which no line depends on itself converges within one pass more than it has lines
to evaluate. Its outcome is that of evaluating the lines once in any order in which each comes after
those that it mentions, and there is such an order. When lines mention names only, every document
with the same entries gives the same values to the names. -/
theorem acyclic_settles (h : Acyclic s entries) (precision limit : Int)
    (hlimit : (calculations (ofText s)).length + 1 ≤ limit)
    (hunbroken : (passes (ofText s) limit.toNat .empty limit.toNat).2 = none) :
    ∃ o, runChecked s (.int precision) limit = .ok o ∧ o.converged = true ∧
      o.passes ≤ (calculations (ofText s)).length + 1 ∧
      (∃ order, DependencyOrder (Mentions entries) (ofText s) order) ∧
      (∀ order, DependencyOrder (Mentions entries) (ofText s) order →
        ∃ out, pass order limit.toNat .empty = .ok out ∧
          (∀ i, Assoc.get? o.results i = Assoc.get? out.standing.results i) ∧
          (∀ n, Assoc.get? o.named n = Assoc.get? out.standing.named n) ∧
          ∀ i, Assoc.get? o.errors i = Assoc.get? out.errors i) ∧
      (NamesOnly entries → ∀ (s' : List Char) (entries' : List Entry),
        splitLines s' = entries'.map Entry.text → entries'.Perm entries →
        (passes (ofText s') limit.toNat .empty limit.toNat).2 = none →
        ∃ o', runChecked s' (.int precision) limit = .ok o' ∧
          ∀ n, Assoc.get? o'.named n = Assoc.get? o.named n) := by
  obtain ⟨o, hrun, hconverged, hpasses⟩ := runChecked_acyclic h precision hlimit hunbroken
  refine ⟨o, hrun, hconverged, hpasses, exists_dependencyOrder h.acyclic (ofText s),
    fun order horder => inOrder_of_converged h hrun hconverged horder,
    fun hnames s' entries' hs' hperm hunbroken' => ?_⟩
  have h' := h.of_perm hnames hs' hperm
  have hlength : (calculations (ofText s')).length = (calculations (ofText s)).length := by
    rw [length_calculations, length_calculations]
    exact (forms_perm h.text hs' hperm).countP_eq _
  obtain ⟨o', hrun', hconverged', _⟩ :=
    runChecked_acyclic h' precision (hlength.symm ▸ hlimit) hunbroken'
  obtain ⟨before, after, hbefore, hpass, hagrees, hnamed, _⟩ := runChecked_converged hrun hconverged
  obtain ⟨before', after', hbefore', hpass', hagrees', hnamed', _⟩ :=
    runChecked_converged hrun' hconverged'
  have ha := of_pass hbefore hpass
  have ha' := of_pass hbefore' hpass'
  have hsolves : Solves limit.toNat (ofText s) after := fun line hline hform =>
    pass_solves (distinct_ofText h.names) (fun n => isIdentifier_declared) hbefore.proper hpass
      hagrees hline hform
  have hsolves' : Solves limit.toNat (ofText s') after' := fun line hline hform =>
    pass_solves (distinct_ofText h'.names) (fun n => isIdentifier_declared) hbefore'.proper hpass'
      hagrees' hline hform
  refine ⟨o', hrun', fun n => ?_⟩
  rw [← Assoc.get?_perm ha.proper.named_nodup hnamed,
    ← Assoc.get?_perm ha'.proper.named_nodup hnamed',
    named_of_perm h hnames hs' hperm ha ha' hsolves hsolves' n]

/-- The lines `= 2 * a` and `a = 3`; the first mentions the second. -/
def forwardEntries : List Entry :=
  [.plain (.binary .mul
      (.numeral ⟨['2'], none, allDigits_cons (by decide) allDigits_nil, allDigits_nil, by decide⟩)
      (.name ⟨['a'], by decide⟩)),
    .assignment ⟨['a'], by decide⟩
      (.numeral ⟨['3'], none, allDigits_cons (by decide) allDigits_nil, allDigits_nil,
        by decide⟩)]

def forwardReference : List Char := "= 2 * a\na = 3".toList

theorem forwardReference_settles :
    Acyclic forwardReference forwardEntries ∧
      (calculations (ofText forwardReference)).length + 1 ≤ (3 : Int) ∧
      (passes (ofText forwardReference) 3 .empty 3).2 = none ∧
      ∃ o, runChecked forwardReference (.int 2) 3 = .ok o ∧ o.converged = true ∧
        Assoc.get? o.results 1 = some 6 := by
  have hlt : ∀ {i j}, Mentions forwardEntries i j → i = 1 ∧ j = 2 := by
    intro i j h
    cases h with
    | line ha he hr _ =>
      simp only [forwardEntries, List.zipIdx_cons, List.zipIdx_nil, List.mem_cons,
        List.not_mem_nil, or_false, Prod.mk.injEq] at ha
      rcases ha with ⟨rfl, rfl⟩ | ⟨rfl, rfl⟩ <;> obtain rfl := Option.some.inj he <;>
        simp [Expr.bracketed, Expr.lexemes, Expr.atLeast, Expr.level, Arith.leftLevel,
          Arith.rightLevel, Arith.Op.level] at hr
    | name ha he hn hb hname =>
      simp only [forwardEntries, List.zipIdx_cons, List.zipIdx_nil, List.mem_cons,
        List.not_mem_nil, or_false, Prod.mk.injEq] at ha hb
      rcases ha with ⟨rfl, rfl⟩ | ⟨rfl, rfl⟩
      · rcases hb with ⟨rfl, rfl⟩ | ⟨rfl, rfl⟩
        · exact absurd hname (by simp [Entry.form, Form.name?])
        · exact ⟨rfl, rfl⟩
      · obtain rfl := Option.some.inj he
        simp [Expr.bracketed, Expr.lexemes] at hn
  have hacyclic : Acyclic forwardReference forwardEntries := by
    refine ⟨?_, by decide +kernel, fun i hi => ?_⟩
    · simp [forwardEntries, Entry.text, Expr.text, Expr.bracketed, Expr.lexemes, Expr.atLeast,
        Expr.level, Arith.leftLevel, Arith.rightLevel, Arith.Op.level, textOf, Lexeme.text,
        Arith.Op.symbol, Numeral.text]
      decide +kernel
    · have hall : ∀ {i j}, TransGen (Mentions forwardEntries) i j → i = 1 ∧ j = 2 := by
        intro i j hij
        induction hij with
        | single h => exact hlt h
        | tail _ h ih => exact ⟨ih.1, (hlt h).2⟩
      obtain ⟨h1, h2⟩ := hall hi
      omega
  have hlength : (calculations (ofText forwardReference)).length = 2 := by decide +kernel
  have hunbroken : (passes (ofText forwardReference) 3 .empty 3).2 = none := by decide +kernel
  have hlimit : (calculations (ofText forwardReference)).length + 1 ≤ (3 : Int) := by omega
  obtain ⟨o, hrun, hconverged, _, _, hinOrder, _⟩ :=
    acyclic_settles hacyclic 2 3 hlimit hunbroken
  refine ⟨hacyclic, hlimit, hunbroken, o, hrun, hconverged, ?_⟩
  have horder : DependencyOrder (Mentions forwardEntries) (ofText forwardReference)
      (ofText forwardReference).reverse := by
    have hindices : ((ofText forwardReference).map (·.index)).Pairwise (· < ·) := by decide +kernel
    refine ⟨List.reverse_perm _, List.pairwise_reverse.mpr ?_⟩
    refine (List.pairwise_map.mp hindices).imp fun hindex hmentions => ?_
    obtain ⟨hb, ha⟩ := hlt hmentions
    omega
  have hsix : (pass (ofText forwardReference).reverse 3 .empty).toOption.map (fun out =>
      decide (Assoc.get? out.standing.results 1 = some 6)) = some true := by decide +kernel
  obtain ⟨out, hout, hresults, _⟩ := hinOrder _ horder
  change pass (ofText forwardReference).reverse 3 .empty = .ok out at hout
  rw [hout] at hsix
  exact (hresults 1).trans (of_decide_eq_true (Option.some.inj hsix))

end Acyclic

end Reckoner.Document
