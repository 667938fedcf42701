import Reckoner.Proofs.Command.Layers
import Reckoner.Proofs.Document.Counts
import Reckoner.Proofs.Number.Displayed

/-!
What a run prints. Each line of the document has one record: with its result, with the kind of its
error, or by itself when it asks for nothing. Codes that colour a terminal are left out of what is
printed. An empty line and a summary come last, with the numbers of the first two kinds of records.
-/
namespace Reckoner.Command

open Text Number Files Data Document

section Codes

variable {s t code kept : List Char} {c : Char} {fuel : Nat}

/-- Whether a character may stand before the letter that ends a code. -/
def IsParameter (c : Char) : Prop := c = ';' ∨ c = '?' ∨ isAsciiDigit c = true

/-- Whether a text is a code that colours a terminal. -/
def IsCode (code : List Char) : Prop :=
  ∃ parameters letter, code = '\x1b' :: '[' :: (parameters ++ [letter]) ∧
    (∀ c ∈ parameters, IsParameter c) ∧ isAsciiLetter letter = true

/-- A text and what is left of it when its codes are left out, the first one first. -/
inductive Uncoded : List Char → List Char → Prop
  | nil : Uncoded [] []
  | code {code s t : List Char} (h : IsCode code) (hs : Uncoded s t) : Uncoded (code ++ s) t
  | keep {c : Char} {s t : List Char} (h : ∀ code, IsCode code → ¬ code <+: c :: s)
    (hs : Uncoded s t) : Uncoded (c :: s) (c :: t)

theorem isParameter_iff :
    (c == ';' || c == '?' || isAsciiDigit c) = true ↔ IsParameter c := by
  unfold IsParameter
  rw [Bool.or_eq_true, Bool.or_eq_true, beq_iff_eq, beq_iff_eq, or_assoc]

theorem not_isParameter (h : isAsciiLetter c = true) : ¬ IsParameter c := by
  rintro (rfl | rfl | hdigit)
  · exact absurd h (by decide)
  · exact absurd h (by decide)
  · unfold isAsciiDigit at hdigit
    unfold isAsciiLetter at h
    simp only [Bool.and_eq_true, Bool.or_eq_true, decide_eq_true_iff, Char.le_def,
      UInt32.le_iff_toNat_le] at hdigit h
    revert hdigit h
    simp
    omega

/-- A code goes on to the first letter after its parameters. -/
theorem afterCode?_eq_some : afterCode? s = some t ↔ ∃ parameters letter,
    s = parameters ++ letter :: t ∧ (∀ c ∈ parameters, IsParameter c) ∧
      isAsciiLetter letter = true := by
  unfold afterCode?
  induction s with
  | nil => simp
  | cons c s ih =>
    by_cases hc : IsParameter c
    · rw [List.dropWhile_cons_of_pos (p := fun c => c == ';' || c == '?' || isAsciiDigit c)
        (isParameter_iff.mpr hc), ih]
      constructor
      · rintro ⟨parameters, letter, rfl, hparameters, hletter⟩
        exact ⟨c :: parameters, letter, rfl, List.forall_mem_cons.mpr ⟨hc, hparameters⟩, hletter⟩
      · rintro ⟨parameters, letter, heq, hparameters, hletter⟩
        cases parameters with
        | nil =>
          obtain ⟨rfl, rfl⟩ := List.cons.inj heq
          exact absurd hc (not_isParameter hletter)
        | cons c' parameters =>
          obtain ⟨rfl, rfl⟩ := List.cons.inj heq
          exact ⟨parameters, letter, rfl, (List.forall_mem_cons.mp hparameters).2, hletter⟩
    · rw [List.dropWhile_cons_of_neg (p := fun c => c == ';' || c == '?' || isAsciiDigit c)
        fun h => hc (isParameter_iff.mp h)]
      dsimp only
      constructor
      · intro h
        split at h
        · rename_i hletter
          obtain rfl := Option.some.inj h
          exact ⟨[], c, rfl, nofun, hletter⟩
        · exact absurd h nofun
      · rintro ⟨parameters, letter, heq, hparameters, hletter⟩
        cases parameters with
        | nil =>
          obtain ⟨rfl, rfl⟩ := List.cons.inj heq
          exact if_pos hletter
        | cons c' parameters =>
          obtain ⟨rfl, rfl⟩ := List.cons.inj heq
          exact absurd (List.forall_mem_cons.mp hparameters).1 hc

theorem isCode_iff : (∃ code, IsCode code ∧ code ++ t = s) ↔
    ∃ tail, s = '\x1b' :: '[' :: tail ∧ afterCode? tail = some t := by
  constructor
  · rintro ⟨_, ⟨parameters, letter, rfl, hparameters, hletter⟩, rfl⟩
    refine ⟨parameters ++ letter :: t, by simp, afterCode?_eq_some.mpr ?_⟩
    exact ⟨parameters, letter, rfl, hparameters, hletter⟩
  · rintro ⟨tail, rfl, h⟩
    obtain ⟨parameters, letter, rfl, hparameters, hletter⟩ := afterCode?_eq_some.mp h
    exact ⟨_, ⟨parameters, letter, rfl, hparameters, hletter⟩, by simp⟩

theorem dropCodes_cons
    (h : ∀ tail rest, c :: s = '\x1b' :: '[' :: tail → afterCode? tail ≠ some rest) :
    dropCodes (fuel + 1) (c :: s) = c :: dropCodes fuel s := by
  by_cases hescape : ∃ tail, c :: s = '\x1b' :: '[' :: tail
  · obtain ⟨tail, heq⟩ := hescape
    have hnone : afterCode? tail = none :=
      Option.eq_none_iff_forall_ne_some.mpr fun rest => h tail rest heq
    obtain ⟨rfl, rfl⟩ := List.cons.inj heq
    rw [dropCodes, hnone]
  · rw [dropCodes]
    rintro tail rfl rfl
    exact hescape ⟨tail, rfl⟩

/-- What is printed is what is left when the codes are left out. -/
theorem dropCodes_eq (h : Uncoded s t) (hfuel : s.length < fuel) : dropCodes fuel s = t := by
  induction h generalizing fuel with
  | nil => cases fuel <;> rfl
  | @code code s t hcode _ ih =>
    -- the code is left out in one step, which is less than its characters
    obtain ⟨tail, htail, hafter⟩ := isCode_iff.mp ⟨code, hcode, rfl⟩
    rw [htail] at hfuel ⊢
    cases fuel with
    | zero => exact absurd hfuel (Nat.not_lt_zero _)
    | succ fuel =>
      have hshorter : s.length < fuel := by
        have hlength := congrArg List.length htail
        obtain ⟨parameters, letter, rfl, -⟩ := hcode
        simp at hlength hfuel
        omega
      rw [dropCodes, hafter]
      exact ih hshorter
  | @keep c s t hnone _ ih =>
    cases fuel with
    | zero => exact absurd hfuel (Nat.not_lt_zero _)
    | succ fuel =>
      rw [dropCodes_cons, ih (Nat.lt_of_succ_lt_succ hfuel)]
      intro tail rest heq hafter
      obtain ⟨code, hcode, hprefix⟩ := isCode_iff.mpr ⟨tail, heq, hafter⟩
      exact hnone code hcode ⟨rest, hprefix⟩

theorem exists_uncoded (s : List Char) : ∃ t, Uncoded s t := by
  induction hn : s.length using Nat.strong_induction_on generalizing s with
  | h n ih =>
    subst hn
    cases s with
    | nil => exact ⟨[], .nil⟩
    | cons c s =>
      by_cases h : ∃ code, IsCode code ∧ code <+: c :: s
      · obtain ⟨code, hcode, rest, hrest⟩ := h
        have hshorter : rest.length < (c :: s).length := by
          rw [← hrest]
          obtain ⟨parameters, letter, rfl, -⟩ := hcode
          simp
          omega
        obtain ⟨t, ht⟩ := ih _ hshorter rest rfl
        exact ⟨t, hrest ▸ .code hcode ht⟩
      · obtain ⟨t, ht⟩ := ih s.length (Nat.lt_succ_self _) s rfl
        exact ⟨c :: t, .keep (fun code hcode hprefix => h ⟨code, hcode, hprefix⟩) ht⟩

/-- A text without an escape character is left as it is. -/
theorem uncoded_self (h : '\x1b' ∉ s) : Uncoded s s := by
  induction s with
  | nil => exact .nil
  | cons c s ih =>
    obtain ⟨hc, hs⟩ := not_or.mp (List.mem_cons.not.mp h)
    refine .keep ?_ (ih hs)
    rintro code ⟨parameters, letter, rfl, -⟩ hprefix
    exact hc (List.cons_prefix_cons.mp hprefix).1

theorem not_mem_code (h : IsCode code) : ' ' ∉ code := by
  obtain ⟨parameters, letter, rfl, hparameters, hletter⟩ := h
  intro hmem
  rcases List.mem_cons.mp hmem with hmem | hmem
  · exact absurd hmem (by decide)
  rcases List.mem_cons.mp hmem with hmem | hmem
  · exact absurd hmem (by decide)
  rcases List.mem_append.mp hmem with hmem | hmem
  · exact absurd (isParameter_iff.mpr (hparameters _ hmem)) (by decide)
  · rw [← List.mem_singleton.mp hmem] at hletter
    exact absurd hletter (by decide)

/-- A code does not go on over a space. -/
theorem isPrefix_of_code (hcode : IsCode code) (h : code <+: s ++ ' ' :: t) : code <+: s := by
  have hspace : s ++ [' '] <+: s ++ ' ' :: t := ⟨t, by simp⟩
  rcases List.prefix_or_prefix_of_prefix h hspace with h | h
  · rcases List.prefix_concat_iff.mp h with rfl | h
    · exact absurd (List.mem_append_right s List.mem_cons_self) (not_mem_code hcode)
    · exact h
  · exact absurd (h.subset (List.mem_append_right s List.mem_cons_self)) (not_mem_code hcode)

theorem Uncoded.append (h : Uncoded s kept) (ht : '\x1b' ∉ t) :
    Uncoded (s ++ ' ' :: t) (kept ++ ' ' :: t) := by
  induction h with
  | nil => exact uncoded_self (List.not_mem_cons_of_ne_of_not_mem (by decide) ht)
  | code hcode _ ih =>
    rw [List.append_assoc]
    exact .code hcode ih
  | keep hnone _ ih =>
    exact .keep (fun code hcode hprefix => hnone code hcode (isPrefix_of_code hcode hprefix)) ih

theorem Uncoded.sublist (h : Uncoded s t) : t.Sublist s := by
  induction h with
  | nil => exact .slnil
  | code _ _ ih => exact ih.trans (List.sublist_append_right _ _)
  | keep _ _ ih => exact ih.cons_cons _

theorem printed_eq (h : Uncoded s t) : printed s = t ++ ['\n'] := by
  unfold printed
  rw [dropCodes_eq h (Nat.lt_succ_self _)]

end Codes

section Records

variable {o : Outcome} {line : Line} {text : List Char} {limit : Nat} {precision : Int}

/-- The record of a line: with its result, with the kind of its error, or by itself when it asks for
nothing. -/
inductive Record (o : Outcome) (line : Line) : List Char → Prop
  | result {x : Float} {kept shown : List Char} (hform : line.form ≠ .blank)
    (hresult : Assoc.get? o.results line.index = some x)
    (herror : Assoc.get? o.errors line.index = none) (hkept : Uncoded (trimRight line.raw) kept)
    (hshown : display x o.precision = some shown) : Record o line (kept ++ "  => ".toList ++ shown)
  | failed {kind : FaultKind} {kept : List Char} (hform : line.form ≠ .blank)
    (hresult : Assoc.get? o.results line.index = none)
    (herror : Assoc.get? o.errors line.index = some kind)
    (hkept : Uncoded (trimRight line.raw) kept) :
    Record o line (kept ++ "  !! ".toList ++ kind.code)
  | blank {kept : List Char} (hform : line.form = .blank)
    (hresult : Assoc.get? o.results line.index = none)
    (herror : Assoc.get? o.errors line.index = none) (hkept : Uncoded line.raw kept) :
    Record o line kept

/-- Whether an outcome has a result or an error for a line exactly if it asks for something, and
shows the result. -/
structure Covers (o : Outcome) (line : Line) : Prop where
  blank : line.form = .blank →
    Assoc.get? o.results line.index = none ∧ Assoc.get? o.errors line.index = none
  listed : line.form ≠ .blank →
    (∃ x shown, Assoc.get? o.results line.index = some x ∧ display x o.precision = some shown ∧
        Assoc.get? o.errors line.index = none) ∨
      ∃ kind, Assoc.get? o.errors line.index = some kind ∧
        Assoc.get? o.results line.index = none

/-- An outcome covers the lines of its document. -/
theorem covers_of_run (h : Document.run text (.int precision) (limit + 1) = .ok o) :
    ∀ line ∈ ofText text, Covers o line := by
  intro line hline
  obtain ⟨⟨before, _, hlines⟩, hothers, hfinite⟩ := run_reports h
  refine ⟨fun hblank => hothers line.index fun other hother hform hindex => ?_, fun hform => ?_⟩
  · have hnodup : ((ofText text).map (·.index)).Nodup := nodup_indices 1 (splitLines text)
    obtain rfl := List.inj_on_of_nodup_map hnodup hother hline hindex
    exact hform hblank
  · obtain ⟨_, r, _, _, hresult, herror⟩ := hlines line hline hform
    cases r with
    | ok x =>
      obtain ⟨shown, hshown⟩ := exists_display (hfinite _ (Assoc.mem_of_get? hresult)) o.precision
      exact Or.inl ⟨x, shown, hresult, hshown, herror⟩
    | error f => exact Or.inr ⟨f.kind, herror, hresult⟩

theorem annotated_eq (o : Outcome) (index : Nat) (raw : List Char) : annotated o index raw =
    match Assoc.get? o.results index, Assoc.get? o.errors index with
    | some x, _ => trimRight raw ++ "  => ".toList ++ (display x o.precision).getD []
    | none, some kind => trimRight raw ++ "  !! ".toList ++ kind.code
    | none, none => raw := by
  have hdisplays : Assoc.get? o.displays index =
      (Assoc.get? o.results index).map fun x => (display x o.precision).getD [] :=
    Assoc.get?_mapValues (fun x => (display x o.precision).getD []) o.results index
  unfold annotated
  rw [hdisplays]
  cases Assoc.get? o.results index with
  | some x => rfl
  | none => cases Assoc.get? o.errors index <;> rfl

theorem not_mem_display {x : Float} {places : Nat} {shown : List Char}
    (h : display x places = some shown) {c : Char} (hc : ¬ IsDisplayed c) : c ∉ shown :=
  fun hmem => hc (mem_display h hmem)

theorem not_mem_kindCode (kind : FaultKind) : '\x1b' ∉ kind.code ∧ '\n' ∉ kind.code := by
  cases kind <;> decide

/-- The line of a document that is printed is its record. -/
theorem exists_record (hcovers : Covers o line) (hraw : '\n' ∉ line.raw) :
    ∃ record, Record o line record ∧ '\n' ∉ record ∧
      Uncoded (annotated o line.index line.raw) record := by
  obtain ⟨kept, hkept⟩ := exists_uncoded (trimRight line.raw)
  have hend : '\n' ∉ kept := fun hmem =>
    hraw ((trimRight_sublist line.raw).subset (hkept.sublist.subset hmem))
  rw [annotated_eq]
  by_cases hform : line.form = .blank
  · obtain ⟨hresult, herror⟩ := hcovers.blank hform
    obtain ⟨whole, hwhole⟩ := exists_uncoded line.raw
    rw [hresult, herror]
    exact ⟨whole, .blank hform hresult herror hwhole, fun hmem => hraw (hwhole.sublist.subset hmem),
      hwhole⟩
  -- what is put behind the line begins with a space, so no code goes on into it
  rcases hcovers.listed hform with ⟨x, shown, hresult, hshown, herror⟩ | ⟨kind, herror, hresult⟩
  · have hescape : '\x1b' ∉ shown := not_mem_display hshown (by decide)
    have hbreak : '\n' ∉ shown := not_mem_display hshown (by decide)
    rw [hresult, herror]
    dsimp only
    rw [hshown]
    refine ⟨_, .result hform hresult herror hkept hshown,
      List.not_mem_append (List.not_mem_append hend (by decide)) hbreak, ?_⟩
    rw [List.append_assoc, List.append_assoc]
    exact hkept.append (List.not_mem_append (s := " => ".toList) (by decide) hescape)
  · obtain ⟨hescape, hbreak⟩ := not_mem_kindCode kind
    rw [hresult, herror]
    dsimp only
    refine ⟨_, .failed hform hresult herror hkept,
      List.not_mem_append (List.not_mem_append hend (by decide)) hbreak, ?_⟩
    rw [List.append_assoc, List.append_assoc]
    exact hkept.append (List.not_mem_append (s := " !! ".toList) (by decide) hescape)

/-- The lines of a document that are printed are their records in order. -/
theorem exists_records {k : Nat} {raws : List (List Char)}
    (h : ∀ line ∈ number k raws, Covers o line ∧ '\n' ∉ line.raw) :
    ∃ records, List.Forall₂ (Record o) (number k raws) records ∧
      (∀ record ∈ records, '\n' ∉ record) ∧
      printedAll (annotatedLines o k raws) = records.flatMap (· ++ ['\n']) := by
  induction raws generalizing k with
  | nil => exact ⟨[], .nil, nofun, rfl⟩
  | cons raw raws ih =>
    obtain ⟨⟨hcovers, hraw⟩, hrest⟩ := List.forall_mem_cons.mp h
    obtain ⟨record, hrecord, hend, huncoded⟩ := exists_record hcovers hraw
    obtain ⟨records, hrecords, hends, hall⟩ := ih hrest
    refine ⟨record :: records, .cons hrecord hrecords, List.forall_mem_cons.mpr ⟨hend, hends⟩, ?_⟩
    rw [List.flatMap_cons, ← printed_eq huncoded, ← hall]
    rfl

end Records

theorem printed_summary (o : Outcome) : printed (summaryLine o) = summaryLine o ++ ['\n'] := by
  have hdigits : ∀ n, '\x1b' ∉ decimalDigits n := fun n hmem =>
    absurd (isAsciiDigit_decimalDigits hmem) (by decide)
  have hend : ∀ b : Bool, '\x1b' ∉ if b then "converged".toList else "not converged".toList := by
    decide
  refine printed_eq (uncoded_self ?_)
  unfold summaryLine
  simp only [List.mem_append, not_or]
  refine ⟨⟨⟨⟨⟨⟨⟨⟨hdigits _, ?_⟩, hdigits _⟩, ?_⟩, hdigits _⟩, ?_⟩, hdigits _⟩, ?_⟩, hend _⟩
  all_goals decide

/-- Whatever its settings are, a run whose document is processed prints one record for each line in
order, then an empty line and the summary. The results and errors in the summary are as many as the
lines that are printed with one. -/
theorem run_annotated {s s₁ s₂ : Session} {file text : List Char} {project : Option (List Char)}
    {precision passes : Option Int} {e : Engine} {o : Outcome}
    (hengine : engineFor s project precision passes = .ok e)
    (huse : useGiven s project = (.ok (), s₁)) (htext : readText s₁.tree file = .ok text)
    (hprocess : s₁.process text (.int e.precision) (.int e.passes) = (.ok o, s₂)) :
    ∃ records, List.Forall₂ (Record o) (ofText text) records ∧
      (∀ record ∈ records, '\n' ∉ record) ∧
      (perform s (.run file project precision passes false)).output =
        (records ++ [[], summaryLine o]).flatMap (· ++ ['\n']) ∧
      (ofText text).countP (fun line => (Assoc.get? o.results line.index).isSome) =
        o.results.length ∧
      (ofText text).countP (fun line => (Assoc.get? o.errors line.index).isSome) =
        o.errors.length := by
  obtain ⟨n, hn⟩ : ∃ n : Nat, (max 1 e.passes).toNat = n + 1 :=
    ⟨(max 1 e.passes).toNat - 1, by omega⟩
  have hrun : Document.run text (.int e.precision) (n + 1) = .ok o := by
    have hresult := process_eq s₁ text e.precision e.passes
    rw [hprocess, hn] at hresult
    exact hresult.symm
  have hcovers := covers_of_run hrun
  obtain ⟨records, hrecords, hends, hprinted⟩ :=
    exists_records fun line hline => ⟨hcovers line hline, not_mem_raw hline⟩
  refine ⟨records, hrecords, hends, ?_, counts_of_run hrun⟩
  rw [(runUses_engineFor s project precision passes).used file false e s₁ text hengine huse htext,
    hprocess]
  change printedAll (annotatedLines o 1 (splitLines text) ++ [[], summaryLine o]) = _
  unfold printedAll at hprinted ⊢
  rw [List.flatMap_append, List.flatMap_append, hprinted, List.flatMap_cons, List.flatMap_cons,
    printed_summary]
  rfl

section Sample

/-- A session whose working directory holds a document and nothing else. -/
def withDocument (text : List Char) : Session :=
  { Session.beside "" with tree := ⟨[([['d']], .file (Utf8.encode text))], []⟩ }

/-- A document with a heading, a result and a line that fails. -/
def threeKinds : List Char := "Budget\nx = 3 / 4 \n= 1 / 0".toList

theorem run_threeKinds :
    ∃ o records, List.Forall₂ (Record o) (ofText threeKinds) records ∧
      (perform (withDocument threeKinds) (.run ['d'] none none none false)).output =
        (records ++ [[], summaryLine o]).flatMap (· ++ ['\n']) ∧
      o.results.length = 1 ∧ o.errors.length = 1 := by
  have hcheck : (match ((withDocument threeKinds).process threeKinds (.int 2) (.int 10)).1 with
      | .ok o => decide (o.results.length = 1) && decide (o.errors.length = 1)
      | .error _ => false) = true := by decide +kernel
  cases hprocess : (withDocument threeKinds).process threeKinds (.int 2) (.int 10) with
  | mk result s₂ =>
    rw [hprocess] at hcheck
    cases result with
    | error b => exact absurd hcheck Bool.false_ne_true
    | ok o =>
      simp only [Bool.and_eq_true, decide_eq_true_iff] at hcheck
      obtain ⟨records, hrecords, _, houtput, _⟩ :=
        @run_annotated (withDocument threeKinds) _ _ ['d'] threeKinds none none none ⟨2, 10⟩ o
          rfl rfl rfl hprocess
      exact ⟨o, records, hrecords, houtput, hcheck⟩

/-- A blank line with a code that colours it. -/
def coloured : List Char := "\x1b[31mhi".toList

/-- A blank line is not printed unchanged when there is a code in it. -/
theorem run_coloured :
    ofText coloured = [⟨1, coloured, .blank⟩] ∧
      ¬ coloured <+: (perform (withDocument coloured) (.run ['d'] none none none false)).output ∧
      (perform (withDocument coloured) (.run ['d'] none none none false)).output =
        "hi\n\n0 result(s), 0 variable(s), 0 error(s); 1 pass(es), converged\n".toList := by
  have houtput : (perform (withDocument coloured) (.run ['d'] none none none false)).output =
      "hi\n\n0 result(s), 0 variable(s), 0 error(s); 1 pass(es), converged\n".toList := by
    decide +kernel
  refine ⟨rfl, ?_, houtput⟩
  rw [houtput]
  decide

end Sample

end Reckoner.Command
