import Reckoner.Proofs.Document.Dependencies
import Reckoner.Proofs.Document.Forms
import Reckoner.Proofs.Document.Lines
import Reckoner.Proofs.Formula.Mentions

/-!
Lines made of an expression. A line assigns an expression to a name, gives it a label, or only asks
for its value; other lines ask for nothing. Such a line is classified as what it was made of, and
its outcome depends only on the lines whose numbers or names its expression mentions.
-/
namespace Reckoner.Document

open Text Number Formula

/-- A label: it is not blank and holds neither a separator nor the beginning of markup. -/
structure Label where
  chars : List Char
  visible : ∃ c ∈ chars, isBlank c = false
  plain : ∀ c ∈ [':', '=', '<'], c ∉ chars

/-- What a line is made of. -/
inductive Entry
  | blank (raw : List Char) (h : classify raw = .blank)
  | assignment (n : Name) (e : Expr)
  | labeled (label : Label) (e : Expr)
  | plain (e : Expr)

namespace Entry

def text : Entry → List Char
  | blank raw _ => raw
  | assignment n e => n.chars ++ ' ' :: '=' :: ' ' :: e.text
  | labeled label e => label.chars ++ ':' :: ' ' :: e.text
  | plain e => '=' :: ' ' :: e.text

def form : Entry → Form
  | blank _ _ => .blank
  | assignment n e => .assignment n.chars e.text
  | labeled label e => .labeled (trim label.chars) e.text
  | plain e => .plain e.text

def expression? : Entry → Option Expr
  | blank _ _ => none
  | assignment _ e | labeled _ e | plain e => some e

theorem form_eq {a : Entry} (h : a.form ≠ .blank) :
    ∃ e, a.expression? = some e ∧ a.form.expression = e.text := by
  cases a with
  | blank raw hraw => exact absurd rfl h
  | assignment n e | labeled label e | plain e => exact ⟨e, rfl, rfl⟩

end Entry

section Classification

theorem onLine_text (e : Expr) : OnLine e.text :=
  ⟨(unseparated_text e).toSolid,
    (plain_textOf e.bracketed.lexemes).not_mem (by decide) (by decide)⟩

theorem Label.unseparated (label : Label) : Unseparated (trim label.chars) := by
  obtain ⟨before, after, hsplit, hbefore, hafter⟩ := exists_around_trim label.chars
  have hplain : ∀ c ∈ [':', '=', '<'], c ∉ trim label.chars := fun c hc hmem =>
    label.plain c hc (hsplit ▸ List.mem_append_left _ (List.mem_append_right _ hmem))
  refine ⟨⟨fun hnil => ?_, trim_trim _, hplain '<' (by decide)⟩, fun c hc => ?_⟩
  · obtain ⟨v, hv, hvisible⟩ := label.visible
    rw [hsplit, hnil, List.append_nil] at hv
    have hblank := (List.mem_append.mp hv).elim (hbefore v) (hafter v)
    exact absurd (hvisible.symm.trans hblank) Bool.false_ne_true
  · unfold isSeparator
    rw [Bool.or_eq_false_iff, beq_eq_false_iff_ne, beq_eq_false_iff_ne]
    constructor
    · rintro rfl
      exact hplain _ (by decide) hc
    · rintro rfl
      exact hplain _ (by decide) hc

/-- What a line is made of is written on it, perhaps with white space in front. -/
theorem Entry.exists_written {a : Entry} (h : a.form ≠ .blank) :
    ∃ before s, a.text = before ++ s ∧ Blanks before ∧ WrittenAs a.form s := by
  have hspace : Blanks [' '] := fun c hc => List.eq_of_mem_singleton hc ▸ (by decide)
  cases a with
  | blank raw hraw => exact absurd rfl h
  | assignment n e =>
    refine ⟨[], n.chars ++ [' '] ++ '=' :: ([' '] ++ e.text), ?_, blanks_nil,
      .assignment n.identifier (onLine_text e) hspace hspace⟩
    simp [Entry.text]
  | labeled label e =>
    obtain ⟨before, after, hsplit, hbefore, hafter⟩ := exists_around_trim label.chars
    refine ⟨before, trim label.chars ++ after ++ ':' :: ([' '] ++ e.text), ?_, hbefore,
      .colon label.unseparated (onLine_text e) hafter hspace⟩
    conv_lhs => rw [Entry.text, hsplit]
    simp
  | plain e =>
    exact ⟨[], '=' :: ([' '] ++ e.text), rfl, blanks_nil, .leading (onLine_text e) hspace⟩

/-- A line is classified as what it was made of. -/
theorem classify_text (a : Entry) : classify a.text = a.form := by
  by_cases hblank : a.form = .blank
  · cases a with
    | blank raw h => exact h
    | _ => exact absurd hblank nofun
  · obtain ⟨before, s, htext, hbefore, hwritten⟩ := a.exists_written hblank
    have htrim := hwritten.trim_eq hbefore blanks_nil
    rw [List.append_nil, ← htext] at htrim
    rw [classify_visible htrim hwritten.solid.visible]
    exact hwritten.first_form

end Classification

section Mentions

variable {s : List Char} {entries : List Entry}

/-- Whether the expression on line `i` mentions line `j`, by its number or by the name that is
assigned on it. Lines are counted from one. -/
inductive Mentions (entries : List Entry) (i j : Nat) : Prop
  | line {a : Entry} {e : Expr} {r : LineReference} : (a, i) ∈ entries.zipIdx 1 →
      a.expression? = some e → Lexeme.line r ∈ e.bracketed.lexemes → digitsValue r.digits = j →
      Mentions entries i j
  | name {a b : Entry} {e : Expr} {n : Name} : (a, i) ∈ entries.zipIdx 1 →
      a.expression? = some e → Lexeme.name n ∈ e.bracketed.lexemes → (b, j) ∈ entries.zipIdx 1 →
      b.form.name? = some n.chars → Mentions entries i j

theorem exists_entry {k : Nat} {line : Line} (h : line ∈ number k (entries.map Entry.text)) :
    ∃ a, (a, line.index) ∈ entries.zipIdx k ∧ line.form = a.form := by
  induction entries generalizing k with
  | nil => exact absurd h List.not_mem_nil
  | cons a entries ih =>
    rcases List.mem_cons.mp h with rfl | h
    · exact ⟨a, List.mem_cons_self, classify_text a⟩
    · obtain ⟨b, hb, hform⟩ := ih h
      exact ⟨b, List.mem_cons_of_mem _ hb, hform⟩

theorem exists_line {k : Nat} {a : Entry} (h : a ∈ entries) :
    ∃ line ∈ number k (entries.map Entry.text), line.form = a.form := by
  induction entries generalizing k with
  | nil => exact absurd h List.not_mem_nil
  | cons b entries ih =>
    rcases List.mem_cons.mp h with rfl | h
    · exact ⟨_, List.mem_cons_self, classify_text a⟩
    · obtain ⟨line, hline, hform⟩ := ih h
      exact ⟨line, List.mem_cons_of_mem _ hline, hform⟩

theorem entry_of_mem (hs : splitLines s = entries.map Entry.text) {line : Line}
    (h : line ∈ ofText s) : ∃ a, (a, line.index) ∈ entries.zipIdx 1 ∧ line.form = a.form := by
  unfold ofText at h
  rw [hs] at h
  exact exists_entry h

theorem exists_line_of_mem (hs : splitLines s = entries.map Entry.text) {a : Entry}
    (h : a ∈ entries) : ∃ line ∈ ofText s, line.form = a.form := by
  unfold ofText
  rw [hs]
  exact exists_line h

/-- The outcome of a line made of an expression depends only on the lines that it mentions. -/
theorem local_of_entries (hs : splitLines s = entries.map Entry.text) (depth : Nat) :
    Local (Mentions entries) depth (ofText s) := by
  intro line hline hform σ τ hσ hτ hsame
  have hidentifiers : ∀ n ∈ declared (ofText s), isIdentifier n = true :=
    fun n hn => isIdentifier_declared hn
  obtain ⟨a, ha, haform⟩ := entry_of_mem hs hline
  obtain ⟨e, he, htext⟩ := Entry.form_eq (haform ▸ hform)
  rw [haform, htext]
  refine evaluate_congr (regular_scope hσ.proper hidentifiers)
    (regular_scope hτ.proper hidentifiers)
    (fun n => (mem_names_scope hσ.proper).trans (mem_names_scope hτ.proper).symm) fun b hb => ?_
  cases b with
  | name n =>
    intro hn
    obtain ⟨m, hm, hname⟩ := mem_declared.mp ((mem_names_scope hσ.proper).mp hn)
    obtain ⟨c, hc, hcform⟩ := entry_of_mem hs hm
    exact (hsame m hm (form_ne_blank hname) (.name ha he hb hc (hcform ▸ hname))).value _ hname
  | line r =>
    change Assoc.get? (σ.scope _).lines (Int.ofNat (digitsValue r.digits)) =
      Assoc.get? (τ.scope _).lines (Int.ofNat (digitsValue r.digits))
    rw [get?_lines, get?_lines]
    rcases index_cases (ofText s) (digitsValue r.digits) with ⟨m, hm, hmform, hindex⟩ | hnone
    · rw [← hindex]
      exact (hsame m hm hmform (.line ha he hb hindex.symm)).result
    · rw [hσ.lines _ hnone, hτ.lines _ hnone]
  | _ => exact trivial

end Mentions

end Reckoner.Document
