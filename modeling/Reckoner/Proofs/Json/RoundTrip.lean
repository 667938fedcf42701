import Reckoner.Proofs.Assoc
import Reckoner.Proofs.Json.Number
import Reckoner.Proofs.Json.Quoted
import Reckoner.Proofs.Text.Framing

/-!
What is written is read back. The text of a value is cut into the tokens of the value, in every
style, and the tokens are put together to the value again. This needs whole numbers that are short
enough, doubles that are finite and distinct keys. Putting the entries of mappings in the order of
their keys keeps all of this. On one line a value is written in plain characters.
-/
namespace Reckoner.Json

open Text Number Data

/-- Values with short whole numbers, distinct keys and doubles that are allowed. -/
inductive Sound (allowed : Float → Prop) : Value → Prop
  | null : Sound allowed .null
  | bool (b : Bool) : Sound allowed (.bool b)
  | int {n : Int} (h : Readable n) : Sound allowed (.int n)
  | float {x : Float} (h : allowed x) : Sound allowed (.float x)
  | text (s : List Char) : Sound allowed (.text s)
  | list {items : List Value} (h : ∀ v ∈ items, Sound allowed v) : Sound allowed (.list items)
  | map {entries : List (List Char × Value)} (hkeys : (Assoc.keys entries).Nodup)
      (h : ∀ e ∈ entries, Sound allowed e.2) : Sound allowed (.map entries)

/-- The values that are read back as they are. -/
abbrev Faithful : Value → Prop := Sound fun x => x.isFinite = true

section Lists

theorem writeItems_eq_map (style : Style) (depth : Nat) (items : List Value) :
    writeItems style depth items = items.map (writeAt style depth) := by
  induction items with
  | nil => rfl
  | cons v rest ih => rw [writeItems, ih, List.map_cons]

theorem writeEntries_eq_map (style : Style) (depth : Nat) (entries : List (List Char × Value)) :
    writeEntries style depth entries =
      entries.map fun e => writeText e.1 ++ ':' :: ' ' :: writeAt style depth e.2 := by
  induction entries with
  | nil => rfl
  | cons e rest ih => rw [writeEntries, ih, List.map_cons]

theorem sortedItems_eq_map (items : List Value) : sortedItems items = items.map sorted := by
  induction items with
  | nil => rfl
  | cons v rest ih => rw [sortedItems, ih, List.map_cons]

theorem sortedEntries_eq_map (entries : List (List Char × Value)) :
    sortedEntries entries = entries.map fun e => (e.1, sorted e.2) := by
  induction entries with
  | nil => rfl
  | cons e rest ih => rw [sortedEntries, ih, List.map_cons]

theorem exists_bracketed_cons (style : Style) (depth : Nat) (opening closing : Char)
    (parts : List (List Char)) :
    ∃ s, bracketed style depth opening closing parts = opening :: s := by
  unfold bracketed
  split <;> exact ⟨_, rfl⟩

end Lists

section Tokens

def separated : List (List Token) → List Token
  | [] => []
  | [part] => part
  | part :: rest => part ++ .comma :: separated rest

mutual

/-- The tokens of a value. -/
def tokensOf : Value → List Token
  | .text s => [.text s]
  | .list items => .openList :: (separated (itemParts items) ++ [.closeList])
  | .map entries => .openMap :: (separated (entryParts entries) ++ [.closeMap])
  | v => [.value v]

def itemParts : List Value → List (List Token)
  | [] => []
  | v :: rest => tokensOf v :: itemParts rest

def entryParts : List (List Char × Value) → List (List Token)
  | [] => []
  | (k, v) :: rest => (.text k :: .colon :: tokensOf v) :: entryParts rest

end

/-- The tokens of an entry of a mapping. -/
def entryTokens (e : List Char × Value) : List Token := .text e.1 :: .colon :: tokensOf e.2

theorem tokensOf_list (items : List Value) :
    tokensOf (.list items) = .openList :: (separated (items.map tokensOf) ++ [.closeList]) := by
  have hparts : itemParts items = items.map tokensOf := by
    induction items with
    | nil => rfl
    | cons v rest ih => rw [itemParts, ih, List.map_cons]
  rw [tokensOf, hparts]

theorem tokensOf_map (entries : List (List Char × Value)) :
    tokensOf (.map entries) =
      .openMap :: (separated (entries.map entryTokens) ++ [.closeMap]) := by
  have hparts : entryParts entries = entries.map entryTokens := by
    induction entries with
    | nil => rfl
    | cons e rest ih =>
      rw [entryParts, ih, List.map_cons]
      rfl
  rw [tokensOf, hparts]

end Tokens

section Cutting

variable {c : Char} {s r : List Char}

theorem tokens_space (hc : isSpace c = true) : tokens (c :: r) = tokens r := by
  rw [tokens, if_pos hc]

theorem tokens_spaces (hs : ∀ c ∈ s, isSpace c = true) : tokens (s ++ r) = tokens r := by
  induction s with
  | nil => rfl
  | cons c s ih =>
    rw [List.cons_append, tokens_space (hs c List.mem_cons_self),
      ih fun d hd => hs d (List.mem_cons_of_mem c hd)]

/-- A token that is found at a character and leaves a given rest. -/
theorem tokens_found {token : Token} (count : Nat) (hc : isSpace c = false)
    (h : tokenAt c s = (token, count)) (hr : s.drop count = r) :
    tokens (c :: s) = token :: tokens r := by
  rw [tokens, if_neg (by rw [hc]; exact Bool.false_ne_true), h, ← hr]

theorem drop_rest : (s ++ r).drop ((s ++ r).length - r.length) = r := by
  rw [List.length_append, Nat.add_sub_cancel, List.drop_left]

theorem tokens_punctuation {token : Token} (hc : isSpace c = false)
    (h : punctuation? c = some token) : tokens (c :: r) = token :: tokens r := by
  refine tokens_found 0 hc ?_ rfl
  unfold tokenAt
  rw [h]

theorem tokens_text (s r : List Char) : tokens (writeText s ++ r) = .text s :: tokens r := by
  unfold writeText
  rw [List.cons_append, List.cons_append, List.append_assoc, List.singleton_append]
  refine tokens_found ((s.flatMap escapeChar ++ '\x22' :: r).length - r.length) (by decide) ?_ ?_
  · unfold tokenAt
    rw [show punctuation? '\x22' = none from rfl]
    dsimp only
    rw [if_pos rfl, readUnits_text]
    dsimp only
    rw [joinUnits_text]
  · rw [← List.singleton_append, ← List.append_assoc, drop_rest]

theorem tokens_null : tokens ("null".toList ++ r) = .value .null :: tokens r :=
  tokens_found 3 (by decide) rfl rfl

theorem tokens_bool (b : Bool) :
    tokens ((if b then "true".toList else "false".toList) ++ r) = .value (.bool b) :: tokens r := by
  cases b with
  | true => exact tokens_found 3 (by decide) rfl rfl
  | false => exact tokens_found 4 (by decide) rfl rfl

/-- How the text of a numeral begins. -/
theorem exists_text_cons {n : Numeral} (hn : n.Proper) (r : List Char) :
    ∃ c s, n.text ++ r = c :: (s ++ r) ∧ (isAsciiDigit c = true ∨
      c = '-' ∧ ∃ d t, s = d :: t ∧ isAsciiDigit d = true) := by
  obtain ⟨d, t, hwhole⟩ := List.exists_cons_of_ne_nil hn.some_digit
  have hd : isAsciiDigit d = true := hn.whole d (by rw [hwhole]; exact List.mem_cons_self)
  obtain ⟨negative, whole, fraction, exponent⟩ := n
  obtain rfl : whole = d :: t := hwhole
  cases negative with
  | true =>
    exact ⟨'-', d :: t ++ Numeral.fractionText fraction ++ Numeral.exponentText exponent, rfl,
      Or.inr ⟨rfl, d, t ++ Numeral.fractionText fraction ++ Numeral.exponentText exponent, rfl,
        hd⟩⟩
  | false =>
    exact ⟨d, t ++ Numeral.fractionText fraction ++ Numeral.exponentText exponent, rfl, Or.inl hd⟩

/-- No other token begins like a numeral. -/
theorem tokenAt_numeral {s : List Char} (hc : isAsciiDigit c = true ∨
      c = '-' ∧ ∃ d t, s = d :: t ∧ isAsciiDigit d = true) :
    isSpace c = false ∧ tokenAt c s = match Numeral.take? (c :: s) with
      | some (n, rest) => (n.token, s.length - rest.length)
      | none => (.illegal, 0) := by
  have hkinds : isSpace c = false ∧ punctuation? c = none ∧ c ≠ '\x22' ∧
      words.find? (fun w => w.1.isPrefixOf (c :: s)) = none := by
    rcases hc with hc | ⟨rfl, d, t, rfl, hd⟩
    · have hne : ∀ e : Char, isAsciiDigit e = false → c ≠ e := by
        rintro e he rfl
        rw [hc] at he
        exact Bool.false_ne_true he.symm
      refine ⟨?_, ?_, hne _ (by decide), ?_⟩
      · unfold isSpace
        simp [hne ' ' (by decide), hne '\t' (by decide), hne '\n' (by decide),
          hne '\r' (by decide)]
      · unfold punctuation?
        simp [hne '[' (by decide), hne ']' (by decide), hne '\x7b' (by decide),
          hne '\x7d' (by decide), hne ',' (by decide), hne ':' (by decide)]
      · simp [words, List.isPrefixOf, (hne 'n' (by decide)).symm, (hne 't' (by decide)).symm,
          (hne 'f' (by decide)).symm, (hne 'N' (by decide)).symm, (hne 'I' (by decide)).symm,
          (hne '-' (by decide)).symm]
    · have hne : 'I' ≠ d := by
        rintro rfl
        exact absurd hd (by decide)
      exact ⟨by decide, by decide, by decide, by simp [words, List.isPrefixOf, hne]⟩
  obtain ⟨hspace, hpunctuation, hquote, hwords⟩ := hkinds
  refine ⟨hspace, ?_⟩
  unfold tokenAt
  rw [hpunctuation]
  dsimp only
  rw [if_neg hquote]
  revert hwords
  generalize words.find? (fun w => w.1.isPrefixOf (c :: s)) = word
  rintro rfl
  rfl

theorem tokens_numeral {n : Numeral} (hn : n.Proper) (hr : EndsNumber r) :
    tokens (n.text ++ r) = n.token :: tokens r := by
  have htake := take?_text hn hr
  obtain ⟨c, s, htext, hc⟩ := exists_text_cons hn r
  have hc' : isAsciiDigit c = true ∨ c = '-' ∧ ∃ d t, s ++ r = d :: t ∧ isAsciiDigit d = true :=
    hc.imp_right fun ⟨hsign, d, t, hs, hd⟩ => ⟨hsign, d, t ++ r, by rw [hs]; rfl, hd⟩
  obtain ⟨hspace, hat⟩ := tokenAt_numeral hc'
  rw [htext] at htake ⊢
  rw [htake] at hat
  exact tokens_found _ hspace hat drop_rest

end Cutting

section Lexing

/-- A text that is cut into tokens where no number goes on after it. -/
def LexedAs (s : List Char) (ts : List Token) : Prop :=
  ∀ r, EndsNumber r → tokens (s ++ r) = ts ++ tokens r

variable {style : Style}

theorem endsNumber_cons {c : Char} {r : List Char}
    (hc : isAsciiDigit c = false ∧ c ≠ '.' ∧ c ≠ 'e' ∧ c ≠ 'E') : EndsNumber (c :: r) := by
  rintro _ ⟨⟩
  exact hc

theorem isSpace_break (style : Style) (depth : Nat) : ∀ c ∈ style.break depth, isSpace c = true := by
  intro c hc
  unfold Style.break at hc
  split at hc
  · exact absurd hc List.not_mem_nil
  · rcases List.mem_cons.mp hc with rfl | hc
    · decide
    · rw [List.eq_of_mem_replicate hc]
      decide

/-- White space between entries, and what comes after it. -/
theorem endsNumber_break (depth : Nat) {c : Char} {r : List Char}
    (hc : isAsciiDigit c = false ∧ c ≠ '.' ∧ c ≠ 'e' ∧ c ≠ 'E') :
    EndsNumber (style.break depth ++ c :: r) := by
  unfold Style.break
  split
  · exact endsNumber_cons hc
  · exact endsNumber_cons (by decide)

theorem exists_comma (style : Style) :
    ∃ s, style.comma = ',' :: s ∧ ∀ c ∈ s, isSpace c = true := by
  unfold Style.comma
  split
  · exact ⟨[' '], rfl, List.forall_mem_singleton.mpr (by decide)⟩
  · exact ⟨[], rfl, by simp⟩

theorem tokens_separator (style : Style) (depth : Nat) (r : List Char) :
    tokens (style.comma ++ style.break depth ++ r) = .comma :: tokens r ∧
      EndsNumber (style.comma ++ style.break depth ++ r) := by
  obtain ⟨blank, hcomma, hblank⟩ := exists_comma style
  rw [hcomma, List.append_assoc, List.cons_append]
  refine ⟨?_, endsNumber_cons (by decide)⟩
  rw [tokens_punctuation (by decide) rfl, tokens_spaces hblank,
    tokens_spaces (isSpace_break style depth)]

/-- Parts with separators between them. -/
theorem tokens_joined {depth : Nat} {parts : List (List Char)} {ts : List (List Token)}
    (h : List.Forall₂ LexedAs parts ts) {r : List Char} (hr : EndsNumber r) :
    tokens (joined (style.comma ++ style.break depth) parts ++ r) = separated ts ++ tokens r := by
  induction h with
  | nil => rfl
  | @cons part t parts ts hpart hparts ih =>
    cases hparts with
    | nil => exact hpart r hr
    | @cons part' t' parts ts hpart' hparts =>
      rw [joined, separated]
      · obtain ⟨hseparator, hends⟩ := tokens_separator style depth
          (joined (style.comma ++ style.break depth) (part' :: parts) ++ r)
        rw [List.append_assoc, List.append_assoc, hpart _ hends, hseparator, ih, List.append_assoc,
          List.cons_append]
      · exact List.cons_ne_nil _ _
      · exact List.cons_ne_nil _ _

/-- Parts between brackets. -/
theorem lexedAs_bracketed {depth : Nat} {opening closing : Char} {start finish : Token}
    (hopening : isSpace opening = false ∧ punctuation? opening = some start)
    (hclosing : isSpace closing = false ∧ punctuation? closing = some finish)
    (hclose : isAsciiDigit closing = false ∧ closing ≠ '.' ∧ closing ≠ 'e' ∧ closing ≠ 'E')
    {parts : List (List Char)} {ts : List (List Token)} (h : List.Forall₂ LexedAs parts ts) :
    LexedAs (bracketed style depth opening closing parts)
      (start :: (separated ts ++ [finish])) := by
  intro r _
  have hend := tokens_punctuation (r := r) hclosing.1 hclosing.2
  cases h with
  | nil =>
    change tokens (opening :: closing :: r) = _
    rw [tokens_punctuation hopening.1 hopening.2, hend]
    rfl
  | @cons part t parts ts hpart hparts =>
    unfold bracketed
    rw [if_neg (by simp), List.cons_append, List.cons_append, List.cons_append, List.cons_append,
      tokens_punctuation hopening.1 hopening.2, List.append_assoc, List.append_assoc,
      List.append_assoc, List.singleton_append, tokens_spaces (isSpace_break style _),
      tokens_joined (.cons hpart hparts) (endsNumber_break depth hclose),
      tokens_spaces (isSpace_break style _), hend, List.cons_append, List.append_assoc,
      List.singleton_append]

/-- A value is cut into its tokens. -/
theorem lexedAs_writeAt (style : Style) {v : Value} (hv : Faithful v) :
    ∀ depth, LexedAs (writeAt style depth v) (tokensOf v) := by
  induction hv with
  | null => exact fun _ r _ => tokens_null
  | bool b =>
    intro _ r _
    cases b with
    | true => exact tokens_bool true
    | false => exact tokens_bool false
  | @int k h =>
    intro _ r hr
    obtain ⟨n, hn, htext, htoken⟩ := exists_decimalInt k
    rw [writeAt, ← htext, tokens_numeral hn hr, htoken h]
    rfl
  | @float x h =>
    intro _ r hr
    obtain ⟨n, hn, htext, htoken⟩ := exists_writeFloat h
    rw [writeAt, ← htext, tokens_numeral hn hr, htoken]
    rfl
  | text s => exact fun _ r _ => tokens_text s r
  | @list items _ ih =>
    intro depth
    rw [writeAt, tokensOf_list, writeItems_eq_map]
    refine lexedAs_bracketed ⟨by decide, rfl⟩ ⟨by decide, rfl⟩ (by decide) ?_
    rw [List.forall₂_map_left_iff, List.forall₂_map_right_iff, List.forall₂_same]
    exact fun v hv => ih v hv (depth + 1)
  | @map entries _ _ ih =>
    intro depth
    rw [writeAt, tokensOf_map, writeEntries_eq_map]
    refine lexedAs_bracketed ⟨by decide, rfl⟩ ⟨by decide, rfl⟩ (by decide) ?_
    rw [List.forall₂_map_left_iff, List.forall₂_map_right_iff, List.forall₂_same]
    intro e he r hr
    rw [List.append_assoc, tokens_text, List.cons_append, List.cons_append,
      tokens_punctuation (by decide) rfl, tokens_space (by decide), ih e he (depth + 1) r hr]
    rfl

end Lexing

section Parsing

variable {stack : List Frame} {ts : List Token}

/-- Tokens that stand for a value wherever one may come. -/
def ParsedAs (part : List Token) (v : Value) : Prop :=
  ∀ stack ts, runTokens (.value stack) (part ++ ts) = runTokens (.after v stack) ts

theorem separated_cons (part : List Token) (parts : List (List Token)) :
    separated (part :: parts) = part ++ parts.flatMap (.comma :: ·) := by
  induction parts generalizing part with
  | nil => rw [separated, List.flatMap_nil, List.append_nil]
  | cons next parts ih =>
    rw [separated, ih, List.flatMap_cons, List.cons_append]
    exact List.cons_ne_nil _ _

theorem runTokens_cons {state next : State} {token : Token} (h : state.next token = .ok next) :
    runTokens state (token :: ts) = runTokens next ts := by
  rw [runTokens, h]

/-- What begins a value does not end a list. -/
theorem runTokens_firstItem (v : Value) (ts : List Token) :
    runTokens (.firstItem stack) (tokensOf v ++ ts) =
      runTokens (.value (.list [] :: stack)) (tokensOf v ++ ts) := by
  cases v <;> rfl

/-- The remaining items of a list. -/
theorem runTokens_items {v : Value} {items : List Value} (done : List Value)
    (h : ∀ w ∈ items, ParsedAs (tokensOf w) w) :
    runTokens (.after v (.list done :: stack))
        ((items.map tokensOf).flatMap (.comma :: ·) ++ .closeList :: ts) =
      runTokens (.after (.list (done ++ v :: items)) stack) ts := by
  induction items generalizing v done with
  | nil => rw [List.map_nil, List.flatMap_nil, List.nil_append, runTokens_cons rfl]
  | cons w items ih =>
    rw [List.map_cons, List.flatMap_cons, List.cons_append, List.cons_append, List.append_assoc,
      runTokens_cons rfl, h w List.mem_cons_self, ih _ fun u hu => h u (List.mem_cons_of_mem w hu),
      List.append_assoc, List.singleton_append]

/-- The remaining entries of a mapping. -/
theorem runTokens_entries {k : List Char} {v : Value} {entries : List (List Char × Value)}
    (done : List (List Char × Value))
    (hkeys : (Assoc.keys (done ++ (k, v) :: entries)).Nodup)
    (h : ∀ e ∈ entries, ParsedAs (tokensOf e.2) e.2) :
    runTokens (.after v (.map done k :: stack))
        ((entries.map entryTokens).flatMap (.comma :: ·) ++ .closeMap :: ts) =
      runTokens (.after (.map (done ++ (k, v) :: entries)) stack) ts := by
  have hnew : k ∉ Assoc.keys done := by
    intro hk
    unfold Assoc.keys at hkeys hk
    rw [List.map_append, List.nodup_append] at hkeys
    exact hkeys.2.2 k hk k List.mem_cons_self rfl
  induction entries generalizing k v done with
  | nil =>
    rw [List.map_nil, List.flatMap_nil, List.nil_append, runTokens_cons rfl, Assoc.set_of_not_mem hnew]
  | cons e entries ih =>
    obtain ⟨l, w⟩ := e
    have happend : done ++ (k, v) :: (l, w) :: entries =
        done ++ [(k, v)] ++ (l, w) :: entries := by
      rw [List.append_assoc, List.singleton_append]
    rw [happend] at hkeys ⊢
    have hnext : l ∉ Assoc.keys (done ++ [(k, v)]) := by
      intro hl
      unfold Assoc.keys at hkeys hl
      rw [List.map_append, List.nodup_append] at hkeys
      exact hkeys.2.2 l hl l List.mem_cons_self rfl
    have hw : ParsedAs (tokensOf w) w := h (l, w) List.mem_cons_self
    rw [List.map_cons, List.flatMap_cons, entryTokens, List.cons_append, List.cons_append,
      List.cons_append, List.cons_append, List.cons_append, List.cons_append, List.append_assoc,
      runTokens_cons rfl, Assoc.set_of_not_mem hnew, runTokens_cons rfl, runTokens_cons rfl, hw]
    exact ih _ hkeys (fun u hu => h u (List.mem_cons_of_mem _ hu)) hnext

/-- The tokens of a value are put together to the value. -/
theorem parsedAs_tokensOf {v : Value} (hv : Faithful v) : ParsedAs (tokensOf v) v := by
  induction hv with
  | null => exact fun _ _ => rfl
  | bool _ => exact fun _ _ => rfl
  | int _ => exact fun _ _ => rfl
  | float _ => exact fun _ _ => rfl
  | text _ => exact fun _ _ => rfl
  | @list items _ ih =>
    intro stack ts
    rw [tokensOf_list, List.cons_append, runTokens_cons rfl, List.append_assoc,
      List.singleton_append]
    cases items with
    | nil => exact runTokens_cons rfl
    | cons v items =>
      rw [List.map_cons, separated_cons, List.append_assoc, runTokens_firstItem,
        ih v List.mem_cons_self]
      exact runTokens_items [] fun w hw => ih w (List.mem_cons_of_mem v hw)
  | @map entries hkeys _ ih =>
    intro stack ts
    rw [tokensOf_map, List.cons_append, runTokens_cons rfl, List.append_assoc,
      List.singleton_append]
    cases entries with
    | nil => exact runTokens_cons rfl
    | cons e entries =>
      obtain ⟨k, v⟩ := e
      have hv : ParsedAs (tokensOf v) v := ih (k, v) List.mem_cons_self
      rw [List.map_cons, separated_cons, List.append_assoc, entryTokens, List.cons_append,
        List.cons_append, runTokens_cons rfl, runTokens_cons rfl, hv]
      exact runTokens_entries [] hkeys fun e he => ih e (List.mem_cons_of_mem _ he)

end Parsing

/-- A value that is written is read back. -/
theorem read_writeAt {v : Value} (hv : Faithful v) (style : Style) (depth : Nat) :
    read (writeAt style depth v) = .ok v := by
  have hlexed := lexedAs_writeAt style hv depth [] (by rintro _ ⟨⟩)
  have hparsed := parsedAs_tokensOf hv [] []
  rw [List.append_nil] at hlexed
  unfold read
  rw [hlexed, show tokens [] = [] by rw [tokens], hparsed]
  rfl

section Plain

theorem isPlain_hexDigit {n : Nat} (h : n < 16) : IsPlain (hexDigit n) := by
  have hall : ∀ k ∈ List.range 16, IsPlain (hexDigit k) := by decide
  exact hall n (List.mem_range.mpr h)

theorem plainText_unitEscape (n : Nat) : PlainText (unitEscape n) := by
  have hdigit : ∀ k, IsPlain (hexDigit (k % 16)) := fun k =>
    isPlain_hexDigit (Nat.mod_lt k (by decide))
  unfold unitEscape
  rw [hexDigits_four]
  simp only [plainText_cons, hdigit]
  exact ⟨by decide, by decide, trivial, trivial, trivial, trivial, nofun⟩

theorem plainText_escapeChar (c : Char) : PlainText (escapeChar c) := by
  unfold escapeChar
  iterate 7
    split
    · decide
  split
  · rename_i hc
    exact plainText_cons.mpr ⟨hc, nofun⟩
  split
  · exact plainText_unitEscape _
  · exact plainText_append.mpr ⟨plainText_unitEscape _, plainText_unitEscape _⟩

theorem plainText_writeText (s : List Char) : PlainText (writeText s) := by
  unfold writeText
  refine plainText_append.mpr ⟨plainText_cons.mpr ⟨by decide, ?_⟩, by decide⟩
  intro c hc
  obtain ⟨d, _, hc⟩ := List.mem_flatMap.mp hc
  exact plainText_escapeChar d c hc

theorem AsciiDigits.plainText {s : List Char} (hs : AsciiDigits s) : PlainText s := by
  intro c hc
  have h := (isAsciiDigit_iff c).mp (hs c hc)
  unfold IsPlain
  omega

theorem Numeral.Proper.plainText {n : Numeral} (hn : n.Proper) : PlainText n.text := by
  have hfraction : PlainText (fractionText n.fraction) := by
    cases h : n.fraction with
    | none => exact nofun
    | some digits => exact plainText_cons.mpr ⟨by decide, (hn.fraction digits h).1.plainText⟩
  have hexponent : PlainText (exponentText n.exponent) := by
    cases h : n.exponent with
    | none => exact nofun
    | some e =>
      obtain ⟨negative, digits⟩ := e
      refine plainText_cons.mpr ⟨by decide, plainText_cons.mpr ⟨?_, (hn.exponent _ h).1.plainText⟩⟩
      cases negative <;> decide
  have hdigits : PlainText (n.whole ++ fractionText n.fraction ++ exponentText n.exponent) :=
    plainText_append.mpr ⟨plainText_append.mpr ⟨hn.whole.plainText, hfraction⟩, hexponent⟩
  unfold text withSign
  split
  · exact plainText_cons.mpr ⟨by decide, hdigits⟩
  · exact hdigits

theorem plainText_joined {separator : List Char} (hseparator : PlainText separator)
    {parts : List (List Char)} (h : ∀ part ∈ parts, PlainText part) :
    PlainText (joined separator parts) := by
  induction parts with
  | nil => exact nofun
  | cons part parts ih =>
    have hpart := h part List.mem_cons_self
    have hrest := ih fun p hp => h p (List.mem_cons_of_mem part hp)
    cases parts with
    | nil => exact hpart
    | cons next parts =>
      rw [joined]
      · exact plainText_append.mpr ⟨plainText_append.mpr ⟨hpart, hseparator⟩, hrest⟩
      · exact List.cons_ne_nil _ _

theorem plainText_bracketed {depth : Nat} {opening closing : Char} (hopening : IsPlain opening)
    (hclosing : IsPlain closing) {parts : List (List Char)} (h : ∀ part ∈ parts, PlainText part) :
    PlainText (bracketed .line depth opening closing parts) := by
  unfold bracketed
  split
  · exact plainText_cons.mpr ⟨hopening, plainText_cons.mpr ⟨hclosing, nofun⟩⟩
  · have hseparator : PlainText [',', ' '] := by decide
    have hjoined := plainText_joined hseparator h
    refine plainText_append.mpr ⟨?_, plainText_cons.mpr ⟨hclosing, nofun⟩⟩
    refine plainText_append.mpr ⟨plainText_append.mpr ⟨plainText_cons.mpr ⟨hopening, nofun⟩, ?_⟩,
      nofun⟩
    exact hjoined

/-- A value on one line is written in plain characters. -/
theorem plainText_writeAt {v : Value} (hv : Faithful v) :
    ∀ depth, PlainText (writeAt .line depth v) := by
  induction hv with
  | null => exact fun _ => (by decide : PlainText "null".toList)
  | bool b =>
    intro _
    cases b with
    | true => exact (by decide : PlainText "true".toList)
    | false => exact (by decide : PlainText "false".toList)
  | @int k _ =>
    intro _
    obtain ⟨n, hn, htext, _⟩ := exists_decimalInt k
    rw [writeAt, ← htext]
    exact hn.plainText
  | float h =>
    intro _
    obtain ⟨n, hn, htext, _⟩ := exists_writeFloat h
    rw [writeAt, ← htext]
    exact hn.plainText
  | text s => exact fun _ => plainText_writeText s
  | list _ ih =>
    intro depth
    rw [writeAt, writeItems_eq_map]
    exact plainText_bracketed (by decide) (by decide)
      (List.forall_mem_map.mpr fun v hv => ih v hv (depth + 1))
  | map _ _ ih =>
    intro depth
    rw [writeAt, writeEntries_eq_map]
    refine plainText_bracketed (by decide) (by decide) (List.forall_mem_map.mpr fun e he => ?_)
    refine plainText_append.mpr ⟨plainText_writeText e.1, plainText_cons.mpr ⟨by decide,
      plainText_cons.mpr ⟨by decide, ih e he (depth + 1)⟩⟩⟩

end Plain

section Sorting

variable {allowed : Float → Prop}

theorem perm_sortByKey {α : Type} (entries : List (List Char × α)) :
    (sortByKey entries).Perm entries := List.mergeSort_perm _ _

theorem keys_sortedEntries (entries : List (List Char × Value)) :
    Assoc.keys (sortedEntries entries) = Assoc.keys entries := by
  unfold Assoc.keys
  rw [sortedEntries_eq_map, List.map_map]
  rfl

/-- Entries in the order of their keys have the same keys, and what the entries were, sorted. -/
theorem get?_sortedEntries {entries : List (List Char × Value)}
    (hkeys : (Assoc.keys entries).Nodup) (k : List Char) :
    Assoc.get? (sortByKey (sortedEntries entries)) k = (Assoc.get? entries k).map sorted := by
  rw [Assoc.get?_perm _ (perm_sortByKey _), sortedEntries_eq_map]
  · clear hkeys
    induction entries with
    | nil => rfl
    | cons e entries ih =>
      obtain ⟨l, v⟩ := e
      rw [List.map_cons, Assoc.get?_cons, Assoc.get?_cons, ih]
      split <;> rfl
  · exact ((perm_sortByKey _).map _).nodup_iff.mpr (by rwa [← keys_sortedEntries] at hkeys)

theorem Sound.sorted {v : Value} (hv : Sound allowed v) : Sound allowed (sorted v) := by
  induction hv with
  | null => exact .null
  | bool b => exact .bool b
  | int h => exact .int h
  | float h => exact .float h
  | text s => exact .text s
  | list _ ih =>
    rw [Json.sorted, sortedItems_eq_map]
    exact .list (List.forall_mem_map.mpr ih)
  | @map entries hkeys _ ih =>
    refine .map ?_ fun e he => ?_
    · exact ((perm_sortByKey _).map _).nodup_iff.mpr (by rwa [← keys_sortedEntries] at hkeys)
    · rw [(perm_sortByKey _).mem_iff, sortedEntries_eq_map] at he
      obtain ⟨e', he', rfl⟩ := List.mem_map.mp he
      exact ih e' he'

end Sorting

end Reckoner.Json
