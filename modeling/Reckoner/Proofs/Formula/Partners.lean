import Reckoner.Proofs.Formula.Depths

/-!
Two scans for parentheses. One keeps the places of the open parentheses on a stack and finds a text
out of balance at one place; the other counts the depth from an opening parenthesis on until it is
closed. The first finds nothing exactly if the second gives each opening parenthesis a partner and
each closing one is the partner of a single opening one. Otherwise a text falls apart at the place
that is reported: before it all is closed that has been opened, or after it.
-/
namespace Reckoner.Formula

open Text Arith

/-- That the second scan goes from one parenthesis to another. -/
def Partner (s : List Char) (i j : Nat) : Prop :=
  s[i]? = some '(' ∧ closingPosition s i = some j

/-- That each parenthesis has its partner, and a closing one only one. -/
structure Partnered (s : List Char) : Prop where
  opening : ∀ i, s[i]? = some '(' → ∃ j, closingPosition s i = some j
  closing : ∀ j, s[j]? = some ')' → ∃! i, Partner s i j

/-- That up to a closing parenthesis more are closed than opened. -/
def Excess (s : List Char) (position : Nat) : Prop :=
  s[position]? = some ')' ∧
    (s.take (position + 1)).count '(' < (s.take (position + 1)).count ')'

/-- That the second scan does not find the end of a parenthesis. -/
def Unclosed (s : List Char) (position : Nat) : Prop :=
  s[position]? = some '(' ∧ closingPosition s position = none

variable {s t front inner rest : List Char} {c : Char} {d e i j n : Nat}

section Places

theorem exists_split_at (h : s[i]? = some c) :
    ∃ front rest, s = front ++ c :: rest ∧ front.length = i := by
  obtain ⟨hi, rfl⟩ := List.getElem?_eq_some_iff.mp h
  refine ⟨s.take i, s.drop (i + 1), ?_, List.length_take_of_le (Nat.le_of_lt hi)⟩
  rw [← List.drop_eq_getElem_cons hi, List.take_append_drop]

theorem getElem?_split (front : List Char) (c : Char) (rest : List Char) :
    (front ++ c :: rest)[front.length]? = some c := by simp

theorem closingPosition_opening (front rest : List Char) :
    closingPosition (front ++ '(' :: rest) front.length =
      (closingFrom 1 1 rest).map (front.length + ·) := by
  unfold closingPosition
  rw [List.drop_left]
  rfl

/-- A parenthesis is closed after a text in which all others are closed. -/
theorem closingFrom_eq_some_iff : closingFrom 1 1 t = some n ↔
    ∃ inner rest, t = inner ++ ')' :: rest ∧ depthThrough 0 inner = some 0 ∧
      n = inner.length + 1 := by
  constructor
  · intro h
    obtain ⟨inner, rest, rfl, rfl⟩ := closing_split h
    exact ⟨inner, rest, rfl, depthThrough_enclosed (d := 0) h, Nat.add_comm 1 _⟩
  · rintro ⟨inner, rest, rfl, hinner, rfl⟩
    exact closing_iff.mpr hinner

/-- A parenthesis is never closed if nothing after it closes more than is open. -/
theorem closingFrom_eq_none_iff : closingFrom 1 1 t = none ↔ ∃ e, depthThrough 0 t = some e := by
  constructor
  · intro h
    by_contra hdepth
    have hnone : depthThrough 0 t = none := Option.eq_none_iff_forall_ne_some.mpr fun e he =>
      hdepth ⟨e, he⟩
    obtain ⟨inner, rest, rfl, hinner⟩ := depthThrough_eq_none_iff.mp hnone
    have hsome := closingFrom_eq_some_iff.mpr ⟨inner, rest, rfl, hinner, rfl⟩
    exact absurd (h.symm.trans hsome) nofun
  · rintro ⟨e, he⟩
    by_contra hclosing
    obtain ⟨n, hn⟩ := Option.ne_none_iff_exists'.mp hclosing
    obtain ⟨inner, rest, rfl, hinner, _⟩ := closingFrom_eq_some_iff.mp hn
    have hnone := depthThrough_eq_none_iff.mpr ⟨inner, rest, rfl, hinner⟩
    exact absurd (hnone.symm.trans he) nofun

theorem partner_iff : Partner s i j ↔ ∃ front inner rest,
    s = front ++ '(' :: (inner ++ ')' :: rest) ∧ depthThrough 0 inner = some 0 ∧
      i = front.length ∧ j = front.length + (inner.length + 1) := by
  constructor
  · rintro ⟨hi, hj⟩
    obtain ⟨front, r, rfl, rfl⟩ := exists_split_at hi
    rw [closingPosition_opening] at hj
    obtain ⟨n, hn, rfl⟩ := Option.map_eq_some_iff.mp hj
    obtain ⟨inner, rest, rfl, hinner, rfl⟩ := closingFrom_eq_some_iff.mp hn
    exact ⟨front, inner, rest, rfl, hinner, rfl, rfl⟩
  · rintro ⟨front, inner, rest, rfl, hinner, rfl, rfl⟩
    refine ⟨getElem?_split front '(' _, ?_⟩
    rw [closingPosition_opening, closingFrom_eq_some_iff.mpr ⟨inner, rest, rfl, hinner, rfl⟩]
    rfl

theorem unclosed_iff : Unclosed s i ↔ ∃ front rest,
    s = front ++ '(' :: rest ∧ (∃ e, depthThrough 0 rest = some e) ∧ i = front.length := by
  constructor
  · rintro ⟨hi, hnone⟩
    obtain ⟨front, rest, rfl, rfl⟩ := exists_split_at hi
    rw [closingPosition_opening, Option.map_eq_none_iff, closingFrom_eq_none_iff] at hnone
    exact ⟨front, rest, rfl, hnone, rfl⟩
  · rintro ⟨front, rest, rfl, hrest, rfl⟩
    refine ⟨getElem?_split front '(' _, ?_⟩
    rw [closingPosition_opening, closingFrom_eq_none_iff.mpr hrest]
    rfl

/-- A parenthesis stays open if nothing after it closes more than is open. -/
theorem depthThrough_ne_closed (h : depthThrough 0 rest = some e) (front : List Char) :
    depthThrough 0 (front ++ '(' :: rest) ≠ some 0 := by
  intro hclosed
  rw [depthThrough_append] at hclosed
  obtain ⟨k, _, hk⟩ := Option.bind_eq_some_iff.mp hclosed
  have hopen := depthThrough_above h (k + 1)
  exact absurd (Option.some.inj (hopen.symm.trans hk)) (by omega)

/-- A later opening parenthesis stands in what follows an earlier one. -/
theorem exists_later_opening {front' : List Char}
    (h : front ++ '(' :: inner = front' ++ '(' :: rest) (hlt : front.length < front'.length) :
    ∃ more, inner = more ++ '(' :: rest := by
  obtain ⟨more, rfl, hmore⟩ | ⟨more, rfl, _⟩ := List.append_eq_append_iff.mp h
  · cases more with
    | nil => simp at hlt
    | cons c more => exact ⟨more, (List.cons.inj hmore).2⟩
  · simp at hlt

/-- Of two opening parentheses the later one does not lead to where the earlier one does. -/
theorem Partner.not_lt {i' : Nat} (h : Partner s i j) (h' : Partner s i' j) : ¬ i < i' := by
  obtain ⟨front, inner, rest, rfl, hinner, rfl, rfl⟩ := partner_iff.mp h
  obtain ⟨front', inner', rest', hsplit, hinner', rfl, hj⟩ := partner_iff.mp h'
  intro hlt
  have hwhole : front ++ '(' :: inner = front' ++ '(' :: inner' := by
    rw [← List.cons_append, ← List.cons_append, ← List.append_assoc, ← List.append_assoc] at hsplit
    refine (List.append_inj hsplit ?_).1
    simp only [List.length_append, List.length_cons]
    omega
  obtain ⟨more, rfl⟩ := exists_later_opening hwhole hlt
  exact depthThrough_ne_closed hinner' more hinner

end Places

section Stack

/-- A text with a depth takes the open parentheses on the stack for its own and leaves others. -/
theorem imbalanceFrom_through (h : depthThrough d t = some e) {opened : List Nat}
    (hopened : opened.length = d) (position : Nat) : ∃ opened' : List Nat, opened'.length = e ∧
      ∀ outer s, imbalanceFrom (opened ++ outer) position (t ++ s) =
        imbalanceFrom (opened' ++ outer) (position + t.length) s := by
  induction t generalizing d opened position with
  | nil => exact ⟨opened, hopened.trans (Option.some.inj h), fun _ _ => rfl⟩
  | cons c r ih =>
    have hlength : position + (c :: r).length = position + 1 + r.length := by
      rw [List.length_cons]
      omega
    rw [hlength]
    by_cases hopen : c = '('
    · subst hopen
      have hpushed : (position :: opened).length = d + 1 := congrArg (· + 1) hopened
      exact ih h hpushed (position + 1)
    by_cases hclose : c = ')'
    · subst hclose
      cases opened with
      | nil =>
        subst hopened
        exact absurd h nofun
      | cons last opened =>
        subst hopened
        exact ih h rfl (position + 1)
    · rw [depthThrough_other ⟨hopen, hclose⟩] at h
      obtain ⟨opened', hlength', hscan⟩ := ih h hopened (position + 1)
      refine ⟨opened', hlength', fun outer s => ?_⟩
      rw [List.cons_append, imbalanceFrom_other hopen hclose, hscan]

/-- A text that closes what it opens leaves the stack as it is. -/
theorem closes_of_depthThrough (h : depthThrough 0 t = some 0) : Closes t := by
  intro opened position s
  obtain ⟨none, hnone, hscan⟩ := imbalanceFrom_through h List.length_nil position
  obtain rfl := List.length_eq_zero_iff.mp hnone
  exact hscan opened s

theorem imbalance_closing (h : depthThrough 0 front = some 0) (rest : List Char) :
    imbalance (front ++ ')' :: rest) = some (.unmatchedClose, front.length) := by
  unfold imbalance
  rw [closes_of_depthThrough h, Nat.zero_add]
  rfl

theorem imbalance_opening (hfront : depthThrough 0 front = some e)
    (hinner : depthThrough 0 inner = some 0) :
    imbalance (front ++ '(' :: inner) = some (.unmatchedOpen, front.length) := by
  obtain ⟨opened, _, hscan⟩ := imbalanceFrom_through hfront List.length_nil 0
  have hend := closes_of_depthThrough hinner (front.length :: opened) (front.length + 1) []
  have hscan := hscan [] ('(' :: inner)
  rw [List.append_nil] at hend
  rw [List.append_nil, List.append_nil, Nat.zero_add, imbalanceFrom_opening, hend] at hscan
  exact hscan

end Stack

section Balance

/-- Where no place closes more than is open, no closing parenthesis exceeds. -/
theorem not_excess (h : depthThrough 0 t = some e) (hfront : s.take (i + 1) <+: t) :
    ¬ Excess s i := by
  rintro ⟨_, hlt⟩
  have hle := (depthThrough_eq_some_iff.mp h).1 _ hfront
  omega

theorem excess_closing (h : depthThrough 0 front = some 0) (rest : List Char) :
    Excess (front ++ ')' :: rest) front.length := by
  have hcount := (depthThrough_eq_some_iff.mp h).2
  have htake : (front ++ ')' :: rest).take (front.length + 1) = front ++ [')'] := by
    rw [List.take_length_add_append]
    rfl
  refine ⟨getElem?_split front ')' rest, ?_⟩
  rw [htake, List.count_append, List.count_append, (count_parens_closing []).1,
    (count_parens_closing []).2]
  simp only [List.count_nil]
  omega

theorem partnered_of_depthThrough (h : depthThrough 0 s = some 0) : Partnered s where
  opening i hi := by
    by_contra hnone
    have hunclosed : Unclosed s i :=
      ⟨hi, Option.eq_none_iff_forall_ne_some.mpr fun j hj => hnone ⟨j, hj⟩⟩
    obtain ⟨front, rest, rfl, ⟨e, he⟩, _⟩ := unclosed_iff.mp hunclosed
    exact depthThrough_ne_closed he front h
  closing j hj := by
    obtain ⟨before, rest, rfl, rfl⟩ := exists_split_at hj
    have hopened : ∃ e, depthThrough 0 before = some (e + 0 + 1) := by
      rw [depthThrough_append] at h
      obtain ⟨k, hk, hclosed⟩ := Option.bind_eq_some_iff.mp h
      cases k with
      | zero => exact absurd hclosed nofun
      | succ e => exact ⟨e, hk⟩
    obtain ⟨e, he⟩ := hopened
    obtain ⟨front, inner, rfl, _, hinner⟩ := exists_open_paren (d := 0) he
    have hpartner : Partner (front ++ '(' :: inner ++ ')' :: rest) front.length
        (front ++ '(' :: inner).length := by
      refine partner_iff.mpr ⟨front, inner, rest, by simp, hinner, rfl, ?_⟩
      rw [List.length_append, List.length_cons]
    exact ⟨front.length, hpartner, fun i' h' =>
      Nat.le_antisymm (Nat.not_lt.mp (hpartner.not_lt h')) (Nat.not_lt.mp (h'.not_lt hpartner))⟩

/-- A closing parenthesis where none is open is nobody's partner. -/
theorem not_partnered_closing (h : depthThrough 0 front = some 0) (rest : List Char) :
    ¬ Partnered (front ++ ')' :: rest) := by
  intro hpartnered
  obtain ⟨i, hi, _⟩ := hpartnered.closing front.length (getElem?_split front ')' rest)
  obtain ⟨front', inner, rest', hsplit, hinner, _, hlength⟩ := partner_iff.mp hi
  rw [← List.cons_append, ← List.append_assoc] at hsplit
  obtain ⟨rfl, _⟩ := List.append_inj hsplit (by simpa using hlength)
  exact depthThrough_ne_closed hinner front' h

theorem not_partnered_of_unclosed (h : Unclosed s i) : ¬ Partnered s := by
  intro hpartnered
  obtain ⟨j, hj⟩ := hpartnered.opening i h.1
  exact absurd (h.2.symm.trans hj) nofun

/-- After a parenthesis that closes none of the text after it all others find their ends. -/
theorem not_unclosed_later (h : depthThrough 0 inner = some 0) (hlt : front.length < j) :
    ¬ Unclosed (front ++ '(' :: inner) j := by
  intro hunclosed
  obtain ⟨front', rest, hsplit, ⟨e, he⟩, rfl⟩ := unclosed_iff.mp hunclosed
  obtain ⟨more, rfl⟩ := exists_later_opening hsplit hlt
  exact depthThrough_ne_closed he more h

/-- The two scans agree. No fault is reported exactly if every opening parenthesis has a partner and
every closing one is the partner of a single opening one. Otherwise the fault is the first closing
parenthesis up to which more are closed than opened, or if there is none, the last opening one
without a partner. -/
theorem checkBalance_partnered (s : List Char) :
    (checkBalance s = .ok () ↔ Partnered s) ∧
    (¬ Partnered s → ∃ problem position,
      checkBalance s = .error ⟨.parse problem position, some s⟩ ∧
      (problem = .unmatchedClose ∧ Excess s position ∧ (∀ i, i < position → ¬ Excess s i) ∨
        problem = .unmatchedOpen ∧ (∀ i, ¬ Excess s i) ∧ Unclosed s position ∧
          ∀ i, position < i → ¬ Unclosed s i)) := by
  have hreport : ∀ {problem position}, imbalance s = some (problem, position) →
      checkBalance s = .error ⟨.parse problem position, some s⟩ := by
    intro problem position h
    unfold checkBalance
    rw [h]
  have hfault : ∀ {problem position}, imbalance s = some (problem, position) → ¬ Partnered s →
      (checkBalance s = .ok () ↔ Partnered s) := fun h hnot =>
    iff_of_false (by rw [hreport h]; exact nofun) hnot
  rcases hdepth : depthThrough 0 s with _ | e
  · -- a parenthesis is closed that is not open
    obtain ⟨front, rest, rfl, hfront⟩ := depthThrough_eq_none_iff.mp hdepth
    have himbalance := imbalance_closing hfront rest
    have hnot := not_partnered_closing hfront rest
    refine ⟨hfault himbalance hnot, fun _ => ⟨_, _, hreport himbalance,
      Or.inl ⟨rfl, excess_closing hfront rest, fun i hi => not_excess hfront ?_⟩⟩⟩
    rw [List.take_append_of_le_length hi]
    exact List.take_prefix _ _
  have hexcess : ∀ i, ¬ Excess s i := fun i => not_excess hdepth (List.take_prefix _ _)
  cases e with
  | zero =>
    have hpartnered := partnered_of_depthThrough hdepth
    have hok : checkBalance s = .ok () := by
      unfold checkBalance
      rw [imbalance_eq_none_iff.mpr hdepth]
    exact ⟨iff_of_true hok hpartnered, absurd hpartnered⟩
  | succ e =>
    -- a parenthesis is open at the end
    obtain ⟨front, inner, rfl, hfront, hinner⟩ := exists_open_paren (d := 0) hdepth
    have himbalance := imbalance_opening hfront hinner
    have hunclosed : Unclosed (front ++ '(' :: inner) front.length :=
      unclosed_iff.mpr ⟨front, inner, rfl, ⟨0, hinner⟩, rfl⟩
    have hnot := not_partnered_of_unclosed hunclosed
    exact ⟨hfault himbalance hnot, fun _ => ⟨_, _, hreport himbalance,
      Or.inr ⟨rfl, hexcess, hunclosed, fun i hi => not_unclosed_later hinner hi⟩⟩⟩

end Balance

end Reckoner.Formula
