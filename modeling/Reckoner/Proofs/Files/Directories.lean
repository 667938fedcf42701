import Reckoner.Files.Tree
import Reckoner.Proofs.Assoc

/-!
Files in directories. Names that lead from directory to directory lead to a place, which making
directories does not move. A file in the directory there is appended to and read at its own names,
and no other entry of the tree changes.
-/
namespace Reckoner.Files

open Text

/-- A name that can be the name of a file. -/
def Usable (n : Name) : Prop := n ≠ above ∧ Tree.isTooLong n = false

instance (n : Name) : Decidable (Usable n) := inferInstanceAs (Decidable (_ ∧ _))

namespace Tree

variable {t t' : Tree} {place q : List Name} {names : List Name}

/-- The directory to which names lead from a place. -/
def follow? (t : Tree) (place : List Name) : List Name → Option (List Name)
  | [] => some place
  | n :: rest =>
    if n = above then follow? t place.dropLast rest
    else if isTooLong n then none
    else match t.entry? (place ++ [n]) with
      | some .directory => follow? t (place ++ [n]) rest
      | _ => none

/-- The directory to which a path leads. -/
def directory? (t : Tree) (p : Path) : Option (List Name) := t.follow? (t.origin p) p.names

/-- The content of the file with the given names, if it is there. -/
def contentAt (t : Tree) (names : List Name) : Utf8.Bytes :=
  match t.entry? names with
  | some (.file content) => content
  | _ => []

/-- One step along names: up, or down into a directory. -/
theorem follow?_cons {n : Name} {rest : List Name} :
    t.follow? place (n :: rest) = some q ↔
      n = above ∧ t.follow? place.dropLast rest = some q ∨
        Usable n ∧ t.entry? (place ++ [n]) = some .directory ∧
          t.follow? (place ++ [n]) rest = some q := by
  unfold Usable
  rw [follow?]
  by_cases hup : n = above
  · simp [hup]
  by_cases hlong : isTooLong n = true
  · simp [hup, hlong]
  rw [if_neg hup, if_neg hlong]
  cases t.entry? (place ++ [n]) with
  | none => simp [hup]
  | some e => cases e <;> simp [hup, hlong]

section Entries

theorem entry?_put {e : Entry} (hnames : names ≠ []) (others : List Name) :
    Tree.entry? (t.put names e) others = if names = others then some e else t.entry? others := by
  unfold entry? put
  dsimp only
  by_cases hothers : others.isEmpty = true
  · have : names ≠ others := fun h => hnames (h.trans (List.isEmpty_iff.mp hothers))
    rw [if_pos hothers, if_pos hothers, if_neg this]
  · rw [if_neg hothers, if_neg hothers, Assoc.get?_set]

theorem append_name_ne_nil (place : List Name) (n : Name) : place ++ [n] ≠ [] :=
  List.append_ne_nil_of_right_ne_nil _ (List.cons_ne_nil _ _)

/-- A tree whose directories are directories of another one, with the same place to start from. -/
structure Extends (t t' : Tree) : Prop where
  here : t'.here = t.here
  directories : ∀ names, t.entry? names = some .directory → t'.entry? names = some .directory

theorem Extends.refl (t : Tree) : t.Extends t := ⟨rfl, fun _ => id⟩

theorem Extends.trans {t'' : Tree} (h : t.Extends t') (h' : t'.Extends t'') : t.Extends t'' :=
  ⟨h'.here.trans h.here, fun names hd => h'.directories names (h.directories names hd)⟩

/-- An entry that takes the place of no directory. -/
theorem extends_put {e : Entry} (hnames : names ≠ []) (h : t.entry? names ≠ some .directory) :
    t.Extends (t.put names e) := by
  refine ⟨rfl, fun others hothers => ?_⟩
  rw [entry?_put hnames, if_neg, hothers]
  rintro rfl
  exact h hothers

theorem Extends.follow? (h : t.Extends t') {names : List Name}
    (hq : t.follow? place names = some q) : t'.follow? place names = some q := by
  induction names generalizing place with
  | nil => exact hq
  | cons n rest ih =>
    rcases follow?_cons.mp hq with ⟨hup, hq⟩ | ⟨hn, hentry, hq⟩
    · exact follow?_cons.mpr (Or.inl ⟨hup, ih hq⟩)
    · exact follow?_cons.mpr (Or.inr ⟨hn, h.directories _ hentry, ih hq⟩)

theorem Extends.directory? (h : t.Extends t') {p : Path} (hq : t.directory? p = some q) :
    t'.directory? p = some q := by
  unfold Tree.directory? origin
  rw [h.here]
  exact h.follow? hq

end Entries

section Making

/-- Directories that are made along names without a problem lead to a place. -/
theorem ensureFrom_spec (t : Tree) (place names : List Name) :
    t.Extends (t.ensureFrom place names).1 ∧
      ((t.ensureFrom place names).2 = none →
        ∃ q, (t.ensureFrom place names).1.follow? place names = some q) := by
  induction names generalizing t place with
  | nil => exact ⟨.refl t, fun _ => ⟨place, rfl⟩⟩
  | cons n rest ih =>
    simp only [follow?_cons]
    unfold ensureFrom
    by_cases hup : n = above
    · rw [if_pos hup]
      obtain ⟨hextends, hfollow⟩ := ih t place.dropLast
      exact ⟨hextends, fun h => (hfollow h).imp fun q hq => Or.inl ⟨hup, hq⟩⟩
    rw [if_neg hup]
    by_cases hlong : isTooLong n = true
    · rw [if_pos hlong]
      exact ⟨.refl t, nofun⟩
    rw [if_neg hlong]
    have hn : Usable n := ⟨hup, Bool.eq_false_iff.mpr hlong⟩
    split
    · rename_i hentry
      obtain ⟨hextends, hfollow⟩ := ih t (place ++ [n])
      exact ⟨hextends, fun h => (hfollow h).imp fun q hq =>
        Or.inr ⟨hn, hextends.directories _ hentry, hq⟩⟩
    · exact ⟨.refl t, nofun⟩
    · rename_i hentry
      have hne := append_name_ne_nil place n
      have hput : t.Extends (t.put (place ++ [n]) .directory) :=
        extends_put hne (by rw [hentry]; exact nofun)
      have hmade : Tree.entry? (t.put (place ++ [n]) .directory) (place ++ [n]) = some .directory :=
        (entry?_put hne _).trans (if_pos rfl)
      obtain ⟨hextends, hfollow⟩ := ih (t.put (place ++ [n]) .directory) (place ++ [n])
      exact ⟨hput.trans hextends, fun h => (hfollow h).imp fun q hq =>
        Or.inr ⟨hn, hextends.directories _ hmade, hq⟩⟩

theorem exists_directory_of_ensureDirectory {p : Path} (h : t.ensureDirectory p = (t', none)) :
    ∃ q, t'.directory? p = some q := by
  obtain ⟨hextends, hfollow⟩ := ensureFrom_spec t (t.origin p) p.names
  unfold ensureDirectory at h
  rw [h] at hextends hfollow
  obtain ⟨q, hq⟩ := hfollow rfl
  refine ⟨q, ?_⟩
  unfold directory? origin
  rwa [hextends.here]

end Making

section Locating

variable {p : Path} {n : Name}

/-- The last of the names is that of an entry in the directory to which the others lead. -/
theorem follow?_append (hn : n ≠ above) (h : t.follow? place (names ++ [n]) = some q) :
    ∃ q', t.follow? place names = some q' ∧ q = q' ++ [n] ∧
      t.entry? (q' ++ [n]) = some .directory := by
  induction names generalizing place with
  | nil =>
    rcases follow?_cons.mp h with ⟨hup, _⟩ | ⟨_, hentry, hq⟩
    · exact absurd hup hn
    · exact ⟨place, rfl, (Option.some.inj hq).symm, hentry⟩
  | cons m names ih =>
    rcases follow?_cons.mp h with ⟨hup, h⟩ | ⟨hm, hentry, h⟩
    · obtain ⟨q', hq', hlast⟩ := ih h
      exact ⟨q', follow?_cons.mpr (Or.inl ⟨hup, hq'⟩), hlast⟩
    · obtain ⟨q', hq', hlast⟩ := ih h
      exact ⟨q', follow?_cons.mpr (Or.inr ⟨hm, hentry, hq'⟩), hlast⟩

theorem exists_parent (hn : n ≠ above) (h : t.directory? (p.child n) = some q) :
    ∃ q', t.directory? p = some q' ∧ q = q' ++ [n] ∧ t.entry? (q' ++ [n]) = some .directory :=
  follow?_append hn h

theorem follow?_child (hn : Usable n) (h : t.follow? place names = some q)
    (hentry : t.entry? (q ++ [n]) = some .directory) :
    t.follow? place (names ++ [n]) = some (q ++ [n]) := by
  induction names generalizing place with
  | nil =>
    obtain rfl : place = q := Option.some.inj h
    exact follow?_cons.mpr (Or.inr ⟨hn, hentry, rfl⟩)
  | cons m names ih =>
    rcases follow?_cons.mp h with ⟨hup, h⟩ | ⟨hm, hdirectory, h⟩
    · exact follow?_cons.mpr (Or.inl ⟨hup, ih h⟩)
    · exact follow?_cons.mpr (Or.inr ⟨hm, hdirectory, ih h⟩)

theorem directory?_child (hn : Usable n) (h : t.directory? p = some q)
    (hentry : t.entry? (q ++ [n]) = some .directory) :
    t.directory? (p.child n) = some (q ++ [n]) := follow?_child hn h hentry

/-- A name in a directory leads to an entry of the directory, unless it is too long. -/
theorem walk_append (hn : n ≠ above) (h : t.follow? place names = some q) :
    t.walk place (names ++ [n]) =
      if isTooLong n then .error .nameTooLong else .ok (q ++ [n]) := by
  induction names generalizing place with
  | nil =>
    obtain rfl : place = q := Option.some.inj h
    rw [List.nil_append, walk, if_neg hn]
    rfl
  | cons m names ih =>
    have hmore : (names ++ [n]).isEmpty ≠ true :=
      fun h => append_name_ne_nil names n (List.isEmpty_iff.mp h)
    rw [List.cons_append, walk]
    rcases follow?_cons.mp h with ⟨hup, h⟩ | ⟨hm, hentry, h⟩
    · rw [if_pos hup, ih h]
    · rw [if_neg hm.1, hm.2, if_neg Bool.false_ne_true, if_neg hmore, hentry]
      exact ih h

theorem locate_child (hn : n ≠ above) (h : t.directory? p = some q) :
    t.locate (p.child n) = if isTooLong n then .error .nameTooLong else .ok (q ++ [n]) :=
  walk_append hn h

/-- Names that lead somewhere lead to an entry of the directory to which all but the last lead. -/
theorem exists_follow?_of_walk (hn : n ≠ above) (h : t.walk place (names ++ [n]) = .ok q) :
    ∃ q', t.follow? place names = some q' ∧ q = q' ++ [n] := by
  induction names generalizing place with
  | nil =>
    rw [List.nil_append, walk, if_neg hn] at h
    split at h
    · exact absurd h nofun
    · exact ⟨place, rfl, (Except.ok.inj h).symm⟩
  | cons m names ih =>
    have hmore : (names ++ [n]).isEmpty ≠ true :=
      fun h => append_name_ne_nil names n (List.isEmpty_iff.mp h)
    rw [List.cons_append, walk] at h
    by_cases hup : m = above
    · rw [if_pos hup] at h
      obtain ⟨q', hq', hlast⟩ := ih h
      exact ⟨q', follow?_cons.mpr (Or.inl ⟨hup, hq'⟩), hlast⟩
    · rw [if_neg hup] at h
      by_cases hlong : isTooLong m = true
      · rw [if_pos hlong] at h
        exact absurd h nofun
      · rw [if_neg hlong, if_neg hmore] at h
        split at h
        · rename_i hentry
          obtain ⟨q', hq', hlast⟩ := ih h
          have hm : Usable m := ⟨hup, Bool.eq_false_iff.mpr hlong⟩
          exact ⟨q', follow?_cons.mpr (Or.inr ⟨hm, hentry, hq'⟩), hlast⟩
        · exact absurd h nofun
        · exact absurd h nofun

theorem exists_directory_of_locate (hn : n ≠ above) (h : t.locate (p.child n) = .ok q) :
    ∃ q', t.directory? p = some q' ∧ q = q' ++ [n] :=
  exists_follow?_of_walk hn h

end Locating

section Content

variable {p : Path} {bytes : Utf8.Bytes}

theorem append_eq (h : t.locate p = .ok names) (hentry : t.entry? names ≠ some .directory)
    (bytes : Utf8.Bytes) :
    t.append p bytes = .ok (t.put names (.file (t.contentAt names ++ bytes))) := by
  unfold append update contentAt
  rw [h]
  cases hfound : t.entry? names with
  | none => simp [bind, Except.bind, hfound, pure, Except.pure]
  | some e =>
    cases e with
    | directory => exact absurd hfound hentry
    | file content => simp [bind, Except.bind, hfound, pure, Except.pure]

theorem append_error {problem : FileProblem} (h : t.locate p = .error problem)
    (bytes : Utf8.Bytes) : t.append p bytes = .error problem := by
  unfold append update
  rw [h]
  rfl

theorem find_eq (h : t.locate p = .ok names) :
    t.find p = match t.entry? names with
      | some e => .ok e
      | none => .error .missing := by
  unfold find
  rw [h]
  rfl

theorem read_eq (h : t.locate p = .ok names) (hentry : t.entry? names = some (.file bytes)) :
    t.has p = .ok true ∧ t.read p = .ok bytes := by
  unfold has read
  rw [find_eq h, hentry]
  exact ⟨rfl, rfl⟩

/-- A file that is read has its place. -/
theorem exists_place (h : t.read p = .ok bytes) :
    ∃ names, t.locate p = .ok names ∧ t.entry? names = some (.file bytes) := by
  unfold read at h
  cases hlocate : t.locate p with
  | error problem =>
    unfold find at h
    rw [hlocate] at h
    exact absurd h nofun
  | ok names =>
    refine ⟨names, rfl, ?_⟩
    rw [find_eq hlocate] at h
    cases hentry : t.entry? names with
    | none =>
      rw [hentry] at h
      exact absurd h nofun
    | some e =>
      rw [hentry] at h
      cases e with
      | directory => exact absurd h nofun
      | file content => rw [Except.ok.inj h]

/-- A file that is read is there. -/
theorem has_of_read (h : t.read p = .ok bytes) : t.has p = .ok true := by
  unfold read at h
  unfold has
  cases hfind : t.find p with
  | error problem =>
    rw [hfind] at h
    exact absurd h nofun
  | ok e => rfl

theorem has_eq_false (h : t.locate p = .ok names) (hentry : t.entry? names = none) :
    t.has p = .ok false := by
  unfold has
  rw [find_eq h, hentry]

theorem entry?_eq_none (h : t.locate p = .ok names) (hp : t.has p ≠ .ok true) :
    t.entry? names = none := by
  unfold has at hp
  rw [find_eq h] at hp
  cases hentry : t.entry? names with
  | none => rfl
  | some e =>
    rw [hentry] at hp
    exact absurd rfl hp

end Content

section Appending

variable {appends : List (List Name × Utf8.Bytes)} {bytes : Utf8.Bytes}

/-- Adds bytes to the file with the given names. -/
def appendAt (t : Tree) (names : List Name) (bytes : Utf8.Bytes) : Tree :=
  t.put names (.file (t.contentAt names ++ bytes))

def appendEach (t : Tree) (appends : List (List Name × Utf8.Bytes)) : Tree :=
  appends.foldl (fun t a => t.appendAt a.1 a.2) t

theorem contentAt_file (h : t.entry? names = some (.file bytes)) : t.contentAt names = bytes := by
  unfold contentAt
  rw [h]

/-- After bytes have been added to files in turn, a file holds the bytes that were added to it; an
entry to which none were added is what it was. -/
theorem entry?_appendEach (hnames : ∀ a ∈ appends, a.1 ≠ []) (names : List Name) :
    Tree.entry? (t.appendEach appends) names =
      if appends.filter (·.1 = names) = [] then t.entry? names
      else some (.file (t.contentAt names ++ (appends.filter (·.1 = names)).flatMap (·.2))) := by
  induction appends generalizing t with
  | nil => rfl
  | cons a appends ih =>
    obtain ⟨others, bytes⟩ := a
    have hput := entry?_put (t := t) (e := .file (t.contentAt others ++ bytes))
      (hnames (others, bytes) List.mem_cons_self) names
    change Tree.entry? ((t.appendAt others bytes).appendEach appends) names = _
    rw [ih fun a ha => hnames a (List.mem_cons_of_mem _ ha)]
    by_cases h : others = names
    · subst h
      rw [if_pos rfl] at hput
      rw [List.filter_cons_of_pos (by simp), if_neg (List.cons_ne_nil _ _), List.flatMap_cons]
      unfold appendAt
      rw [contentAt_file hput, hput, List.append_assoc]
      split
      · rename_i hnone
        rw [hnone, List.flatMap_nil, List.append_nil]
      · rfl
    · rw [if_neg h] at hput
      have hcontent : (t.appendAt others bytes).contentAt names = t.contentAt names := by
        unfold contentAt appendAt
        rw [hput]
      have hentry : Tree.entry? (t.appendAt others bytes) names = t.entry? names := hput
      rw [List.filter_cons_of_neg (by simpa using h), hcontent, hentry]

end Appending

end Tree

end Reckoner.Files
