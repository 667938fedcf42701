import Reckoner.Proofs.Assoc
import Reckoner.Proofs.Except
import Reckoner.Proofs.Yaml.Contents

/-!
The entries of the mappings of a document. What reading a text gives has no equal keys in a mapping,
so the nodes of the entries say which keys the datum of a mapping has and what their values are,
also after a key is taken out of the outermost one.
-/
namespace Reckoner.Yaml

section Keys

variable {κ : Type} {entries : List (Datum × κ)} {key : Key} {k : Datum} {v : κ}

/-- The entries of a mapping by what their keys count as, whatever their values are. -/
def byKey (entries : List (Datum × κ)) : Assoc Key κ :=
  entries.filterMap fun e => e.1.key?.map fun k => (k, e.2)

theorem byKey_cons (k : Datum) (v : κ) (entries : List (Datum × κ)) :
    byKey ((k, v) :: entries) = (k.key?.map fun key => (key, v)).toList ++ byKey entries := by
  unfold byKey
  rw [List.filterMap_cons]
  dsimp only
  cases k.key? <;> rfl

/-- Setting a key that counts as one sets what it counts as. -/
theorem byKey_setKey (hk : k.key? = some key) :
    byKey (Datum.setKey k v entries) = Assoc.set (byKey entries) key v := by
  induction entries with
  | nil =>
    rw [Datum.setKey, byKey_cons, hk]
    rfl
  | cons e entries ih =>
    obtain ⟨k', v'⟩ := e
    rw [Datum.setKey, hk, byKey_cons]
    cases hk' : k'.key? with
    | none =>
      rw [if_neg nofun, byKey_cons, hk', ih]
      rfl
    | some key' =>
      by_cases heq : key' = key
      · rw [if_pos (congrArg some heq), byKey_cons, hk', heq]
        exact (if_pos rfl).symm
      · rw [if_neg fun h => heq (Option.some.inj h), byKey_cons, hk', ih]
        exact (if_neg heq).symm

theorem byKey_setKey_none (hk : k.key? = none) :
    byKey (Datum.setKey k v entries) = byKey entries := by
  induction entries with
  | nil =>
    rw [Datum.setKey, byKey_cons, hk]
    rfl
  | cons e entries ih =>
    obtain ⟨k', v'⟩ := e
    rw [Datum.setKey, hk]
    split
    · rename_i hk'
      rw [byKey_cons, byKey_cons, hk']
      rfl
    · rw [byKey_cons, byKey_cons, ih]

theorem nodup_setKey (h : (Assoc.keys (byKey entries)).Nodup) (k : Datum) (v : κ) :
    (Assoc.keys (byKey (Datum.setKey k v entries))).Nodup := by
  cases hk : k.key? with
  | none => rwa [byKey_setKey_none hk]
  | some key =>
    rw [byKey_setKey hk]
    exact Assoc.nodup_set h

/-- Taking out the entries of a key erases it. -/
theorem byKey_others (entries : List (Datum × κ)) (key : Key) :
    byKey (entries.filter fun e => e.1.key? ≠ some key) = Assoc.erase (byKey entries) key := by
  induction entries with
  | nil => rfl
  | cons e entries ih =>
    obtain ⟨k, v⟩ := e
    have hrest : Assoc.erase (byKey ((k, v) :: entries)) key =
        ((k.key?.map fun key' => (key', v)).toList.filter fun e => e.1 ≠ key) ++
          Assoc.erase (byKey entries) key := by
      rw [byKey_cons, Assoc.erase, List.filter_append, Assoc.erase]
    rw [hrest]
    by_cases hk : k.key? = some key
    · rw [List.filter_cons_of_neg (by simp [hk]), ih, hk]
      simp
    · rw [List.filter_cons_of_pos (by simp [hk]), byKey_cons, ih]
      cases hk' : k.key? with
      | none => rfl
      | some key' =>
        have hne : key' ≠ key := fun heq => hk (hk'.trans (congrArg some heq))
        simp [hne]

/-- The entry of a key that is found first has its value. -/
theorem find?_byKey (entries : List (Datum × κ)) (key : Key) :
    (entries.find? fun e => e.1.key? = some key).map (·.2) = Assoc.get? (byKey entries) key := by
  induction entries with
  | nil => rfl
  | cons e entries ih =>
    obtain ⟨k, v⟩ := e
    rw [List.find?_cons, byKey_cons]
    by_cases hk : k.key? = some key
    · rw [hk]
      simp [Assoc.get?_cons]
    · rw [decide_eq_false hk]
      cases hk' : k.key? with
      | none => exact ih
      | some key' =>
        have hne : key' ≠ key := fun heq => hk (hk'.trans (congrArg some heq))
        exact ih.trans (if_neg hne).symm

end Keys

namespace Part

/-- No two keys of a mapping are equal, and what stands for a scalar is no mapping. -/
def Proper : Part → Prop
  | single d => ∀ entries, d ≠ .map entries
  | map entries => (Assoc.keys (byKey entries)).Nodup
  | _ => True

end Part

section Scalars

variable {kind : Kind} {s : List Char} {d : Datum}

theorem time_ne_map (h : time s = .ok d) (entries : List (Datum × Datum)) : d ≠ .map entries := by
  rintro rfl
  unfold time at h
  split at h
  · exact absurd h nofun
  · split at h
    · exact absurd h nofun
    · exact absurd (Except.ok.inj h) nofun

theorem binary_ne_map (h : binary s = .ok d) (entries : List (Datum × Datum)) :
    d ≠ .map entries := by
  rintro rfl
  unfold binary at h
  split at h
  · split at h
    · exact absurd (Except.ok.inj h) nofun
    · exact absurd h nofun
  · exact absurd h nofun

/-- No text is read as a mapping. -/
theorem scalarDatum_ne_map (h : scalarDatum kind s = .ok d) (entries : List (Datum × Datum)) :
    d ≠ .map entries := by
  unfold scalarDatum at h
  split at h
  case h_2 | h_3 | h_4 =>
    obtain ⟨_, _, rfl⟩ := map_eq_ok h
    exact nofun
  case h_5 => exact time_ne_map h entries
  case h_7 => exact binary_ne_map h entries
  case h_8 => exact absurd h nofun
  all_goals
    obtain rfl := Except.ok.inj h
    exact nofun

end Scalars

namespace Survey

variable {s t : Survey} {n : Nat}

/-- The parts of all nodes looked into so far are proper. -/
def Proper (s : Survey) : Prop := ∀ (n : Nat) (p : Part), s.parts[n]?.join = some p → p.Proper

theorem Proper.setPart {p : Part} (h : s.Proper) (hp : p.Proper) (n : Nat) :
    (s.setPart n p).Proper := by
  intro m q hq
  change (s.parts.setIfInBounds n (some p))[m]?.join = some q at hq
  rw [Array.getElem?_setIfInBounds] at hq
  split at hq
  · split at hq
    · obtain rfl : p = q := Option.some.inj hq
      exact hp
    · exact absurd hq nofun
  · exact h m q hq

theorem proper_start (nodes : Array Node) : (start nodes).Proper := by
  intro n p hp
  change (Array.replicate nodes.size none)[n]?.join = some p at hp
  rw [Array.getElem?_replicate] at hp
  split at hp <;> exact absurd hp nofun

theorem single_ne_map {d : Datum} (h : s.single n = .ok d) (entries : List (Datum × Datum)) :
    d ≠ .map entries := by
  obtain ⟨text, _, h⟩ := bind_eq_ok h
  split at h
  · exact absurd h nofun
  · exact scalarDatum_ne_map h entries

theorem Proper.meet (h : s.Proper) (hmeet : s.meet n = .ok t) : t.Proper := by
  unfold Survey.meet at hmeet
  split at hmeet
  · exact Except.ok.inj hmeet ▸ h
  · dsimp only at hmeet
    split at hmeet
    case h_8 =>
      obtain ⟨d, hsingle, hset⟩ := bind_eq_ok hmeet
      rw [← Except.ok.inj hset]
      refine Proper.setPart h ?_ n
      exact single_ne_map hsingle
    all_goals first
      | exact Except.ok.inj hmeet ▸ h
      | exact absurd hmeet nofun

theorem Proper.meetAll {nodes : List Nat} (h : s.Proper)
    (hmeet : s.meetAll nodes = .ok t) : t.Proper := by
  induction nodes generalizing s with
  | nil => exact Except.ok.inj hmeet ▸ h
  | cons n rest ih =>
    obtain ⟨s', hfirst, hrest⟩ := bind_eq_ok hmeet
    exact ih (h.meet hfirst) hrest

theorem Proper.meetPairs {found entries : List (Nat × Nat)} {nodes : List Nat}
    (h : s.Proper) (hmeet : s.meetPairs found nodes = .ok (entries, t)) : t.Proper := by
  induction nodes generalizing s found with
  | nil => exact (Prod.mk.inj (Except.ok.inj hmeet)).2 ▸ h
  | cons n rest ih =>
    rw [Survey.meetPairs] at hmeet
    split at hmeet
    · obtain ⟨s', hkey, hmeet⟩ := bind_eq_ok hmeet
      obtain ⟨s'', hvalue, hmeet⟩ := bind_eq_ok hmeet
      exact ih ((h.meet hkey).meet hvalue) hmeet
    · exact absurd hmeet nofun

/-- Of two equal keys one is left, so no two are found. -/
theorem Proper.meetEntries {found entries : List (Datum × Nat)} {rest : List (Nat × Nat)}
    (h : s.Proper) (hfound : (Assoc.keys (byKey found)).Nodup)
    (hmeet : s.meetEntries found rest = .ok (entries, t)) :
    (Assoc.keys (byKey entries)).Nodup ∧ t.Proper := by
  induction rest generalizing s found with
  | nil =>
    obtain ⟨rfl, rfl⟩ := Prod.mk.inj (Except.ok.inj hmeet)
    exact ⟨hfound, h⟩
  | cons e rest ih =>
    obtain ⟨k, v⟩ := e
    obtain ⟨s', hkey, hmeet⟩ := bind_eq_ok hmeet
    obtain ⟨key, _, hmeet⟩ := bind_eq_ok hmeet
    obtain ⟨s'', hvalue, hmeet⟩ := bind_eq_ok hmeet
    exact ih ((h.meet hkey).meet hvalue) (nodup_setKey hfound key v) hmeet

theorem Proper.openMapping {entries : List (Datum × Nat)} (h : s.Proper)
    (hopen : s.openMapping n = .ok (entries, t)) :
    (Assoc.keys (byKey entries)).Nodup ∧ t.Proper := by
  unfold Survey.openMapping at hopen
  split at hopen
  · obtain ⟨m, _, hmeet⟩ := bind_eq_ok hopen
    have hnone : (Assoc.keys (byKey ([] : List (Datum × Nat)))).Nodup := List.nodup_nil
    exact Proper.meetEntries (s := { s with toMerging := m }) h hnone hmeet
  · exact absurd hopen nofun

theorem Proper.openNode (h : s.Proper) (hopen : s.openNode n = .ok t) : t.Proper := by
  unfold Survey.openNode at hopen
  split at hopen
  · obtain ⟨s', hmeet, hset⟩ := bind_eq_ok hopen
    rw [← Except.ok.inj hset]
    refine Proper.setPart (h.meetAll hmeet) ?_ n
    trivial
  · obtain ⟨⟨entries, s'⟩, hmeet, hset⟩ := bind_eq_ok hopen
    rw [← Except.ok.inj hset]
    refine Proper.setPart (h.meetPairs hmeet) ?_ n
    trivial
  · obtain ⟨⟨entries, s'⟩, hmeet, hset⟩ := bind_eq_ok hopen
    obtain ⟨hentries, hs'⟩ := h.openMapping hmeet
    rw [← Except.ok.inj hset]
    refine Proper.setPart hs' ?_ n
    exact hentries
  · obtain ⟨⟨entries, s'⟩, hmeet, hset⟩ := bind_eq_ok hopen
    rw [← Except.ok.inj hset]
    refine Proper.setPart (h.openMapping hmeet).2 ?_ n
    trivial
  · exact absurd hopen nofun

theorem Proper.openFrom {fuel i : Nat} (h : s.Proper) (hopen : s.openFrom fuel i = .ok t) :
    t.Proper := by
  induction fuel generalizing s i with
  | zero => exact Except.ok.inj hopen ▸ h
  | succ fuel ih =>
    rw [Survey.openFrom] at hopen
    split at hopen
    · exact Except.ok.inj hopen ▸ h
    · obtain ⟨s', hnode, hrest⟩ := bind_eq_ok hopen
      exact ih (h.openNode hnode) hrest

end Survey

/-- Whether all parts of a document are proper. -/
def Contents.Proper (c : Contents) : Prop :=
  ∀ (n : Nat) (p : Part), c.parts[n]?.join = some p → p.Proper

theorem Contents.proper_of_read {s : List Char} {c : Contents} (h : Yaml.read s = .ok c) :
    c.Proper := by
  intro n p hp
  obtain ⟨tokens, _, h⟩ := bind_eq_ok h
  obtain ⟨g, _, h⟩ := bind_eq_ok h
  cases g with
  | none =>
    obtain rfl := Except.ok.inj h
    cases n with
    | zero =>
      obtain rfl := Option.some.inj hp
      exact nofun
    | succ n => exact absurd hp nofun
  | some g =>
    obtain ⟨s₁, hmeet, h⟩ := bind_eq_ok h
    obtain ⟨s₂, hopen, h⟩ := bind_eq_ok h
    obtain rfl := Except.ok.inj h
    exact (((Survey.proper_start g.nodes).meet hmeet).openFrom hopen) n p hp

namespace Datum

/-- The entries of a datum that is a mapping. -/
def entries : Datum → List (Datum × Datum)
  | map entries => entries
  | _ => []

end Datum

namespace Contents

variable {c : Contents} {entries : List (Datum × Nat)} {data : List Datum} {key : Key} {n : Nat}

/-- The node of the value of a key in a node that is a mapping. -/
def child? (c : Contents) (n : Nat) (key : Key) : Option Nat :=
  match c.parts[n]?.join with
  | some (.map entries) => Assoc.get? (byKey entries) key
  | _ => none

theorem child?_eq (h : c.parts[n]?.join = some (.map entries)) (key : Key) :
    c.child? n key = Assoc.get? (byKey entries) key := by
  unfold child?
  rw [h]

/-- The values of a mapping are what the nodes of its entries hold. -/
theorem rel_values (hlength : data.length = entries.length)
    (hdata : ∀ e ∈ (entries.map (·.2)).zip data, c.Holds e.1 e.2) (key : Key) :
    Option.Rel c.Holds (Assoc.get? (byKey entries) key)
      (Assoc.get? (byKey ((entries.map (·.1)).zip data)) key) := by
  induction entries generalizing data with
  | nil => exact .none
  | cons e entries ih =>
    obtain ⟨k, m⟩ := e
    cases data with
    | nil => exact absurd hlength (Nat.succ_ne_zero _).symm
    | cons d data =>
      have hfirst : c.Holds m d := hdata (m, d) List.mem_cons_self
      have hrest := ih (Nat.succ.inj hlength) fun e he => hdata e (List.mem_cons_of_mem _ he)
      rw [List.map_cons, List.zip_cons_cons, byKey_cons, byKey_cons]
      cases k.key? with
      | none => exact hrest
      | some key' =>
        change Option.Rel _ (Assoc.get? ((key', m) :: byKey entries) key)
          (Assoc.get? ((key', d) :: byKey ((entries.map (·.1)).zip data)) key)
        rw [Assoc.get?_cons, Assoc.get?_cons]
        split
        · exact .some hfirst
        · exact hrest

theorem keys_values (hlength : data.length = entries.length) :
    Assoc.keys (byKey ((entries.map (·.1)).zip data)) = Assoc.keys (byKey entries) := by
  induction entries generalizing data with
  | nil => rfl
  | cons e entries ih =>
    obtain ⟨k, m⟩ := e
    cases data with
    | nil => exact absurd hlength (Nat.succ_ne_zero _).symm
    | cons d data =>
      have hrest := ih (Nat.succ.inj hlength)
      rw [List.map_cons, List.zip_cons_cons, byKey_cons, byKey_cons]
      cases k.key? with
      | none => exact hrest
      | some key' => exact congrArg (key' :: ·) hrest

/-- A node that is no mapping has no entries. -/
theorem entries_datumAt (hproper : c.Proper)
    (h : ∀ entries, c.parts[n]?.join ≠ some (.map entries)) : (c.datumAt n).entries = [] := by
  cases hp : c.parts[n]?.join with
  | none =>
    unfold datumAt
    rw [Part.build, hp]
    rfl
  | some p =>
    obtain ⟨data, hdatum, -⟩ := datumAt_eq hp
    rw [hdatum]
    cases p with
    | single d =>
      have hsingle : ∀ entries, d ≠ .map entries := hproper n _ hp
      cases d with
      | map entries => exact absurd rfl (hsingle entries)
      | _ => rfl
    | map entries => exact absurd hp (h entries)
    | _ => rfl

/-- The datum of a mapping has the keys of its entries, and what their nodes hold. -/
theorem datumAt_map (h : c.parts[n]?.join = some (.map entries)) :
    ∃ data, c.datumAt n = .map ((entries.map (·.1)).zip data) ∧ data.length = entries.length ∧
      ∀ e ∈ (entries.map (·.2)).zip data, c.Holds e.1 e.2 := by
  obtain ⟨data, hdatum, hlength, hdata⟩ := datumAt_eq h
  exact ⟨data, hdatum, hlength.trans (List.length_map _), hdata⟩

/-- A key has a value in the datum of a node exactly if it is an entry there. -/
theorem rel_datumAt (hproper : c.Proper) (n : Nat) (key : Key) :
    Option.Rel c.Holds (c.child? n key)
      (Assoc.get? (Datum.keyed (c.datumAt n).entries) key) := by
  by_cases h : ∃ entries, c.parts[n]?.join = some (.map entries)
  · obtain ⟨entries, h⟩ := h
    obtain ⟨data, hdatum, hlength, hdata⟩ := datumAt_map h
    rw [child?_eq h, hdatum]
    exact rel_values hlength hdata key
  · have hnot : ∀ entries, c.parts[n]?.join ≠ some (.map entries) :=
      fun entries heq => h ⟨entries, heq⟩
    have hnone : c.child? n key = none := by
      unfold child?
      split
      · rename_i entries heq
        exact absurd heq (hnot entries)
      · rfl
    rw [hnone, entries_datumAt hproper hnot]
    exact .none

theorem nodup_datumAt (hproper : c.Proper) (n : Nat) :
    (Assoc.keys (Datum.keyed (c.datumAt n).entries)).Nodup := by
  by_cases h : ∃ entries, c.parts[n]?.join = some (.map entries)
  · obtain ⟨entries, h⟩ := h
    obtain ⟨data, hdatum, hlength, -⟩ := datumAt_map h
    have hkeys : (Assoc.keys (byKey entries)).Nodup := hproper n _ h
    rw [hdatum]
    change (Assoc.keys (byKey ((entries.map (·.1)).zip data))).Nodup
    rwa [keys_values hlength]
  · rw [entries_datumAt hproper fun entries heq => h ⟨entries, heq⟩]
    exact List.nodup_nil

section TakeOut

/-- The document without the entries of a key in its outermost mapping. -/
def without (c : Contents) (taken : Key) (entries : List (Datum × Nat)) : Contents :=
  let others := entries.filter fun e => e.1.key? ≠ some taken
  { c with parts := c.parts.setIfInBounds c.root (some (.map others)) }

theorem takeOut_eq (h : c.parts[c.root]?.join = some (.map entries)) (taken : Key) :
    c.takeOut taken = ((c.child? c.root taken).map (c.without taken entries).datumAt,
      c.without taken entries) := by
  rw [child?_eq h, ← find?_byKey, Option.map_map]
  unfold takeOut
  rw [h]
  rfl

theorem getElem?_without (taken : Key) (h : c.parts[c.root]?.join = some (.map entries))
    (n : Nat) :
    (c.without taken entries).parts[n]?.join =
      if n = c.root then some (.map (entries.filter fun e => e.1.key? ≠ some taken))
      else c.parts[n]?.join := by
  have hlt : c.root < c.parts.size := lt_size_of_part h
  change (c.parts.setIfInBounds c.root _)[n]?.join = _
  rw [Array.getElem?_setIfInBounds]
  by_cases heq : c.root = n
  · rw [if_pos heq, if_pos heq.symm, if_pos (heq ▸ hlt)]
    rfl
  · rw [if_neg heq, if_neg fun h => heq h.symm]

theorem Proper.without (hproper : c.Proper) (taken : Key)
    (h : c.parts[c.root]?.join = some (.map entries)) : (c.without taken entries).Proper := by
  intro n p hp
  rw [getElem?_without taken h] at hp
  split at hp
  · obtain rfl := Option.some.inj hp
    have hkeys : (Assoc.keys (byKey entries)).Nodup := hproper _ _ h
    change (Assoc.keys (byKey (entries.filter fun e => e.1.key? ≠ some taken))).Nodup
    rw [byKey_others]
    exact Assoc.nodup_filter hkeys _
  · exact hproper n p hp

/-- The other keys keep their entries. -/
theorem child?_without {taken : Key} (h : c.parts[c.root]?.join = some (.map entries)) (n : Nat)
    (hkey : key ≠ taken) : (c.without taken entries).child? n key = c.child? n key := by
  by_cases hn : n = c.root
  · subst hn
    have hroot : (c.without taken entries).parts[c.root]?.join =
        some (.map (entries.filter fun e => e.1.key? ≠ some taken)) := by
      rw [getElem?_without taken h, if_pos rfl]
    rw [child?_eq hroot, child?_eq h, byKey_others, Assoc.get?_erase, if_neg hkey]
  · unfold child?
    rw [getElem?_without taken h, if_neg hn]

end TakeOut

end Contents

end Reckoner.Yaml
