import Mathlib.Data.List.Perm.Subperm
import Mathlib.Logic.Relation
import Reckoner.Yaml.Contents

/-!
The data that the nodes of a document hold. A node holds what its part makes of the data of the
nodes inside it; a node that contains itself may be cut off. Building a node gives such data, also
where parts are shared.
-/
namespace Reckoner.Yaml

namespace Part

/-- The nodes that a part is made of. -/
def inner : Part → List Nat
  | single _ => []
  | list items => items
  | pairs entries => entries.map (·.1) ++ entries.map (·.2)
  | map entries => entries.map (·.2)
  | set _ => []

/-- What a part makes of the data of its nodes. -/
def assembled : Part → List Datum → Datum
  | single d, _ => d
  | list _, data => .list data
  | pairs entries, data =>
    .list (((data.take entries.length).zip (data.drop entries.length)).map fun e =>
      .list [e.1, e.2])
  | map entries, data => .map ((entries.map (·.1)).zip data)
  | set keys, _ => .set keys

end Part

namespace Contents

variable {c : Contents} {n m : Nat} {p : Part} {d : Datum}

/-- Whether the part of a node is made of another node. -/
def Inside (c : Contents) (n m : Nat) : Prop := ∃ p, c.parts[n]?.join = some p ∧ m ∈ p.inner

/-- Whether a node is met on the way into another one. -/
def Contains (c : Contents) : Nat → Nat → Prop := Relation.TransGen c.Inside

/-- The data that a node holds. -/
inductive Holds (c : Contents) : Nat → Datum → Prop
  | missing {n : Nat} (h : c.parts[n]?.join = none) : Holds c n .null
  | loop {n : Nat} {p : Part} (h : c.parts[n]?.join = some p) (hloop : c.Contains n n) :
    Holds c n (.loop p.isMap)
  | whole {n : Nat} {p : Part} {data : List Datum} (h : c.parts[n]?.join = some p)
    (hlength : data.length = p.inner.length) (hdata : ∀ e ∈ p.inner.zip data, Holds c e.1 e.2) :
    Holds c n (p.assembled data)

theorem data_unique {nodes : List Nat} {data data' : List Datum}
    (hlength : data.length = nodes.length) (hlength' : data'.length = nodes.length)
    (h : ∀ e ∈ nodes.zip data, ∀ d', c.Holds e.1 d' → e.2 = d')
    (h' : ∀ e ∈ nodes.zip data', c.Holds e.1 e.2) : data = data' := by
  induction nodes generalizing data data' with
  | nil => rw [List.length_eq_zero_iff.mp hlength, List.length_eq_zero_iff.mp hlength']
  | cons n nodes ih =>
    cases data with
    | nil => exact absurd hlength (Nat.succ_ne_zero _).symm
    | cons d data =>
      cases data' with
      | nil => exact absurd hlength' (Nat.succ_ne_zero _).symm
      | cons d' data' =>
        have hfirst : d = d' := h (n, d) List.mem_cons_self d' (h' (n, d') List.mem_cons_self)
        have hrest : data = data' := ih (Nat.succ.inj hlength) (Nat.succ.inj hlength')
          (fun e he => h e (List.mem_cons_of_mem _ he)) fun e he => h' e (List.mem_cons_of_mem _ he)
        rw [hfirst, hrest]

/-- A node in which nothing contains itself holds one datum. -/
theorem Holds.unique {d' : Datum} (h : c.Holds n d) (h' : c.Holds n d')
    (hn : ∀ m, n = m ∨ c.Contains n m → ¬ c.Contains m m) : d = d' := by
  induction h generalizing d' with
  | missing hnone =>
    cases h' with
    | missing => rfl
    | loop hp => exact absurd (hnone.symm.trans hp) nofun
    | whole hp => exact absurd (hnone.symm.trans hp) nofun
  | loop hp hloop => exact absurd hloop (hn _ (Or.inl rfl))
  | @whole n p data hp hlength hdata ih =>
    cases h' with
    | missing hnone => exact absurd (hnone.symm.trans hp) nofun
    | loop _ hloop => exact absurd hloop (hn _ (Or.inl rfl))
    | @whole _ p' data' hp' hlength' hdata' =>
      obtain rfl := Option.some.inj (hp.symm.trans hp')
      have hinner : ∀ e ∈ p.inner.zip data, ∀ d', c.Holds e.1 d' → e.2 = d' := by
        intro e he d' hd'
        have hinside : c.Inside n e.1 := ⟨p, hp, (List.of_mem_zip he).1⟩
        refine ih e he hd' fun m hm => hn m (Or.inr ?_)
        rcases hm with rfl | hm
        · exact .single hinside
        · exact .head hinside hm
      rw [data_unique hlength hlength' hinner hdata']

/-- A node that stands for a scalar holds nothing else. -/
theorem Holds.of_single {d' : Datum} (h : c.Holds n d') (hp : c.parts[n]?.join = some (.single d)) :
    d' = d := by
  cases h with
  | missing hnone => exact absurd (hnone.symm.trans hp) nofun
  | loop hp' hloop =>
    obtain ⟨m, ⟨q, hq, hmem⟩, -⟩ := Relation.TransGen.head'_iff.mp hloop
    obtain rfl := Option.some.inj (hp.symm.trans hq)
    exact absurd hmem List.not_mem_nil
  | whole hp' =>
    obtain rfl := Option.some.inj (hp.symm.trans hp')
    rfl

section Building

/-- The data so far: nodes on the way to the present one are begun, and what is done is held. -/
structure Sound (c : Contents) (path : List Nat) (a : Assembly) : Prop where
  size : a.size = c.parts.size
  begun : ∀ m, a[m]? = some .begun ↔ m ∈ path
  done : ∀ m d, a[m]? = some (.done d) → c.Holds m d

variable {path : List Nat} {a : Assembly} {fuel : Nat}

/-- Nodes that are begun are no more than the nodes of the document. -/
theorem Sound.length_le (h : c.Sound path a) (hpath : path.Nodup) :
    path.length ≤ c.parts.size := by
  have hlt : ∀ m ∈ path, m < c.parts.size := by
    intro m hm
    rw [← h.size]
    exact (Array.getElem?_eq_some_iff.mp ((h.begun m).mpr hm)).1
  have hrange : path ⊆ List.range c.parts.size := fun m hm => List.mem_range.mpr (hlt m hm)
  have hle := (hpath.subperm hrange).length_le
  rwa [List.length_range] at hle

/-- What a number of steps inwards build, as long as they are enough. -/
def Builds (c : Contents) (fuel : Nat) : Prop :=
  ∀ (n : Nat) (a : Assembly) (path : List Nat), c.Sound path a → path.Nodup →
    (∀ m ∈ path, c.Contains m n) → c.parts.size < fuel + path.length →
      c.Holds n (Part.build c.parts fuel n a).1 ∧ c.Sound path (Part.build c.parts fuel n a).2

theorem Builds.all (h : c.Builds fuel) (ha : c.Sound path a) (hpath : path.Nodup)
    {nodes : List Nat} (hinside : ∀ k ∈ nodes, ∀ m ∈ path, c.Contains m k)
    (hfuel : c.parts.size < fuel + path.length) :
    (Part.buildAll (Part.build c.parts fuel) a nodes).1.length = nodes.length ∧
      (∀ e ∈ nodes.zip (Part.buildAll (Part.build c.parts fuel) a nodes).1, c.Holds e.1 e.2) ∧
      c.Sound path (Part.buildAll (Part.build c.parts fuel) a nodes).2 := by
  induction nodes generalizing a with
  | nil => exact ⟨rfl, fun e he => absurd he List.not_mem_nil, ha⟩
  | cons k rest ih =>
    obtain ⟨hheld, hsound⟩ := h k a path ha hpath (hinside k List.mem_cons_self) hfuel
    obtain ⟨hlength, hrest, hafter⟩ := ih hsound fun k hk => hinside k (List.mem_cons_of_mem _ hk)
    refine ⟨congrArg (· + 1) hlength, fun e he => ?_, hafter⟩
    rcases List.mem_cons.mp he with rfl | he
    · exact hheld
    · exact hrest e he

theorem buildAll_append (build : Nat → Assembly → Datum × Assembly) (a : Assembly)
    (nodes rest : List Nat) : Part.buildAll build a (nodes ++ rest) =
      ((Part.buildAll build a nodes).1 ++
          (Part.buildAll build (Part.buildAll build a nodes).2 rest).1,
        (Part.buildAll build (Part.buildAll build a nodes).2 rest).2) := by
  induction nodes generalizing a with
  | nil => rfl
  | cons n nodes ih => simp only [List.cons_append, Part.buildAll, ih]

theorem length_buildAll (build : Nat → Assembly → Datum × Assembly) (a : Assembly)
    (nodes : List Nat) : (Part.buildAll build a nodes).1.length = nodes.length := by
  induction nodes generalizing a with
  | nil => rfl
  | cons n nodes ih => exact congrArg (· + 1) (ih _)

/-- A part is put together from the data of its nodes, which are built in turn. -/
theorem assemble_eq (build : Nat → Assembly → Datum × Assembly) (a : Assembly) (p : Part) :
    p.assemble build a = (p.assembled (Part.buildAll build a p.inner).1,
      (Part.buildAll build a p.inner).2) := by
  cases p with
  | single d => rfl
  | list items => rfl
  | set keys => rfl
  | map entries => rfl
  | pairs entries =>
    have hlength := length_buildAll build a (entries.map (·.1))
    rw [List.length_map] at hlength
    simp only [Part.assemble, Part.inner, Part.assembled, buildAll_append]
    rw [← hlength, List.take_left, List.drop_left]

theorem getElem?_set {x : Progress} (hn : n < a.size) (m : Nat) :
    (a.setIfInBounds n x)[m]? = if n = m then some x else a[m]? := by
  rw [Array.getElem?_setIfInBounds]
  by_cases heq : n = m
  · subst heq
    simp [hn]
  · rw [if_neg heq, if_neg heq]

theorem Sound.begin (h : c.Sound path a) (hn : n < c.parts.size) :
    c.Sound (n :: path) (a.setIfInBounds n .begun) := by
  have hget := @getElem?_set n a .begun (h.size ▸ hn)
  refine ⟨by rw [Array.size_setIfInBounds, h.size], fun m => ?_, fun m d hd => ?_⟩
  · rw [hget, List.mem_cons]
    by_cases heq : n = m
    · simp [heq]
    · rw [if_neg heq, h.begun]
      exact ⟨Or.inr, fun hm => hm.resolve_left fun hm => heq hm.symm⟩
  · rw [hget] at hd
    split at hd
    · exact absurd hd nofun
    · exact h.done m d hd

theorem Sound.finish (h : c.Sound (n :: path) a) (hn : n ∉ path) (hd : c.Holds n d) :
    c.Sound path (a.setIfInBounds n (.done d)) := by
  have hlt : n < a.size :=
    (Array.getElem?_eq_some_iff.mp ((h.begun n).mpr List.mem_cons_self)).1
  have hget := @getElem?_set n a (.done d) hlt
  refine ⟨by rw [Array.size_setIfInBounds, h.size], fun m => ?_, fun m d' hd' => ?_⟩
  · rw [hget]
    by_cases heq : n = m
    · rw [if_pos heq]
      exact ⟨fun hdone => absurd hdone nofun, fun hm => absurd (heq ▸ hm) hn⟩
    · rw [if_neg heq, h.begun, List.mem_cons]
      exact ⟨fun hm => hm.resolve_left fun hm => heq hm.symm, Or.inr⟩
  · rw [hget] at hd'
    split at hd'
    · rename_i heq
      obtain rfl : d = d' := Progress.done.inj (Option.some.inj hd')
      exact heq ▸ hd
    · exact h.done m d' hd'

theorem lt_size_of_part (h : c.parts[n]?.join = some p) : n < c.parts.size := by
  by_contra hge
  rw [Array.getElem?_eq_none (Nat.le_of_not_lt hge)] at h
  exact absurd h nofun

/-- What a node that has not been met is built of. -/
theorem Builds.untouched (h : c.Builds fuel) (ha : c.Sound path a) (hpath : path.Nodup)
    (hcontains : ∀ m ∈ path, c.Contains m n) (hfuel : c.parts.size < fuel + 1 + path.length)
    (hp : c.parts[n]?.join = some p) (hn : n ∉ path) :
    ∃ data after, p.assemble (Part.build c.parts fuel) (a.setIfInBounds n .begun) =
        (p.assembled data, after) ∧
      data.length = p.inner.length ∧ (∀ e ∈ p.inner.zip data, c.Holds e.1 e.2) ∧
      c.Sound (n :: path) after := by
  have hlt : n < c.parts.size := lt_size_of_part hp
  have hinside : ∀ k ∈ p.inner, ∀ m ∈ n :: path, c.Contains m k := by
    intro k hk m hm
    have hstep : c.Inside n k := ⟨p, hp, hk⟩
    rcases List.mem_cons.mp hm with rfl | hm
    · exact .single hstep
    · exact .tail (hcontains m hm) hstep
  obtain ⟨hlength, hdata, hafter⟩ := h.all (ha.begin hlt) (List.nodup_cons.mpr ⟨hn, hpath⟩) hinside
    (by rw [List.length_cons]; omega)
  exact ⟨_, _, assemble_eq _ _ p, hlength, hdata, hafter⟩

theorem getElem?_of_getD {x : Progress} (h : a[n]?.getD .untouched = x) (hx : x ≠ .untouched) :
    a[n]? = some x := by
  cases ha : a[n]? with
  | none =>
    rw [ha] at h
    exact absurd h.symm hx
  | some y =>
    rw [ha] at h
    exact congrArg some h

/-- However many steps inwards are made, what they build is held, if they are enough. -/
theorem builds (c : Contents) (fuel : Nat) : c.Builds fuel := by
  induction fuel with
  | zero =>
    -- more nodes would be begun than there are
    intro n a path ha hpath _ hfuel
    have := ha.length_le hpath
    omega
  | succ fuel ih =>
    intro n a path ha hpath hcontains hfuel
    rw [Part.build]
    split
    · rename_i hnone
      exact ⟨.missing hnone, ha⟩
    · rename_i d _ hd
      exact ⟨ha.done n d (getElem?_of_getD hd nofun), ha⟩
    · rename_i p hp hbegun
      have hmem : n ∈ path := (ha.begun n).mp (getElem?_of_getD hbegun nofun)
      exact ⟨.loop hp (hcontains n hmem), ha⟩
    · rename_i p hp huntouched
      have hn : n ∉ path := by
        intro hmem
        rw [(ha.begun n).mpr hmem] at huntouched
        exact absurd huntouched nofun
      obtain ⟨data, after, hassemble, hlength, hdata, hafter⟩ :=
        ih.untouched ha hpath hcontains hfuel hp hn
      rw [hassemble]
      have hheld : c.Holds n (p.assembled data) := .whole hp hlength hdata
      exact ⟨hheld, hafter.finish hn hheld⟩

theorem sound_start (c : Contents) :
    c.Sound [] (Array.replicate c.parts.size .untouched) := by
  refine ⟨Array.size_replicate, fun m => ?_, fun m d hd => ?_⟩
  · rw [Array.getElem?_replicate]
    split <;> simp
  · rw [Array.getElem?_replicate] at hd
    split at hd <;> exact absurd hd nofun

/-- The datum of a node is held by it. -/
theorem holds_datumAt (c : Contents) (n : Nat) : c.Holds n (c.datumAt n) :=
  (c.builds (c.parts.size + 1) n _ [] c.sound_start List.nodup_nil
    (fun _ hm => absurd hm List.not_mem_nil) (Nat.lt_succ_self _)).1

/-- The datum of a node is made of data that the nodes inside it hold. -/
theorem datumAt_eq (h : c.parts[n]?.join = some p) :
    ∃ data, c.datumAt n = p.assembled data ∧ data.length = p.inner.length ∧
      ∀ e ∈ p.inner.zip data, c.Holds e.1 e.2 := by
  obtain ⟨data, after, hassemble, hlength, hdata, _⟩ :=
    (c.builds c.parts.size).untouched c.sound_start List.nodup_nil
      (fun _ hm => absurd hm List.not_mem_nil) (Nat.lt_succ_self _) h List.not_mem_nil
  refine ⟨data, ?_, hlength, hdata⟩
  have huntouched : (Array.replicate c.parts.size Progress.untouched)[n]?.getD .untouched =
      .untouched := by
    rw [Array.getElem?_replicate]
    split <;> rfl
  unfold datumAt
  rw [Part.build, h, huntouched]
  dsimp only
  rw [hassemble]

end Building

end Contents

end Reckoner.Yaml
