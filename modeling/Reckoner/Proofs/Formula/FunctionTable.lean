import Mathlib.Data.Char
import Mathlib.Data.List.Forall2
import Mathlib.Data.List.Induction
import Mathlib.Data.List.Lex
import Reckoner.Formula.Function
import Reckoner.Proofs.Assoc

/-!
What a table holds after any registrations. For names of ASCII characters the case of letters makes
no difference: a name leads to the function of the last registration that lists it in any case. The
functions are listed once each, in the order of their names.
-/
namespace Reckoner.Text

/-- The same character, or the same ASCII letter in the other case. -/
inductive SameLetter : Char → Char → Prop
  | same (c : Char) : SameLetter c c
  | lowered {c d : Char} : 65 ≤ c.toNat → c.toNat ≤ 90 → d.toNat = c.toNat + 32 → SameLetter c d
  | raised {c d : Char} : 65 ≤ d.toNat → d.toNat ≤ 90 → c.toNat = d.toNat + 32 → SameLetter c d

/-- Texts that differ at most in the case of their ASCII letters. -/
def SameName : List Char → List Char → Prop := List.Forall₂ SameLetter

def Ascii (s : List Char) : Prop := ∀ c ∈ s, c.toNat < 128

instance (s : List Char) : Decidable (Ascii s) :=
  List.decidableBAll (fun c : Char => c.toNat < 128) s

section Casing

variable {c d : Char} {s t : List Char}

theorem toNat_toLower (c : Char) :
    c.toLower.toNat = if 65 ≤ c.toNat ∧ c.toNat ≤ 90 then c.toNat + 32 else c.toNat := by
  unfold Char.toLower
  by_cases h : c.val ≥ 'A'.val ∧ c.val ≤ 'Z'.val
  · have hlow : 65 ≤ c.toNat := h.1
    have hhigh : c.toNat ≤ 90 := h.2
    rw [dif_pos h, if_pos ⟨hlow, hhigh⟩]
    change (c.val + 32).toNat = c.val.toNat + 32
    have hval : c.val.toNat ≤ 90 := hhigh
    rw [UInt32.toNat_add]
    change (c.val.toNat + 32) % 2 ^ 32 = _
    omega
  · rw [dif_neg h, if_neg]
    exact h

theorem toLower_eq_iff : c.toLower = d.toLower ↔ SameLetter c d := by
  rw [← Char.toNat_inj, toNat_toLower, toNat_toLower]
  constructor
  · intro h
    split at h <;> rename_i hc <;> split at h <;> rename_i hd
    · have heq : c = d := Char.toNat_inj.mp (by omega)
      exact heq ▸ .same c
    · exact .lowered hc.1 hc.2 h.symm
    · exact .raised hd.1 hd.2 h
    · exact Char.toNat_inj.mp h ▸ .same c
  · intro h
    cases h with
    | same => rfl
    | lowered hlow hhigh h => rw [if_pos ⟨hlow, hhigh⟩, if_neg (by omega), h]
    | raised hlow hhigh h => rw [if_neg (by omega), if_pos ⟨hlow, hhigh⟩, h]

theorem map_toLower_eq_iff : s.map Char.toLower = t.map Char.toLower ↔ SameName s t := by
  unfold SameName
  induction s generalizing t with
  | nil => simp
  | cons c s ih =>
    cases t with
    | nil => simp
    | cons d t =>
      rw [List.map_cons, List.map_cons, List.cons.injEq, toLower_eq_iff, ih, List.forall₂_cons]

instance (s t : List Char) : Decidable (SameName s t) :=
  decidable_of_iff _ map_toLower_eq_iff

theorem lowerChar_ascii (h : c.toNat < 128) : lowerChar c = [c.toLower] := by
  unfold lowerChar
  rw [if_pos h]
  congr 1
  rw [← Char.toNat_inj, toNat_toLower]
  by_cases hupper : 65 ≤ c.toNat ∧ c.toNat ≤ 90
  · have hletter : ((decide ('A' ≤ c) && decide (c ≤ 'Z')) = true) := by
      rw [Bool.and_eq_true, decide_eq_true_iff, decide_eq_true_iff]
      exact hupper
    have hvalid : (c.toNat + 32).isValidChar := Or.inl (by omega)
    rw [if_pos hletter, if_pos hupper, Char.ofNat, dif_pos hvalid]
    rfl
  · have hother : ¬ ((decide ('A' ≤ c) && decide (c ≤ 'Z')) = true) := by
      rw [Bool.and_eq_true, decide_eq_true_iff, decide_eq_true_iff]
      exact hupper
    rw [if_neg hother, if_neg hupper]

theorem lower_ascii (h : Ascii s) : lower s = s.map Char.toLower := by
  have hafter : ∀ before, lowerAfter before s = s.map Char.toLower := by
    induction s with
    | nil => exact fun _ => rfl
    | cons c s ih =>
      intro before
      have hc : c.toNat < 128 := h c List.mem_cons_self
      have hsigma : ¬ (c = 'Σ') := by
        rintro rfl
        exact absurd hc (by decide)
      rw [lowerAfter, if_neg (by simp [hsigma]), lowerChar_ascii hc,
        ih fun d hd => h d (List.mem_cons_of_mem c hd)]
      rfl
  exact hafter []

theorem lower_eq_iff (hs : Ascii s) (ht : Ascii t) : lower s = lower t ↔ SameName s t := by
  rw [lower_ascii hs, lower_ascii ht, map_toLower_eq_iff]

theorem lower_lower (h : Ascii s) : lower (lower s) = lower s := by
  have hlow : ∀ c ∈ s, c.toLower.toNat < 128 ∧ c.toLower.toLower = c.toLower := by
    intro c hc
    have hbound : c.toNat < 128 := h c hc
    rw [toLower_eq_iff, toNat_toLower]
    by_cases hupper : 65 ≤ c.toNat ∧ c.toNat ≤ 90
    · rw [if_pos hupper]
      refine ⟨by omega, .raised hupper.1 hupper.2 ?_⟩
      rw [toNat_toLower, if_pos hupper]
    · rw [if_neg hupper]
      have hself : c.toLower = c := Char.toNat_inj.mp (by rw [toNat_toLower, if_neg hupper])
      rw [hself]
      exact ⟨hbound, .same c⟩
  have hascii : Ascii (s.map Char.toLower) :=
    List.forall_mem_map.mpr fun c hc => (hlow c hc).1
  rw [lower_ascii h, lower_ascii hascii, List.map_map]
  exact List.map_congr_left fun c hc => (hlow c hc).2

end Casing

section Order

variable {s t : List Char}

/-- A text is at most another exactly when it does not come after it. -/
theorem atMost_eq_false_iff : atMost t s = false ↔ s < t := by
  induction t generalizing s with
  | nil => simp [atMost]
  | cons d t ih =>
    cases s with
    | nil => simp [atMost]
    | cons c s =>
      rw [atMost, List.cons_lt_cons_iff]
      by_cases h : d = c
      · subst h
        simp [ih]
      · have hne : ¬ c = d := fun heq => h heq.symm
        have hnat : c.toNat ≠ d.toNat := fun heq => hne (Char.toNat_inj.mp heq)
        have hchar : c < d ↔ c.toNat < d.toNat := Iff.rfl
        have hlt : c < d ↔ ¬ d.toNat < c.toNat := by
          rw [hchar]
          omega
        simp [h, hne, hlt]

theorem atMost_iff : atMost s t = true ↔ s ≤ t := by
  rw [← Bool.not_eq_false, atMost_eq_false_iff]
  exact not_lt

/-- Entries with distinct keys are strictly increasing once they are sorted. -/
theorem pairwise_sortByKey {α : Type} {entries : List (List Char × α)}
    (h : (entries.map (·.1)).Nodup) : ((sortByKey entries).map (·.1)).Pairwise (· < ·) := by
  have hsorted : (sortByKey entries).Pairwise fun a b => atMost a.1 b.1 = true := by
    refine List.pairwise_mergeSort (fun a b c hab hbc => ?_) (fun a b => ?_) entries
    · rw [atMost_iff] at hab hbc ⊢
      exact hab.trans hbc
    · rw [Bool.or_eq_true, atMost_iff, atMost_iff]
      exact le_total a.1 b.1
  have hperm : ((sortByKey entries).map (·.1)).Perm (entries.map (·.1)) :=
    (List.mergeSort_perm entries _).map _
  have hdistinct := hperm.nodup_iff.mpr h
  have hle : ((sortByKey entries).map (·.1)).Pairwise (· ≤ ·) :=
    List.pairwise_map.mpr (hsorted.imp fun hab => atMost_iff.mp hab)
  exact (hle.and hdistinct).imp fun hab => lt_of_le_of_ne hab.1 hab.2

end Order

end Reckoner.Text

namespace Reckoner.Formula

open Text

/-- A registration of a function under several names. -/
structure Registration where
  names : List (List Char)
  least : Nat
  most : Option Nat
  description : List Char
  apply : List Float → Except Mishap Float

namespace Registration

/-- The function that a registration gives to a name. -/
def function (r : Registration) (name : List Char) : Function :=
  ⟨name, r.least, r.most, FunctionTable.firstLine r.description, r.apply⟩

/-- Whether a name is among those of a registration, in any case. -/
def Lists (r : Registration) (name : List Char) : Prop := ∃ m ∈ r.names, SameName m name

instance (r : Registration) (name : List Char) : Decidable (r.Lists name) :=
  inferInstanceAs (Decidable (∃ m ∈ r.names, _))

end Registration

namespace FunctionTable

/-- The table after registrations in turn, of which the first finds it empty. -/
def registerAll (rs : List Registration) : FunctionTable :=
  rs.foldl (fun table r => table.register r.names r.least r.most r.description r.apply) []

variable {table : FunctionTable} {rs : List Registration} {r : Registration} {key n : List Char}

/-- One registration replaces the functions of its names and leaves the others. -/
theorem get?_register (table : FunctionTable) (r : Registration) (key : List Char) :
    Assoc.get? (table.register r.names r.least r.most r.description r.apply) key =
      if ∃ m ∈ r.names, lower m = key then some (r.function key) else Assoc.get? table key := by
  unfold register
  induction r.names generalizing table with
  | nil => simp
  | cons m names ih =>
    rw [List.foldl_cons, ih, Assoc.get?_set]
    by_cases hlater : ∃ m ∈ names, lower m = key
    · rw [if_pos hlater, if_pos (hlater.imp fun _ hm => ⟨List.mem_cons_of_mem _ hm.1, hm.2⟩)]
    · rw [if_neg hlater]
      by_cases hfirst : lower m = key
      · rw [if_pos hfirst, if_pos ⟨m, List.mem_cons_self, hfirst⟩, hfirst]
        rfl
      · rw [if_neg hfirst, if_neg]
        rintro ⟨m', hm', hkey⟩
        rcases List.mem_cons.mp hm' with rfl | hm'
        · exact hfirst hkey
        · exact hlater ⟨m', hm', hkey⟩

theorem registerAll_concat (rs : List Registration) (r : Registration) :
    registerAll (rs ++ [r]) =
      (registerAll rs).register r.names r.least r.most r.description r.apply := by
  unfold registerAll
  rw [List.foldl_append]
  rfl

/-- Registrations without a name for a key do not change what it has. -/
theorem get?_registerAll_append {before after : List Registration}
    (h : ∀ r ∈ after, ∀ m ∈ r.names, lower m ≠ key) :
    Assoc.get? (registerAll (before ++ after)) key = Assoc.get? (registerAll before) key := by
  induction after using List.reverseRecOn with
  | nil => rw [List.append_nil]
  | append_singleton after r ih =>
    have hr : ¬ ∃ m ∈ r.names, lower m = key := by
      rintro ⟨m, hm, hkey⟩
      exact h r (List.mem_append_right _ (List.mem_singleton_self r)) m hm hkey
    rw [← List.append_assoc, registerAll_concat, get?_register, if_neg hr]
    exact ih fun q hq => h q (List.mem_append_left _ hq)

/-- A registration that lists a name, after which no registration lists it. -/
def Latest (rs : List Registration) (r : Registration) (name : List Char) : Prop :=
  ∃ before after, rs = before ++ r :: after ∧ r.Lists name ∧ ∀ q ∈ after, ¬ q.Lists name

theorem exists_latest (h : ∃ r ∈ rs, r.Lists n) : ∃ r, Latest rs r n := by
  induction rs using List.reverseRecOn with
  | nil =>
    obtain ⟨r, hr, _⟩ := h
    exact absurd hr List.not_mem_nil
  | append_singleton rs r ih =>
    by_cases hr : r.Lists n
    · exact ⟨r, rs, [], rfl, hr, fun q hq => absurd hq List.not_mem_nil⟩
    · obtain ⟨q, hq, hlists⟩ := h
      have hbefore : q ∈ rs := by
        rcases List.mem_append.mp hq with hq | hq
        · exact hq
        · rw [List.mem_singleton.mp hq] at hlists
          exact absurd hlists hr
      obtain ⟨latest, before, after, rfl, hlatest, hafter⟩ := ih ⟨q, hbefore, hlists⟩
      refine ⟨latest, before, after ++ [r], by simp, hlatest, fun q hq => ?_⟩
      rcases List.mem_append.mp hq with hq | hq
      · exact hafter q hq
      · rw [List.mem_singleton.mp hq]
        exact hr

theorem nodup_register (h : (Assoc.keys table).Nodup) (r : Registration) :
    (Assoc.keys (table.register r.names r.least r.most r.description r.apply)).Nodup := by
  unfold register
  induction r.names generalizing table with
  | nil => exact h
  | cons m names ih => exact ih (Assoc.nodup_set h)

theorem nodup_registerAll (rs : List Registration) : (Assoc.keys (registerAll rs)).Nodup := by
  induction rs using List.reverseRecOn with
  | nil => exact List.nodup_nil
  | append_singleton rs r ih =>
    rw [registerAll_concat]
    exact nodup_register ih r

/-- The keys are the names of the registrations in lower case. -/
theorem mem_keys_registerAll (rs : List Registration) (key : List Char) :
    key ∈ Assoc.keys (registerAll rs) ↔ ∃ r ∈ rs, ∃ m ∈ r.names, lower m = key := by
  induction rs using List.reverseRecOn with
  | nil => simp [registerAll, Assoc.keys]
  | append_singleton rs r ih =>
    rw [← Assoc.isSome_get?, registerAll_concat, get?_register]
    by_cases hr : ∃ m ∈ r.names, lower m = key
    · rw [if_pos hr]
      exact ⟨fun _ => ⟨r, List.mem_append_right _ (List.mem_singleton_self r), hr⟩, fun _ => rfl⟩
    · rw [if_neg hr, Assoc.isSome_get?, ih]
      constructor
      · rintro ⟨q, hq, hkey⟩
        exact ⟨q, List.mem_append_left _ hq, hkey⟩
      · rintro ⟨q, hq, hkey⟩
        rcases List.mem_append.mp hq with hq | hq
        · exact ⟨q, hq, hkey⟩
        · rw [List.mem_singleton.mp hq] at hkey
          exact absurd hkey hr

/-- A function has its key as its name. -/
theorem name_of_get? {f : Function} (h : Assoc.get? (registerAll rs) key = some f) :
    f.name = key := by
  induction rs using List.reverseRecOn with
  | nil => exact absurd h nofun
  | append_singleton rs r ih =>
    rw [registerAll_concat, get?_register] at h
    split at h
    · rw [← Option.some.inj h]
      rfl
    · exact ih h

theorem names_sorted (rs : List Registration) :
    (sorted (registerAll rs)).map Function.name = Assoc.keys (sortByKey (registerAll rs)) := by
  unfold sorted Assoc.keys
  rw [List.map_map]
  refine List.map_congr_left fun e he => ?_
  have hmem : e ∈ registerAll rs := (List.mergeSort_perm _ _).mem_iff.mp he
  exact name_of_get? (Assoc.get?_of_mem (nodup_registerAll rs) hmem)

section Ascii

/-- Registrations under names of ASCII characters. -/
def AsciiNames (rs : List Registration) : Prop := ∀ r ∈ rs, ∀ m ∈ r.names, Ascii m

instance (rs : List Registration) : Decidable (AsciiNames rs) :=
  inferInstanceAs (Decidable (∀ r ∈ rs, _))

variable (hrs : AsciiNames rs) (hn : Ascii n)
include hrs hn

theorem lists_iff (hr : r ∈ rs) : r.Lists n ↔ ∃ m ∈ r.names, lower m = lower n :=
  exists_congr fun m => and_congr_right fun hm => (lower_eq_iff (hrs r hr m hm) hn).symm

theorem find?_latest (h : Latest rs r n) :
    find? (registerAll rs) n = some (r.function (n.map Char.toLower)) := by
  obtain ⟨before, after, rfl, hr, hafter⟩ := h
  have hmem : r ∈ before ++ r :: after := List.mem_append_right _ List.mem_cons_self
  have hlater : ∀ q ∈ after, ∀ m ∈ q.names, lower m ≠ lower n := by
    intro q hq m hm hkey
    have hall : q ∈ before ++ r :: after :=
      List.mem_append_right _ (List.mem_cons_of_mem r hq)
    exact hafter q hq ((lists_iff hrs hn hall).mpr ⟨m, hm, hkey⟩)
  unfold find?
  rw [List.append_cons, get?_registerAll_append hlater, registerAll_concat, get?_register,
    if_pos ((lists_iff hrs hn hmem).mp hr), lower_ascii hn]

theorem find?_unlisted (h : ∀ r ∈ rs, ¬ r.Lists n) : find? (registerAll rs) n = none := by
  have hnone : ∀ r ∈ rs, ∀ m ∈ r.names, lower m ≠ lower n :=
    fun r hr m hm hkey => h r hr ((lists_iff hrs hn hr).mpr ⟨m, hm, hkey⟩)
  change Assoc.get? (registerAll ([] ++ rs)) (lower n) = none
  rw [get?_registerAll_append hnone]
  rfl

/-- A name leads to a function exactly when a registration lists it. -/
theorem find?_eq_some_iff {f : Function} : find? (registerAll rs) n = some f ↔
    ∃ r, Latest rs r n ∧ f = r.function (n.map Char.toLower) := by
  constructor
  · intro h
    by_cases hlisted : ∃ r ∈ rs, r.Lists n
    · obtain ⟨r, hr⟩ := exists_latest hlisted
      rw [find?_latest hrs hn hr] at h
      exact ⟨r, hr, (Option.some.inj h).symm⟩
    · rw [find?_unlisted hrs hn fun r hr hlists => hlisted ⟨r, hr, hlists⟩] at h
      exact absurd h nofun
  · rintro ⟨r, hr, rfl⟩
    exact find?_latest hrs hn hr

omit hn in
/-- A listed function is the one that its own name leads to. -/
theorem find?_of_mem_sorted {f : Function} (h : f ∈ sorted (registerAll rs)) :
    find? (registerAll rs) f.name = some f := by
  unfold sorted at h
  obtain ⟨⟨key, g⟩, he, rfl⟩ := List.mem_map.mp h
  have hmem : (key, g) ∈ registerAll rs := (List.mergeSort_perm _ _).mem_iff.mp he
  have hget := Assoc.get?_of_mem (nodup_registerAll rs) hmem
  have hkey : key ∈ Assoc.keys (registerAll rs) := Assoc.isSome_get?.mp (hget ▸ rfl)
  obtain ⟨r, hr, m, hm, rfl⟩ := (mem_keys_registerAll rs key).mp hkey
  unfold find?
  rw [name_of_get? hget, lower_lower (hrs r hr m hm), hget]

end Ascii

/-- Among ASCII names, in any case, the last registration that lists a name gives its function, and
a name that none lists is unknown. The functions are listed once for each name, in strictly
increasing order. -/
theorem latest_registration_found (rs : List Registration) (hrs : AsciiNames rs) :
    (∀ n, Ascii n →
      (∀ f, find (registerAll rs) n = .ok f ↔
        ∃ r, Latest rs r n ∧ f = r.function (n.map Char.toLower)) ∧
      (find (registerAll rs) n = .error ⟨.unknownFunction n, none⟩ ↔ ∀ r ∈ rs, ¬ r.Lists n) ∧
      (contains (registerAll rs) n = true ↔ ∃ f, find (registerAll rs) n = .ok f)) ∧
    ((sorted (registerAll rs)).map Function.name).Pairwise (· < ·) ∧
    (∀ key, key ∈ (sorted (registerAll rs)).map Function.name ↔
      ∃ r ∈ rs, ∃ m ∈ r.names, key = m.map Char.toLower) ∧
    ∀ f ∈ sorted (registerAll rs), find (registerAll rs) f.name = .ok f := by
  have hfind : ∀ n f, find (registerAll rs) n = .ok f ↔ find? (registerAll rs) n = some f := by
    intro n f
    unfold find
    cases find? (registerAll rs) n with
    | none => simp
    | some g => simp
  refine ⟨fun n hn => ⟨fun f => ?_, ?_, ?_⟩, ?_, fun key => ?_, fun f hf => ?_⟩
  · rw [hfind, find?_eq_some_iff hrs hn]
  · constructor
    · intro h r hr hlists
      obtain ⟨latest, hlatest⟩ := exists_latest ⟨r, hr, hlists⟩
      rw [(hfind n _).mpr (find?_latest hrs hn hlatest)] at h
      exact absurd h nofun
    · intro h
      unfold find
      rw [find?_unlisted hrs hn h]
  · have hcontains : contains (registerAll rs) n = (find? (registerAll rs) n).isSome := rfl
    rw [hcontains, Option.isSome_iff_exists]
    exact exists_congr fun f => (hfind n f).symm
  · rw [names_sorted]
    exact pairwise_sortByKey (nodup_registerAll rs)
  · have hkeys : key ∈ Assoc.keys (sortByKey (registerAll rs)) ↔
        key ∈ Assoc.keys (registerAll rs) := ((List.mergeSort_perm _ _).map _).mem_iff
    rw [names_sorted, hkeys, mem_keys_registerAll]
    refine exists_congr fun r => and_congr_right fun hr => exists_congr fun m =>
      and_congr_right fun hm => ?_
    rw [lower_ascii (hrs r hr m hm), eq_comm]
  · exact (hfind _ _).mpr (find?_of_mem_sorted hrs hf)

/-- A function under three names, of which two differ in case only. -/
def mean : Registration :=
  ⟨["avg".toList, "Average".toList, "AVG".toList], 1, none, "Mean.".toList, fun _ => .ok 0⟩

/-- A function that takes one of the names of `mean` over, written in capitals. -/
def roundedMean : Registration :=
  ⟨["AVERAGE".toList], 2, some 3, "Rounded mean.".toList, fun _ => .ok 1⟩

theorem roundedMean_found :
    AsciiNames [mean, roundedMean] ∧
    find (registerAll [mean, roundedMean]) "aVeRaGe".toList =
      .ok (roundedMean.function "average".toList) ∧
    find (registerAll [mean, roundedMean]) "Avg".toList = .ok (mean.function "avg".toList) ∧
    find (registerAll [mean, roundedMean]) "median".toList =
      .error ⟨.unknownFunction "median".toList, none⟩ := by
  have hascii : AsciiNames [mean, roundedMean] := by decide
  have hfound := (latest_registration_found [mean, roundedMean] hascii).1
  refine ⟨hascii, ?_, ?_, ?_⟩
  · exact ((hfound _ (by decide)).1 _).mpr
      ⟨roundedMean, ⟨[mean], [], rfl, by decide, by decide⟩, rfl⟩
  · exact ((hfound _ (by decide)).1 _).mpr
      ⟨mean, ⟨[], [roundedMean], rfl, by decide, by decide⟩, rfl⟩
  · exact (hfound _ (by decide)).2.1.mpr (by decide)

end FunctionTable

end Reckoner.Formula
