import Mathlib.Data.List.Nodup
import Mathlib.Data.Set.Insert

/-!
# Leasing the entries of a stored pool

A pool stores a value behind each of its entries and leases entries to holders, who keep the value or
give the entry back.  As long as only entries are filled that nobody holds, and only with values that
were never used (`Move`), an entry is free or leased once, and no value is kept twice (`Inv.run`).
-/

namespace Electra.Foundations.LeasePool

open Relation

/-- The free entries, the stored values, what each holder has (an entry and the value it read behind
it), the values that were kept, and all values that were ever used. -/
structure Pool (I K H : Type*) where
  free : Set I
  record : I → Option K
  lease : H → Option (I × Option K)
  kept : List K
  used : Set K

variable {I K H : Type*} [DecidableEq I] [DecidableEq H]

namespace Pool

def Leased (p : Pool I K H) (i : I) : Prop := ∃ h value, p.lease h = some (i, value)

/-- Free or leased. -/
def Live (p : Pool I K H) (i : I) : Prop := i ∈ p.free ∨ p.Leased i

def add (p : Pool I K H) (i : I) (k : K) : Pool I K H :=
  { p with free := insert i p.free, record := Function.update p.record i (some k) }

def use (p : Pool I K H) (k : K) : Pool I K H := { p with used := insert k p.used }

def forget (p : Pool I K H) (free : Set I) (record : I → Option K) : Pool I K H :=
  { p with free := free, record := record }

def take (p : Pool I K H) (h : H) (i : I) (value : Option K) : Pool I K H :=
  { p with free := {j | j ∈ p.free ∧ j ≠ i}, lease := Function.update p.lease h (some (i, value)) }

def keep (p : Pool I K H) (h : H) (value : Option K) (record : I → Option K) : Pool I K H :=
  { p with
    record := record
    lease := Function.update p.lease h none
    kept := p.kept ++ value.toList }

def giveBack (p : Pool I K H) (h : H) (i : I) : Pool I K H :=
  { p with free := insert i p.free, lease := Function.update p.lease h none }

end Pool

open Pool

/-- One change of a pool.  Records of entries that are neither free nor leased do not matter. -/
inductive Move : Pool I K H → Pool I K H → Prop
  | add {p i k} (hfree : ¬ p.Leased i) (hnew : k ∉ p.used) : Move p ((p.add i k).use k)
  | use {p k} : Move p (p.use k)
  | forget {p free record} (hfree : free ⊆ p.free)
      (hrecord : ∀ i, i ∈ free ∨ p.Leased i → record i = p.record i) : Move p (p.forget free record)
  | take {p h i value} (hfree : i ∈ p.free) (hnone : p.lease h = none)
      (hvalue : ∀ k ∈ value, p.record i = some k) : Move p (p.take h i value)
  | keep {p h i value record} (hlease : p.lease h = some (i, value))
      (hrecord : ∀ j, j ≠ i → record j = p.record j) : Move p (p.keep h value record)
  | giveBack {p h i value} (hlease : p.lease h = some (i, value)) : Move p (p.giveBack h i)

/-- An entry is free or leased to one holder, who read the value stored behind it. -/
structure Leases (p : Pool I K H) : Prop where
  apart : ∀ h i value, p.lease h = some (i, value) → i ∉ p.free
  once : ∀ h h' i value value', p.lease h = some (i, value) → p.lease h' = some (i, value') → h = h'
  read : ∀ h i k, p.lease h = some (i, some k) → p.record i = some k

/-- Different entries that are free or leased have different values, which nobody has kept. -/
structure Values (p : Pool I K H) : Prop where
  stored : ∀ i, p.Live i → ∃ k, p.record i = some k
  distinct : ∀ i j k, p.Live i → p.Live j → p.record i = some k → p.record j = some k → i = j
  used : ∀ i k, p.Live i → p.record i = some k → k ∈ p.used
  unkept : ∀ i k, p.Live i → p.record i = some k → k ∉ p.kept
  keptUsed : ∀ k ∈ p.kept, k ∈ p.used
  nodup : p.kept.Nodup

structure Inv (p : Pool I K H) : Prop extends Leases p, Values p

variable {p q : Pool I K H} {h : H} {i : I} {k : K} {value : Option K} {free : Set I}
  {record : I → Option K}

omit [DecidableEq H] in
@[simp]
theorem record_add : ((p.add i k).use k).record = Function.update p.record i (some k) := rfl

omit [DecidableEq I] in
@[simp]
theorem lease_take : (p.take h i value).lease = Function.update p.lease h (some (i, value)) := rfl

omit [DecidableEq I] [DecidableEq H] in
/-- Values survive where fewer entries are live and their records are as before. -/
theorem Values.restrict (hp : Values p) (hlive : ∀ i, q.Live i → p.Live i)
    (hrecord : ∀ i, q.Live i → q.record i = p.record i) (hkept : q.kept = p.kept)
    (hused : p.used ⊆ q.used) : Values q where
  stored i hi := by
    rw [hrecord i hi]
    exact hp.stored i (hlive i hi)
  distinct i j k hi hj hik hjk := by
    rw [hrecord i hi] at hik
    rw [hrecord j hj] at hjk
    exact hp.distinct i j k (hlive i hi) (hlive j hj) hik hjk
  used i k hi hik := by
    rw [hrecord i hi] at hik
    exact hused (hp.used i k (hlive i hi) hik)
  unkept i k hi hik := by
    rw [hrecord i hi] at hik
    rw [hkept]
    exact hp.unkept i k (hlive i hi) hik
  keptUsed k hk := by
    rw [hkept] at hk
    exact hused (hp.keptUsed k hk)
  nodup := by
    rw [hkept]
    exact hp.nodup

omit [DecidableEq H] in
/-- A new value may be stored behind any entry. -/
theorem Values.add (hp : Values p) (hnew : k ∉ p.used) : Values ((p.add i k).use k) := by
  have hlive : ∀ j, ((p.add i k).use k).Live j → j ≠ i → p.Live j :=
    fun j hj hne ↦ hj.imp (fun hfree ↦ hfree.resolve_left hne) id
  have hold : ∀ {j k'}, ((p.add i k).use k).Live j → j ≠ i →
      ((p.add i k).use k).record j = some k' → p.record j = some k' := by
    intro j k' _ hne hrecord
    rwa [record_add, Function.update_of_ne hne] at hrecord
  have hsame : ∀ {k'}, ((p.add i k).use k).record i = some k' → k' = k := by
    intro k' hrecord
    rw [record_add, Function.update_self, Option.some.injEq] at hrecord
    exact hrecord.symm
  refine ⟨fun j hj ↦ ?_, fun j j' k' hj hj' hjk hjk' ↦ ?_, fun j k' hj hjk ↦ ?_,
    fun j k' hj hjk ↦ ?_, fun k' hk' ↦ .inr (hp.keptUsed k' hk'), hp.nodup⟩
  · by_cases hne : j = i
    · subst hne
      exact ⟨k, Function.update_self _ _ _⟩
    · obtain ⟨k', hk'⟩ := hp.stored j (hlive j hj hne)
      exact ⟨k', (Function.update_of_ne hne _ _).trans hk'⟩
  · by_cases hne : j = i <;> by_cases hne' : j' = i
    · rw [hne, hne']
    · rw [hne] at hjk
      rw [hsame hjk] at hjk'
      exact absurd (hp.used j' k (hlive j' hj' hne') (hold hj' hne' hjk')) hnew
    · rw [hne'] at hjk'
      rw [hsame hjk'] at hjk
      exact absurd (hp.used j k (hlive j hj hne) (hold hj hne hjk)) hnew
    · exact hp.distinct j j' k' (hlive j hj hne) (hlive j' hj' hne') (hold hj hne hjk)
        (hold hj' hne' hjk')
  · by_cases hne : j = i
    · rw [hne] at hjk
      exact .inl (hsame hjk)
    · exact .inr (hp.used j k' (hlive j hj hne) (hold hj hne hjk))
  · by_cases hne : j = i
    · rw [hne] at hjk
      rw [hsame hjk]
      exact fun hkept ↦ hnew (hp.keptUsed k hkept)
    · exact hp.unkept j k' (hlive j hj hne) (hold hj hne hjk)

omit [DecidableEq H] in
theorem Inv.add (hp : Inv p) (hfree : ¬ p.Leased i) (hnew : k ∉ p.used) :
    Inv ((p.add i k).use k) := by
  refine ⟨⟨?_, hp.once, ?_⟩, hp.toValues.add hnew⟩
  · rintro h j value hlease (rfl | hj)
    · exact hfree ⟨h, value, hlease⟩
    · exact hp.apart h j value hlease hj
  · intro h j k' hlease
    have hne : j ≠ i := by
      rintro rfl
      exact hfree ⟨h, some k', hlease⟩
    exact (Function.update_of_ne hne _ _).trans (hp.read h j k' hlease)

omit [DecidableEq I] [DecidableEq H] in
theorem Inv.use (hp : Inv p) : Inv (p.use k) where
  toLeases := ⟨hp.apart, hp.once, hp.read⟩
  toValues := hp.toValues.restrict (fun _ hi ↦ hi) (fun _ _ ↦ rfl) rfl (Set.subset_insert k p.used)

omit [DecidableEq I] [DecidableEq H] in
theorem Inv.forget (hp : Inv p) (hfree : free ⊆ p.free)
    (hrecord : ∀ i, i ∈ free ∨ p.Leased i → record i = p.record i) : Inv (p.forget free record) where
  apart h i value hlease hi := hp.apart h i value hlease (hfree hi)
  once := hp.once
  read h i k hlease := (hrecord i (.inr ⟨h, some k, hlease⟩)).trans (hp.read h i k hlease)
  toValues := hp.toValues.restrict (fun _ hi ↦ hi.imp (fun h ↦ hfree h) id) hrecord rfl subset_rfl

omit [DecidableEq I] in
/-- The leases after one more of them. -/
theorem lease_of_take {h' : H} {j : I} {value' : Option K}
    (hlease : (p.take h i value).lease h' = some (j, value')) :
    h' = h ∧ j = i ∧ value' = value ∨ h' ≠ h ∧ p.lease h' = some (j, value') := by
  by_cases hh : h' = h
  · rw [hh, lease_take, Function.update_self, Option.some.injEq, Prod.mk.injEq] at hlease
    exact .inl ⟨hh, hlease.1.symm, hlease.2.symm⟩
  · rw [lease_take, Function.update_of_ne hh] at hlease
    exact .inr ⟨hh, hlease⟩

omit [DecidableEq I] in
theorem Inv.take (hp : Inv p) (hfree : i ∈ p.free) (hvalue : ∀ k ∈ value, p.record i = some k) :
    Inv (p.take h i value) := by
  refine ⟨⟨?_, ?_, ?_⟩, hp.toValues.restrict ?_ (fun _ _ ↦ rfl) rfl subset_rfl⟩
  · rintro h' j value' hlease ⟨hj, hne⟩
    obtain ⟨-, hji, -⟩ | ⟨-, hold⟩ := lease_of_take hlease
    · exact hne hji
    · exact hp.apart h' j value' hold hj
  · intro h₁ h₂ j value₁ value₂ hlease₁ hlease₂
    obtain ⟨hh₁, hj₁, -⟩ | ⟨-, hold₁⟩ := lease_of_take hlease₁ <;>
      obtain ⟨hh₂, hj₂, -⟩ | ⟨-, hold₂⟩ := lease_of_take hlease₂
    · rw [hh₁, hh₂]
    · rw [hj₁] at hold₂
      exact absurd hfree (hp.apart h₂ i value₂ hold₂)
    · rw [hj₂] at hold₁
      exact absurd hfree (hp.apart h₁ i value₁ hold₁)
    · exact hp.once h₁ h₂ j value₁ value₂ hold₁ hold₂
  · intro h' j k hlease
    obtain ⟨-, hj, hv⟩ | ⟨-, hold⟩ := lease_of_take hlease
    · rw [hj]
      exact hvalue k hv.symm
    · exact hp.read h' j k hold
  · rintro j (⟨hj, -⟩ | ⟨h', value', hlease⟩)
    · exact .inl hj
    · obtain ⟨-, hj, -⟩ | ⟨-, hold⟩ := lease_of_take hlease
      · rw [hj]
        exact .inl hfree
      · exact .inr ⟨h', value', hold⟩

omit [DecidableEq I] in
/-- The leases after one of them has ended. -/
theorem lease_end {h' : H} {x : I × Option K}
    (hlease : Function.update p.lease h none h' = some x) : h' ≠ h ∧ p.lease h' = some x := by
  by_cases hh : h' = h
  · rw [hh, Function.update_self] at hlease
    cases hlease
  · rw [Function.update_of_ne hh] at hlease
    exact ⟨hh, hlease⟩

omit [DecidableEq I] in
/-- A kept entry is no longer live, so its record does not matter and its value is nowhere else. -/
theorem Inv.keep (hp : Inv p) (hlease : p.lease h = some (i, value))
    (hrecord : ∀ j, j ≠ i → record j = p.record j) : Inv (p.keep h value record) := by
  have hleased : ∀ {h' : H} {j : I} {value' : Option K},
      (p.keep h value record).lease h' = some (j, value') → p.lease h' = some (j, value') ∧ j ≠ i := by
    intro h' j value' hlease'
    obtain ⟨hne, hold⟩ := lease_end hlease'
    refine ⟨hold, ?_⟩
    rintro rfl
    exact hne (hp.once h' h j value' value hold hlease)
  have hlive : ∀ j, (p.keep h value record).Live j → p.Live j ∧ j ≠ i := by
    rintro j (hj | ⟨h', value', hlease'⟩)
    · refine ⟨.inl hj, ?_⟩
      rintro rfl
      exact hp.apart h j value hlease hj
    · exact ⟨.inr ⟨h', value', (hleased hlease').1⟩, (hleased hlease').2⟩
  have hold : ∀ {j k}, (p.keep h value record).Live j →
      (p.keep h value record).record j = some k → p.record j = some k :=
    fun hj hk ↦ (hrecord _ (hlive _ hj).2).symm.trans hk
  have hkept : ∀ k ∈ value, k ∉ p.kept ∧ k ∈ p.used := by
    rintro k rfl
    have hk := hp.read h i k hlease
    have hi : p.Live i := .inr ⟨h, some k, hlease⟩
    exact ⟨hp.unkept i k hi hk, hp.used i k hi hk⟩
  refine ⟨⟨?_, ?_, ?_⟩, ?_, ?_, ?_, ?_, ?_, ?_⟩
  · intro h' j value' hlease'
    exact hp.apart h' j value' (hleased hlease').1
  · intro h₁ h₂ j value₁ value₂ hlease₁ hlease₂
    exact hp.once h₁ h₂ j value₁ value₂ (hleased hlease₁).1 (hleased hlease₂).1
  · intro h' j k hlease'
    exact (hrecord j (hleased hlease').2).trans (hp.read h' j k (hleased hlease').1)
  · intro j hj
    obtain ⟨k, hk⟩ := hp.stored j (hlive j hj).1
    exact ⟨k, (hrecord j (hlive j hj).2).trans hk⟩
  · intro j j' k hj hj' hjk hjk'
    exact hp.distinct j j' k (hlive j hj).1 (hlive j' hj').1 (hold hj hjk) (hold hj' hjk')
  · intro j k hj hjk
    exact hp.used j k (hlive j hj).1 (hold hj hjk)
  · intro j k hj hjk hmem
    obtain hmem | hmem := List.mem_append.mp hmem
    · exact hp.unkept j k (hlive j hj).1 (hold hj hjk) hmem
    · rw [Option.mem_toList] at hmem
      rw [hmem] at hlease
      have hsame := hp.distinct j i k (hlive j hj).1 (.inr ⟨h, some k, hlease⟩) (hold hj hjk)
        (hp.read h i k hlease)
      exact (hlive j hj).2 hsame
  · intro k hk
    obtain hmem | hmem := List.mem_append.mp hk
    · exact hp.keptUsed k hmem
    · exact (hkept k (Option.mem_toList.mp hmem)).2
  · have htoList : value.toList.Nodup := by cases value <;> simp
    refine hp.nodup.append htoList ?_
    intro k hk hvalue
    exact (hkept k (Option.mem_toList.mp hvalue)).1 hk

omit [DecidableEq I] in
theorem Inv.giveBack (hp : Inv p) (hlease : p.lease h = some (i, value)) : Inv (p.giveBack h i) := by
  refine ⟨⟨?_, ?_, ?_⟩, hp.toValues.restrict ?_ (fun _ _ ↦ rfl) rfl subset_rfl⟩
  · rintro h' j value' hlease' (rfl | hj)
    · obtain ⟨hne, hold⟩ := lease_end hlease'
      exact hne (hp.once h' h j value' value hold hlease)
    · exact hp.apart h' j value' (lease_end hlease').2 hj
  · intro h₁ h₂ j value₁ value₂ hlease₁ hlease₂
    exact hp.once h₁ h₂ j value₁ value₂ (lease_end hlease₁).2 (lease_end hlease₂).2
  · intro h' j k hlease'
    exact hp.read h' j k (lease_end hlease').2
  · rintro j ((rfl | hj) | ⟨h', value', hlease'⟩)
    · exact .inr ⟨h, value, hlease⟩
    · exact .inl hj
    · exact .inr ⟨h', value', (lease_end hlease').2⟩

omit [DecidableEq I] [DecidableEq H] in
/-- A pool before its first lease. -/
theorem Inv.start (hlease : ∀ h, p.lease h = none) (hkept : p.kept = [])
    (hstored : ∀ i ∈ p.free, ∃ k ∈ p.used, p.record i = some k)
    (hdistinct : ∀ i ∈ p.free, ∀ j ∈ p.free, p.record i = p.record j → i = j) : Inv p := by
  have hnone : ∀ {h x}, p.lease h ≠ some x := by
    intro h x hsome
    rw [hlease h] at hsome
    cases hsome
  have hlive : ∀ i, p.Live i → i ∈ p.free :=
    fun i hi ↦ hi.resolve_right fun ⟨_, _, hsome⟩ ↦ hnone hsome
  refine ⟨⟨fun h i value hsome ↦ absurd hsome hnone, fun h h' i value value' hsome ↦ absurd hsome hnone,
    fun h i k hsome ↦ absurd hsome hnone⟩, ?_, ?_, ?_, ?_, ?_, ?_⟩
  · intro i hi
    obtain ⟨k, -, hk⟩ := hstored i (hlive i hi)
    exact ⟨k, hk⟩
  · intro i j k hi hj hik hjk
    exact hdistinct i (hlive i hi) j (hlive j hj) (hik.trans hjk.symm)
  · intro i k hi hik
    obtain ⟨k', hused, hk'⟩ := hstored i (hlive i hi)
    rw [hik, Option.some.injEq] at hk'
    rw [hk']
    exact hused
  · intro i k _ _
    rw [hkept]
    exact List.not_mem_nil
  · intro k hk
    rw [hkept] at hk
    cases hk
  · rw [hkept]
    exact List.nodup_nil

theorem Inv.move (hp : Inv p) (hmove : Move p q) : Inv q := by
  cases hmove with
  | add hfree hnew => exact hp.add hfree hnew
  | use => exact hp.use
  | forget hfree hrecord => exact hp.forget hfree hrecord
  | take hfree _ hvalue => exact hp.take hfree hvalue
  | keep hlease hrecord => exact hp.keep hlease hrecord
  | giveBack hlease => exact hp.giveBack hlease

theorem Inv.run (hp : Inv p) (hrun : ReflTransGen Move p q) : Inv q := by
  induction hrun with
  | refl => exact hp
  | tail _ hmove ih => exact ih.move hmove

end Electra.Foundations.LeasePool
