import Electra.Foundations.SpendIndex
import Mathlib.Algebra.Order.BigOperators.Group.Finset
import Mathlib.Data.Fintype.BigOperators
import Mathlib.Tactic.Ring

/-!
# Value of the unmarked outputs of an index

The outputs an index lists as unmarked have a total value, where `value pos n` is the worth of
output `n` of the transaction at `pos`.  Entering a transaction changes the total by what it
creates minus what it consumes (`unspentTotal_apply`).

Removing a transaction that had overwritten a fully marked entry leaves no entry there.  An index
that lacks some fully marked entries of another one is a `Shadow` of it: both have the same
total, and being a shadow is kept by entering and by removing transactions.
-/

open scoped BigOperators

namespace Electra.Foundations.SpendIndex

variable {K P : Type*}

/-- Value of the unmarked outputs of a record. -/
def Entry.unspent (value : P → ℕ → ℤ) (entry : Entry P) : ℤ :=
  (entry.vSpent.mapIdx fun n mark ↦ if mark.isNone then value entry.pos n else 0).sum

theorem Entry.unspent_replicate (value : P → ℕ → ℤ) (pos : P) (outs : ℕ) :
    Entry.unspent value ⟨pos, List.replicate outs none⟩ =
      ((List.range outs).map (value pos)).sum := by
  unfold Entry.unspent
  congr 1
  apply List.ext_getElem <;> simp

variable {value : P → ℕ → ℤ} {entry : Entry P} {p : P} {ts : List (Spender K P)}
  {index full : Index K P} {o : OutPoint K}

theorem Entry.unspent_eq_zero (h : none ∉ entry.vSpent) :
    entry.unspent value = 0 := by
  apply List.sum_eq_zero
  intro x hx
  obtain ⟨n, hn, rfl⟩ := List.mem_mapIdx.mp hx
  have hmark : entry.vSpent[n] ≠ none := fun heq ↦ h (heq ▸ List.getElem_mem hn)
  simp [hmark]

/-- Marking an unmarked output takes its value away. -/
theorem Entry.unspent_set {n : ℕ} (h : entry.vSpent[n]? = some none) :
    Entry.unspent value { entry with vSpent := entry.vSpent.set n (some p) } =
      entry.unspent value - value entry.pos n := by
  obtain ⟨hn, hnone⟩ := List.getElem?_eq_some_iff.mp h
  unfold Entry.unspent
  rw [List.mapIdx_set, List.sum_set', dif_pos (by simpa using hn)]
  simp only [List.getElem_mapIdx, hnone, Option.isNone_none, Option.isNone_some, if_true,
    Bool.false_eq_true, if_false]
  ring

/-- Every entry of an index stands where one of the entered transactions does. -/
theorem exists_of_indexOf [DecidableEq K] {k : K} (h : indexOf ts k = some entry) :
    ∃ t ∈ ts, entry.pos = t.pos := by
  obtain ⟨t, ht, -, hpos⟩ := exists_spender_of_indexOf h
  exact ⟨t, ht, hpos.symm⟩

/-- Value of the output an outpoint names. -/
def valueAt (value : P → ℕ → ℤ) (index : Index K P) (o : OutPoint K) : ℤ :=
  (index o.hash).elim 0 fun entry ↦ value entry.pos o.n

variable [DecidableEq K]

theorem setMark_of_ready (h : index o.hash = some entry) (mark : Option P) :
    setMark mark index o =
      Function.update index o.hash (some { entry with vSpent := entry.vSpent.set o.n mark }) := by
  simp [setMark, h]

/-- Marks do not change what an outpoint is worth. -/
theorem valueAt_setMark (value : P → ℕ → ℤ) (mark : Option P) (index : Index K P)
    (o o' : OutPoint K) : valueAt value (setMark mark index o) o' = valueAt value index o' := by
  unfold valueAt
  rw [setMark_eq_markAll, markAll]
  cases index o'.hash <;> rfl

theorem Ready.setMark_of_ne {o' : OutPoint K} {mark : Option P} (h : Ready index o') (hne : o' ≠ o) :
    Ready (setMark mark index o) o' := by
  obtain ⟨entry, hentry, hnone⟩ := h
  rw [setMark_eq_markAll]
  refine ⟨_, by rw [markAll, hentry, Option.map_some], ?_⟩
  have hmem : (⟨o'.hash, o'.n⟩ : OutPoint K) ∉ [o] := by simpa using hne
  rw [List.getElem?_mapIdx, hnone, Option.map_some, if_neg hmem]

section Total

variable [Fintype K]

/-- Total value of the outputs that an index lists as unmarked. -/
def unspentTotal (value : P → ℕ → ℤ) (index : Index K P) : ℤ :=
  ∑ k, (index k).elim 0 (Entry.unspent value)

theorem unspentTotal_update (value : P → ℕ → ℤ) (index : Index K P) (k : K)
    (entry : Option (Entry P)) :
    unspentTotal value (Function.update index k entry) =
      unspentTotal value index - (index k).elim 0 (Entry.unspent value) +
        entry.elim 0 (Entry.unspent value) := by
  unfold unspentTotal
  rw [← Finset.add_sum_erase _ _ (Finset.mem_univ k),
    ← Finset.add_sum_erase Finset.univ (fun k ↦ (index k).elim 0 (Entry.unspent value))
      (Finset.mem_univ k)]
  have hrest : ∑ j ∈ Finset.univ.erase k,
      (Function.update index k entry j).elim 0 (Entry.unspent value) =
      ∑ j ∈ Finset.univ.erase k, (index j).elim 0 (Entry.unspent value) := by
    refine Finset.sum_congr rfl fun j hj ↦ ?_
    rw [Function.update_of_ne (Finset.ne_of_mem_erase hj)]
  rw [hrest, Function.update_self]
  ring

theorem unspentTotal_setMark (h : Ready index o) :
    unspentTotal value (setMark (some p) index o) =
      unspentTotal value index - valueAt value index o := by
  obtain ⟨entry, hentry, hnone⟩ := h
  rw [setMark_of_ready hentry, unspentTotal_update, hentry, valueAt, hentry]
  simp only [Option.elim_some]
  rw [Entry.unspent_set hnone]
  ring

theorem unspentTotal_foldl_setMark {ins : List (OutPoint K)} (hready : ∀ o ∈ ins, Ready index o)
    (hnodup : ins.Nodup) :
    unspentTotal value (ins.foldl (setMark (some p)) index) =
      unspentTotal value index - (ins.map (valueAt value index)).sum := by
  induction ins generalizing index with
  | nil => simp
  | cons o ins ih =>
    rw [List.nodup_cons] at hnodup
    have hrest : ∀ o' ∈ ins, Ready (setMark (some p) index o) o' := fun o' ho' ↦
      (hready o' (.tail _ ho')).setMark_of_ne fun heq ↦ hnodup.1 (heq ▸ ho')
    have hvalue : ins.map (valueAt value (setMark (some p) index o)) =
        ins.map (valueAt value index) :=
      List.map_congr_left fun o' _ ↦ valueAt_setMark value (some p) index o o'
    rw [List.foldl_cons, ih hrest hnodup.2, hvalue, unspentTotal_setMark (hready o (.head _)),
      List.map_cons, List.sum_cons]
    ring

/-- Entering a transaction adds the value of its outputs and takes that of its inputs away. -/
theorem unspentTotal_apply {t : Spender K P} (h : Enabled index t) :
    unspentTotal value (apply index t) = unspentTotal value index -
      (t.ins.map (valueAt value index)).sum + ((List.range t.outs).map (value t.pos)).sum := by
  have hold : ((t.ins.foldl (setMark (some t.pos)) index) t.id).elim 0 (Entry.unspent value) = 0 := by
    rw [foldl_setMark]
    cases hentry : markAll (some t.pos) t.ins index t.id with
    | none => rfl
    | some entry => exact Entry.unspent_eq_zero (fullySpent_markAll h.fullySpent t.pos t.ins entry hentry)
  rw [apply, unspentTotal_update, hold, unspentTotal_foldl_setMark h.ready h.nodup]
  simp only [Option.elim_some, Entry.unspent_replicate]
  ring

omit [DecidableEq K] in
theorem unspentTotal_nonneg (h : ∀ k entry, index k = some entry → ∀ n, 0 ≤ value entry.pos n) :
    0 ≤ unspentTotal value index := by
  apply Finset.sum_nonneg
  intro k _
  cases hentry : index k with
  | none => exact le_rfl
  | some entry =>
    apply List.sum_nonneg
    intro x hx
    obtain ⟨n, hn, rfl⟩ := List.mem_mapIdx.mp hx
    have hvalue := h k entry hentry n
    split
    · exact hvalue
    · exact le_rfl

/-- Value created minus value consumed by a list of transactions. -/
def gain (value : P → ℕ → ℤ) : Index K P → List (Spender K P) → ℤ
  | _, [] => 0
  | index, t :: ts =>
      ((List.range t.outs).map (value t.pos)).sum - (t.ins.map (valueAt value index)).sum +
        gain value (apply index t) ts

theorem unspentTotal_applyAll (h : EnabledAll index ts) :
    unspentTotal value (applyAll index ts) = unspentTotal value index + gain value index ts := by
  induction ts generalizing index with
  | nil => simp [gain]
  | cons t ts ih =>
    rw [applyAll_cons, ih h.2, unspentTotal_apply h.1, gain]
    ring

end Total

/-- The first index lacks at most fully marked entries of the second one. -/
def Shadow (index full : Index K P) : Prop :=
  ∀ k, index k = full k ∨ index k = none ∧ FullySpent full k

omit [DecidableEq K] in
theorem Shadow.refl (index : Index K P) : Shadow index index := fun _ ↦ .inl rfl

omit [DecidableEq K] in
theorem Shadow.ready (h : Shadow index full) (hready : Ready index o) : Ready full o := by
  obtain ⟨entry, hentry, hnone⟩ := hready
  rcases h o.hash with heq | ⟨habsent, -⟩
  · exact ⟨entry, heq ▸ hentry, hnone⟩
  · rw [habsent] at hentry
    cases hentry

omit [DecidableEq K] in
theorem Shadow.fullySpent (h : Shadow index full) {k : K} (hspent : FullySpent index k) :
    FullySpent full k := by
  rcases h k with heq | ⟨-, hfull⟩
  · intro entry hentry
    exact hspent entry (heq.trans hentry)
  · exact hfull

omit [DecidableEq K] in
theorem Shadow.enabled (h : Shadow index full) {t : Spender K P} (henabled : Enabled index t) :
    Enabled full t where
  ready o ho := h.ready (henabled.ready o ho)
  nodup := henabled.nodup
  fullySpent := h.fullySpent henabled.fullySpent

theorem shadow_apply (h : Shadow index full) (t : Spender K P) :
    Shadow (apply index t) (apply full t) := by
  intro k
  by_cases hk : k = t.id
  · subst hk
    left
    simp [apply_eq]
  · simp only [apply_eq, Function.update_of_ne hk]
    rcases h k with heq | ⟨habsent, hfull⟩
    · left
      simp only [markAll, heq]
    · right
      refine ⟨markAll_eq_none_iff.mpr habsent, ?_⟩
      intro entry hentry
      rw [Function.update_of_ne hk] at hentry
      exact fullySpent_markAll hfull t.pos t.ins entry hentry

theorem shadow_applyAll (h : Shadow index full) (ts : List (Spender K P)) :
    Shadow (applyAll index ts) (applyAll full ts) := by
  induction ts generalizing index full with
  | nil => exact h
  | cons t ts ih => exact ih (shadow_apply h t)

theorem Shadow.enabledAll (h : Shadow index full) (henabled : EnabledAll index ts) :
    EnabledAll full ts := by
  induction ts generalizing index full with
  | nil => trivial
  | cons t ts ih => exact ⟨h.enabled henabled.1, ih (shadow_apply h t) henabled.2⟩

/-- Every transaction whose outputs a list consumes has an entry when its marks are taken back. -/
def UndoableAll (index : Index K P) : List (Spender K P) → Prop
  | [] => True
  | t :: ts => UndoableAll index ts ∧ ∀ o ∈ t.ins, undoAll index ts o.hash ≠ none

/-- Removing the transaction entered last gives back the index but for fully marked entries. -/
theorem shadow_undo {t : Spender K P} (h : Shadow index (apply full t)) (henabled : Enabled full t)
    (hpresent : ∀ o ∈ t.ins, index o.hash ≠ none) :
    Shadow (undo index t) full := by
  intro k
  by_cases hk : k = t.id
  · subst hk
    right
    exact ⟨by simp [undo_eq], henabled.fullySpent⟩
  · rcases h k with heq | ⟨habsent, hfull⟩
    · left
      have hundo : undo index t k = undo (apply full t) t k := by
        simp only [undo_eq, Function.update_of_ne hk, markAll, heq]
      rw [hundo, undo_apply_of_ne henabled.ready hk]
    · right
      refine ⟨by simp [undo_eq, hk, markAll, habsent], ?_⟩
      have hnone : ∀ n, (⟨k, n⟩ : OutPoint K) ∉ t.ins := fun n hn ↦ hpresent _ hn habsent
      intro entry hentry
      refine hfull entry ?_
      rw [apply_eq, Function.update_of_ne hk, markAll, hentry]
      simp [hnone]

theorem shadow_undoAll (h : Shadow index (applyAll full ts)) (henabled : EnabledAll full ts)
    (hundoable : UndoableAll index ts) : Shadow (undoAll index ts) full := by
  induction ts generalizing full with
  | nil => exact h
  | cons t ts ih =>
    rw [undoAll_cons]
    exact shadow_undo (ih h henabled.2 hundoable.1) henabled.1 hundoable.2

omit [DecidableEq K] in
theorem Shadow.unspentTotal_eq [Fintype K] (h : Shadow index full) (value : P → ℕ → ℤ) :
    unspentTotal value index = unspentTotal value full := by
  refine Finset.sum_congr rfl fun k _ ↦ ?_
  rcases h k with heq | ⟨habsent, hfull⟩
  · rw [heq]
  · rw [habsent, Option.elim_none]
    cases hentry : full k with
    | none => rfl
    | some entry => exact (Entry.unspent_eq_zero (hfull entry hentry)).symm

end Electra.Foundations.SpendIndex
