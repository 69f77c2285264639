import Electra.Foundations.PartialShuffle
import Electra.Net.AddrManTried
import Mathlib.Data.List.GetD

/-!
# The entry that makes place

`SelectTried` draws some entries of a bucket to its front and remembers the place that the stalest one
was drawn from.  The entry is not there any more, unless it was drawn from its own place or an entry that
is just as stale was drawn into that place later.
-/

namespace Electra.Net

open Chain Foundations.PartialShuffle

namespace CAddrMan

/-- The place that is drawn at a turn. -/
def drawn (rand : ℕ → ℕ) (nSize i : ℕ) : ℕ := getRandInt (rand i) (nSize - i) + i

/-- The number of turns. -/
def nInspected (nSize : ℕ) : ℕ := min ADDRMAN_TRIED_ENTRIES_INSPECT_ON_EVICT nSize

/-- The places of a bucket in the order in which the draws leave them. -/
def drawOrder (rand : ℕ → ℕ) (nSize : ℕ) : List ℕ :=
  shuffle (drawn rand nSize) (nInspected nSize) 0 (List.range nSize)

def lastSuccess (am : CAddrMan) (nId : ℤ) : ℤ :=
  ((am.mapInfo.lookup nId).map CAddrInfo.nLastSuccess).getD 0

/-- When the entry that is inspected at a turn was reached last. -/
def lastSuccessAt (am : CAddrMan) (rand : ℕ → ℕ) (vTried : List ℤ) (i : ℕ) : ℤ :=
  am.lastSuccess (((drawOrder rand vTried.length)[i]?.bind fun j ↦ vTried[j]?).getD 0)

/-- The first one of the stalest entries is drawn from one of the places that are inspected, and into
that place an entry is drawn that is just as stale. -/
def DrawnInPlace (am : CAddrMan) (rand : ℕ → ℕ) (vTried : List ℤ) : Prop :=
  ∃ i ∈ (List.range (nInspected vTried.length)).argmin (am.lastSuccessAt rand vTried),
    drawn rand vTried.length i < nInspected vTried.length ∧
      am.lastSuccessAt rand vTried (drawn rand vTried.length i) ≤ am.lastSuccessAt rand vTried i

instance (am : CAddrMan) (rand : ℕ → ℕ) (vTried : List ℤ) : Decidable (am.DrawnInPlace rand vTried) :=
  inferInstanceAs (Decidable (∃ i ∈ @List.argmin ℕ ℤ Int.instLinearOrder.toPreorder Int.decLt _ _, _))

/-- A position of a bucket that holds one of the inspected entries, and none of them is staler. -/
structure HoldsStalest (am : CAddrMan) (vTried : List ℤ) (nPos : ℕ) : Prop where
  lt_length : nPos < vTried.length
  stalest : ∃ nId ∈ vTried.take (nInspected vTried.length), vTried[nPos]? = some nId ∧
    ∀ nId' ∈ vTried.take (nInspected vTried.length), am.lastSuccess nId ≤ am.lastSuccess nId'

variable {am : CAddrMan} {rand : ℕ → ℕ} {vTried : List ℤ} {nSize i nTurns : ℕ}

theorem le_drawn : i ≤ drawn rand nSize i := Nat.le_add_left ..

theorem drawn_lt (hi : i < nSize) : drawn rand nSize i < nSize := by
  have hmod := Nat.mod_lt (rand i) (Nat.sub_pos_of_lt hi)
  rw [drawn, getRandInt, if_neg (Nat.sub_ne_zero_of_lt hi)]
  omega

/-- One entry and its place are staler than another one. -/
def Staler (am : CAddrMan) (a b : ℤ × ℕ) : Prop := am.lastSuccess a.1 < am.lastSuccess b.1

instance : DecidableRel am.Staler := fun _ _ ↦ inferInstanceAs (Decidable (_ < _))

/-- The entries of some turns, with the places they were drawn from. -/
def turns (draw : ℕ → ℕ) (vTried : List ℤ) (i nTurns : ℕ) : List (ℤ × ℕ) :=
  (List.range' i nTurns).map fun j ↦ (vTried.getD j 0, draw j)

theorem lastSuccess_eq {nId : ℤ} {info : CAddrInfo} (h : am.mapInfo.lookup nId = some info) :
    am.lastSuccess nId = info.nLastSuccess := by
  rw [lastSuccess, h, Option.map_some, Option.getD_some]

/-- A turn of the loop that inspects an entry. -/
theorem selectTriedLoop_succ {oldest : Option (ℤ × ℕ)} (h : ∀ nId ∈ vTried, nId ∈ am.mapInfo)
    (holdest : ∀ found ∈ oldest, found.1 ∈ am.mapInfo) (hi : i < vTried.length) :
    am.selectTriedLoop rand (nTurns + 1) i vTried oldest =
      am.selectTriedLoop rand nTurns (i + 1) (swapAt vTried i (drawn rand vTried.length i))
        (List.argAux am.Staler oldest
          (vTried.getD (drawn rand vTried.length i) 0, drawn rand vTried.length i)) := by
  have hdrawn : drawn rand vTried.length i < vTried.length := drawn_lt hi
  have hat := List.getElem?_eq_getElem hdrawn
  have hfirst := List.getElem?_eq_getElem hi
  have hswap := swapAt_eq hi hdrawn
  have htemp : vTried.getD (drawn rand vTried.length i) 0 = vTried[drawn rand vTried.length i] :=
    List.getD_eq_getElem _ _ hdrawn
  rw [hswap, htemp]
  unfold drawn at hat ⊢
  cases oldest with
  | none => simp only [selectTriedLoop, if_pos hi, hat, hfirst, bind, Option.bind, List.argAux]
  | some found =>
    obtain ⟨nOldest, nOldestPos⟩ := found
    obtain ⟨info, hinfo⟩ := mem_mapInfo.mp (h _ (List.getElem_mem hdrawn))
    obtain ⟨infoOldest, hinfoOldest⟩ := mem_mapInfo.mp (holdest _ rfl)
    unfold drawn at hinfo
    simp only [selectTriedLoop, if_pos hi, hat, hfirst, hinfo, hinfoOldest, bind, Option.bind,
      List.argAux, Staler, lastSuccess_eq hinfo, lastSuccess_eq hinfoOldest]
    split <;> rfl

theorem mem_of_argAux (next : ℤ × ℕ) {oldest : Option (ℤ × ℕ)} {found : ℤ × ℕ}
    (holdest : ∀ found ∈ oldest, found.1 ∈ am.mapInfo) (hnext : next.1 ∈ am.mapInfo)
    (hfound : found ∈ List.argAux am.Staler oldest next) : found.1 ∈ am.mapInfo := by
  cases oldest with
  | none =>
    cases hfound
    exact hnext
  | some old =>
    simp only [List.argAux] at hfound
    split at hfound <;> cases hfound
    · exact hnext
    · exact holdest _ rfl

/-- The whole loop: the entries that are drawn, and the stalest one of them. -/
theorem selectTriedLoop_eq {nSize m : ℕ} (hm : m = min nTurns (nSize - i))
    (hsize : vTried.length = nSize) {oldest : Option (ℤ × ℕ)}
    (h : ∀ nId ∈ vTried, nId ∈ am.mapInfo) (holdest : ∀ found ∈ oldest, found.1 ∈ am.mapInfo) :
    am.selectTriedLoop rand nTurns i vTried oldest =
      some (shuffle (drawn rand nSize) m i vTried,
        (turns (drawn rand nSize) (shuffle (drawn rand nSize) m i vTried) i m).foldl
          (List.argAux am.Staler) oldest) := by
  induction nTurns generalizing i m vTried oldest with
  | zero =>
    rw [Nat.zero_min] at hm
    subst hm
    rfl
  | succ nTurns ih =>
    by_cases hi : i < nSize
    · obtain ⟨m', rfl⟩ : ∃ m', m = m' + 1 := ⟨min nTurns (nSize - (i + 1)), by omega⟩
      have hi' : i < vTried.length := hsize.symm ▸ hi
      have hdrawn : drawn rand nSize i < vTried.length := hsize.symm ▸ drawn_lt hi
      have hperm := @perm_swapAt _ i (drawn rand nSize i) vTried
      have hmem : ∀ nId ∈ swapAt vTried i (drawn rand nSize i), nId ∈ am.mapInfo :=
        fun nId hnId ↦ h nId (hperm.mem_iff.mp hnId)
      have hnext : vTried.getD (drawn rand nSize i) 0 ∈ am.mapInfo := by
        rw [List.getD_eq_getElem _ _ hdrawn]
        exact h _ (List.getElem_mem hdrawn)
      have hlater := @ih (swapAt vTried i (drawn rand nSize i)) (i + 1) m' (by omega)
        (hperm.length_eq.trans hsize) _ hmem fun found hfound ↦ mem_of_argAux
          (vTried.getD (drawn rand nSize i) 0, drawn rand nSize i) holdest hnext hfound
      have hfirst : (shuffle (drawn rand nSize) m' (i + 1) (swapAt vTried i (drawn rand nSize i))).getD
          i 0 = vTried.getD (drawn rand nSize i) 0 := by
        have hat := getElem?_shuffle_self m' (fun j _ ↦ le_drawn) hi' hdrawn
        rw [List.getD_eq_getElem?_getD, List.getD_eq_getElem?_getD]
        exact congrArg (Option.getD · 0) hat
      rw [selectTriedLoop_succ h holdest hi', hsize, hlater]
      simp only [shuffle, turns, List.range'_succ, List.map_cons, List.foldl_cons, hfirst]
    · have hzero : m = 0 := by omega
      subst hzero
      simp only [selectTriedLoop, if_neg (hsize.symm ▸ hi)]
      rfl

theorem argmin_map {α β : Type} (f : β → ℤ) (g : α → β) (l : List α) :
    (l.map g).argmin f = (l.argmin (f ∘ g)).map g := by
  induction l with
  | nil => rfl
  | cons a l ih =>
    rw [List.map_cons, List.argmin_cons, List.argmin_cons, ih]
    cases l.argmin (f ∘ g) with
    | none => rfl
    | some b =>
      simp only [Option.map_some, Function.comp_apply]
      split <;> rfl

/-- The bucket after the draws. -/
def drawnBucket (rand : ℕ → ℕ) (vTried : List ℤ) : List ℤ :=
  shuffle (drawn rand vTried.length) (nInspected vTried.length) 0 vTried

theorem lastSuccessAt_eq :
    am.lastSuccessAt rand vTried i = am.lastSuccess ((drawnBucket rand vTried).getD i 0) := by
  rw [lastSuccessAt, List.getD_eq_getElem?_getD, drawnBucket, getElem?_shuffle]
  rfl

theorem selectTried_eq {nKBucket : TriedBucket} (hbucket : am.vvTried nKBucket = vTried)
    (h : ∀ nId ∈ vTried, nId ∈ am.mapInfo) : am.selectTried rand nKBucket =
      some (drawnBucket rand vTried,
        ((List.range (nInspected vTried.length)).argmin (am.lastSuccessAt rand vTried)).map
          (drawn rand vTried.length)) := by
  have hloop := @selectTriedLoop_eq am rand vTried 0 ADDRMAN_TRIED_ENTRIES_INSPECT_ON_EVICT
    vTried.length (nInspected vTried.length) rfl rfl none h fun _ hfound ↦ absurd hfound (by simp)
  have hstalest : (turns (drawn rand vTried.length) (drawnBucket rand vTried) 0
      (nInspected vTried.length)).foldl (List.argAux am.Staler) none =
        ((List.range (nInspected vTried.length)).argmin (am.lastSuccessAt rand vTried)).map
          fun j ↦ ((drawnBucket rand vTried).getD j 0, drawn rand vTried.length j) := by
    have hlast : am.lastSuccessAt rand vTried = (fun found : ℤ × ℕ ↦ am.lastSuccess found.1) ∘
        fun j ↦ ((drawnBucket rand vTried).getD j 0, drawn rand vTried.length j) := by
      funext j
      exact lastSuccessAt_eq
    rw [hlast, List.range_eq_range', ← argmin_map]
    rfl
  rw [selectTried, hbucket, hloop]
  simp only [bind, Option.bind, pure]
  rw [← drawnBucket, hstalest, Option.map_map]
  rfl

theorem nInspected_le : nInspected nSize ≤ nSize := Nat.min_le_right ..

/-- Whether the returned position is right is a matter of the draws. -/
theorem holdsStalest_iff (hnodup : vTried.Nodup)
    (hi : i ∈ (List.range (nInspected vTried.length)).argmin (am.lastSuccessAt rand vTried)) :
    am.HoldsStalest (drawnBucket rand vTried) (drawn rand vTried.length i) ↔
      drawn rand vTried.length i < nInspected vTried.length ∧
        am.lastSuccessAt rand vTried (drawn rand vTried.length i) ≤ am.lastSuccessAt rand vTried i := by
  have hlength : (drawnBucket rand vTried).length = vTried.length := length_shuffle
  have hnodup' : (drawnBucket rand vTried).Nodup := perm_shuffle.nodup_iff.mpr hnodup
  have hmem : ∀ nId, nId ∈ (drawnBucket rand vTried).take (nInspected vTried.length) ↔
      ∃ j < nInspected vTried.length, (drawnBucket rand vTried)[j]? = some nId := by
    intro nId
    rw [List.mem_iff_getElem?]
    simp only [List.getElem?_take, Option.ite_none_right_eq_some]
  have hlast : ∀ {j nId}, (drawnBucket rand vTried)[j]? = some nId →
      am.lastSuccessAt rand vTried j = am.lastSuccess nId := by
    intro j nId hj
    rw [lastSuccessAt_eq, List.getD_eq_getElem?_getD, hj, Option.getD_some]
  have hinspected := List.mem_range.mp (List.argmin_mem hi)
  have hlt : i < (drawnBucket rand vTried).length := by
    rw [hlength]
    exact hinspected.trans_le nInspected_le
  constructor
  · intro hholds
    obtain ⟨nId, hnId, hat, hle⟩ := hholds.stalest
    rw [hlength] at hnId hle
    obtain ⟨j, hj, hatj⟩ := (hmem nId).mp hnId
    have hjlt : j < (drawnBucket rand vTried).length := (List.getElem?_eq_some_iff.mp hatj).1
    have heq : j = drawn rand vTried.length i :=
      (List.getElem?_inj hjlt hnodup').mp (hatj.trans hat.symm)
    have hati := List.getElem?_eq_getElem hlt
    refine ⟨heq ▸ hj, ?_⟩
    rw [hlast hat, hlast hati]
    exact hle _ ((hmem _).mpr ⟨i, hinspected, hati⟩)
  · intro hplace
    obtain ⟨hj, hle⟩ := hplace
    have hjlt : drawn rand vTried.length i < (drawnBucket rand vTried).length := by
      rw [hlength]
      exact hj.trans_le nInspected_le
    have hat := List.getElem?_eq_getElem hjlt
    refine ⟨hjlt, _, ?_, hat, ?_⟩
    · rw [hlength]
      exact (hmem _).mpr ⟨_, hj, hat⟩
    · intro nId hnId
      rw [hlength] at hnId
      obtain ⟨k, hk, hatk⟩ := (hmem nId).mp hnId
      calc
        am.lastSuccess _ = am.lastSuccessAt rand vTried (drawn rand vTried.length i) := (hlast hat).symm
        _ ≤ am.lastSuccessAt rand vTried i := hle
        _ ≤ am.lastSuccessAt rand vTried k := List.le_of_mem_argmin (List.mem_range.mpr hk) hi
        _ = am.lastSuccess nId := hlast hatk

/-- The bucket keeps its entries.  The returned position holds the stalest one of those that were looked
at if and only if it was drawn in place. -/
theorem selectTried_iff (am : CAddrMan) (rand : ℕ → ℕ) (nKBucket : TriedBucket)
    (hmem : ∀ nId ∈ am.vvTried nKBucket, nId ∈ am.mapInfo) (hnodup : (am.vvTried nKBucket).Nodup) :
    ∃ vTried nPos, am.selectTried rand nKBucket = some (vTried, nPos) ∧
      vTried.Perm (am.vvTried nKBucket) ∧
      ((∃ p ∈ nPos, am.HoldsStalest vTried p) ↔ am.DrawnInPlace rand (am.vvTried nKBucket)) := by
  refine ⟨_, _, selectTried_eq rfl hmem, perm_shuffle, ?_⟩
  constructor
  · intro h
    obtain ⟨p, hp, hholds⟩ := h
    obtain ⟨i, hi, rfl⟩ := Option.map_eq_some_iff.mp hp
    exact ⟨i, hi, (holdsStalest_iff hnodup hi).mp hholds⟩
  · intro h
    obtain ⟨i, hi, hplace⟩ := h
    exact ⟨_, Option.map_eq_some_iff.mpr ⟨i, hi, rfl⟩, (holdsStalest_iff hnodup hi).mpr hplace⟩

/-- A full bucket, whose entries were reached the longer ago the later they stand. -/
def agedBucket : CAddrMan :=
  { empty [] with
    mapInfo := ((List.range 64).map fun n ↦ ⟨(n : ℤ), { CAddrInfo.init with
      nLastSuccess := 64 - (n : ℤ) }⟩ : List (Sigma fun _ : ℤ ↦ CAddrInfo)).toFinmap
    vvTried := fun nKBucket ↦ if nKBucket.val = 0 then (List.range 64).map Int.ofNat else [] }

theorem mem_agedBucket : ∀ nId ∈ agedBucket.vvTried 0, nId ∈ agedBucket.mapInfo := by
  decide +kernel

theorem nodup_agedBucket : (agedBucket.vvTried 0).Nodup := by
  decide

/-- All draws fall on the places themselves. -/
theorem selectTried_agedBucket :
    agedBucket.DrawnInPlace (fun _ ↦ 0) (agedBucket.vvTried 0) ∧
      ∃ vTried nPos, agedBucket.selectTried (fun _ ↦ 0) 0 = some (vTried, nPos) ∧
        vTried.Perm (agedBucket.vvTried 0) ∧ ((∃ p ∈ nPos, agedBucket.HoldsStalest vTried p) ↔
          agedBucket.DrawnInPlace (fun _ ↦ 0) (agedBucket.vvTried 0)) :=
  ⟨by decide, selectTried_iff agedBucket (fun _ ↦ 0) 0 mem_agedBucket nodup_agedBucket⟩

/-- The last entry is drawn first.  Its place is returned, but holds the entry reached most recently. -/
theorem selectTried_moved :
    ∃ vTried, agedBucket.selectTried (fun i ↦ if i = 0 then 63 else 0) 0 = some (vTried, some 63) ∧
      vTried[0]? = some 63 ∧ vTried[63]? = some 0 ∧ ¬ agedBucket.HoldsStalest vTried 63 := by
  refine ⟨swapAt (agedBucket.vvTried 0) 0 63, by decide, by decide, by decide, ?_⟩
  intro hholds
  obtain ⟨nId, hmem, hat, -⟩ := hholds.stalest
  have hzero : nId = 0 := by
    rw [show (swapAt (agedBucket.vvTried 0) 0 63)[63]? = some 0 by decide,
      Option.some.injEq] at hat
    exact hat.symm
  rw [hzero] at hmem
  exact absurd hmem (by decide)

end CAddrMan

end Electra.Net
