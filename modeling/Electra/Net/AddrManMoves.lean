import Electra.Net.AddrManInvariant

/-!
# Moves between the tables

Entering an address, taking references off, and moving entries between the new and the tried tables
keep the invariant; no assertion fails on the way.
-/

namespace Electra.Net

open Chain Foundations.BucketTable Foundations.PositionIndex

namespace CAddrMan

variable {am am' : CAddrMan} {nId nId' : ℤ} {info : CAddrInfo} {hash : List UInt8 → Uint256}
  {owed : ℤ → ℕ}

/-- The entries after two of them have changed places. -/
def swapPlaces (a b : ℤ) (i j : ℕ) (nId : ℤ) (info : CAddrInfo) : CAddrInfo :=
  if nId = b then { info with nRandomPos := i }
  else if nId = a then { info with nRandomPos := j }
  else info

theorem swapRandom_spec {i j : ℕ} {a b : ℤ} (h : Indexes am) (hi : am.vRandom[i]? = some a)
    (hj : am.vRandom[j]? = some b) : ∃ am', am.swapRandom i j = some am' ∧ Indexes am' ∧
      SameTables am am' ∧ am'.vRandom[i]? = some b ∧ am'.vRandom[j]? = some a := by
  by_cases hij : i = j
  · have hab : a = b := Option.some.inj (hi.symm.trans (hij ▸ hj))
    exact ⟨am, if_pos hij, h, .refl, hab ▸ hi, hab ▸ hj⟩
  · have ha : a ∈ am.mapInfo := h.mem_vRandom.mp (List.mem_of_getElem? hi)
    have hb : b ∈ am.mapInfo := h.mem_vRandom.mp (List.mem_of_getElem? hj)
    have hab : a ≠ b := by
      rintro rfl
      exact hij (h.random.index_eq hi hj)
    let am₁ := am.updateInfo a fun info ↦ { info with nRandomPos := j }
    let am₂ := am₁.updateInfo b fun info ↦ { info with nRandomPos := i }
    have hlookup : ∀ nId, am₂.mapInfo.lookup nId =
        (am.mapInfo.lookup nId).map (swapPlaces a b i j nId) := by
      intro nId
      simp only [am₂, am₁, lookup_updateInfo, if_neg hab.symm]
      unfold swapPlaces
      by_cases hnb : nId = b
      · rw [hnb]
        simp only [if_true]
      · by_cases hna : nId = a
        · rw [hna]
          simp only [if_true, hab, if_false]
        · simp only [if_neg hnb, if_neg hna, Option.map_id']
    have hswap : am.swapRandom i j = some { am₂ with vRandom := (am.vRandom.set i b).set j a } := by
      have hmem : ¬ (a ∉ am.mapInfo ∨ b ∉ am.mapInfo) := by
        rw [not_or, not_not, not_not]
        exact ⟨ha, hb⟩
      simp only [swapRandom, if_neg hij, hi, hj, bind, Option.bind, if_neg hmem,
        vRandom_updateInfo, am₂, am₁]
    refine ⟨_, hswap, ?_, ?_, ?_, ?_⟩
    · apply h.congr
      · simp only [am₂, am₁, mapAddr_updateInfo]
      · simp only [am₂, am₁, nIdCount_updateInfo]
      · intro nId
        rw [hlookup, Option.map_map]
        apply Option.map_congr
        intro info _
        simp only [Function.comp, swapPlaces]
        split_ifs <;> rfl
      · have hposition : position { am₂ with vRandom := (am.vRandom.set i b).set j a } =
            Function.update (Function.update am.position a (some j)) b (some i) := by
          funext nId
          obtain ⟨infoA, hinfoA⟩ := mem_mapInfo.mp ha
          obtain ⟨infoB, hinfoB⟩ := mem_mapInfo.mp hb
          rw [position, hlookup]
          by_cases hnb : nId = b
          · rw [hnb, hinfoB, Function.update_self]
            simp [swapPlaces]
          · rw [Function.update_of_ne hnb]
            by_cases hna : nId = a
            · rw [hna, hinfoA, Function.update_self]
              simp [swapPlaces, hab]
            · rw [Function.update_of_ne hna, position, Option.map_map]
              apply Option.map_congr
              intro info _
              simp only [Function.comp, swapPlaces, hnb, hna, if_false]
        rw [hposition]
        exact h.random.swap hi hj hij
    · refine ⟨?_, ?_, ?_, ?_, ?_, ?_, ?_⟩
      · simp only [am₂, am₁, nKey_updateInfo]
      · intro nId
        rw [hlookup, Option.map_map]
        apply Option.map_congr
        intro info _
        simp only [Function.comp, swapPlaces]
        split_ifs <;> rfl
      · simp only [List.length_set]
      · simp only [am₂, am₁, nTried_updateInfo]
      · simp only [am₂, am₁, vvTried_updateInfo]
      · simp only [am₂, am₁, nNew_updateInfo]
      · simp only [am₂, am₁, vvNew_updateInfo]
    · rw [List.getElem?_set_ne (Ne.symm hij), List.getElem?_set_self]
      exact (List.getElem?_eq_some_iff.mp hi).1
    · rw [List.getElem?_set_self]
      rw [List.length_set]
      exact (List.getElem?_eq_some_iff.mp hj).1

theorem Indexes.setNew (h : Indexes am) (nUBucket : NewBucket) (vNew : Finset ℤ) :
    Indexes (am.setNew nUBucket vNew) := ⟨h.addr, h.fresh, h.random⟩

theorem Indexes.setTried (h : Indexes am) (nKBucket : TriedBucket) (vTried : List ℤ) :
    Indexes (am.setTried nKBucket vTried) := ⟨h.addr, h.fresh, h.random⟩

/-- The position that an entry knows. -/
theorem Indexes.exists_position (h : Indexes am) (hlookup : am.mapInfo.lookup nId = some info) :
    ∃ i : ℕ, info.nRandomPos = i ∧ am.vRandom[i]? = some nId := by
  have hpos : am.position nId = some info.nRandomPos := by
    rw [position, hlookup, Option.map_some]
  exact (h.random nId _).mp hpos

/-- An entry leaves `mapInfo` and both indexes after it has been swapped to the end. -/
theorem Indexes.remove (h : Indexes am) (hlookup : am.mapInfo.lookup nId = some info)
    (hlast : am.vRandom[am.vRandom.length - 1]? = some nId) (nNew : ℤ) :
    Indexes { am with
      vRandom := am.vRandom.dropLast
      mapAddr := am.mapAddr.erase info.toCNetAddr
      mapInfo := am.mapInfo.erase nId
      nNew := nNew } where
  addr addr nId' := by
    have hself : am.mapAddr.lookup info.toCNetAddr = some nId :=
      (h.addr _ _).mpr ⟨info, hlookup, rfl⟩
    by_cases haddr : addr = info.toCNetAddr
    · rw [haddr, Finmap.lookup_erase]
      constructor
      · intro hnone
        exact absurd hnone (by simp)
      · rintro ⟨info', hlookup', heq⟩
        have hne : nId' ≠ nId := by
          rintro rfl
          rw [Finmap.lookup_erase] at hlookup'
          exact absurd hlookup' (by simp)
        rw [Finmap.lookup_erase_ne hne] at hlookup'
        have hother := (h.addr _ _).mpr ⟨info', hlookup', heq⟩
        exact absurd (Option.some.inj (hother.symm.trans hself)) hne
    · rw [Finmap.lookup_erase_ne haddr, h.addr]
      by_cases hid : nId' = nId
      · rw [hid, hlookup, Finmap.lookup_erase]
        constructor
        · rintro ⟨info', hinfo', heq⟩
          exact absurd (heq.symm.trans (congrArg (fun i ↦ i.toCNetAddr) (Option.some.inj hinfo').symm)) haddr
        · rintro ⟨info', hinfo', -⟩
          exact absurd hinfo' (by simp)
      · rw [Finmap.lookup_erase_ne hid]
  fresh nId' info' hlookup' := by
    by_cases hid : nId' = nId
    · rw [hid, Finmap.lookup_erase] at hlookup'
      exact absurd hlookup' (by simp)
    · rw [Finmap.lookup_erase_ne hid] at hlookup'
      exact h.fresh nId' info' hlookup'
  random := by
    have hposition : position { am with
        vRandom := am.vRandom.dropLast
        mapAddr := am.mapAddr.erase info.toCNetAddr
        mapInfo := am.mapInfo.erase nId
        nNew := nNew } = Function.update am.position nId none := by
      funext nId'
      unfold position
      by_cases hid : nId' = nId
      · rw [hid, Finmap.lookup_erase, Function.update_self, Option.map_none]
      · rw [Finmap.lookup_erase_ne hid, Function.update_of_ne hid]
    rw [hposition]
    exact h.random.dropLast hlast

variable {vNew : Finset ℤ} {nNow : ℤ} {source : CNetAddr} {addr : CAddress}

@[simp]
theorem vvNew_setNew_self {nUBucket : NewBucket} :
    (am.setNew nUBucket vNew).vvNew nUBucket = vNew := Function.update_self _ _ _

@[simp]
theorem vvNew_setNew_of_ne {nUBucket n : NewBucket} (h : n ≠ nUBucket) :
    (am.setNew nUBucket vNew).vvNew n = am.vvNew n := Function.update_of_ne h _ _

theorem setNew_updateInfo {nUBucket : NewBucket} {f : CAddrInfo → CAddrInfo} :
    (am.updateInfo nId f).setNew nUBucket vNew = (am.setNew nUBucket vNew).updateInfo nId f := by
  have hlookup : (am.setNew nUBucket vNew).mapInfo.lookup nId = am.mapInfo.lookup nId := rfl
  unfold updateInfo
  rw [hlookup]
  cases am.mapInfo.lookup nId <;> rfl

/-- One more reference is owed to an id. -/
def oneMore (owed : ℤ → ℕ) (nId n : ℤ) : ℕ := if n = nId then owed n + 1 else owed n

@[simp]
theorem oneMore_self : oneMore owed nId nId = owed nId + 1 := if_pos rfl

theorem oneMore_of_ne {n : ℤ} (h : n ≠ nId) : oneMore owed nId n = owed n := if_neg h

/-- Taking an id out of one of its buckets leaves a reference that no bucket holds. -/
theorem Tables.setNew_erase (h : Tables hash owed am) {nUBucket : NewBucket}
    (hmem : nId ∈ am.vvNew nUBucket) :
    Tables hash (oneMore owed nId) (am.setNew nUBucket ((am.vvNew nUBucket).erase nId)) where
  entry n := by
    have hrefs := @references_erase _ _ _ _ _ am.vvNew _ _ n hmem
    have htotal : references (Function.update am.vvNew nUBucket ((am.vvNew nUBucket).erase nId)) n +
        oneMore owed nId n = references am.vvNew n + owed n := by
      rw [← hrefs, oneMore]
      split <;> omega
    have hentry := h.entry n
    rw [← htotal] at hentry
    exact hentry
  home := h.home
  nTried_eq := h.nTried_eq
  nNew_eq := h.nNew_eq
  tried_le := h.tried_le
  new_le n := by
    by_cases heq : n = nUBucket
    · rw [heq, vvNew_setNew_self]
      exact (Finset.card_le_card (Finset.erase_subset _ _)).trans (h.new_le nUBucket)
    · rw [vvNew_setNew_of_ne heq]
      exact h.new_le n

/-- Entering an id into a bucket pays a reference that was owed. -/
theorem Tables.setNew_insert (h : Tables hash (oneMore owed nId) am) {nUBucket : NewBucket}
    (hmem : nId ∉ am.vvNew nUBucket) (hroom : (am.vvNew nUBucket).card < ADDRMAN_NEW_BUCKET_SIZE) :
    Tables hash owed (am.setNew nUBucket (insert nId (am.vvNew nUBucket))) where
  entry n := by
    have hrefs := @references_insert _ _ _ _ _ am.vvNew _ _ n hmem
    have htotal : references am.vvNew n + oneMore owed nId n = references
        (Function.update am.vvNew nUBucket (insert nId (am.vvNew nUBucket))) n + owed n := by
      rw [hrefs, oneMore]
      split <;> omega
    have hentry := h.entry n
    rw [htotal] at hentry
    exact hentry
  home := h.home
  nTried_eq := h.nTried_eq
  nNew_eq := h.nNew_eq
  tried_le := h.tried_le
  new_le n := by
    by_cases heq : n = nUBucket
    · rw [heq, vvNew_setNew_self, Finset.card_insert_of_notMem hmem]
      exact hroom
    · rw [vvNew_setNew_of_ne heq]
      exact h.new_le n

/-- An entry whose last reference is held by no bucket may go. -/
theorem Tables.remove (h : Tables hash (oneMore owed nId) am)
    (hlookup : am.mapInfo.lookup nId = some info) (hcount : info.nRefCount = 1)
    (hlength : 0 < am.vRandom.length) (mapAddr : Finmap fun _ : CNetAddr ↦ ℤ) :
    Tables hash owed { am with
      vRandom := am.vRandom.dropLast
      mapAddr := mapAddr
      mapInfo := am.mapInfo.erase nId
      nNew := am.nNew - 1 } where
  entry n := by
    have hentry := h.entry n
    by_cases heq : n = nId
    · rw [heq, hlookup, oneMore_self] at hentry
      rw [heq, Finmap.lookup_erase]
      cases hentry.1 with
      | tried _ _ href _ _ => omega
      | new _ hrefs _ _ hnone =>
        have hzero : references am.vvNew nId + owed nId = 0 := by omega
        exact ⟨hzero, hnone⟩
    · rw [oneMore_of_ne heq] at hentry
      rw [Finmap.lookup_erase_ne heq]
      exact hentry
  home nKBucket n info' hmem hlookup' := by
    by_cases heq : n = nId
    · rw [heq, Finmap.lookup_erase] at hlookup'
      exact absurd hlookup' (by simp)
    · rw [Finmap.lookup_erase_ne heq] at hlookup'
      exact h.home nKBucket n info' hmem hlookup'
  nTried_eq := h.nTried_eq
  nNew_eq := by
    have hcounts := h.nNew_eq
    have hone : am.nTried + (am.nNew - 1) = ((am.vRandom.length - 1 : ℕ) : ℤ) := by omega
    rw [List.length_dropLast]
    exact hone
  tried_le := h.tried_le
  new_le := h.new_le

/-- The entry after a reference has been taken off it. -/
theorem dropReference_eq (hlookup : am.mapInfo.lookup nId = some info) :
    am.dropReference nId =
      let am₁ := am.updateInfo nId fun info ↦ { info with nRefCount := info.nRefCount - 1 }
      if info.nRefCount - 1 = 0 then
        info.nRandomPos.toNat?.bind fun nRndPos ↦
          (am₁.swapRandom nRndPos (am₁.vRandom.length - 1)).map fun am₂ ↦ { am₂ with
            vRandom := am₂.vRandom.dropLast
            mapAddr := am₂.mapAddr.erase info.toCNetAddr
            mapInfo := am₂.mapInfo.erase nId
            nNew := am₂.nNew - 1 }
      else some am₁ := by
  simp only [dropReference, lookup_updateInfo_self hlookup, bind, Option.bind]
  split
  · cases info.nRandomPos.toNat? with
    | none => rfl
    | some nRndPos =>
      simp only
      cases (updateInfo am nId _).swapRandom nRndPos _ <;> rfl
  · rfl

/-- An entry loses a reference that no bucket holds any more; with its last reference it goes. -/
theorem dropReference_spec {nUBucket : NewBucket} (hindexes : Indexes am)
    (h : Tables hash (oneMore owed nId) (am.setNew nUBucket vNew)) :
    ∃ am', am.dropReference nId = some am' ∧ Indexes am' ∧
      Tables hash owed (am'.setNew nUBucket vNew) ∧ am'.vvNew = am.vvNew := by
  have hpos : 0 < references (am.setNew nUBucket vNew).vvNew nId + oneMore owed nId nId := by
    rw [oneMore_self]
    omega
  obtain ⟨info, hlookup, hnew, hcount, hocc⟩ := h.exists_of_references hpos
  have hlookup' : am.mapInfo.lookup nId = some info := hlookup
  let am₁ := am.updateInfo nId fun info ↦ { info with nRefCount := info.nRefCount - 1 }
  have hlookup₁ : am₁.mapInfo.lookup nId = some { info with nRefCount := info.nRefCount - 1 } :=
    lookup_updateInfo_self hlookup'
  have hindexes₁ : Indexes am₁ := hindexes.updateInfo fun _ ↦ rfl
  rw [dropReference_eq hlookup']
  by_cases hlast : info.nRefCount - 1 = 0
  · obtain ⟨i, hi, hat⟩ := hindexes₁.exists_position hlookup₁
    have hlength : 0 < am₁.vRandom.length := Nat.zero_lt_of_lt (List.getElem?_eq_some_iff.mp hat).1
    have hbound : am₁.vRandom.length - 1 < am₁.vRandom.length := Nat.sub_one_lt hlength.ne'
    have hend : am₁.vRandom[am₁.vRandom.length - 1]? =
        some am₁.vRandom[am₁.vRandom.length - 1] :=
      List.getElem?_eq_getElem hbound
    obtain ⟨am₂, hswap, hindexes₂, hsame, -, hend₂⟩ := swapRandom_spec hindexes₁ hat hend
    obtain ⟨info₂, hlookup₂, hview⟩ := hsame.lookup_eq_some hlookup₁
    have haddr : info₂.toCNetAddr = info.toCNetAddr := congrArg (fun i ↦ i.toCNetAddr) hview
    have hpos₁ : Int.toNat? info.nRandomPos = some i := Int.mem_toNat?.mpr hi
    simp only [if_pos hlast, hpos₁, Option.bind_some, am₁] at hswap ⊢
    rw [hswap]
    let am₃ : CAddrMan := { am₂ with
      vRandom := am₂.vRandom.dropLast
      mapAddr := am₂.mapAddr.erase info.toCNetAddr
      mapInfo := am₂.mapInfo.erase nId
      nNew := am₂.nNew - 1 }
    refine ⟨am₃, rfl, ?_, ?_, hsame.vvNew.trans vvNew_updateInfo⟩
    · rw [← hsame.length] at hend₂
      simp only [am₃, ← haddr]
      exact hindexes₂.remove hlookup₂ hend₂ _
    · have hvvNew : (am₃.setNew nUBucket vNew).vvNew = (am.setNew nUBucket vNew).vvNew :=
        congrArg (fun vvNew : NewBucket → Finset ℤ ↦ Function.update vvNew nUBucket vNew)
          (hsame.vvNew.trans vvNew_updateInfo)
      rw [vRandom_updateInfo] at hlength
      apply (h.remove hlookup (by omega) hlength am₃.mapAddr).congr
      refine ⟨hsame.nKey.trans nKey_updateInfo, ?_, ?_, hsame.nTried.trans nTried_updateInfo,
        hsame.vvTried.trans vvTried_updateInfo,
        congrArg (· - 1) (hsame.nNew.trans nNew_updateInfo), hvvNew⟩
      · intro n
        have hview := hsame.view n
        rw [lookup_updateInfo] at hview
        change ((am₂.mapInfo.erase nId).lookup n).map tableView =
          ((am.mapInfo.erase nId).lookup n).map tableView
        by_cases heq : n = nId
        · rw [heq, Finmap.lookup_erase, Finmap.lookup_erase]
        · rw [if_neg heq] at hview
          rw [Finmap.lookup_erase_ne heq, Finmap.lookup_erase_ne heq]
          exact hview
      · have hdropLast := hsame.length
        rw [vRandom_updateInfo] at hdropLast
        exact List.length_dropLast.trans
          ((congrArg (· - 1) hdropLast).trans List.length_dropLast.symm)
  · rw [if_neg hlast]
    refine ⟨am₁, rfl, hindexes₁, ?_, vvNew_updateInfo⟩
    rw [setNew_updateInfo]
    apply h.updateInfo hlookup rfl
    · obtain ⟨hplaced, hbounds⟩ := (hlookup ▸ h.entry nId :)
      refine ⟨?_, hbounds⟩
      cases hplaced with
      | tried hin _ _ _ _ => exact absurd (hin.symm.trans hnew) (by simp)
      | new _ _ _ hle hnone =>
        rw [oneMore_self] at hcount
        push_cast at hcount
        have hless : info.nRefCount - 1 =
            ((references (am.setNew nUBucket vNew).vvNew nId + owed nId : ℕ) : ℤ) := by
          push_cast
          omega
        exact .new hnew hless (by omega) ((Int.sub_le_self _ (by decide)).trans hle) hnone
    · intro n hne
      exact (oneMore_of_ne hne).symm

theorem findTerrible_spec {nIds : List ℤ} (h : ∀ nId ∈ nIds, nId ∈ am.mapInfo) :
    ∃ found, am.findTerrible nNow nIds = some found ∧ ∀ nId ∈ found, nId ∈ nIds := by
  induction nIds with
  | nil => exact ⟨none, rfl, by simp⟩
  | cons nId nIds ih =>
    obtain ⟨info, hlookup⟩ := mem_mapInfo.mp (h nId (List.mem_cons_self ..))
    simp only [findTerrible, hlookup, bind, Option.bind]
    by_cases hterrible : info.isTerrible nNow = true
    · rw [if_pos hterrible]
      refine ⟨some nId, rfl, ?_⟩
      intro n hn
      rw [← Option.mem_some_iff.mp hn]
      exact List.mem_cons_self ..
    · rw [if_neg hterrible]
      obtain ⟨found, hfound, hmem⟩ := ih fun n hn ↦ h n (List.mem_cons_of_mem _ hn)
      exact ⟨found, hfound, fun n hn ↦ List.mem_cons_of_mem _ (hmem n hn)⟩

/-- The oldest one is found if some number leads to an entry. -/
theorem findOldest_spec {n : List ℕ} {nI : ℕ} {oldest : Option ℤ} {nIds : List ℤ}
    (h : ∀ nId ∈ nIds, nId ∈ am.mapInfo) (holdest : ∀ nId ∈ oldest, nId ∈ am.mapInfo) :
    ∃ found, am.findOldest n nI oldest nIds = some found ∧
      (∀ nId ∈ found, nId ∈ nIds ∨ nId ∈ oldest) ∧
      ((oldest ≠ none ∨ ∃ k ∈ n, nI ≤ k ∧ k < nI + nIds.length) → found ≠ none) := by
  induction nIds generalizing nI oldest with
  | nil =>
    refine ⟨oldest, rfl, fun nId hnId ↦ .inr hnId, ?_⟩
    rintro (hsome | ⟨k, -, hle, hlt⟩)
    · exact hsome
    · rw [List.length_nil] at hlt
      omega
  | cons nId nIds ih =>
    have hrest : ∀ n ∈ nIds, n ∈ am.mapInfo := fun n hn ↦ h n (List.mem_cons_of_mem _ hn)
    have hself : nId ∈ am.mapInfo := h nId (List.mem_cons_self ..)
    by_cases hnI : nI ∈ n
    · have hnext : ∃ next, next ∈ [nId] ++ oldest.toList ∧
          am.findOldest n nI oldest (nId :: nIds) = am.findOldest n (nI + 1) (some next) nIds := by
        cases oldest with
        | none =>
          refine ⟨nId, by simp, ?_⟩
          simp only [findOldest, if_pos hnI]
        | some nOldest =>
          obtain ⟨info, hlookup⟩ := mem_mapInfo.mp hself
          obtain ⟨infoOldest, hlookupOldest⟩ := mem_mapInfo.mp (holdest nOldest rfl)
          simp only [findOldest, if_pos hnI, hlookup, hlookupOldest, bind, Option.bind]
          refine ⟨_, ?_, rfl⟩
          split <;> simp
      obtain ⟨next, hmem, heq⟩ := hnext
      have hnextMem : ∀ m ∈ some next, m ∈ am.mapInfo := by
        intro m hm
        rw [← Option.mem_some_iff.mp hm]
        rw [List.singleton_append, List.mem_cons, Option.mem_toList] at hmem
        exact hmem.elim (fun hid ↦ hid ▸ hself) (holdest next)
      obtain ⟨found, hfound, hwhere, hsome⟩ := @ih (nI + 1) _ hrest hnextMem
      refine ⟨found, heq.trans hfound, ?_, fun _ ↦ hsome (.inl (by simp))⟩
      intro m hm
      rw [List.singleton_append, List.mem_cons, Option.mem_toList] at hmem
      obtain hin | hin := hwhere m hm
      · exact .inl (List.mem_cons_of_mem _ hin)
      · rw [← Option.mem_some_iff.mp hin]
        rw [List.mem_cons]
        exact hmem.imp_left .inl
    · obtain ⟨found, hfound, hwhere, hsome⟩ := @ih (nI + 1) _ hrest holdest
      refine ⟨found, ?_, fun m hm ↦ (hwhere m hm).imp_left (List.mem_cons_of_mem _), ?_⟩
      · simp only [findOldest, if_neg hnI]
        exact hfound
      · rintro (hold | ⟨k, hk, hle, hlt⟩)
        · exact hsome (.inl hold)
        · rw [List.length_cons] at hlt
          have hne : nI ≠ k := by
            rintro rfl
            exact hnI hk
          exact hsome (.inr ⟨k, hk, by omega, by omega⟩)

/-- One id leaves the bucket, and its entry loses a reference. -/
theorem shrinkNew_spec {rand : ℕ → ℕ} {nUBucket : NewBucket} (hindexes : Indexes am)
    (h : Tables hash owed am) (hne : (am.vvNew nUBucket).Nonempty) :
    ∃ nRet am' nGone, am.shrinkNew nNow rand nUBucket = some (nRet, am') ∧
      nGone ∈ am.vvNew nUBucket ∧ Indexes am' ∧ Tables hash owed am' ∧
      am'.vvNew nUBucket = (am.vvNew nUBucket).erase nGone := by
  have hmem : ∀ nId ∈ (am.vvNew nUBucket).sort, nId ∈ am.mapInfo := fun nId hnId ↦
    h.mem_of_mem_new ((Finset.mem_sort _).mp hnId)
  have hdrop : ∀ nGone ∈ am.vvNew nUBucket, ∃ am', am.dropReference nGone = some am' ∧
      Indexes (am'.setNew nUBucket ((am'.vvNew nUBucket).erase nGone)) ∧
      Tables hash owed (am'.setNew nUBucket ((am'.vvNew nUBucket).erase nGone)) ∧
      am'.vvNew = am.vvNew := by
    intro nGone hgone
    obtain ⟨am', hdropped, hindexes', htables', hvvNew⟩ := dropReference_spec hindexes
      (h.setNew_erase hgone)
    rw [← hvvNew] at htables'
    exact ⟨am', hdropped, hindexes'.setNew _ _, htables', hvvNew⟩
  obtain ⟨found, hfound, hfoundMem⟩ := @findTerrible_spec _ nNow _ hmem
  simp only [shrinkNew, hfound]
  cases found with
  | some nGone =>
    have hgone : nGone ∈ am.vvNew nUBucket := (Finset.mem_sort _).mp (hfoundMem nGone rfl)
    obtain ⟨am', hdropped, hindexes', htables', hvvNew⟩ := hdrop nGone hgone
    simp only [bind, Option.bind, hdropped, pure]
    refine ⟨0, _, nGone, rfl, hgone, hindexes', htables', ?_⟩
    rw [vvNew_setNew_self, hvvNew]
  | none =>
    have hcard : 0 < (am.vvNew nUBucket).card := Finset.card_pos.mpr hne
    obtain ⟨oldest, holdest, hwhere, hsome⟩ := @findOldest_spec am
      ((List.range 4).map fun i ↦ getRandInt (rand i) (am.vvNew nUBucket).card) 0 none _ hmem (by simp)
    have hfirst : getRandInt (rand 0) (am.vvNew nUBucket).card < (am.vvNew nUBucket).card := by
      rw [getRandInt, if_neg hcard.ne']
      exact Nat.mod_lt _ hcard
    have hfoundOldest : oldest ≠ none := by
      apply hsome (.inr ⟨_, List.mem_map.mpr ⟨0, by decide, rfl⟩, Nat.zero_le _, ?_⟩)
      rw [Nat.zero_add, Finset.length_sort]
      exact hfirst
    obtain ⟨nGone, rfl⟩ := Option.ne_none_iff_exists'.mp hfoundOldest
    have hgone : nGone ∈ am.vvNew nUBucket := by
      obtain hin | hin := hwhere nGone rfl
      · exact (Finset.mem_sort _).mp hin
      · exact absurd hin (by simp)
    obtain ⟨am', hdropped, hindexes', htables', hvvNew⟩ := hdrop nGone hgone
    simp only [bind, Option.bind, holdest, hdropped, pure]
    refine ⟨1, _, nGone, rfl, hgone, hindexes', htables', ?_⟩
    rw [vvNew_setNew_self, hvvNew]

theorem addReference_spec {rand : ℕ → ℕ} (hindexes : Indexes am)
    (hlookup : am.mapInfo.lookup nId = some info)
    (hstays : ∀ nUBucket, nId ∈ am.vvNew nUBucket → Tables hash (fun _ ↦ 0) am)
    (hmore : Tables hash (oneMore (fun _ ↦ 0) nId)
      (am.updateInfo nId fun info ↦ { info with nRefCount := info.nRefCount + 1 })) :
    ∃ am', am.addReference hash nNow rand nId source = some am' ∧ Inv hash am' := by
  simp only [addReference, hlookup, bind, Option.bind]
  generalize info.getNewBucketOf hash am.nKey source = nUBucket
  by_cases hmem : nId ∈ am.vvNew nUBucket
  · rw [if_pos hmem]
    exact ⟨am, rfl, hindexes, hstays nUBucket hmem⟩
  · rw [if_neg hmem]
    have hindexes₁ : Indexes
        (am.updateInfo nId fun info ↦ { info with nRefCount := info.nRefCount + 1 }) :=
      hindexes.updateInfo fun _ ↦ rfl
    by_cases hfull : (am.vvNew nUBucket).card = ADDRMAN_NEW_BUCKET_SIZE
    · rw [if_pos hfull]
      have hne : ((am.updateInfo nId fun info ↦
          { info with nRefCount := info.nRefCount + 1 }).vvNew nUBucket).Nonempty := by
        rw [vvNew_updateInfo]
        exact Finset.card_pos.mp (hfull ▸ by decide)
      obtain ⟨nRet, am', nGone, hshrunk, hgone, hindexes', htables', hvvNew⟩ :=
        @shrinkNew_spec _ _ _ nNow rand _ hindexes₁ hmore hne
      rw [vvNew_updateInfo] at hgone hvvNew
      rw [hshrunk]
      refine ⟨_, rfl, hindexes'.setNew _ _, htables'.setNew_insert ?_ ?_⟩
      · rw [hvvNew]
        exact fun hin ↦ hmem (Finset.mem_of_mem_erase hin)
      · rw [hvvNew, Finset.card_erase_of_mem hgone, hfull]
        decide
    · rw [if_neg hfull]
      refine ⟨_, rfl, hindexes₁.setNew _ _, hmore.setNew_insert ?_ ?_⟩
      · rw [vvNew_updateInfo]
        exact hmem
      · have hle := hmore.new_le nUBucket
        rw [vvNew_updateInfo] at hle ⊢
        exact lt_of_le_of_ne hle hfull

theorem Indexes.mapAddr_eq_none (h : Indexes am) {addr : CNetAddr} (hfind : am.find addr = none) :
    am.mapAddr.lookup addr = none := by
  unfold find at hfind
  cases haddr : am.mapAddr.lookup addr with
  | none => rfl
  | some nId =>
    obtain ⟨info, hlookup, -⟩ := (h.addr addr nId).mp haddr
    simp [haddr, hlookup] at hfind

theorem Indexes.lookup_nIdCount (h : Indexes am) : am.mapInfo.lookup am.nIdCount = none := by
  cases hlookup : am.mapInfo.lookup am.nIdCount with
  | none => rfl
  | some info => exact absurd (h.fresh _ info hlookup) (lt_irrefl _)

theorem increment_eq_some {n m : ℤ} : increment n = some m ↔ n ≠ 2 ^ 31 - 1 ∧ m = n + 1 := by
  unfold increment
  split
  · next hlast =>
    constructor
    · intro hnone
      cases hnone
    · rintro ⟨hfits, -⟩
      exact absurd hlast hfits
  · next hfits =>
    constructor
    · intro hsome
      exact ⟨hfits, (Option.some.inj hsome).symm⟩
    · rintro ⟨-, rfl⟩
      rfl

/-- The manager with a new entry, which has no references yet. -/
def entered (am : CAddrMan) (addr : CAddress) (source : CNetAddr) : CAddrMan :=
  { am with
    nIdCount := am.nIdCount + 1
    mapInfo := am.mapInfo.insert am.nIdCount
      { CAddrInfo.ofAddress addr source with nRandomPos := am.vRandom.length }
    mapAddr := am.mapAddr.insert addr.toCNetAddr am.nIdCount
    vRandom := am.vRandom ++ [am.nIdCount] }

theorem create_eq_some :
    am.create addr source = some (nId, am') ↔
      am.nIdCount ≠ 2 ^ 31 - 1 ∧ nId = am.nIdCount ∧ am' = am.entered addr source := by
  simp only [create, Option.bind_eq_bind, Option.bind_eq_some_iff, increment_eq_some, pure,
    Option.some.injEq, Prod.mk.injEq]
  constructor
  · rintro ⟨nIdCount, ⟨hfits, rfl⟩, rfl, rfl⟩
    exact ⟨hfits, rfl, rfl⟩
  · rintro ⟨hfits, rfl, rfl⟩
    exact ⟨_, ⟨hfits, rfl⟩, rfl, rfl⟩

theorem lookup_entered :
    (am.entered addr source).mapInfo.lookup nId = if nId = am.nIdCount then
      some { CAddrInfo.ofAddress addr source with nRandomPos := am.vRandom.length }
        else am.mapInfo.lookup nId := by
  split
  · next heq =>
    rw [heq]
    exact Finmap.lookup_insert _
  · next hne => exact Finmap.lookup_insert_of_ne _ hne

theorem Indexes.entered (h : Indexes am) (hnone : am.mapAddr.lookup addr.toCNetAddr = none) :
    Indexes (am.entered addr source) where
  addr addr' n := by
    have hfresh := h.lookup_nIdCount
    have haddr : (am.entered addr source).mapAddr.lookup addr' =
        if addr' = addr.toCNetAddr then some am.nIdCount else am.mapAddr.lookup addr' := by
      split
      · next heq =>
        rw [heq]
        exact Finmap.lookup_insert _
      · next hne => exact Finmap.lookup_insert_of_ne _ hne
    rw [lookup_entered, haddr]
    by_cases hn : n = am.nIdCount
    · rw [if_pos hn]
      split
      · next heq =>
        simp only [hn, Option.some.injEq, exists_eq_left', true_iff]
        exact heq.symm
      · next hne =>
        rw [h.addr, hn, hfresh]
        simp only [reduceCtorEq, false_and, exists_false, Option.some.injEq, exists_eq_left', false_iff]
        exact fun heq ↦ hne heq.symm
    · rw [if_neg hn]
      split
      · next heq =>
        have hold : ¬ ∃ info, am.mapInfo.lookup n = some info ∧ info.toCNetAddr = addr' := by
          rw [← h.addr, heq, hnone]
          simp
        simp only [Option.some.injEq, iff_false_right hold]
        exact fun heq' ↦ hn heq'.symm
      · rw [h.addr]
  fresh n info hlookup := by
    change n < am.nIdCount + 1
    by_cases hn : n = am.nIdCount
    · omega
    · rw [lookup_entered, if_neg hn] at hlookup
      have hlt := h.fresh n info hlookup
      omega
  random := by
    have hposition : (am.entered addr source).position =
        Function.update am.position am.nIdCount (some am.vRandom.length) := by
      funext n
      by_cases hn : n = am.nIdCount
      · rw [hn, Function.update_self, position, lookup_entered, if_pos rfl, Option.map_some]
      · rw [Function.update_of_ne hn, position, lookup_entered, if_neg hn, position]
    rw [hposition]
    apply h.random.append
    rw [position, h.lookup_nIdCount, Option.map_none]

/-- A new entry has one reference, which no bucket holds yet. -/
theorem Tables.enter (h : Tables hash (fun _ ↦ 0) am) (hnone : am.mapInfo.lookup nId = none)
    (hin : info.fInTried = false) (hcount : info.nRefCount = 1) (htry : info.nLastTry = 0)
    (hsuccess : info.nLastSuccess = 0) (nIdCount : ℤ) (mapAddr : Finmap fun _ : CNetAddr ↦ ℤ) :
    Tables hash (oneMore (fun _ ↦ 0) nId) { am with
      nIdCount := nIdCount
      mapInfo := am.mapInfo.insert nId info
      mapAddr := mapAddr
      vRandom := am.vRandom ++ [nId]
      nNew := am.nNew + 1 } where
  entry n := by
    have hentry := h.entry n
    by_cases hn : n = nId
    · rw [hn, hnone] at hentry
      rw [hn, Finmap.lookup_insert, oneMore_self]
      have href : references am.vvNew nId = 0 := hentry.1
      refine ⟨.new hin ?_ (Nat.succ_pos _) (hcount ▸ by decide) hentry.2, htry.ge, hsuccess.ge⟩
      simp only [href, hcount]
      rfl
    · rw [oneMore_of_ne hn, Finmap.lookup_insert_of_ne _ hn]
      exact hentry
  home nKBucket n info' hmem hlookup' := by
    have hnotMem : nId ∉ am.mapInfo := Finmap.lookup_eq_none.mp hnone
    have hn : n ≠ nId := by
      rintro rfl
      exact hnotMem (h.mem_of_mem_tried hmem)
    rw [Finmap.lookup_insert_of_ne _ hn] at hlookup'
    exact h.home nKBucket n info' hmem hlookup'
  nTried_eq := h.nTried_eq
  nNew_eq := by
    have hcounts := h.nNew_eq
    have hone : am.nTried + (am.nNew + 1) = ((am.vRandom.length + 1 : ℕ) : ℤ) := by
      push_cast
      omega
    rw [List.length_append]
    exact hone
  tried_le := h.tried_le
  new_le := h.new_le

end CAddrMan

end Electra.Net
