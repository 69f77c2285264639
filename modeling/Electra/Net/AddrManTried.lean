import Electra.Net.AddrManMoves

/-!
# Moves into the tried table

An entry that is found good leaves all new buckets for its tried bucket.  If that is full, one of its
entries goes back to a new bucket.
-/

namespace Electra.Net

open Chain Foundations.BucketTable Foundations.PositionIndex

namespace CAddrMan

variable {am am' : CAddrMan} {nId : ℤ} {info : CAddrInfo} {hash : List UInt8 → Uint256}

/-! ## The entry to replace -/

variable {rand : ℕ → ℕ} {nKBucket : TriedBucket} {nOrigin : NewBucket}

theorem selectTriedLoop_spec {nTurns i : ℕ} {vTried : List ℤ} {oldest : Option (ℤ × ℕ)}
    (h : ∀ nId ∈ vTried, nId ∈ am.mapInfo)
    (holdest : ∀ found ∈ oldest, found.1 ∈ am.mapInfo ∧ found.2 < vTried.length) :
    ∃ vTried' oldest', am.selectTriedLoop rand nTurns i vTried oldest = some (vTried', oldest') ∧
      vTried'.Perm vTried ∧ (∀ found ∈ oldest', found.2 < vTried'.length) ∧
      ((oldest ≠ none ∨ 0 < nTurns ∧ i < vTried.length) → oldest' ≠ none) := by
  induction nTurns generalizing i vTried oldest with
  | zero =>
    refine ⟨vTried, oldest, rfl, .refl _, fun found hfound ↦ (holdest found hfound).2, ?_⟩
    rintro (hsome | ⟨hpos, -⟩)
    · exact hsome
    · exact absurd hpos (lt_irrefl _)
  | succ nTurns ih =>
    by_cases hi : i < vTried.length
    · have hnPos : getRandInt (rand i) (vTried.length - i) + i < vTried.length := by
        rw [getRandInt, if_neg (Nat.sub_ne_zero_of_lt hi)]
        have hmod := Nat.mod_lt (rand i) (Nat.sub_pos_of_lt hi)
        omega
      have hat := List.getElem?_eq_getElem hnPos
      have hfirst := List.getElem?_eq_getElem hi
      have hperm := List.set_set_perm hnPos hi
      have hmem : ∀ nId ∈ (vTried.set (getRandInt (rand i) (vTried.length - i) + i) vTried[i]).set i
          (vTried[getRandInt (rand i) (vTried.length - i) + i]), nId ∈ am.mapInfo :=
        fun nId hnId ↦ h nId (hperm.mem_iff.mp hnId)
      have hnext : ∃ next : ℤ × ℕ, next.1 ∈ am.mapInfo ∧ next.2 < vTried.length ∧
          am.selectTriedLoop rand (nTurns + 1) i vTried oldest =
            am.selectTriedLoop rand nTurns (i + 1)
              ((vTried.set (getRandInt (rand i) (vTried.length - i) + i) vTried[i]).set i
                (vTried[getRandInt (rand i) (vTried.length - i) + i])) (some next) := by
        have htemp := h _ (List.getElem_mem hnPos)
        cases oldest with
        | none =>
          refine ⟨(_, getRandInt (rand i) (vTried.length - i) + i), htemp, hnPos, ?_⟩
          simp only [selectTriedLoop, if_pos hi, hat, hfirst, bind, Option.bind]
        | some found =>
          obtain ⟨nOldest, nOldestPos⟩ := found
          obtain ⟨hold, hlt⟩ := holdest _ rfl
          obtain ⟨info, hinfo⟩ := mem_mapInfo.mp htemp
          obtain ⟨infoOldest, hinfoOldest⟩ := mem_mapInfo.mp hold
          simp only [selectTriedLoop, if_pos hi, hat, hfirst, hinfo, hinfoOldest, bind, Option.bind]
          refine ⟨_, ?_, ?_, rfl⟩
          · split
            · exact htemp
            · exact hold
          · split
            · exact hnPos
            · exact hlt
      obtain ⟨next, hnextMem, hnextLt, heq⟩ := hnext
      obtain ⟨vTried', oldest', hloop, hperm', hlt', hsome⟩ := @ih (i + 1) _ (some next) hmem
        (by
          intro found hfound
          rw [← Option.mem_some_iff.mp hfound, hperm.length_eq]
          exact ⟨hnextMem, hnextLt⟩)
      exact ⟨vTried', oldest', heq.trans hloop, hperm'.trans hperm, hlt', fun _ ↦ hsome (.inl (by simp))⟩
    · refine ⟨vTried, oldest, ?_, .refl _, fun found hfound ↦ (holdest found hfound).2, ?_⟩
      · simp only [selectTriedLoop, if_neg hi]
      · rintro (hsome | ⟨-, hlt⟩)
        · exact hsome
        · exact absurd hlt hi

/-- A bucket with entries has one to replace, and keeps them all. -/
theorem selectTried_spec (h : ∀ nId ∈ am.vvTried nKBucket, nId ∈ am.mapInfo)
    (hne : 0 < (am.vvTried nKBucket).length) :
    ∃ vTried nPos, am.selectTried rand nKBucket = some (vTried, some nPos) ∧
      vTried.Perm (am.vvTried nKBucket) ∧ nPos < vTried.length := by
  obtain ⟨vTried, oldest, hloop, hperm, hlt, hsome⟩ := @selectTriedLoop_spec _ rand
    ADDRMAN_TRIED_ENTRIES_INSPECT_ON_EVICT 0 _ none h (by simp)
  obtain ⟨found, rfl⟩ := Option.ne_none_iff_exists'.mp (hsome (.inr ⟨by decide, hne⟩))
  refine ⟨vTried, found.2, ?_, hperm, hlt found rfl⟩
  simp only [selectTried, hloop, bind, Option.bind, pure, Option.map_some]

/-! ## Leaving the new buckets -/

theorem lookup_eraseNew {n : ℤ} (hlookup : am.mapInfo.lookup nId = some info)
    (hcount : info.nRefCount = references am.vvNew nId) : (am.eraseNew nId).mapInfo.lookup n =
      if n = nId then some { info with nRefCount := 0 } else am.mapInfo.lookup n := by
  have hzero : info.nRefCount -
      ((Finset.univ.filter fun nUBucket ↦ nId ∈ am.vvNew nUBucket).card : ℤ) = 0 := by
    rw [hcount]
    exact sub_self _
  have hcalc : (am.eraseNew nId).mapInfo.lookup n = if n = nId then
      (am.mapInfo.lookup nId).map fun info ↦ { info with nRefCount := info.nRefCount -
        ((Finset.univ.filter fun nUBucket ↦ nId ∈ am.vvNew nUBucket).card : ℤ) }
      else am.mapInfo.lookup n := lookup_updateInfo
  rw [hcalc, hlookup, Option.map_some, hzero]

@[simp]
theorem nKey_eraseNew : (am.eraseNew nId).nKey = am.nKey := nKey_updateInfo

@[simp]
theorem vRandom_eraseNew : (am.eraseNew nId).vRandom = am.vRandom := vRandom_updateInfo

@[simp]
theorem nTried_eraseNew : (am.eraseNew nId).nTried = am.nTried := nTried_updateInfo

@[simp]
theorem vvTried_eraseNew : (am.eraseNew nId).vvTried = am.vvTried := vvTried_updateInfo

@[simp]
theorem nNew_eraseNew : (am.eraseNew nId).nNew = am.nNew - 1 :=
  congrArg (· - 1) nNew_updateInfo

@[simp]
theorem vvNew_eraseNew : (am.eraseNew nId).vvNew = fun nUBucket ↦ (am.vvNew nUBucket).erase nId := by
  simp only [eraseNew, vvNew_updateInfo]

theorem Indexes.eraseNew (h : Indexes am) : Indexes (am.eraseNew nId) := by
  have hupdated : Indexes (am.updateInfo nId fun info ↦ { info with nRefCount := info.nRefCount -
      ((Finset.univ.filter fun nUBucket ↦ nId ∈ am.vvNew nUBucket).card : ℤ) }) :=
    h.updateInfo fun _ ↦ rfl
  exact ⟨hupdated.addr, hupdated.fresh, hupdated.random⟩

/-- What an entry looks like in the tried table. -/
def triedEntry (info : CAddrInfo) : CAddrInfo := { info with nRefCount := 0, fInTried := true }

/-- What an entry looks like that went back to one new bucket. -/
def evictedEntry (info : CAddrInfo) : CAddrInfo := { info with fInTried := false, nRefCount := 1 }

theorem entryOk_tried {r o : ℕ} (hr : r = 0) (ho : o = 1) (hsuccess : info.nLastSuccess ≠ 0)
    (htimes : 0 ≤ info.nLastTry ∧ 0 ≤ info.nLastSuccess) : EntryOk r o (some (triedEntry info)) :=
  ⟨.tried rfl rfl hr ho hsuccess, htimes⟩

theorem entryOk_evicted {r o : ℕ} (hr : r = 1) (ho : o = 0)
    (htimes : 0 ≤ info.nLastTry ∧ 0 ≤ info.nLastSuccess) : EntryOk r o (some (evictedEntry info)) := by
  subst hr
  exact ⟨.new rfl rfl Nat.one_pos (by decide : (1 : ℤ) ≤ 4) ho, htimes⟩

/-- The state of the tables after an entry has been appended to its tried bucket. -/
theorem Tables.append (h : Tables hash (fun _ ↦ 0) am) (hlookup : am.mapInfo.lookup nId = some info)
    (hin : info.fInTried = false) (hsuccess : info.nLastSuccess ≠ 0)
    (hbucket : info.getTriedBucket hash am.nKey = nKBucket)
    (hroom : (am.vvTried nKBucket).length < ADDRMAN_TRIED_BUCKET_SIZE)
    (hafter : ∀ n, am'.mapInfo.lookup n =
      if n = nId then some (triedEntry info) else am.mapInfo.lookup n) (hnKey : am'.nKey = am.nKey)
    (hvRandom : am'.vRandom = am.vRandom) (hnTried : am'.nTried = am.nTried + 1)
    (hnNew : am'.nNew = am.nNew - 1)
    (hvvTried : am'.vvTried = Function.update am.vvTried nKBucket (am.vvTried nKBucket ++ [nId]))
    (hvvNew : am'.vvNew = fun nUBucket ↦ (am.vvNew nUBucket).erase nId) :
    Tables hash (fun _ ↦ 0) am' where
  entry n := by
    have hentry := h.entry n
    have hrefs : references am'.vvNew n = if n = nId then 0 else references am.vvNew n := by
      rw [hvvNew, references_eraseAll]
    have hoccs : occurrences am'.vvTried n =
        occurrences am.vvTried n + if n = nId then 1 else 0 := by
      rw [hvvTried, occurrences_append]
    rw [hafter]
    by_cases hn : n = nId
    · rw [hn, hlookup] at hentry
      rw [if_pos hn] at hrefs hoccs ⊢
      cases hentry.1 with
      | tried hin' _ _ _ _ => exact absurd (hin'.symm.trans hin) (by simp)
      | new _ _ _ _ hnone =>
        rw [hn] at hoccs hrefs ⊢
        rw [hnone] at hoccs
        exact entryOk_tried hrefs hoccs hsuccess hentry.2
    · rw [if_neg hn] at hrefs hoccs ⊢
      rw [hrefs, hoccs]
      simp only [Nat.add_zero] at hentry ⊢
      exact hentry
  home nKBucket' n info' hmem hlookup' := by
    rw [hafter] at hlookup'
    rw [hvvTried] at hmem
    rw [hnKey]
    by_cases hn : n = nId
    · rw [if_pos hn, Option.some.injEq] at hlookup'
      have hbucket' : info'.getTriedBucket hash am.nKey = nKBucket := by
        rw [← hlookup']
        exact hbucket
      by_cases hk : nKBucket' = nKBucket
      · rw [hk]
        exact hbucket'
      · rw [Function.update_of_ne hk, hn] at hmem
        have hpos := occurrences_pos hmem
        cases h.placed hlookup with
        | tried hin' _ _ _ _ => exact absurd (hin'.symm.trans hin) (by simp)
        | new _ _ _ _ hnone => exact absurd hnone hpos.ne'
    · rw [if_neg hn] at hlookup'
      apply h.home nKBucket' n info' _ hlookup'
      by_cases hk : nKBucket' = nKBucket
      · rw [hk, Function.update_self, List.mem_append, List.mem_singleton] at hmem
        rw [hk]
        exact hmem.resolve_right hn
      · rw [Function.update_of_ne hk] at hmem
        exact hmem
  nTried_eq := by
    rw [hnTried, hvvTried, size_append, h.nTried_eq]
    push_cast
    rfl
  nNew_eq := by
    have hcounts := h.nNew_eq
    rw [hnTried, hnNew, hvRandom]
    omega
  tried_le n := by
    rw [hvvTried]
    by_cases hk : n = nKBucket
    · rw [hk, Function.update_self, List.length_append, List.length_singleton]
      exact hroom
    · rw [Function.update_of_ne hk]
      exact h.tried_le n
  new_le n := by
    rw [hvvNew]
    exact (Finset.card_le_card (Finset.erase_subset _ _)).trans (h.new_le n)

/-- The state of the tables after an entry has taken the place of another one. -/
theorem Tables.replace (h : Tables hash (fun _ ↦ 0) am) (hlookup : am.mapInfo.lookup nId = some info)
    (hin : info.fInTried = false) (hsuccess : info.nLastSuccess ≠ 0)
    (hbucket : info.getTriedBucket hash am.nKey = nKBucket) {vTried : List ℤ}
    (hperm : vTried.Perm (am.vvTried nKBucket)) {nPos : ℕ} {nIdOld : ℤ}
    (hat : vTried[nPos]? = some nIdOld) {infoOld : CAddrInfo}
    (hlookupOld : am.mapInfo.lookup nIdOld = some infoOld) {nUBucket : NewBucket}
    (hroom : ((am.vvNew nUBucket).erase nId).card < ADDRMAN_NEW_BUCKET_SIZE)
    (hafter : ∀ n, am'.mapInfo.lookup n = if n = nId then some (triedEntry info)
      else if n = nIdOld then some (evictedEntry infoOld) else am.mapInfo.lookup n)
    (hnKey : am'.nKey = am.nKey) (hvRandom : am'.vRandom = am.vRandom)
    (hnTried : am'.nTried = am.nTried) (hnNew : am'.nNew = am.nNew)
    (hvvTried : am'.vvTried = Function.update am.vvTried nKBucket (vTried.set nPos nId))
    (hvvNew : am'.vvNew = Function.update (fun nUBucket ↦ (am.vvNew nUBucket).erase nId) nUBucket
      (insert nIdOld ((am.vvNew nUBucket).erase nId))) :
    Tables hash (fun _ ↦ 0) am' := by
  have hmemOld : nIdOld ∈ am.vvTried nKBucket := hperm.mem_iff.mp (List.mem_of_getElem? hat)
  have hocc : occurrences am.vvTried nId = 0 := by
    cases h.placed hlookup with
    | tried hin' _ _ _ _ => exact absurd (hin'.symm.trans hin) (by simp)
    | new _ _ _ _ hnone => exact hnone
  have hne : nIdOld ≠ nId := by
    rintro rfl
    exact (occurrences_pos hmemOld).ne' hocc
  have hrefOld : references am.vvNew nIdOld = 0 ∧ occurrences am.vvTried nIdOld = 1 := by
    cases h.placed hlookupOld with
    | tried _ _ href honce _ => exact ⟨href, honce⟩
    | new _ _ _ _ hnone => exact absurd hnone (occurrences_pos hmemOld).ne'
  have hnotMem : nIdOld ∉ (am.vvNew nUBucket).erase nId := fun hmem ↦
    references_eq_zero.mp hrefOld.1 nUBucket (Finset.mem_of_mem_erase hmem)
  have hrefs : ∀ n, references am'.vvNew n =
      (if n = nId then 0 else references am.vvNew n) + if n = nIdOld then 1 else 0 := by
    intro n
    rw [hvvNew, ← references_eraseAll]
    exact @references_insert _ _ _ _ _ (fun nUBucket ↦ (am.vvNew nUBucket).erase nId) _ _ _ hnotMem
  have hoccs : ∀ n, occurrences am'.vvTried n + (if n = nIdOld then 1 else 0) =
      occurrences am.vvTried n + if n = nId then 1 else 0 := by
    intro n
    have hset := @occurrences_set _ _ _ _ _ (Function.update am.vvTried nKBucket vTried) nKBucket
      (p := nPos) (a := nIdOld) (b := n) (c := nId) (by rw [Function.update_self]; exact hat)
    rw [Function.update_self, Function.update_idem, occurrences_perm hperm] at hset
    rw [hvvTried]
    exact hset
  refine ⟨?_, ?_, ?_, ?_, ?_, ?_⟩
  · intro n
    have hentry := h.entry n
    have hr := hrefs n
    have ho := hoccs n
    rw [hafter]
    by_cases hnew : n = nId
    · rw [hnew, hlookup] at hentry
      rw [if_pos hnew]
      rw [hnew] at hr ho ⊢
      rw [if_pos rfl, if_neg hne.symm] at hr ho
      exact entryOk_tried hr (by omega) hsuccess hentry.2
    · rw [if_neg hnew] at hr ho ⊢
      by_cases hold : n = nIdOld
      · rw [hold, hlookupOld] at hentry
        rw [if_pos hold]
        rw [hold] at hr ho ⊢
        rw [if_pos rfl] at hr ho
        exact entryOk_evicted (by omega) (by omega) hentry.2
      · rw [if_neg hold] at hr ho ⊢
        simp only [Nat.add_zero] at hr ho hentry ⊢
        rw [hr, ho]
        exact hentry
  · intro nKBucket' n info' hmem hlookup'
    rw [hafter] at hlookup'
    rw [hvvTried] at hmem
    rw [hnKey]
    by_cases hk : nKBucket' = nKBucket
    · rw [hk]
      rw [hk, Function.update_self] at hmem
      by_cases hnew : n = nId
      · rw [if_pos hnew, Option.some.injEq] at hlookup'
        rw [← hlookup']
        exact hbucket
      · rw [if_neg hnew] at hlookup'
        have hmem' : n ∈ am.vvTried nKBucket :=
          hperm.mem_iff.mp ((List.mem_or_eq_of_mem_set hmem).resolve_right hnew)
        by_cases hold : n = nIdOld
        · rw [if_pos hold, Option.some.injEq] at hlookup'
          rw [← hlookup']
          exact h.home nKBucket nIdOld infoOld hmemOld hlookupOld
        · rw [if_neg hold] at hlookup'
          exact h.home nKBucket n info' hmem' hlookup'
    · rw [Function.update_of_ne hk] at hmem
      have hpos := occurrences_pos hmem
      have hnew : n ≠ nId := by
        rintro rfl
        exact hpos.ne' hocc
      rw [if_neg hnew] at hlookup'
      by_cases hold : n = nIdOld
      · rw [hold] at hmem
        have hhome := h.home nKBucket' nIdOld infoOld hmem hlookupOld
        exact absurd (hhome.symm.trans (h.home nKBucket nIdOld infoOld hmemOld hlookupOld)) hk
      · rw [if_neg hold] at hlookup'
        exact h.home nKBucket' n info' hmem hlookup'
  · have hsize : size (Function.update am.vvTried nKBucket (vTried.set nPos nId)) = size am.vvTried := by
      have hset := @size_set _ _ _ _ (Function.update am.vvTried nKBucket vTried) nKBucket
        (p := nPos) (c := nId)
      rw [Function.update_self, Function.update_idem, size_perm hperm] at hset
      exact hset
    rw [hnTried, hvvTried, hsize]
    exact h.nTried_eq
  · rw [hnTried, hnNew, hvRandom]
    exact h.nNew_eq
  · intro n
    rw [hvvTried]
    by_cases hk : n = nKBucket
    · rw [hk, Function.update_self, List.length_set, hperm.length_eq]
      exact h.tried_le nKBucket
    · rw [Function.update_of_ne hk]
      exact h.tried_le n
  · intro n
    rw [hvvNew]
    by_cases hu : n = nUBucket
    · rw [hu, Function.update_self, Finset.card_insert_of_notMem hnotMem]
      exact hroom
    · rw [Function.update_of_ne hu]
      exact (Finset.card_le_card (Finset.erase_subset _ _)).trans (h.new_le n)

/-- The bucket to which an evicted entry goes back has room for it. -/
theorem card_erase_lt {nUBucket : NewBucket} (h : Tables hash (fun _ ↦ 0) am)
    (hmem : nId ∈ am.vvNew nOrigin) (hcase : nUBucket = nOrigin ∨
      ((am.vvNew nUBucket).erase nId).card < ADDRMAN_NEW_BUCKET_SIZE) :
    ((am.vvNew nUBucket).erase nId).card < ADDRMAN_NEW_BUCKET_SIZE := by
  obtain heq | hlt := hcase
  · rw [heq, Finset.card_erase_of_mem hmem]
    have hle := h.new_le nOrigin
    have hpos : 0 < (am.vvNew nOrigin).card := Finset.card_pos.mpr ⟨nId, hmem⟩
    omega
  · exact hlt

theorem replaceTried_spec {vTried : List ℤ} {nPos : ℕ} (h : Inv hash am)
    (hlookup : am.mapInfo.lookup nId = some info) (hin : info.fInTried = false)
    (hsuccess : info.nLastSuccess ≠ 0) (hmem : nId ∈ am.vvNew nOrigin)
    (hbucket : info.getTriedBucket hash am.nKey = nKBucket)
    (hcount : info.nRefCount = references am.vvNew nId) (hperm : vTried.Perm (am.vvTried nKBucket))
    (hlt : nPos < vTried.length) :
    ∃ am', ((am.eraseNew nId).setTried nKBucket vTried).replaceTried hash nId nOrigin nKBucket nPos =
      some am' ∧ Inv hash am' := by
  obtain ⟨nIdOld, hat⟩ : ∃ nIdOld, vTried[nPos]? = some nIdOld :=
    ⟨_, List.getElem?_eq_getElem hlt⟩
  have hmemOld : nIdOld ∈ am.vvTried nKBucket := hperm.mem_iff.mp (List.mem_of_getElem? hat)
  obtain ⟨infoOld, hlookupOld⟩ := mem_mapInfo.mp (h.tables.mem_of_mem_tried hmemOld)
  have hne : nIdOld ≠ nId := by
    rintro rfl
    cases h.tables.placed hlookup with
    | tried hin' _ _ _ _ => exact absurd (hin'.symm.trans hin) (by simp)
    | new _ _ _ _ hnone => exact (occurrences_pos hmemOld).ne' hnone
  let am₂ := (am.eraseNew nId).setTried nKBucket vTried
  have hlookup₂ : ∀ n, am₂.mapInfo.lookup n =
      if n = nId then some { info with nRefCount := 0 } else am.mapInfo.lookup n := fun n ↦
    lookup_eraseNew hlookup hcount
  have hat₂ : (am₂.vvTried nKBucket)[nPos]? = some nIdOld := by
    simp only [am₂, CAddrMan.setTried, Function.update_self]
    exact hat
  have hlookupOld₂ : am₂.mapInfo.lookup nIdOld = some infoOld := by
    rw [hlookup₂, if_neg hne]
    exact hlookupOld
  have hvvNew₂ : am₂.vvNew = fun nUBucket ↦ (am.vvNew nUBucket).erase nId := vvNew_eraseNew
  have hindexes₂ : Indexes am₂ := h.indexes.eraseNew.setTried _ _
  change ∃ am', am₂.replaceTried hash nId nOrigin nKBucket nPos = some am' ∧ Inv hash am'
  simp only [replaceTried, hat₂, hlookupOld₂, bind, Option.bind, vvNew_updateInfo, hvvNew₂]
  generalize hU : (if ((am.vvNew (infoOld.getNewBucket hash am₂.nKey)).erase nId).card <
    ADDRMAN_NEW_BUCKET_SIZE then infoOld.getNewBucket hash am₂.nKey else nOrigin) = nUBucket
  have hroom : ((am.vvNew nUBucket).erase nId).card < ADDRMAN_NEW_BUCKET_SIZE := by
    apply card_erase_lt h.tables hmem
    rw [← hU]
    split
    · next hlt' => exact .inr hlt'
    · exact .inl rfl
  refine ⟨_, rfl, ?_, ?_⟩
  · refine Indexes.updateInfo ?_ fun _ ↦ rfl
    have hold := @Indexes.updateInfo _ nIdOld
      (fun info ↦ { info with fInTried := false, nRefCount := 1 }) hindexes₂ fun _ ↦ rfl
    exact ⟨hold.addr, hold.fresh, hold.random⟩
  · apply h.tables.replace hlookup hin hsuccess hbucket hperm hat hlookupOld hroom
    · intro n
      rw [lookup_updateInfo]
      have hold : ∀ n, (am₂.updateInfo nIdOld evictedEntry).mapInfo.lookup n =
          if n = nIdOld then some (evictedEntry infoOld) else
            if n = nId then some { info with nRefCount := 0 } else am.mapInfo.lookup n := by
        intro n
        rw [lookup_updateInfo, hlookupOld₂, hlookup₂, Option.map_some]
      have hself := hold nId
      rw [if_neg hne.symm, if_pos rfl] at hself
      by_cases hn : n = nId
      · rw [if_pos hn, if_pos hn]
        exact congrArg (Option.map fun info ↦ { info with fInTried := true }) hself
      · rw [if_neg hn, if_neg hn]
        have hother := hold n
        rw [if_neg hn] at hother
        exact hother
    · simp [am₂, CAddrMan.setTried, CAddrMan.setNew]
    · simp [am₂, CAddrMan.setTried, CAddrMan.setNew]
    · simp [am₂, CAddrMan.setTried, CAddrMan.setNew]
    · simp [am₂, CAddrMan.setTried, CAddrMan.setNew]
    · simp [am₂, CAddrMan.setTried, CAddrMan.setNew]
    · simp [am₂, CAddrMan.setTried, CAddrMan.setNew]

/-- An entry that had a success moves from the new table to the tried one. -/
theorem makeTried_spec (h : Inv hash am) (hlookup : am.mapInfo.lookup nId = some info)
    (hin : info.fInTried = false) (hsuccess : info.nLastSuccess ≠ 0) (hmem : nId ∈ am.vvNew nOrigin) :
    ∃ am', am.makeTried hash rand nId nOrigin = some am' ∧ Inv hash am' := by
  have hcount : info.nRefCount = references am.vvNew nId := by
    cases h.tables.placed hlookup with
    | tried hin' _ _ _ _ => exact absurd (hin'.symm.trans hin) (by simp)
    | new _ hcount _ _ _ => exact hcount
  have hlookup₁ : (am.eraseNew nId).mapInfo.lookup nId = some { info with nRefCount := 0 } := by
    rw [lookup_eraseNew hlookup hcount, if_pos rfl]
  have hbucket : ({ info with nRefCount := 0 } : CAddrInfo).getTriedBucket hash (am.eraseNew nId).nKey =
      info.getTriedBucket hash am.nKey := by
    rw [nKey_eraseNew]
    rfl
  simp only [makeTried, if_neg (not_not.mpr hmem), hlookup₁, bind, Option.bind, ne_eq, not_true,
    if_false, hbucket, vvTried_eraseNew]
  generalize hk : info.getTriedBucket hash am.nKey = nKBucket
  by_cases hroom : (am.vvTried nKBucket).length < ADDRMAN_TRIED_BUCKET_SIZE
  · rw [if_pos hroom]
    refine ⟨_, rfl, ?_, ?_⟩
    · refine Indexes.updateInfo ?_ fun _ ↦ rfl
      have herased := @Indexes.eraseNew _ nId h.indexes
      exact ⟨herased.addr, herased.fresh, herased.random⟩
    · apply h.tables.append hlookup hin hsuccess hk hroom
      · intro n
        rw [lookup_updateInfo]
        by_cases hn : n = nId
        · rw [if_pos hn, if_pos hn]
          exact congrArg (Option.map fun info ↦ { info with fInTried := true }) hlookup₁
        · rw [if_neg hn, if_neg hn]
          exact (lookup_eraseNew hlookup hcount).trans (if_neg hn)
      · simp [CAddrMan.setTried]
      · simp [CAddrMan.setTried]
      · simp [CAddrMan.setTried]
      · simp [CAddrMan.setTried]
      · simp [CAddrMan.setTried]
      · simp [CAddrMan.setTried]
  · rw [if_neg hroom]
    have hmemTried : ∀ n ∈ (am.eraseNew nId).vvTried nKBucket, n ∈ (am.eraseNew nId).mapInfo := by
      intro n hn
      rw [vvTried_eraseNew] at hn
      rw [mem_mapInfo, lookup_eraseNew hlookup hcount]
      split
      · exact ⟨_, rfl⟩
      · exact mem_mapInfo.mp (h.tables.mem_of_mem_tried hn)
    have hlength : 0 < ((am.eraseNew nId).vvTried nKBucket).length := by
      rw [vvTried_eraseNew]
      exact Nat.lt_of_lt_of_le (by decide) (Nat.not_lt.mp hroom)
    obtain ⟨vTried, nPos, hselect, hperm, hlt⟩ := @selectTried_spec _ rand _ hmemTried hlength
    rw [vvTried_eraseNew] at hperm
    simp only [hselect]
    exact replaceTried_spec h hlookup hin hsuccess hmem hk hcount hperm hlt

end CAddrMan

end Electra.Net
