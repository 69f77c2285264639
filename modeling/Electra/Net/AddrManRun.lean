import Electra.Net.AddrManTried

/-!
# Runs of the address manager

Every call with positive times keeps the invariant, whatever the random source yields, and no assertion
fails.  A call has a result just when it does not count beyond an `int`: ids are never used again, and
`nIdCount` counts all that were made.
-/

namespace Electra.Net

open Chain Foundations.BucketTable Foundations.PositionIndex

/-- A call to the address manager with what it meets outside: the clock, random numbers and, for
`Select_`, the decisions of its floating-point comparisons. -/
inductive AddrCall
  | add (nNow : ℤ) (rand : ℕ → ℕ) (addr : CAddress) (source : CNetAddr) (nTimePenalty : ℤ)
  | good (rand : ℕ → ℕ) (addr : CService) (nTime : ℤ)
  | attempt (addr : CService) (nTime : ℤ)
  | connected (addr : CService) (nTime : ℤ)
  | select (fTried : Bool) (turns : List CAddrMan.SelectTurn)
  | getAddr (rand : ℕ → ℕ)

def AddrCall.TimePositive : AddrCall → Prop
  | .good _ _ nTime | .attempt _ nTime | .connected _ nTime => 0 < nTime
  | .add .. | .select .. | .getAddr .. => True

namespace CAddrMan

variable (hash : List UInt8 → Uint256)

def call (am : CAddrMan) : AddrCall → Option CAddrMan
  | .add nNow rand addr source nTimePenalty =>
      (am.add_ hash nNow rand addr source nTimePenalty).map Prod.snd
  | .good rand addr nTime => am.good_ hash rand addr nTime
  | .attempt addr nTime => am.attempt_ addr nTime
  | .connected addr nTime => some (am.connected_ addr nTime)
  | .select fTried turns => (am.select_ fTried turns).map fun _ ↦ am
  | .getAddr rand => (am.getAddr_ rand).map Prod.snd

/-- The counter that the call counts up has room. -/
def CountFits (am : CAddrMan) : AddrCall → Prop
  | .add _ _ addr _ _ =>
      addr.isRoutable = true → am.find addr.toCNetAddr = none → am.nIdCount ≠ 2 ^ 31 - 1
  | .attempt addr _ => ∀ nId info, am.find addr.toCNetAddr = some (nId, info) →
      info.toCService = addr → info.nAttempts ≠ 2 ^ 31 - 1
  | .good .. | .connected .. | .select .. | .getAddr .. => True

/-- Every call of a run counts up a counter that has room when its turn comes. -/
def CountsFit (am : CAddrMan) : List AddrCall → Prop
  | [] => True
  | addrCall :: calls => am.CountFits addrCall ∧
      ∀ am', am.call hash addrCall = some am' → CountsFit am' calls

def run (am : CAddrMan) (calls : List AddrCall) : Option CAddrMan :=
  calls.foldlM (fun am addrCall ↦ am.call hash addrCall) am

variable {hash} {am am' : CAddrMan} {nId : ℤ} {info : CAddrInfo} {f : CAddrInfo → CAddrInfo}

/-- An entry may change its times, services and attempts. -/
theorem Inv.updateInfo (h : Inv hash am) (hlookup : am.mapInfo.lookup nId = some info)
    (hindexes : ∀ info, indexView (f info) = indexView info)
    (hservice : (f info).toCService = info.toCService) (hin : (f info).fInTried = info.fInTried)
    (hcount : (f info).nRefCount = info.nRefCount) (htry : 0 ≤ (f info).nLastTry)
    (hsuccess : (f info).nLastSuccess = info.nLastSuccess ∨ 0 < (f info).nLastSuccess) :
    Inv hash (am.updateInfo nId f) := by
  refine ⟨h.indexes.updateInfo hindexes, h.tables.updateInfo hlookup hservice ?_ fun _ _ ↦ rfl⟩
  have hentry := h.tables.entry nId
  rw [hlookup] at hentry
  obtain ⟨hplaced, -, hnonneg⟩ := hentry
  refine ⟨?_, htry, ?_⟩
  · cases hplaced with
    | tried hin' hcount' href honce hsuccess' =>
      have hne : (f info).nLastSuccess ≠ 0 := by
        obtain heq | hpos := hsuccess
        · rw [heq]
          exact hsuccess'
        · exact hpos.ne'
      exact .tried (hin.trans hin') (hcount.trans hcount') href honce hne
    | new hin' hcount' hpos hle hnone =>
      exact .new (hin.trans hin') (hcount.trans hcount') hpos (hcount ▸ hle) hnone
  · obtain heq | hpos := hsuccess
    · rw [heq]
      exact hnonneg
    · exact hpos.le

theorem Inv.nLastTry_nonneg (h : Inv hash am) (hlookup : am.mapInfo.lookup nId = some info) :
    0 ≤ info.nLastTry := by
  have hentry := h.tables.entry nId
  rw [hlookup] at hentry
  exact hentry.2.1

variable {nTime : ℤ} {nUBucket : NewBucket}

theorem attempt_spec (h : Inv hash am) {addr : CService} (hpos : 0 < nTime)
    (hfits : am.CountFits (.attempt addr nTime)) :
    ∃ am', am.attempt_ addr nTime = some am' ∧ Inv hash am' := by
  unfold CAddrMan.attempt_
  split
  · exact ⟨am, rfl, h⟩
  · next nId info hfind =>
    split
    · exact ⟨am, rfl, h⟩
    · next hsame =>
      have hlookup := (h.indexes.find_eq_some hfind).1
      have hmore := increment_eq_some.mpr ⟨hfits nId info hfind (not_not.mp hsame), rfl⟩
      rw [hmore]
      exact ⟨_, rfl, h.updateInfo hlookup (fun _ ↦ rfl) rfl rfl rfl hpos.le (.inl rfl)⟩

theorem Inv.connected_ (h : Inv hash am) {addr : CService} :
    Inv hash (am.connected_ addr nTime) := by
  unfold CAddrMan.connected_
  split
  · exact h
  · next nId info hfind =>
    split
    · exact h
    · split
      · have hlookup := (h.indexes.find_eq_some hfind).1
        have htry : 0 ≤ info.nLastTry := h.nLastTry_nonneg hlookup
        exact h.updateInfo hlookup (fun _ ↦ rfl) rfl rfl rfl htry (.inl rfl)
      · exact h

theorem mem_of_findNewBucket {nRnd : ℕ} (h : am.findNewBucket nRnd nId = some nUBucket) :
    nId ∈ am.vvNew nUBucket :=
  of_decide_eq_true (List.find?_some (p := fun nB ↦ decide (nId ∈ am.vvNew nB)) h)

theorem good_spec (h : Inv hash am) {rand : ℕ → ℕ} {addr : CService} (hpos : 0 < nTime) :
    ∃ am', am.good_ hash rand addr nTime = some am' ∧ Inv hash am' := by
  unfold good_
  cases hfind : am.find addr.toCNetAddr with
  | none => exact ⟨am, rfl, h⟩
  | some found =>
    obtain ⟨nId, info⟩ := found
    have hlookup := (h.indexes.find_eq_some hfind).1
    simp only
    by_cases haddr : info.toCService ≠ addr
    · rw [if_pos haddr]
      exact ⟨am, rfl, h⟩
    · rw [if_neg haddr]
      let good : CAddrInfo → CAddrInfo := fun info ↦ { info with
        nLastSuccess := nTime, nLastTry := nTime, nTime := UInt32.ofInt nTime, nAttempts := 0 }
      have hgood : Inv hash (am.updateInfo nId good) :=
        h.updateInfo hlookup (fun _ ↦ rfl) rfl rfl rfl hpos.le (.inr hpos)
      cases hin : info.fInTried with
      | true => exact ⟨_, rfl, hgood⟩
      | false =>
        simp only [Bool.false_eq_true, if_false]
        split
        · exact ⟨_, rfl, hgood⟩
        · next nUBucket hbucket =>
          exact makeTried_spec hgood (lookup_updateInfo_self hlookup) hin hpos.ne'
            (mem_of_findNewBucket hbucket)

/-- A known entry in the new table below the maximum gets one more reference. -/
theorem Tables.oneMore (h : Tables hash (fun _ ↦ 0) am) (hlookup : am.mapInfo.lookup nId = some info)
    (hin : info.fInTried = false) (hne : info.nRefCount ≠ ADDRMAN_NEW_BUCKETS_PER_ADDRESS) :
    Tables hash (CAddrMan.oneMore (fun _ ↦ 0) nId)
      (am.updateInfo nId fun info ↦ { info with nRefCount := info.nRefCount + 1 }) := by
  apply h.updateInfo hlookup rfl
  · have hentry := h.entry nId
    rw [hlookup] at hentry
    refine ⟨?_, hentry.2⟩
    cases hentry.1 with
    | tried hin' _ _ _ _ => exact absurd (hin'.symm.trans hin) (by simp)
    | new _ hcount hpos hle hnone =>
      have hmore : info.nRefCount + 1 =
          ((references am.vvNew nId + CAddrMan.oneMore (fun _ ↦ 0) nId nId : ℕ) : ℤ) := by
        rw [oneMore_self, hcount]
        push_cast
        ring
      rw [oneMore_self] at hmore ⊢
      exact .new hin hmore (Nat.succ_pos _) (Int.add_one_le_of_lt (lt_of_le_of_ne hle hne)) hnone
  · intro n hn
    exact oneMore_of_ne hn

theorem keepReferences_eq_false {addr : CAddress} {nRand : ℕ}
    (h : keepReferences addr info nRand = false) :
    info.fInTried = false ∧ info.nRefCount ≠ ADDRMAN_NEW_BUCKETS_PER_ADDRESS := by
  unfold keepReferences at h
  split at h
  · exact absurd h (by simp)
  · split at h
    · exact absurd h (by simp)
    · next hin =>
      split at h
      · exact absurd h (by simp)
      · next hne => exact ⟨Bool.eq_false_of_not_eq_true hin, hne⟩

theorem add_known_spec (h : Inv hash am) {nNow : ℤ} {rand : ℕ → ℕ} {addr : CAddress}
    {source : CNetAddr} {nTimePenalty : ℤ} (hlookup : am.mapInfo.lookup nId = some info)
    (hfurther : keepReferences addr (refresh nNow nTimePenalty addr info) (rand 0) = false) :
    ∃ am', (am.updateInfo nId (refresh nNow nTimePenalty addr)).addReference hash nNow
      (fun i ↦ rand (i + 1)) nId source = some am' ∧ Inv hash am' := by
  have htry : 0 ≤ info.nLastTry := h.nLastTry_nonneg hlookup
  have hrefreshed : Inv hash (am.updateInfo nId (refresh nNow nTimePenalty addr)) :=
    h.updateInfo hlookup (fun _ ↦ rfl) rfl rfl rfl htry (.inl rfl)
  obtain ⟨hin, hne⟩ := keepReferences_eq_false hfurther
  have hlookup' := lookup_updateInfo_self (f := refresh nNow nTimePenalty addr) hlookup
  exact addReference_spec hrefreshed.indexes hlookup' (fun _ _ ↦ hrefreshed.tables)
    (hrefreshed.tables.oneMore hlookup' hin hne)

theorem add_unknown_spec (h : Inv hash am) {nNow : ℤ} {rand : ℕ → ℕ} {addr : CAddress}
    {source : CNetAddr} (hfind : am.find addr.toCNetAddr = none) (hkeeps : ∀ info,
      indexView (f info) = indexView info ∧ (f info).fInTried = info.fInTried ∧
        (f info).nRefCount = info.nRefCount ∧ (f info).nLastTry = info.nLastTry ∧
          (f info).nLastSuccess = info.nLastSuccess) (nNew : ℤ) (hnNew : nNew = am.nNew + 1) :
    ∃ am', ({ (am.entered addr source).updateInfo am.nIdCount f with nNew := nNew } :
      CAddrMan).addReference hash nNow rand am.nIdCount source = some am' ∧ Inv hash am' := by
  have hcreated := @Indexes.entered _ source _ h.indexes (h.indexes.mapAddr_eq_none hfind)
  have hnone := h.indexes.lookup_nIdCount
  let info : CAddrInfo := { CAddrInfo.ofAddress addr source with nRandomPos := am.vRandom.length }
  obtain ⟨-, hin, hcount, htry, hsuccess⟩ := hkeeps info
  let inc : CAddrInfo → CAddrInfo := fun info ↦ { info with nRefCount := info.nRefCount + 1 }
  have hindexes : Indexes ({ (am.entered addr source).updateInfo am.nIdCount f with
      nNew := nNew } : CAddrMan) := by
    have hupdated := @Indexes.updateInfo _ am.nIdCount _ hcreated fun info ↦ (hkeeps info).1
    exact ⟨hupdated.addr, hupdated.fresh, hupdated.random⟩
  have hlookup : ({ (am.entered addr source).updateInfo am.nIdCount f with
      nNew := nNew } : CAddrMan).mapInfo.lookup am.nIdCount = some (f info) := by
    apply lookup_updateInfo_self
    rw [lookup_entered, if_pos rfl]
  apply addReference_spec hindexes hlookup
  · intro nUBucket hmem
    have hzero := (hnone ▸ h.tables.entry am.nIdCount :)
    have hpos := @references_pos _ _ _ _ am.vvNew nUBucket am.nIdCount (by
      simpa [entered] using hmem)
    exact absurd hzero.1 (Nat.add_pos_left hpos _).ne'
  · have hentered := @Tables.enter _ _ (inc (f info)) _ h.tables hnone hin
      (congrArg (· + 1) hcount) htry hsuccess (am.nIdCount + 1)
      (am.mapAddr.insert addr.toCNetAddr am.nIdCount)
    have heq : ({ (am.entered addr source).updateInfo am.nIdCount f with
        nNew := nNew } : CAddrMan).updateInfo am.nIdCount inc = { am with
          nIdCount := am.nIdCount + 1
          mapInfo := am.mapInfo.insert am.nIdCount (inc (f info))
          mapAddr := am.mapAddr.insert addr.toCNetAddr am.nIdCount
          vRandom := am.vRandom ++ [am.nIdCount]
          nNew := am.nNew + 1 } := by
      simp only [entered, CAddrMan.updateInfo, Finmap.lookup_insert, Finmap.insert_insert, hnNew, info]
    rw [heq]
    exact hentered

theorem add_spec (h : Inv hash am) {nNow : ℤ} {rand : ℕ → ℕ} {addr : CAddress} {source : CNetAddr}
    {nTimePenalty : ℤ} (hfits : am.CountFits (.add nNow rand addr source nTimePenalty)) :
    ∃ fNew am', am.add_ hash nNow rand addr source nTimePenalty = some (fNew, am') ∧ Inv hash am' := by
  unfold add_
  by_cases hroutable : (!addr.isRoutable) = true
  · rw [if_pos hroutable]
    exact ⟨false, am, rfl, h⟩
  · rw [if_neg hroutable]
    cases hfind : am.find addr.toCNetAddr with
    | some found =>
      obtain ⟨nId, info⟩ := found
      have hlookup := (h.indexes.find_eq_some hfind).1
      simp only
      cases hkeep : keepReferences addr (refresh nNow nTimePenalty addr info) (rand 0) with
      | true =>
        have htry : 0 ≤ info.nLastTry := h.nLastTry_nonneg hlookup
        exact ⟨false, _, rfl, h.updateInfo hlookup (fun _ ↦ rfl) rfl rfl rfl htry (.inl rfl)⟩
      | false =>
        obtain ⟨am', hadd, hinv⟩ := @add_known_spec _ _ _ _ h _ _ _ source _ hlookup hkeep
        simp only [Bool.false_eq_true, if_false, hadd, bind, Option.bind]
        exact ⟨false, am', rfl, hinv⟩
    | none =>
      obtain ⟨am', hadd, hinv⟩ := @add_unknown_spec _ _
        (fun info ↦ { info with nTime := UInt32.ofInt (max 0 (info.nTime.toNat - nTimePenalty)) }) h
        nNow rand _ source hfind
        (fun _ ↦ ⟨rfl, rfl, rfl, rfl, rfl⟩)
        (((am.entered addr source).updateInfo am.nIdCount fun info ↦ { info with
          nTime := UInt32.ofInt (max 0 (info.nTime.toNat - nTimePenalty)) }).nNew + 1)
        (congrArg (· + 1) nNew_updateInfo)
      refine ⟨true, am', ?_, hinv⟩
      have hcreate : am.create addr source = some (am.nIdCount, am.entered addr source) :=
        create_eq_some.mpr ⟨hfits (by simpa using hroutable) hfind, rfl, rfl⟩
      simp only [hcreate, hadd, bind, Option.bind]

theorem selectLoop_spec {bucket : ℕ → List ℤ} (h : ∀ n, ∀ nId ∈ bucket n, nId ∈ am.mapInfo)
    (turns : List SelectTurn) : ∃ found, am.selectLoop bucket turns = some found := by
  induction turns with
  | nil => exact ⟨none, rfl⟩
  | cons turn turns ih =>
    rw [selectLoop]
    by_cases hempty : (bucket turn.nBucket).length = 0
    · rw [if_pos hempty]
      exact ih
    · rw [if_neg hempty]
      have hlt : getRandInt turn.nPos (bucket turn.nBucket).length < (bucket turn.nBucket).length := by
        rw [getRandInt, if_neg hempty]
        exact Nat.mod_lt _ (Nat.pos_of_ne_zero hempty)
      obtain ⟨info, hlookup⟩ := mem_mapInfo.mp (h _ _ (List.getElem_mem hlt))
      simp only [List.getElem?_eq_getElem hlt, hlookup, bind, Option.bind]
      split
      · exact ⟨_, rfl⟩
      · exact ih

theorem select_spec (h : Inv hash am) {fTried : Bool} {turns : List SelectTurn} :
    ∃ found, am.select_ fTried turns = some found := by
  unfold select_
  split
  · exact ⟨_, rfl⟩
  · have hmem : ∀ n, ∀ nId ∈ (if fTried then fun n ↦ am.vvTried (Fin.ofNat 64 n)
        else fun n ↦ (am.vvNew (Fin.ofNat 256 n)).sort : ℕ → List ℤ) n, nId ∈ am.mapInfo := by
      intro n nId hmem
      cases fTried with
      | true => exact h.tables.mem_of_mem_tried hmem
      | false => exact h.tables.mem_of_mem_new ((Finset.mem_sort _).mp hmem)
    obtain ⟨found, hfound⟩ := selectLoop_spec hmem turns
    exact ⟨_, congrArg (Option.map (Option.map CAddrInfo.toCAddress)) hfound⟩

theorem getAddrLoop_spec {rand : ℕ → ℕ} {ns : List ℕ} {vAddr : List CAddress} (h : Inv hash am)
    (hlt : ∀ n ∈ ns, n < am.vRandom.length) :
    ∃ vAddr' am', getAddrLoop rand ns vAddr am = some (vAddr', am') ∧ Inv hash am' := by
  induction ns generalizing vAddr am with
  | nil => exact ⟨vAddr, am, rfl, h⟩
  | cons n ns ih =>
    have hn := hlt n (List.mem_cons_self ..)
    have hpos : getRandInt (rand n) (am.vRandom.length - n) + n < am.vRandom.length := by
      rw [getRandInt, if_neg (Nat.sub_ne_zero_of_lt hn)]
      have hmod := Nat.mod_lt (rand n) (Nat.sub_pos_of_lt hn)
      omega
    obtain ⟨am', hswap, hindexes, hsame, hat, -⟩ := swapRandom_spec h.indexes
      (List.getElem?_eq_getElem hn) (List.getElem?_eq_getElem hpos)
    have hinv : Inv hash am' := ⟨hindexes, h.tables.congr hsame⟩
    obtain ⟨info, hlookup⟩ := mem_mapInfo.mp (hindexes.mem_vRandom.mp (List.mem_of_getElem? hat))
    simp only [getAddrLoop, hswap, hat, hlookup, bind, Option.bind]
    apply ih hinv
    intro m hm
    rw [hsame.length]
    exact hlt m (List.mem_cons_of_mem _ hm)

theorem getAddr_spec (h : Inv hash am) {rand : ℕ → ℕ} :
    ∃ vAddr am', am.getAddr_ rand = some (vAddr, am') ∧ Inv hash am' := by
  apply getAddrLoop_spec h
  intro n hn
  have hlt := List.mem_range.mp hn
  have hle : ADDRMAN_GETADDR_MAX_PCT * am.vRandom.length / 100 ≤ am.vRandom.length := by
    unfold ADDRMAN_GETADDR_MAX_PCT
    omega
  exact (hlt.trans_le (min_le_left _ _)).trans_le hle

theorem call_spec (h : Inv hash am) {addrCall : AddrCall} (hpos : addrCall.TimePositive)
    (hfits : am.CountFits addrCall) : ∃ am', am.call hash addrCall = some am' ∧ Inv hash am' := by
  cases addrCall with
  | add nNow rand addr source nTimePenalty =>
    obtain ⟨fNew, am', hadd, hinv⟩ := add_spec h hfits
    exact ⟨am', by rw [call, hadd]; rfl, hinv⟩
  | good rand addr nTime => exact good_spec h hpos
  | attempt addr nTime => exact attempt_spec h hpos hfits
  | connected addr nTime => exact ⟨_, rfl, h.connected_⟩
  | select fTried turns =>
    obtain ⟨found, hfound⟩ := @select_spec _ _ h fTried turns
    exact ⟨am, by rw [call, hfound]; rfl, h⟩
  | getAddr rand =>
    obtain ⟨vAddr, am', hget, hinv⟩ := @getAddr_spec _ _ h rand
    exact ⟨am', by rw [call, hget]; rfl, hinv⟩

theorem run_spec (h : Inv hash am) {calls : List AddrCall}
    (hpos : ∀ addrCall ∈ calls, addrCall.TimePositive) (hfits : am.CountsFit hash calls) :
    ∃ am', am.run hash calls = some am' ∧ Inv hash am' := by
  induction calls generalizing am with
  | nil => exact ⟨am, rfl, h⟩
  | cons addrCall calls ih =>
    obtain ⟨hfit, hrest⟩ := hfits
    obtain ⟨am₁, hcall, hinv₁⟩ := call_spec h (hpos addrCall (List.mem_cons_self ..)) hfit
    obtain ⟨am', hrun, hinv⟩ := ih hinv₁ (fun c hc ↦ hpos c (List.mem_cons_of_mem _ hc))
      (hrest am₁ hcall)
    refine ⟨am', ?_, hinv⟩
    simp only [run, List.foldlM_cons, hcall, bind, Option.bind]
    exact hrun

/-- A counter that would go beyond the largest `int` leaves the call without a result. -/
theorem countFits_of_call {addrCall : AddrCall} (h : am.call hash addrCall = some am') :
    am.CountFits addrCall := by
  cases addrCall with
  | add nNow rand addr source nTimePenalty =>
    intro hroutable hfind
    rw [call, add_, hroutable, hfind] at h
    obtain ⟨⟨fNew, am₁⟩, hadd, -⟩ := Option.map_eq_some_iff.mp h
    obtain ⟨⟨nId, am₂⟩, hcreate, -⟩ := Option.bind_eq_some_iff.mp hadd
    exact (create_eq_some.mp hcreate).1
  | attempt addr nTime =>
    intro nId info hfind hsame
    rw [call, attempt_, hfind] at h
    simp only [ne_eq, hsame, not_true_eq_false, if_false] at h
    obtain ⟨nAttempts, hmore, -⟩ := Option.bind_eq_some_iff.mp h
    exact (increment_eq_some.mp hmore).1
  | good | connected | select | getAddr => trivial

theorem countsFit_of_run {calls : List AddrCall} (h : am.run hash calls = some am') :
    am.CountsFit hash calls := by
  induction calls generalizing am with
  | nil => trivial
  | cons addrCall calls ih =>
    rw [run, List.foldlM_cons] at h
    obtain ⟨am₁, hcall, hrest⟩ := Option.bind_eq_some_iff.mp h
    refine ⟨countFits_of_call hcall, fun am₂ hcall₂ ↦ ?_⟩
    rw [← Option.some.inj (hcall.symm.trans hcall₂)]
    exact ih hrest

/-- No new id is given, and no further address is known. -/
structure Narrows (am am' : CAddrMan) : Prop where
  nIdCount : am'.nIdCount = am.nIdCount
  mapAddr : ∀ addr ∈ am'.mapAddr, addr ∈ am.mapAddr

theorem Narrows.refl : Narrows am am := ⟨rfl, fun _ h ↦ h⟩

theorem Narrows.trans {am₁ am₂ am₃ : CAddrMan} (h : Narrows am₁ am₂) (h' : Narrows am₂ am₃) :
    Narrows am₁ am₃ :=
  ⟨h'.nIdCount.trans h.nIdCount, fun addr haddr ↦ h.mapAddr addr (h'.mapAddr addr haddr)⟩

theorem narrows_updateInfo : Narrows am (am.updateInfo nId f) :=
  ⟨nIdCount_updateInfo, fun addr haddr ↦ by rwa [mapAddr_updateInfo] at haddr⟩

theorem narrows_setNew {vNew : Finset ℤ} :
    Narrows am (am.setNew nUBucket vNew) := ⟨rfl, fun _ h ↦ h⟩

theorem narrows_swapRandom {i j : ℕ} (h : am.swapRandom i j = some am') : Narrows am am' := by
  unfold swapRandom at h
  split at h
  · rw [← Option.some.inj h]
    exact .refl
  · obtain ⟨nId₁, -, h⟩ := Option.bind_eq_some_iff.mp h
    obtain ⟨nId₂, -, h⟩ := Option.bind_eq_some_iff.mp h
    split at h
    · cases h
    · rw [← Option.some.inj h]
      refine ⟨?_, fun addr haddr ↦ ?_⟩
      · simp only [nIdCount_updateInfo]
      · simpa only [mapAddr_updateInfo] using haddr

theorem narrows_dropReference (h : am.dropReference nId = some am') : Narrows am am' := by
  obtain ⟨info, hlookup, h⟩ := Option.bind_eq_some_iff.mp h
  split at h
  · obtain ⟨nRndPos, -, h⟩ := Option.bind_eq_some_iff.mp h
    obtain ⟨am₁, hswap, h⟩ := Option.bind_eq_some_iff.mp h
    have hswapped := narrows_updateInfo.trans (narrows_swapRandom hswap)
    rw [← Option.some.inj h]
    refine ⟨hswapped.nIdCount, fun addr haddr ↦ hswapped.mapAddr addr ?_⟩
    exact (Finmap.mem_erase.mp haddr).2
  · rw [← Option.some.inj h]
    exact narrows_updateInfo

theorem narrows_shrinkNew {nNow nRet : ℤ} {rand : ℕ → ℕ}
    (h : am.shrinkNew nNow rand nUBucket = some (nRet, am')) : Narrows am am' := by
  obtain ⟨found, -, h⟩ := Option.bind_eq_some_iff.mp h
  cases found with
  | some nGone =>
    obtain ⟨am₁, hdropped, h⟩ := Option.bind_eq_some_iff.mp h
    obtain ⟨-, rfl⟩ := Prod.mk.inj (Option.some.inj h)
    exact (narrows_dropReference hdropped).trans narrows_setNew
  | none =>
    obtain ⟨oldest, -, h⟩ := Option.bind_eq_some_iff.mp h
    obtain ⟨nOldest, -, h⟩ := Option.bind_eq_some_iff.mp h
    obtain ⟨am₁, hdropped, h⟩ := Option.bind_eq_some_iff.mp h
    obtain ⟨-, rfl⟩ := Prod.mk.inj (Option.some.inj h)
    exact (narrows_dropReference hdropped).trans narrows_setNew

theorem narrows_addReference {nNow : ℤ} {rand : ℕ → ℕ} {source : CNetAddr}
    (h : am.addReference hash nNow rand nId source = some am') : Narrows am am' := by
  obtain ⟨info, -, h⟩ := Option.bind_eq_some_iff.mp h
  simp only at h
  split at h
  · rw [← Option.some.inj h]
    exact .refl
  · split at h
    · obtain ⟨am₁, hroom, h⟩ := Option.bind_eq_some_iff.mp h
      obtain ⟨⟨nRet, am₂⟩, hshrunk, rfl⟩ := Option.map_eq_some_iff.mp hroom
      rw [← Option.some.inj h]
      exact (narrows_updateInfo.trans (narrows_shrinkNew hshrunk)).trans narrows_setNew
    · rw [← Option.some.inj h]
      exact narrows_updateInfo.trans narrows_setNew

/-- An address that is not known takes the next id, and nothing else becomes known. -/
theorem add_unknown_eq_some {nNow : ℤ} {rand : ℕ → ℕ} {addr : CAddress} {source : CNetAddr}
    {nTimePenalty : ℤ} {fNew : Bool} (hroutable : addr.isRoutable = true)
    (hfind : am.find addr.toCNetAddr = none)
    (h : am.add_ hash nNow rand addr source nTimePenalty = some (fNew, am')) :
    am'.nIdCount = am.nIdCount + 1 ∧
      ∀ addr' ∈ am'.mapAddr, addr' = addr.toCNetAddr ∨ addr' ∈ am.mapAddr := by
  rw [add_, hroutable, hfind] at h
  obtain ⟨⟨nId, am₁⟩, hcreate, h⟩ := Option.bind_eq_some_iff.mp h
  obtain ⟨-, rfl, rfl⟩ := create_eq_some.mp hcreate
  obtain ⟨am₂, hadded, h⟩ := Option.bind_eq_some_iff.mp h
  obtain ⟨-, rfl⟩ := Prod.mk.inj (Option.some.inj h)
  have hnarrows := narrows_addReference hadded
  refine ⟨hnarrows.nIdCount.trans nIdCount_updateInfo, fun addr' haddr ↦ ?_⟩
  have hentered : addr' ∈ (am.entered addr source).mapAddr := by
    have hmem := hnarrows.mapAddr addr' haddr
    simpa only [mapAddr_updateInfo] using hmem
  exact Finmap.mem_insert.mp hentered

end CAddrMan

end Electra.Net
