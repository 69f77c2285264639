import Electra.Foundations.BucketTable
import Electra.Foundations.PositionIndex
import Electra.Net.AddrMan

/-!
# The invariant of the address manager

The indexes agree: `mapAddr` and `vRandom` find exactly the entries of `mapInfo`.  The tables agree:
every entry is in its tried bucket once, or in as many new buckets as it has references.  While an
address is entered, it has a reference that no bucket holds yet.
-/

namespace Electra.Net

open Chain Foundations.BucketTable Foundations.PositionIndex

namespace CAddrMan

variable {am am' : CAddrMan} {nId nId' : ℤ} {info : CAddrInfo} {f : CAddrInfo → CAddrInfo}

theorem lookup_updateInfo : (am.updateInfo nId f).mapInfo.lookup nId' =
    if nId' = nId then (am.mapInfo.lookup nId).map f else am.mapInfo.lookup nId' := by
  unfold updateInfo
  cases hlookup : am.mapInfo.lookup nId with
  | none =>
    by_cases heq : nId' = nId
    · rw [if_pos heq, heq]
      exact hlookup
    · rw [if_neg heq]
  | some info =>
    by_cases heq : nId' = nId
    · rw [if_pos heq, heq]
      exact Finmap.lookup_insert _
    · rw [if_neg heq]
      exact Finmap.lookup_insert_of_ne _ heq

theorem lookup_updateInfo_self (h : am.mapInfo.lookup nId = some info) :
    (am.updateInfo nId f).mapInfo.lookup nId = some (f info) := by
  rw [lookup_updateInfo, if_pos rfl, h, Option.map_some]

/-- Only the entries change. -/
theorem updateInfo_eq :
    am.updateInfo nId f = { am with mapInfo := (am.updateInfo nId f).mapInfo } := by
  unfold updateInfo
  cases am.mapInfo.lookup nId <;> rfl

@[simp]
theorem nKey_updateInfo : (am.updateInfo nId f).nKey = am.nKey := by
  rw [updateInfo_eq]

@[simp]
theorem nIdCount_updateInfo : (am.updateInfo nId f).nIdCount = am.nIdCount := by
  rw [updateInfo_eq]

@[simp]
theorem mapAddr_updateInfo : (am.updateInfo nId f).mapAddr = am.mapAddr := by
  rw [updateInfo_eq]

@[simp]
theorem vRandom_updateInfo : (am.updateInfo nId f).vRandom = am.vRandom := by
  rw [updateInfo_eq]

@[simp]
theorem nTried_updateInfo : (am.updateInfo nId f).nTried = am.nTried := by
  rw [updateInfo_eq]

@[simp]
theorem vvTried_updateInfo : (am.updateInfo nId f).vvTried = am.vvTried := by
  rw [updateInfo_eq]

@[simp]
theorem nNew_updateInfo : (am.updateInfo nId f).nNew = am.nNew := by
  rw [updateInfo_eq]

@[simp]
theorem vvNew_updateInfo : (am.updateInfo nId f).vvNew = am.vvNew := by
  rw [updateInfo_eq]

theorem mem_mapInfo : nId ∈ am.mapInfo ↔ ∃ info, am.mapInfo.lookup nId = some info :=
  Finmap.mem_iff

/-- The position of an entry. -/
def position (am : CAddrMan) (nId : ℤ) : Option ℤ := (am.mapInfo.lookup nId).map CAddrInfo.nRandomPos

/-- `mapAddr` and `vRandom` find exactly the entries. -/
structure Indexes (am : CAddrMan) : Prop where
  addr : ∀ addr nId, am.mapAddr.lookup addr = some nId ↔
    ∃ info, am.mapInfo.lookup nId = some info ∧ info.toCNetAddr = addr
  fresh : ∀ nId info, am.mapInfo.lookup nId = some info → nId < am.nIdCount
  random : Indexed am.vRandom am.position

/-- Where the addresses stay, only positions matter. -/
theorem Indexes.congr (h : Indexes am) (hmapAddr : am'.mapAddr = am.mapAddr)
    (hnIdCount : am'.nIdCount = am.nIdCount)
    (hview : ∀ nId, (am'.mapInfo.lookup nId).map (fun info ↦ info.toCNetAddr) =
      (am.mapInfo.lookup nId).map fun info ↦ info.toCNetAddr)
    (hrandom : Indexed am'.vRandom am'.position) : Indexes am' where
  addr addr nId := by
    have haddr : ∀ am : CAddrMan, (∃ info, am.mapInfo.lookup nId = some info ∧
        info.toCNetAddr = addr) ↔
          ((am.mapInfo.lookup nId).map fun info ↦ info.toCNetAddr) = some addr := by
      intro am
      rw [Option.map_eq_some_iff]
    rw [hmapAddr, h.addr, haddr am, haddr am', hview]
  fresh nId info hlookup := by
    have hsome := hview nId
    rw [hlookup, Option.map_some, eq_comm, Option.map_eq_some_iff] at hsome
    obtain ⟨info', hlookup', -⟩ := hsome
    rw [hnIdCount]
    exact h.fresh nId info' hlookup'
  random := hrandom

/-- An entry as the indexes see it. -/
def indexView (info : CAddrInfo) : CNetAddr × ℤ := (info.toCNetAddr, info.nRandomPos)

theorem Indexes.updateInfo (h : Indexes am) (hkeeps : ∀ info, indexView (f info) = indexView info) :
    Indexes (am.updateInfo nId f) := by
  have hview : ∀ {β : Type} (g : CNetAddr × ℤ → β) nId',
      ((am.updateInfo nId f).mapInfo.lookup nId').map (g ∘ indexView) =
        (am.mapInfo.lookup nId').map (g ∘ indexView) := by
    intro β g nId'
    rw [lookup_updateInfo]
    split
    · next heq =>
      rw [heq, Option.map_map]
      exact Option.map_congr fun info _ ↦ congrArg g (hkeeps info)
    · rfl
  apply h.congr mapAddr_updateInfo nIdCount_updateInfo (hview Prod.fst)
  have hposition : (am.updateInfo nId f).position = am.position := by
    funext nId'
    exact hview Prod.snd nId'
  rw [vRandom_updateInfo, hposition]
  exact h.random

theorem Indexes.find_eq_some (h : Indexes am) {addr : CNetAddr} (hfind : am.find addr = some (nId, info)) :
    am.mapInfo.lookup nId = some info ∧ info.toCNetAddr = addr := by
  unfold find at hfind
  cases haddr : am.mapAddr.lookup addr with
  | none =>
    rw [haddr] at hfind
    exact absurd hfind (by simp)
  | some nId' =>
    obtain ⟨info', hlookup, heq⟩ := (h.addr addr nId').mp haddr
    simp only [haddr, hlookup, bind, Option.bind, pure, Option.some.injEq, Prod.mk.injEq] at hfind
    rw [← hfind.1, ← hfind.2]
    exact ⟨hlookup, heq⟩

theorem Indexes.mem_vRandom (h : Indexes am) : nId ∈ am.vRandom ↔ nId ∈ am.mapInfo := by
  rw [h.random.mem_iff, position, mem_mapInfo, ne_eq, Option.map_eq_none_iff,
    ← ne_eq, Option.ne_none_iff_exists']

/-- How an entry is placed, with its number of references and of occurrences in tried buckets. -/
inductive Placed (nReferences nOccurrences : ℕ) (info : CAddrInfo) : Prop
  | tried (hin : info.fInTried = true) (hcount : info.nRefCount = 0) (href : nReferences = 0)
      (honce : nOccurrences = 1) (hsuccess : info.nLastSuccess ≠ 0)
  | new (hin : info.fInTried = false) (hcount : info.nRefCount = nReferences) (hpos : 0 < nReferences)
      (hle : info.nRefCount ≤ ADDRMAN_NEW_BUCKETS_PER_ADDRESS) (hnone : nOccurrences = 0)

/-- What the tables hold of an id with or without an entry. -/
def EntryOk (nReferences nOccurrences : ℕ) : Option CAddrInfo → Prop
  | none => nReferences = 0 ∧ nOccurrences = 0
  | some info => Placed nReferences nOccurrences info ∧ 0 ≤ info.nLastTry ∧ 0 ≤ info.nLastSuccess

/-- Entries and tables agree, apart from references that are still owed to ids. -/
structure Tables (hash : List UInt8 → Uint256) (owed : ℤ → ℕ) (am : CAddrMan) : Prop where
  entry : ∀ nId, EntryOk (references am.vvNew nId + owed nId) (occurrences am.vvTried nId)
    (am.mapInfo.lookup nId)
  home : ∀ nKBucket nId info, nId ∈ am.vvTried nKBucket → am.mapInfo.lookup nId = some info →
    info.getTriedBucket hash am.nKey = nKBucket
  nTried_eq : am.nTried = size am.vvTried
  nNew_eq : am.nTried + am.nNew = am.vRandom.length
  tried_le : ∀ nKBucket, (am.vvTried nKBucket).length ≤ ADDRMAN_TRIED_BUCKET_SIZE
  new_le : ∀ nUBucket, (am.vvNew nUBucket).card ≤ ADDRMAN_NEW_BUCKET_SIZE

/-- The invariant between two calls. -/
structure Inv (hash : List UInt8 → Uint256) (am : CAddrMan) : Prop where
  indexes : Indexes am
  tables : Tables hash (fun _ ↦ 0) am

variable {hash : List UInt8 → Uint256} {owed owed' : ℤ → ℕ}

theorem Tables.placed (h : Tables hash owed am) (hlookup : am.mapInfo.lookup nId = some info) :
    Placed (references am.vvNew nId + owed nId) (occurrences am.vvTried nId) info := by
  have hentry := h.entry nId
  rw [hlookup] at hentry
  exact hentry.1

theorem Tables.exists_of_references (h : Tables hash owed am)
    (hpos : 0 < references am.vvNew nId + owed nId) :
    ∃ info, am.mapInfo.lookup nId = some info ∧ info.fInTried = false ∧
      info.nRefCount = references am.vvNew nId + owed nId ∧ occurrences am.vvTried nId = 0 := by
  have hentry := h.entry nId
  cases hlookup : am.mapInfo.lookup nId with
  | none =>
    rw [hlookup] at hentry
    exact absurd hentry.1 hpos.ne'
  | some info =>
    refine ⟨info, rfl, ?_⟩
    cases h.placed hlookup with
    | tried _ _ href _ _ => exact absurd href hpos.ne'
    | new hin hcount _ _ hnone =>
      push_cast at hcount
      exact ⟨hin, hcount, hnone⟩

theorem Tables.mem_of_mem_new (h : Tables hash owed am) {nUBucket : NewBucket}
    (hmem : nId ∈ am.vvNew nUBucket) : nId ∈ am.mapInfo := by
  have hpos : 0 < references am.vvNew nId + owed nId :=
    Nat.add_pos_left (references_pos hmem) _
  obtain ⟨info, hlookup, -⟩ := h.exists_of_references hpos
  exact mem_mapInfo.mpr ⟨info, hlookup⟩

theorem Tables.mem_of_mem_tried (h : Tables hash owed am) {nKBucket : TriedBucket}
    (hmem : nId ∈ am.vvTried nKBucket) : nId ∈ am.mapInfo := by
  have hpos : 0 < occurrences am.vvTried nId := occurrences_pos hmem
  have hentry := h.entry nId
  cases hlookup : am.mapInfo.lookup nId with
  | none =>
    rw [hlookup] at hentry
    exact absurd hentry.2 hpos.ne'
  | some info => exact mem_mapInfo.mpr ⟨info, hlookup⟩

/-- An entry as the tables see it. -/
def tableView (info : CAddrInfo) : CAddrInfo := { info with nRandomPos := -1 }

theorem entryOk_map_tableView {r o : ℕ} {entry : Option CAddrInfo} :
    EntryOk r o (entry.map tableView) ↔ EntryOk r o entry := by
  cases entry with
  | none => exact Iff.rfl
  | some info =>
    have hplaced : Placed r o (tableView info) ↔ Placed r o info := by
      constructor
      · rintro (⟨hin, hcount, href, honce, hsuccess⟩ | ⟨hin, hcount, hpos, hle, hnone⟩)
        · exact .tried hin hcount href honce hsuccess
        · exact .new hin hcount hpos hle hnone
      · rintro (⟨hin, hcount, href, honce, hsuccess⟩ | ⟨hin, hcount, hpos, hle, hnone⟩)
        · exact .tried hin hcount href honce hsuccess
        · exact .new hin hcount hpos hle hnone
    exact and_congr hplaced Iff.rfl

/-- Nothing changes but the order of the entries. -/
structure SameTables (am am' : CAddrMan) : Prop where
  nKey : am'.nKey = am.nKey
  view : ∀ nId, (am'.mapInfo.lookup nId).map tableView = (am.mapInfo.lookup nId).map tableView
  length : am'.vRandom.length = am.vRandom.length
  nTried : am'.nTried = am.nTried
  vvTried : am'.vvTried = am.vvTried
  nNew : am'.nNew = am.nNew
  vvNew : am'.vvNew = am.vvNew

theorem SameTables.refl : SameTables am am := ⟨rfl, fun _ ↦ rfl, rfl, rfl, rfl, rfl, rfl⟩

theorem SameTables.lookup_eq_some (h : SameTables am am') (hlookup : am.mapInfo.lookup nId = some info) :
    ∃ info', am'.mapInfo.lookup nId = some info' ∧ tableView info' = tableView info := by
  have hsome := h.view nId
  rw [hlookup, Option.map_some, Option.map_eq_some_iff] at hsome
  exact hsome

theorem SameTables.symm (h : SameTables am am') : SameTables am' am :=
  ⟨h.nKey.symm, fun nId ↦ (h.view nId).symm, h.length.symm, h.nTried.symm, h.vvTried.symm,
    h.nNew.symm, h.vvNew.symm⟩

theorem Tables.congr (h : Tables hash owed am) (hsame : SameTables am am') :
    Tables hash owed am' where
  entry nId := by
    rw [← entryOk_map_tableView, hsame.view, entryOk_map_tableView, hsame.vvNew, hsame.vvTried]
    exact h.entry nId
  home nKBucket nId info hmem hlookup := by
    obtain ⟨info', hlookup', heq⟩ := hsame.symm.lookup_eq_some hlookup
    rw [hsame.vvTried] at hmem
    have hhome := h.home nKBucket nId info' hmem hlookup'
    have hservice : info'.toCService = info.toCService := congrArg (fun i ↦ i.toCService) heq
    unfold CAddrInfo.getTriedBucket at hhome ⊢
    rw [hsame.nKey, ← hservice]
    exact hhome
  nTried_eq := by
    rw [hsame.nTried, hsame.vvTried]
    exact h.nTried_eq
  nNew_eq := by
    rw [hsame.nTried, hsame.nNew, hsame.length]
    exact h.nNew_eq
  tried_le := by
    rw [hsame.vvTried]
    exact h.tried_le
  new_le := by
    rw [hsame.vvNew]
    exact h.new_le

/-- An entry changes, and perhaps what is owed to it. -/
theorem Tables.updateInfo (h : Tables hash owed am) (hlookup : am.mapInfo.lookup nId = some info)
    (hservice : (f info).toCService = info.toCService)
    (hentry : EntryOk (references am.vvNew nId + owed' nId) (occurrences am.vvTried nId) (some (f info)))
    (howed : ∀ nId' ≠ nId, owed' nId' = owed nId') : Tables hash owed' (am.updateInfo nId f) where
  entry nId' := by
    rw [vvNew_updateInfo, vvTried_updateInfo, lookup_updateInfo]
    by_cases heq : nId' = nId
    · rw [if_pos heq, heq, hlookup]
      exact hentry
    · rw [if_neg heq, howed nId' heq]
      exact h.entry nId'
  home nKBucket nId' info' hmem hlookup' := by
    rw [vvTried_updateInfo] at hmem
    rw [lookup_updateInfo] at hlookup'
    rw [nKey_updateInfo]
    by_cases heq : nId' = nId
    · rw [if_pos heq, hlookup, Option.map_some, Option.some.injEq] at hlookup'
      have hhome := h.home nKBucket nId' info hmem (heq ▸ hlookup)
      unfold CAddrInfo.getTriedBucket at hhome ⊢
      rw [← hlookup', hservice]
      exact hhome
    · rw [if_neg heq] at hlookup'
      exact h.home nKBucket nId' info' hmem hlookup'
  nTried_eq := by
    rw [nTried_updateInfo, vvTried_updateInfo]
    exact h.nTried_eq
  nNew_eq := by
    rw [nTried_updateInfo, nNew_updateInfo, vRandom_updateInfo]
    exact h.nNew_eq
  tried_le := by
    rw [vvTried_updateInfo]
    exact h.tried_le
  new_le := by
    rw [vvNew_updateInfo]
    exact h.new_le

theorem inv_empty (nKey : List UInt8) : Inv hash (empty nKey) where
  indexes :=
    { addr := by
        intro addr nId
        simp [empty]
      fresh := by
        intro nId info hlookup
        simp [empty] at hlookup
      random := by
        intro nId p
        simp [empty, position] }
  tables :=
    { entry := by
        intro nId
        have href : references (empty nKey).vvNew nId = 0 := references_eq_zero.mpr (by simp [empty])
        have hocc : occurrences (empty nKey).vvTried nId = 0 :=
          occurrences_eq_zero.mpr (by simp [empty])
        exact ⟨href, hocc⟩
      home := by
        intro nKBucket nId info hmem
        exact absurd hmem (by simp [empty])
      nTried_eq := by simp [empty, size]
      nNew_eq := rfl
      tried_le := fun _ ↦ Nat.zero_le _
      new_le := fun _ ↦ Nat.zero_le _ }

end CAddrMan

end Electra.Net
