import Electra.Chain.ProcessBlock
import Electra.Node.DiskIndex

/-!
# Loading the block index

At start-up `LoadBlockIndex` builds the index from the records of the database.  A record may name blocks whose
records come later, so that entries are made when their hashes are first met.  Trust and checksums are not
stored and are added up from lower to higher blocks.
-/

namespace Electra.Node

open Chain Ledger Foundations.Outcome Foundations.WriteBatch

/-- An entry of the index.  Pointers are hashes, under which `mapBlockIndex` has the entries. -/
@[ext]
structure LoadedIndex where
  index : CBlockIndex
  pprev : Option Uint256
  pnext : Option Uint256
  nHeight : ℤ
  nMint : ℤ
  nMoneySupply : ℤ
  nChainTrust : Uint256
  nStakeModifierChecksum : ℕ
deriving DecidableEq

/-- An entry without contents. -/
def LoadedIndex.new (hash : Uint256) : LoadedIndex where
  index := ⟨hash, 0, 0, false, none, 0, 0, 0, false, 0, 0, 0, 0, 0⟩
  pprev := none
  pnext := none
  nHeight := 0
  nMint := 0
  nMoneySupply := 0
  nChainTrust := 0
  nStakeModifierChecksum := 0

abbrev LoadedMap := Uint256 → Option LoadedIndex

def CBlockIndex.header (index : CBlockIndex) (hashPrevBlock : Uint256) : CBlockHeader :=
  ⟨index.nVersion, hashPrevBlock, index.hashMerkleRoot, index.nTime, index.nBits, index.nNonce⟩

/-- The fields about a stake are stored for proof-of-stake only, and null otherwise. -/
def CBlockIndex.unserialized (index : CBlockIndex) : CBlockIndex :=
  if index.fProofOfStake then index
  else { index with prevoutStake := none, nStakeTime := 0, hashProofOfStake := 0 }

/-- The flags of an entry; the entropy bit is the last bit of its hash. -/
def CBlockIndex.nFlags (index : CBlockIndex) : ℕ :=
  (if index.fProofOfStake then 1 else 0) + 2 * (index.phashBlock.toNat % 2) +
    (if index.fGeneratedStakeModifier then 4 else 0)

/-- The setting `-fastindex` and the clock. -/
structure LoadEnv where
  fUseFastIndex : Bool
  nAdjustedTime : ℤ

/-- `CDiskBlockIndex::GetBlockHash`: the hash that is stored, for old blocks, or else that of the header. -/
def diskBlockHash (P : ChainParams) (env : LoadEnv) (diskindex : CDiskBlockIndex) : Uint256 :=
  if env.fUseFastIndex ∧ diskindex.index.nTime < env.nAdjustedTime - 24 * 60 * 60 ∧
      diskindex.index.phashBlock ≠ 0 then diskindex.index.phashBlock
  else P.hashHeader (CBlockIndex.header diskindex.index diskindex.hashPrev)

/-- The hash behind `GetStakeModifierChecksum`, of the previous checksum, the flags, the kernel hash and the
modifier. -/
abbrev ChecksumHash := Option ℕ → ℕ → Uint256 → ℕ → ℕ

def checksumOver (H : ChecksumHash) (nPrev : Option ℕ) (index : CBlockIndex) : ℕ :=
  H nPrev (CBlockIndex.nFlags index) index.hashProofOfStake index.nStakeModifier

/-- There is one checkpoint, for the genesis block. -/
def checkStakeModifierCheckpoints (fTestNet : Bool) (nHeight : ℤ) (nStakeModifierChecksum : ℕ) : Bool :=
  nHeight ≠ 0 || nStakeModifierChecksum == if fTestNet then 0x0e00670b else 0xfd11f4e7

/-- What the loop over the records holds. -/
structure LoadScan where
  mapBlockIndex : LoadedMap
  pindexGenesisBlock : Option Uint256
  setStakeSeen : Finset ProofOfStake

def LoadScan.empty : LoadScan := ⟨fun _ ↦ none, none, ∅⟩

/-- `InsertBlockIndex`: the entry of a hash, which is made if there is none; null for hash zero. -/
def insertLoaded (m : LoadedMap) (hash : Uint256) : Option Uint256 × LoadedMap :=
  if hash = 0 then (none, m)
  else if (m hash).isSome then (some hash, m)
  else (some hash, Function.update m hash (some (.new hash)))

/-- One record.  A record whose hash is zero would be written to a null pointer. -/
def loadRecord (P : ChainParams) (env : LoadEnv) (s : LoadScan) (diskindex : CDiskBlockIndex) :
    Except String LoadScan := do
  let blockHash := diskBlockHash P env diskindex
  let (pindexNew, m) := insertLoaded s.mapBlockIndex blockHash
  let (pprev, m) := insertLoaded m diskindex.hashPrev
  let (pnext, m) := insertLoaded m diskindex.hashNext
  let pindexNew ← require pindexNew "null pointer"
  let old ← require (m pindexNew) "null pointer"
  let index := CBlockIndex.unserialized { diskindex.index with phashBlock := blockHash }
  return {
    mapBlockIndex := Function.update m pindexNew (some { old with
      index, pprev, pnext
      nHeight := diskindex.nHeight
      nMint := diskindex.nMint
      nMoneySupply := diskindex.nMoneySupply })
    pindexGenesisBlock :=
      if s.pindexGenesisBlock = none ∧ blockHash = P.genesisHash then some pindexNew
      else s.pindexGenesisBlock
    setStakeSeen :=
      if index.fProofOfStake then insert index.proofOfStake s.setStakeSeen else s.setStakeSeen }

/-- One entry, once the lower ones are done.  Only the genesis block may be without predecessor. -/
def loadTrust (P : ChainParams) (H : ChecksumHash) (m : LoadedMap) (hash : Uint256) :
    Except String LoadedMap := do
  let pindex ← require (m hash) "null pointer"
  let pprev := pindex.pprev.bind m
  let nChainTrust := (pprev.map LoadedIndex.nChainTrust).getD 0 + getBlockTrust pindex.index.nBits
  rejectIf (pprev = none ∧ hash ≠ P.genesisHash) "assertion failed"
  let nStakeModifierChecksum := checksumOver H (pprev.map LoadedIndex.nStakeModifierChecksum) pindex.index
  rejectIf (!checkStakeModifierCheckpoints P.fTestNet pindex.nHeight nStakeModifierChecksum)
    "CTxDB::LoadBlockIndex() : Failed stake modifier checkpoint"
  return Function.update m hash (some { pindex with nChainTrust, nStakeModifierChecksum })

/-- The entries in the order of their heights. -/
structure IsSortedByHeight (m : LoadedMap) (vSortedByHeight : List Uint256) : Prop where
  nodup : vSortedByHeight.Nodup
  mem_iff : ∀ hash, hash ∈ vSortedByHeight ↔ (m hash).isSome
  sorted : vSortedByHeight.Pairwise fun hash hash' ↦ ∀ pindex ∈ m hash, ∀ pindex' ∈ m hash',
    pindex.nHeight ≤ pindex'.nHeight

/-- The part of a node that is loaded. -/
structure LoadedNode where
  mapBlockIndex : LoadedMap
  pindexGenesisBlock : Option Uint256
  setStakeSeen : Finset ProofOfStake
  hashBestChain : Uint256
  pindexBest : Option Uint256
  nBestHeight : ℤ

/-- What follows the loop over the records, up to where the best chain is known. -/
def loadBestChain (P : ChainParams) (H : ChecksumHash) (txdb : CTxDB) (s : LoadScan)
    (vSortedByHeight : List Uint256) : Except String LoadedNode := do
  let mapBlockIndex ← vSortedByHeight.foldlM (loadTrust P H) s.mapBlockIndex
  match txdb.readHashBestChain with
  | none =>
      rejectIf (s.pindexGenesisBlock ≠ none) "CTxDB::LoadBlockIndex() : hashBestChain not loaded"
      return ⟨mapBlockIndex, none, s.setStakeSeen, 0, none, -1⟩
  | some hashBestChain =>
      let pindexBest ← require (mapBlockIndex hashBestChain)
        "CTxDB::LoadBlockIndex() : hashBestChain not found in the block index"
      return ⟨mapBlockIndex, s.pindexGenesisBlock, s.setStakeSeen, hashBestChain, some hashBestChain,
        pindexBest.nHeight⟩

/-- The iterator meets each key once. -/
structure IsScan (txdb : CTxDB) (keys : List Uint256) : Prop where
  nodup : keys.Nodup
  mem_iff : ∀ hash, hash ∈ keys ↔ (txdb.readBlockIndex hash).isSome

/-- A start of `LoadBlockIndex`, with the keys in the order of the iterator and the entries of one height in any
order.  The blocks of the best chain that are verified afterwards are left out. -/
def LoadsIndex (P : ChainParams) (H : ChecksumHash) (env : LoadEnv) (txdb : CTxDB)
    (loaded : Except String LoadedNode) : Prop :=
  ∃ keys, IsScan txdb keys ∧
    match (keys.filterMap txdb.readBlockIndex).foldlM (loadRecord P env) .empty with
    | .error e => loaded = .error e
    | .ok s => ∃ vSortedByHeight, IsSortedByHeight s.mapBlockIndex vSortedByHeight ∧
        loaded = loadBestChain P H txdb s vSortedByHeight

def getStakeModifierChecksum (H : ChecksumHash) : PIndex → ℕ
  | [] => 0
  | [index] => checksumOver H none index
  | index :: pprev => checksumOver H (some (getStakeModifierChecksum H pprev)) index

/-- An entry as it is in memory. -/
def memoryIndex (H : ChecksumHash) (st : NodeState) : PIndex → Option LoadedIndex
  | [] => none
  | index :: pprev => some {
      index
      pprev := if pprev = [] then none else some (PIndex.getBlockHash pprev)
      pnext := (st.pnext (index :: pprev)).map PIndex.getBlockHash
      nHeight := PIndex.nHeight (index :: pprev)
      nMint := st.nMint (index :: pprev)
      nMoneySupply := st.nMoneySupply (index :: pprev)
      nChainTrust := PIndex.nChainTrust (index :: pprev)
      nStakeModifierChecksum := getStakeModifierChecksum H (index :: pprev) }

def memoryMap (H : ChecksumHash) (st : NodeState) : LoadedMap :=
  fun hash ↦ (st.mapBlockIndex hash).bind (memoryIndex H st)

def memoryNode (H : ChecksumHash) (st : NodeState) (setStakeSeen : Finset ProofOfStake) : LoadedNode where
  mapBlockIndex := memoryMap H st
  pindexGenesisBlock := some st.pindexGenesisBlock.getBlockHash
  setStakeSeen
  hashBestChain := st.hashBestChain
  pindexBest := some st.pindexBest.getBlockHash
  nBestHeight := st.nBestHeight

/-- A restart gives what is in memory. -/
def RestartEquals (P : ChainParams) (H : ChecksumHash) (st : NodeState) (setStakeSeen : Finset ProofOfStake) :
    Prop :=
  ∀ env, (∃ loaded, LoadsIndex P H env ⟨st.txdb.pdb, none⟩ loaded) ∧
    ∀ loaded, LoadsIndex P H env ⟨st.txdb.pdb, none⟩ loaded → loaded = .ok (memoryNode H st setStakeSeen)

section Scan

/-- Zero stands for no block. -/
def pointerTo (hash : Uint256) : Option Uint256 :=
  if hash = 0 then none else some hash

/-- The entry of a record. -/
def loadedOf (P : ChainParams) (env : LoadEnv) (diskindex : CDiskBlockIndex) : LoadedIndex where
  index := CBlockIndex.unserialized { diskindex.index with phashBlock := diskBlockHash P env diskindex }
  pprev := pointerTo diskindex.hashPrev
  pnext := pointerTo diskindex.hashNext
  nHeight := diskindex.nHeight
  nMint := diskindex.nMint
  nMoneySupply := diskindex.nMoneySupply
  nChainTrust := 0
  nStakeModifierChecksum := 0

variable {P : ChainParams} {H : ChecksumHash} {env : LoadEnv} {s s' : LoadScan} {diskindex : CDiskBlockIndex}
  {done records : List CDiskBlockIndex}

/-- The map with an entry for a hash. -/
def withNew (m : LoadedMap) (hash : Uint256) : LoadedMap :=
  fun h ↦ if h = hash ∧ h ≠ 0 ∧ m h = none then some (.new h) else m h

theorem insertLoaded_eq (m : LoadedMap) (hash : Uint256) :
    insertLoaded m hash = (pointerTo hash, withNew m hash) := by
  unfold insertLoaded pointerTo
  by_cases hzero : hash = 0
  · rw [if_pos hzero, if_pos hzero]
    congr 1
    funext h
    exact (if_neg fun hall ↦ hall.2.1 (hall.1.trans hzero)).symm
  · rw [if_neg hzero, if_neg hzero]
    by_cases hsome : (m hash).isSome
    · rw [if_pos hsome]
      congr 1
      funext h
      refine (if_neg ?_).symm
      rintro ⟨rfl, -, hnone⟩
      rw [hnone] at hsome
      cases hsome
    · rw [if_neg hsome]
      congr 1
      funext h
      by_cases heq : h = hash
      · subst heq
        rw [Function.update_self]
        exact (if_pos ⟨rfl, hzero, by simpa using hsome⟩).symm
      · rw [Function.update_of_ne heq]
        exact (if_neg fun hall ↦ heq hall.1).symm

theorem withNew_of_some {m : LoadedMap} {h : Uint256} {entry : LoadedIndex} (hentry : m h = some entry)
    (hash : Uint256) : withNew m hash h = some entry := by
  rw [withNew, if_neg fun hall ↦ by simp [hentry] at hall, hentry]

theorem withNew_self {m : LoadedMap} {hash : Uint256} (hzero : hash ≠ 0)
    (hold : m hash = none ∨ m hash = some (.new hash)) : withNew m hash hash = some (.new hash) := by
  rcases hold with hnone | hempty
  · exact if_pos ⟨rfl, hzero, hnone⟩
  · exact withNew_of_some hempty hash

/-- Two more entries. -/
theorem withNew_withNew (m : LoadedMap) (first second h : Uint256) :
    withNew (withNew m first) second h =
      if m h = none ∧ h ≠ 0 ∧ (h = first ∨ h = second) then some (.new h) else m h := by
  by_cases hfirst : h = first
  · subst hfirst
    by_cases hnew : m h = none ∧ h ≠ 0
    · rw [if_pos ⟨hnew.1, hnew.2, .inl rfl⟩]
      exact withNew_of_some (withNew_self hnew.2 (.inl hnew.1)) second
    · have hkept : withNew m h h = m h := if_neg fun hall ↦ hnew ⟨hall.2.2, hall.2.1⟩
      rw [withNew, hkept, if_neg fun hall ↦ hnew ⟨hall.2.2, hall.2.1⟩,
        if_neg fun hall ↦ hnew ⟨hall.1, hall.2.1⟩]
  · have hkept : withNew m first h = m h := if_neg fun hall ↦ hfirst hall.1
    rw [withNew, hkept]
    congr 1
    simp only [eq_iff_iff, hfirst, false_or]
    tauto

/-- The records that were read have their entries, and the blocks that they name have at least an empty one. -/
structure Scanned (P : ChainParams) (env : LoadEnv) (done : List CDiskBlockIndex) (s : LoadScan) : Prop where
  record : ∀ diskindex ∈ done,
    s.mapBlockIndex (diskBlockHash P env diskindex) = some (loadedOf P env diskindex)
  other : ∀ hash, (∀ diskindex ∈ done, diskBlockHash P env diskindex ≠ hash) → s.mapBlockIndex hash = none ∨
    s.mapBlockIndex hash = some (.new hash) ∧ hash ≠ 0 ∧
      ∃ diskindex ∈ done, diskindex.hashPrev = hash ∨ diskindex.hashNext = hash
  genesis : s.pindexGenesisBlock =
    if ∃ diskindex ∈ done, diskBlockHash P env diskindex = P.genesisHash then some P.genesisHash else none
  stakes : ∀ stake, stake ∈ s.setStakeSeen ↔ ∃ diskindex ∈ done,
    (loadedOf P env diskindex).index.fProofOfStake = true ∧
      (loadedOf P env diskindex).index.proofOfStake = stake

theorem scanned_empty : Scanned P env [] .empty where
  record := by simp
  other _ _ := .inl rfl
  genesis := by simp [LoadScan.empty]
  stakes := by simp [LoadScan.empty]

/-- What one record does to the index if its entry is new or empty. -/
theorem loadRecord_eq (hzero : diskBlockHash P env diskindex ≠ 0)
    (hold : s.mapBlockIndex (diskBlockHash P env diskindex) = none ∨
      s.mapBlockIndex (diskBlockHash P env diskindex) = some (.new (diskBlockHash P env diskindex))) :
    loadRecord P env s diskindex = .ok {
      mapBlockIndex := fun hash ↦
        if hash = diskBlockHash P env diskindex then some (loadedOf P env diskindex)
        else if s.mapBlockIndex hash = none ∧ hash ≠ 0 ∧
          (hash = diskindex.hashPrev ∨ hash = diskindex.hashNext) then some (.new hash)
        else s.mapBlockIndex hash
      pindexGenesisBlock :=
        if s.pindexGenesisBlock = none ∧ diskBlockHash P env diskindex = P.genesisHash then
          some (diskBlockHash P env diskindex)
        else s.pindexGenesisBlock
      setStakeSeen :=
        if (loadedOf P env diskindex).index.fProofOfStake then
          insert (loadedOf P env diskindex).index.proofOfStake s.setStakeSeen
        else s.setStakeSeen } := by
  simp only [loadRecord, insertLoaded_eq]
  generalize hhash : diskBlockHash P env diskindex = blockHash at hzero hold
  have hentry : withNew (withNew (withNew s.mapBlockIndex blockHash) diskindex.hashPrev)
      diskindex.hashNext blockHash = some (.new blockHash) :=
    withNew_of_some (withNew_of_some (withNew_self hzero hold) _) _
  have hpointer : pointerTo blockHash = some blockHash := if_neg hzero
  have hloaded : { LoadedIndex.new blockHash with
      index := CBlockIndex.unserialized { diskindex.index with phashBlock := blockHash }
      pprev := pointerTo diskindex.hashPrev
      pnext := pointerTo diskindex.hashNext
      nHeight := diskindex.nHeight
      nMint := diskindex.nMint
      nMoneySupply := diskindex.nMoneySupply } = loadedOf P env diskindex := by
    rw [loadedOf, hhash]
    rfl
  rw [hpointer, require]
  change (require (withNew _ _ blockHash) _ >>= _) = _
  rw [hentry, require]
  change Except.ok _ = _
  congr 2
  · funext hash
    by_cases heq : hash = blockHash
    · rw [if_pos heq, heq, Function.update_self]
      exact congrArg some hloaded
    · rw [if_neg heq, Function.update_of_ne heq, withNew_withNew]
      have hkept : withNew s.mapBlockIndex blockHash hash = s.mapBlockIndex hash := if_neg fun hall ↦ heq hall.1
      rw [hkept]
  · rw [loadedOf, hhash]

/-- One record whose hash is new. -/
theorem Scanned.loadRecord (h : Scanned P env done s) (hzero : diskBlockHash P env diskindex ≠ 0)
    (hnew : ∀ other ∈ done, diskBlockHash P env other ≠ diskBlockHash P env diskindex) :
    ∃ s', loadRecord P env s diskindex = .ok s' ∧ Scanned P env (done ++ [diskindex]) s' := by
  have hold := (h.other _ hnew).imp_right And.left
  refine ⟨_, loadRecord_eq hzero hold, ?_, ?_, ?_, ?_⟩
  · intro other hother
    rcases List.mem_append.mp hother with hdone | hlast
    · change (if _ then _ else if _ then _ else s.mapBlockIndex _) = _
      rw [if_neg (hnew other hdone), if_neg, h.record other hdone]
      rw [h.record other hdone]
      simp
    · rw [List.mem_singleton.mp hlast]
      exact if_pos rfl
  · intro hash hne
    have hlast : hash ≠ diskBlockHash P env diskindex := fun heq ↦ hne diskindex (by simp) heq.symm
    change (if _ then _ else if _ then _ else s.mapBlockIndex _) = _ ∨
      (if _ then _ else if _ then _ else s.mapBlockIndex _) = _ ∧ _
    rw [if_neg hlast]
    by_cases hnamed : s.mapBlockIndex hash = none ∧ hash ≠ 0 ∧
        (hash = diskindex.hashPrev ∨ hash = diskindex.hashNext)
    · rw [if_pos hnamed]
      exact .inr ⟨rfl, hnamed.2.1, diskindex, by simp, hnamed.2.2.imp Eq.symm Eq.symm⟩
    · rw [if_neg hnamed]
      refine (h.other hash fun other hother ↦ hne other (by simp [hother])).imp_right ?_
      rintro ⟨hempty, hhash, other, hother, hname⟩
      exact ⟨hempty, hhash, other, by simp [hother], hname⟩
  · change (if _ then _ else s.pindexGenesisBlock) = _
    rw [h.genesis]
    by_cases hdone : ∃ other ∈ done, diskBlockHash P env other = P.genesisHash
    · rw [if_pos hdone, if_neg (by simp), if_pos]
      obtain ⟨other, hother, heq⟩ := hdone
      exact ⟨other, by simp [hother], heq⟩
    · rw [if_neg hdone]
      by_cases hlast : diskBlockHash P env diskindex = P.genesisHash
      · rw [if_pos ⟨rfl, hlast⟩, if_pos ⟨diskindex, by simp, hlast⟩, hlast]
      · rw [if_neg fun hall ↦ hlast hall.2, if_neg]
        rintro ⟨other, hother, heq⟩
        rcases List.mem_append.mp hother with hmem | hmem
        · exact hdone ⟨other, hmem, heq⟩
        · exact hlast (List.mem_singleton.mp hmem ▸ heq)
  · intro stake
    have hsplit : (∃ other ∈ done ++ [diskindex], (loadedOf P env other).index.fProofOfStake = true ∧
        (loadedOf P env other).index.proofOfStake = stake) ↔
        stake ∈ s.setStakeSeen ∨ (loadedOf P env diskindex).index.fProofOfStake = true ∧
          (loadedOf P env diskindex).index.proofOfStake = stake := by
      rw [h.stakes]
      simp [or_and_right, exists_or]
    rw [hsplit]
    change stake ∈ (if _ then _ else s.setStakeSeen) ↔ _
    split
    · next hstake => simp [hstake, eq_comm, or_comm]
    · next hstake => simp [hstake]

/-- The loop over records with different hashes. -/
theorem scanned_foldlM (hzero : ∀ diskindex ∈ records, diskBlockHash P env diskindex ≠ 0)
    (hnodup : (records.map (diskBlockHash P env)).Nodup) :
    ∃ s, records.foldlM (loadRecord P env) .empty = .ok s ∧ Scanned P env records s := by
  suffices hrun : ∀ done s, Scanned P env done s →
      (∀ other ∈ done, ∀ diskindex ∈ records, diskBlockHash P env other ≠ diskBlockHash P env diskindex) →
      ∃ s', records.foldlM (loadRecord P env) s = .ok s' ∧ Scanned P env (done ++ records) s' from
    hrun [] .empty scanned_empty (by simp)
  induction records with
  | nil => exact fun done s h _ ↦ ⟨s, rfl, by rwa [List.append_nil]⟩
  | cons diskindex records ih =>
    intro done s h hnew
    rw [List.map_cons, List.nodup_cons] at hnodup
    obtain ⟨s₁, hone, h₁⟩ := h.loadRecord (hzero diskindex (by simp)) fun other hother ↦
      hnew other hother diskindex (by simp)
    obtain ⟨s₂, hrest, h₂⟩ := ih (fun other hother ↦ hzero other (by simp [hother])) hnodup.2 _ s₁ h₁ (by
      intro other hother next hnext
      rcases List.mem_append.mp hother with hdone | hlast
      · exact hnew other hdone next (by simp [hnext])
      · rw [List.mem_singleton.mp hlast]
        exact fun heq ↦ hnodup.1 (heq ▸ List.mem_map_of_mem hnext))
    refine ⟨s₂, ?_, by rwa [List.append_assoc] at h₂⟩
    rw [List.foldlM_cons, hone]
    exact hrest

end Scan

section Trust

variable {P : ChainParams} {H : ChecksumHash} {disk : BlockFiles} {genesis : CBlockIndex} {st : NodeState}
  {hash : Uint256} {index : CBlockIndex} {pprev : PIndex} {m : LoadedMap} {done vSortedByHeight : List Uint256}

/-- An entry before the loop. -/
def LoadedIndex.untrusted (pindex : LoadedIndex) : LoadedIndex :=
  { pindex with nChainTrust := 0, nStakeModifierChecksum := 0 }

/-- The index of memory, with trust and checksums only where they were added up. -/
def trustedOn (H : ChecksumHash) (st : NodeState) (done : List Uint256) : LoadedMap := fun hash ↦
  if hash ∈ done then memoryMap H st hash else (memoryMap H st hash).map LoadedIndex.untrusted

/-- The checksum of the genesis block is that of its checkpoint. -/
def GenesisChecked (P : ChainParams) (H : ChecksumHash) (genesis : CBlockIndex) : Prop :=
  genesis.phashBlock = P.genesisHash ∧
    checkStakeModifierCheckpoints P.fTestNet 0 (checksumOver H none genesis) = true

theorem memoryMap_of_indexed (hindex : st.mapBlockIndex hash = some (index :: pprev)) :
    memoryMap H st hash = memoryIndex H st (index :: pprev) := by
  rw [memoryMap, hindex]
  rfl

theorem exists_memoryMap (hindexed : Indexed P disk genesis st) {pindex : PIndex}
    (hindex : st.mapBlockIndex hash = some pindex) :
    ∃ entry, memoryMap H st hash = some entry ∧ entry.nHeight = pindex.nHeight := by
  obtain ⟨chain, -, rfl⟩ := hindexed.branch _ _ hindex
  obtain ⟨index, pprev, hcons⟩ := List.exists_cons_of_ne_nil (pindexOf_ne_nil genesis chain)
  rw [hcons] at hindex ⊢
  exact ⟨_, memoryMap_of_indexed hindex, rfl⟩

theorem isSome_memoryMap (hindexed : Indexed P disk genesis st) (hash : Uint256) :
    (memoryMap H st hash).isSome ↔ ∃ pindex, st.mapBlockIndex hash = some pindex := by
  cases hindex : st.mapBlockIndex hash with
  | none => simp [memoryMap, hindex]
  | some pindex =>
    obtain ⟨entry, hentry, -⟩ := exists_memoryMap (H := H) hindexed hindex
    simp [hentry]

/-- One entry whose predecessor is done. -/
theorem loadTrust_trustedOn (hindexed : Indexed P disk genesis st) (hchecked : GenesisChecked P H genesis)
    (hindex : st.mapBlockIndex hash = some (index :: pprev)) (hnew : hash ∉ done)
    (hprev : pprev ≠ [] → pprev.getBlockHash ∈ done) :
    loadTrust P H (trustedOn H st done) hash = .ok (trustedOn H st (done ++ [hash])) := by
  have hmemory := memoryMap_of_indexed (H := H) hindex
  have hold : trustedOn H st done hash = (memoryIndex H st (index :: pprev)).map LoadedIndex.untrusted := by
    rw [trustedOn, if_neg hnew, hmemory]
  have hresult : trustedOn H st (done ++ [hash]) =
      Function.update (trustedOn H st done) hash (memoryIndex H st (index :: pprev)) := by
    funext h
    by_cases heq : h = hash
    · rw [heq, Function.update_self, trustedOn, if_pos (by simp), hmemory]
    · rw [Function.update_of_ne heq, trustedOn, trustedOn]
      simp [heq]
  rw [hresult, loadTrust, hold]
  simp only [bind_eq_ok, require_eq_ok, rejectIf_eq_ok, pure_eq_ok]
  cases pprev with
  | nil =>
    obtain ⟨chain, -, hchain⟩ := hindexed.branch _ _ hindex
    have hgenesis : index = genesis := by
      cases chain with
      | nil => exact List.head_eq_of_cons_eq hchain
      | cons entry below =>
        have hlength := congrArg List.length hchain
        simp [pindexOf] at hlength
    subst hgenesis
    have hhash : index.phashBlock = hash := hindexed.hash _ _ hindex
    refine ⟨_, rfl, (), fun hall ↦ hall.2 (hhash.symm.trans hchecked.1), (), ?_, rfl⟩
    rw [Bool.not_eq_true, Bool.not_eq_false']
    exact hchecked.2
  | cons next below =>
    have hbelow : trustedOn H st done (PIndex.getBlockHash (next :: below)) =
        memoryIndex H st (next :: below) := by
      rw [trustedOn, if_pos (hprev (List.cons_ne_nil _ _))]
      exact memoryMap_of_indexed (hindexed.parent _ _ _ hindex (List.cons_ne_nil _ _))
    refine ⟨_, rfl, (), ?_, (), ?_, ?_⟩
    · rintro ⟨hnone, -⟩
      change trustedOn H st done (PIndex.getBlockHash (next :: below)) = none at hnone
      rw [hbelow] at hnone
      cases hnone
    · rw [Bool.not_eq_true, Bool.not_eq_false']
      refine Bool.or_eq_true_iff.mpr (.inl (decide_eq_true ?_))
      change PIndex.nHeight (index :: next :: below) ≠ 0
      simp only [PIndex.nHeight, List.length_cons]
      omega
    · have htrust : ((trustedOn H st done (PIndex.getBlockHash (next :: below))).map
          LoadedIndex.nChainTrust).getD 0 = PIndex.nChainTrust (next :: below) := by
        rw [hbelow]
        rfl
      have hchecksum : (trustedOn H st done (PIndex.getBlockHash (next :: below))).map
          LoadedIndex.nStakeModifierChecksum = some (getStakeModifierChecksum H (next :: below)) := by
        rw [hbelow]
        rfl
      refine congrArg (Function.update (trustedOn H st done) hash)
        (congrArg some (LoadedIndex.ext rfl rfl rfl rfl rfl rfl ?_ ?_))
      · exact congrArg (· + getBlockTrust index.nBits) htrust
      · exact congrArg (checksumOver H · index) hchecksum

/-- The loop adds up all trust and all checksums. -/
theorem foldlM_loadTrust (hindexed : Indexed P disk genesis st) (hchecked : GenesisChecked P H genesis)
    (hsorted : IsSortedByHeight (trustedOn H st []) vSortedByHeight) :
    vSortedByHeight.foldlM (loadTrust P H) (trustedOn H st []) = .ok (memoryMap H st) := by
  have hmem : ∀ hash, hash ∈ vSortedByHeight ↔ ∃ pindex, st.mapBlockIndex hash = some pindex := by
    intro hash
    rw [hsorted.mem_iff, trustedOn, if_neg List.not_mem_nil, Option.isSome_map]
    exact isSome_memoryMap hindexed hash
  have hrun : ∀ rest done, vSortedByHeight = done ++ rest →
      rest.foldlM (loadTrust P H) (trustedOn H st done) = .ok (trustedOn H st (done ++ rest)) := by
    intro rest
    induction rest with
    | nil =>
      intro done _
      rw [List.append_nil]
      rfl
    | cons hash rest ih =>
      intro done hsplit
      obtain ⟨pindex, hindex⟩ := (hmem hash).mp (by simp [hsplit])
      obtain ⟨index, pprev, rfl⟩ : ∃ index, ∃ pprev : PIndex, pindex = index :: pprev := by
        obtain ⟨chain, -, hchain⟩ := hindexed.branch _ _ hindex
        exact List.exists_cons_of_ne_nil (hchain ▸ pindexOf_ne_nil genesis chain)
      have hnodup := hsplit ▸ hsorted.nodup
      have hpairwise := hsplit ▸ hsorted.sorted
      have hnew : hash ∉ done := fun hdone ↦
        (List.nodup_append.mp hnodup).2.2 hash hdone hash (by simp) rfl
      have hprev : pprev ≠ [] → pprev.getBlockHash ∈ done := by
        intro hne
        have hbelow := hindexed.parent _ _ _ hindex hne
        have hall := (hmem pprev.getBlockHash).mpr ⟨_, hbelow⟩
        rw [hsplit] at hall
        rcases List.mem_append.mp hall with hdone | hlater
        · exact hdone
        -- a predecessor is lower, so that it does not come later
        exfalso
        have hle : PIndex.nHeight (index :: pprev) ≤ PIndex.nHeight pprev := by
          rcases List.mem_cons.mp hlater with hsame | hrest
          · have heq := hindex.symm.trans (hsame ▸ hbelow)
            exact (congrArg PIndex.nHeight (Option.some.inj heq)).le
          · have hlow := (List.pairwise_cons.mp (List.pairwise_append.mp hpairwise).2.1).1 _ hrest
            obtain ⟨entry, hentry, hheight⟩ := exists_memoryMap (H := H) hindexed hindex
            obtain ⟨lower, hlower, hlowerHeight⟩ := exists_memoryMap (H := H) hindexed hbelow
            rw [← hheight, ← hlowerHeight]
            exact hlow entry.untrusted (by rw [trustedOn, if_neg List.not_mem_nil, hentry]; rfl)
              lower.untrusted (by rw [trustedOn, if_neg List.not_mem_nil, hlower]; rfl)
        simp only [PIndex.nHeight, List.length_cons] at hle
        omega
      rw [List.foldlM_cons, loadTrust_trustedOn hindexed hchecked hindex hnew hprev]
      have hrest := ih (done ++ [hash]) (by rw [hsplit]; simp)
      rw [List.append_assoc] at hrest
      exact hrest
  rw [hrun vSortedByHeight [] rfl]
  congr 1
  funext hash
  rw [trustedOn, List.nil_append]
  split
  · rfl
  · next hnot =>
    rw [hmem] at hnot
    have hnone : memoryMap H st hash = none := by
      rw [memoryMap, Option.eq_none_iff_forall_ne_some.mpr fun pindex hindex ↦ hnot ⟨pindex, hindex⟩]
      rfl
    rw [hnone]
    rfl

end Trust

section Restart

/-- What the records leave out can be told from the rest. -/
structure Restorable (P : ChainParams) (st : NodeState) (setStakeSeen : Finset ProofOfStake) : Prop where
  nonzero : st.mapBlockIndex 0 = none
  header : ∀ hash index, ∀ pprev : PIndex, st.mapBlockIndex hash = some (index :: pprev) →
    P.hashHeader (CBlockIndex.header index pprev.getBlockHash) = index.phashBlock
  unserialized : ∀ hash index, ∀ pprev : PIndex, st.mapBlockIndex hash = some (index :: pprev) →
    CBlockIndex.unserialized index = index
  finite : {hash | ∃ pindex, st.mapBlockIndex hash = some pindex}.Finite
  stakes : ∀ stake, stake ∈ setStakeSeen ↔ ∃ hash index, ∃ pprev : PIndex,
    st.mapBlockIndex hash = some (index :: pprev) ∧ index.fProofOfStake = true ∧ index.proofOfStake = stake

variable {P : ChainParams} {H : ChecksumHash} {disk : BlockFiles} {genesis : CBlockIndex} {st : NodeState}
  {setStakeSeen : Finset ProofOfStake} {chain : Branch} {env : LoadEnv} {hash : Uint256} {index : CBlockIndex}
  {pprev : PIndex} {diskindex : CDiskBlockIndex} {keys : List Uint256}

theorem diskBlockHash_record (hrest : Restorable P st setStakeSeen)
    (hindex : st.mapBlockIndex hash = some (index :: pprev)) {hashNext : Uint256}
    (hrecord : recordOf st hashNext (index :: pprev) = some diskindex) :
    diskBlockHash P env diskindex = index.phashBlock := by
  obtain rfl := Option.some.inj hrecord
  unfold diskBlockHash
  split
  · rfl
  · exact hrest.header _ _ _ hindex

/-- No entry has hash zero. -/
theorem pointerTo_getBlockHash (hrest : Restorable P st setStakeSeen) {pindex : PIndex}
    (hindex : st.mapBlockIndex pindex.getBlockHash = some pindex) :
    pointerTo pindex.getBlockHash = some pindex.getBlockHash := by
  refine if_neg fun hzero ↦ ?_
  rw [hzero, hrest.nonzero] at hindex
  cases hindex

/-- A link leads to an entry of the index. -/
theorem indexed_of_pnext (hinv : NodeInv P disk genesis st chain) {pindex next : PIndex}
    (hnext : st.pnext pindex = some next) : st.mapBlockIndex next.getBlockHash = some next := by
  rw [hinv.onBranch.links] at hnext
  obtain ⟨hsuffix, htail, hne⟩ := linksTo_eq_some_iff.mp hnext
  refine hinv.indexed.ancestor hinv.atTip.indexed hsuffix ?_
  rintro rfl
  exact hne htail.symm

/-- A record gives its entry. -/
theorem loadedOf_record (hinv : NodeInv P disk genesis st chain) (hrest : Restorable P st setStakeSeen)
    (hindex : st.mapBlockIndex hash = some (index :: pprev))
    (hrecord : recordOf st (nextHash st.pnext (index :: pprev)) (index :: pprev) = some diskindex) :
    some (loadedOf P env diskindex) = (memoryIndex H st (index :: pprev)).map LoadedIndex.untrusted := by
  have hhash : diskBlockHash P env diskindex = index.phashBlock := diskBlockHash_record hrest hindex hrecord
  obtain rfl := Option.some.inj hrecord
  refine congrArg some (LoadedIndex.ext ?_ ?_ ?_ rfl rfl rfl rfl rfl)
  · change CBlockIndex.unserialized _ = index
    rw [hhash]
    exact hrest.unserialized _ _ _ hindex
  · change pointerTo pprev.getBlockHash = if pprev = [] then none else some pprev.getBlockHash
    by_cases hnil : pprev = []
    · rw [if_pos hnil, hnil]
      rfl
    · rw [if_neg hnil]
      exact pointerTo_getBlockHash hrest (hinv.indexed.parent _ _ _ hindex hnil)
  · change pointerTo (nextHash st.pnext (index :: pprev)) = (st.pnext (index :: pprev)).map PIndex.getBlockHash
    rw [nextHash]
    cases hnext : st.pnext (index :: pprev) with
    | none => rfl
    | some next =>
      exact pointerTo_getBlockHash hrest (indexed_of_pnext hinv hnext)

/-- There is a record for each entry. -/
theorem exists_record (hinv : NodeInv P disk genesis st chain) (hdisk : DiskIndex st) {pindex : PIndex}
    (hindex : st.mapBlockIndex hash = some pindex) : ∃ index pprev diskindex, pindex = index :: pprev ∧
      st.txdb.readBlockIndex hash = some diskindex ∧
        recordOf st (nextHash st.pnext (index :: pprev)) (index :: pprev) = some diskindex := by
  obtain ⟨branch, -, rfl⟩ := hinv.indexed.branch _ _ hindex
  obtain ⟨index, pprev, hcons⟩ := List.exists_cons_of_ne_nil (pindexOf_ne_nil genesis branch)
  rw [hcons] at hindex ⊢
  refine ⟨index, pprev, _, rfl, ?_, rfl⟩
  rw [hdisk hash, hindex]
  rfl

/-- A record is that of an entry. -/
theorem exists_entry (hinv : NodeInv P disk genesis st chain) (hdisk : DiskIndex st)
    (hread : st.txdb.readBlockIndex hash = some diskindex) : ∃ index, ∃ pprev : PIndex,
      st.mapBlockIndex hash = some (index :: pprev) ∧
        recordOf st (nextHash st.pnext (index :: pprev)) (index :: pprev) = some diskindex := by
  rw [hdisk hash, Option.bind_eq_some_iff] at hread
  obtain ⟨pindex, hindex, hrecord⟩ := hread
  obtain ⟨index, pprev, -, rfl, -⟩ := exists_record hinv hdisk hindex
  exact ⟨index, pprev, hindex, hrecord⟩

theorem diskBlockHash_of_read (hinv : NodeInv P disk genesis st chain) (hdisk : DiskIndex st)
    (hrest : Restorable P st setStakeSeen) (hread : st.txdb.readBlockIndex hash = some diskindex) :
    diskBlockHash P env diskindex = hash := by
  obtain ⟨index, pprev, hindex, hrecord⟩ := exists_entry hinv hdisk hread
  exact (diskBlockHash_record hrest hindex hrecord).trans (hinv.indexed.hash _ _ hindex)

theorem mem_records_iff (hscan : IsScan st.txdb keys) :
    diskindex ∈ keys.filterMap st.txdb.readBlockIndex ↔
      ∃ key, st.txdb.readBlockIndex key = some diskindex := by
  rw [List.mem_filterMap]
  refine ⟨fun ⟨key, _, hread⟩ ↦ ⟨key, hread⟩, fun ⟨key, hread⟩ ↦ ⟨key, ?_, hread⟩⟩
  rw [hscan.mem_iff, hread]
  rfl

section Scanned

variable (hinv : NodeInv P disk genesis st chain) (hdisk : DiskIndex st) (hrest : Restorable P st setStakeSeen)
  (hscan : IsScan st.txdb keys)

include hinv hdisk hrest hscan

/-- The hashes of the records are the keys. -/
theorem map_diskBlockHash :
    (keys.filterMap st.txdb.readBlockIndex).map (diskBlockHash P env) = keys := by
  rw [List.map_filterMap]
  refine (List.filterMap_congr fun key hkey ↦ ?_).trans (List.filterMap_some (l := keys))
  obtain ⟨diskindex, hread⟩ := Option.isSome_iff_exists.mp ((hscan.mem_iff key).mp hkey)
  rw [hread]
  exact congrArg some (diskBlockHash_of_read hinv hdisk hrest hread)

variable {s : LoadScan} (hscanned : Scanned P env (keys.filterMap st.txdb.readBlockIndex) s)

include hscanned

/-- Every block that a record names has a record itself. -/
theorem mapBlockIndex_scanned : s.mapBlockIndex = trustedOn H st [] := by
  funext hash
  rw [trustedOn, if_neg List.not_mem_nil]
  cases hindex : st.mapBlockIndex hash with
  | some pindex =>
    obtain ⟨index, pprev, diskindex, rfl, hread, hrecord⟩ := exists_record hinv hdisk hindex
    have hentry := hscanned.record diskindex ((mem_records_iff hscan).mpr ⟨hash, hread⟩)
    rw [diskBlockHash_of_read hinv hdisk hrest hread] at hentry
    rw [hentry, memoryMap_of_indexed hindex]
    exact loadedOf_record hinv hrest hindex hrecord
  | none =>
    have hnone : memoryMap H st hash = none := by
      rw [memoryMap, hindex]
      rfl
    have hmissing : ∀ pindex : PIndex, st.mapBlockIndex pindex.getBlockHash = some pindex →
        pindex.getBlockHash ≠ hash := by
      rintro pindex hpindex rfl
      rw [hindex] at hpindex
      cases hpindex
    rw [hnone]
    refine (hscanned.other hash ?_).resolve_right ?_
    · intro diskindex hdiskindex heq
      obtain ⟨key, hread⟩ := (mem_records_iff hscan).mp hdiskindex
      obtain ⟨index, pprev, hentry, -⟩ := exists_entry hinv hdisk hread
      rw [diskBlockHash_of_read hinv hdisk hrest hread] at heq
      rw [heq, hindex] at hentry
      cases hentry
    · rintro ⟨-, hzero, diskindex, hdiskindex, hnamed⟩
      obtain ⟨key, hread⟩ := (mem_records_iff hscan).mp hdiskindex
      obtain ⟨index, pprev, hentry, hrecord⟩ := exists_entry hinv hdisk hread
      obtain rfl := Option.some.inj hrecord
      rcases hnamed with hprev | hnext
      · by_cases hnil : pprev = []
        · rw [← hprev, hnil] at hzero
          exact hzero rfl
        · exact hmissing pprev (hinv.indexed.parent _ _ _ hentry hnil) hprev
      · change nextHash st.pnext (index :: pprev) = hash at hnext
        rw [nextHash] at hnext
        cases hlink : st.pnext (index :: pprev) with
        | none =>
          rw [hlink] at hnext
          exact hzero hnext.symm
        | some next =>
          rw [hlink] at hnext
          exact hmissing next (indexed_of_pnext hinv hlink) hnext

theorem pindexGenesisBlock_scanned (hgenesis : genesis.phashBlock = P.genesisHash) :
    s.pindexGenesisBlock = some P.genesisHash := by
  have hsuffix : [genesis] <:+ pindexOf genesis chain := List.suffix_append _ _
  have hindex : st.mapBlockIndex genesis.phashBlock = some [genesis] :=
    hinv.indexed.ancestor hinv.atTip.indexed hsuffix (List.cons_ne_nil _ _)
  obtain ⟨index, pprev, diskindex, -, hread, -⟩ := exists_record hinv hdisk hindex
  rw [hscanned.genesis, if_pos]
  refine ⟨diskindex, (mem_records_iff hscan).mpr ⟨_, hread⟩, ?_⟩
  rw [diskBlockHash_of_read hinv hdisk hrest hread, hgenesis]

theorem setStakeSeen_scanned : s.setStakeSeen = setStakeSeen := by
  have hindex : ∀ hash index, ∀ pprev : PIndex, ∀ diskindex, st.mapBlockIndex hash = some (index :: pprev) →
      recordOf st (nextHash st.pnext (index :: pprev)) (index :: pprev) = some diskindex →
      (loadedOf P env diskindex).index = index := by
    intro hash index pprev diskindex hentry hrecord
    have hloaded : some (loadedOf P env diskindex) =
        (memoryIndex (fun _ _ _ _ ↦ 0) st (index :: pprev)).map LoadedIndex.untrusted :=
      loadedOf_record hinv hrest hentry hrecord
    exact congrArg LoadedIndex.index (Option.some.inj hloaded)
  ext stake
  rw [hscanned.stakes, hrest.stakes]
  constructor
  · rintro ⟨diskindex, hdiskindex, hstake⟩
    obtain ⟨key, hread⟩ := (mem_records_iff hscan).mp hdiskindex
    obtain ⟨index, pprev, hentry, hrecord⟩ := exists_entry hinv hdisk hread
    rw [hindex _ _ _ _ hentry hrecord] at hstake
    exact ⟨key, index, pprev, hentry, hstake⟩
  · rintro ⟨hash, index, pprev, hentry, hstake⟩
    obtain ⟨_, _, diskindex, hcons, hread, hrecord⟩ := exists_record hinv hdisk hentry
    obtain ⟨rfl, rfl⟩ := List.cons.inj hcons
    refine ⟨diskindex, (mem_records_iff hscan).mpr ⟨hash, hread⟩, ?_⟩
    rw [hindex _ _ _ _ hentry hrecord]
    exact hstake

end Scanned

/-- The entries that the records give, as long as trust is not added up. -/
theorem scanned_eq (hinv : NodeInv P disk genesis st chain) (hdisk : DiskIndex st)
    (hrest : Restorable P st setStakeSeen) (hgenesis : genesis.phashBlock = P.genesisHash)
    (hscan : IsScan st.txdb keys) :
    (keys.filterMap st.txdb.readBlockIndex).foldlM (loadRecord P env) .empty =
      .ok ⟨trustedOn H st [], some P.genesisHash, setStakeSeen⟩ := by
  have hzero : ∀ diskindex ∈ keys.filterMap st.txdb.readBlockIndex, diskBlockHash P env diskindex ≠ 0 := by
    intro diskindex hdiskindex
    obtain ⟨key, hread⟩ := (mem_records_iff hscan).mp hdiskindex
    obtain ⟨index, pprev, hindex, -⟩ := exists_entry hinv hdisk hread
    rw [diskBlockHash_of_read hinv hdisk hrest hread]
    rintro rfl
    rw [hrest.nonzero] at hindex
    cases hindex
  have hnodup : ((keys.filterMap st.txdb.readBlockIndex).map (diskBlockHash P env)).Nodup := by
    rw [map_diskBlockHash hinv hdisk hrest hscan]
    exact hscan.nodup
  obtain ⟨s, hrun, hscanned⟩ := scanned_foldlM hzero hnodup
  rw [hrun, ← mapBlockIndex_scanned hinv hdisk hrest hscan hscanned,
    ← pindexGenesisBlock_scanned hinv hdisk hrest hscan hscanned hgenesis,
    ← setStakeSeen_scanned hinv hdisk hrest hscan hscanned]

/-- The index is finite, so that its records can be met one after the other. -/
theorem exists_isScan (hinv : NodeInv P disk genesis st chain) (hdisk : DiskIndex st)
    (hrest : Restorable P st setStakeSeen) : ∃ keys, IsScan st.txdb keys := by
  refine ⟨hrest.finite.toFinset.toList, Finset.nodup_toList _, fun hash ↦ ?_⟩
  rw [Finset.mem_toList, Set.Finite.mem_toFinset, Set.mem_ofPred_eq]
  constructor
  · rintro ⟨pindex, hindex⟩
    obtain ⟨index, pprev, diskindex, -, hread, -⟩ := exists_record hinv hdisk hindex
    rw [hread]
    rfl
  · intro hsome
    obtain ⟨diskindex, hread⟩ := Option.isSome_iff_exists.mp hsome
    obtain ⟨index, pprev, hindex, -⟩ := exists_entry hinv hdisk hread
    exact ⟨_, hindex⟩

/-- They can be sorted. -/
theorem exists_isSortedByHeight (hinv : NodeInv P disk genesis st chain)
    (hrest : Restorable P st setStakeSeen) :
    ∃ vSortedByHeight, IsSortedByHeight (trustedOn H st []) vSortedByHeight := by
  let height (hash : Uint256) : ℤ := ((trustedOn H st [] hash).map LoadedIndex.nHeight).getD 0
  let le (hash hash' : Uint256) : Bool := height hash ≤ height hash'
  refine ⟨hrest.finite.toFinset.toList.mergeSort le, ?_, fun hash ↦ ?_, ?_⟩
  · exact (List.mergeSort_perm _ le).nodup_iff.mpr (Finset.nodup_toList _)
  · rw [List.mem_mergeSort, Finset.mem_toList, Set.Finite.mem_toFinset, Set.mem_ofPred_eq, trustedOn,
      if_neg List.not_mem_nil, Option.isSome_map]
    exact (isSome_memoryMap hinv.indexed hash).symm
  · refine (List.pairwise_mergeSort ?_ ?_ _).imp ?_
    · intro first second third hfirst hsecond
      simp only [le, decide_eq_true_eq] at hfirst hsecond ⊢
      exact hfirst.trans hsecond
    · intro first second
      simpa [le] using le_total (height first) (height second)
    · intro hash hash' hle pindex hpindex pindex' hpindex'
      simp only [le, height, decide_eq_true_eq, Option.mem_def.mp hpindex, Option.mem_def.mp hpindex'] at hle
      exact hle

/-- If the records are those of memory, a restart gives what is in memory. -/
theorem restartEquals_of_diskIndex (hinv : NodeInv P disk genesis st chain) (hdisk : DiskIndex st)
    (hrest : Restorable P st setStakeSeen) (hchecked : GenesisChecked P H genesis) :
    RestartEquals P H st setStakeSeen := by
  intro env
  have hidle : (⟨st.txdb.pdb, none⟩ : CTxDB) = st.txdb := by
    rw [← hinv.onBranch.idle]
  rw [hidle]
  have hload : ∀ vSortedByHeight, IsSortedByHeight (trustedOn H st []) vSortedByHeight →
      loadBestChain P H st.txdb ⟨trustedOn H st [], some P.genesisHash, setStakeSeen⟩ vSortedByHeight =
        .ok (memoryNode H st setStakeSeen) := by
    intro vSortedByHeight hsorted
    obtain ⟨tip, htip, hheight⟩ := exists_memoryMap (H := H) hinv.indexed hinv.atTip.indexed
    have hgenesis : st.pindexGenesisBlock.getBlockHash = P.genesisHash := by
      rw [hinv.indexed.started]
      exact hchecked.1
    rw [loadBestChain, foldlM_loadTrust hinv.indexed hchecked hsorted, hinv.onBranch.stored]
    change (require (memoryMap H st _) _ >>= _) = _
    rw [htip, memoryNode, hinv.atTip.hashBestChain, hinv.atTip.pindexBest, hinv.atTip.nBestHeight, ← hheight,
      hgenesis]
    rfl
  obtain ⟨keys, hscan⟩ := exists_isScan hinv hdisk hrest
  obtain ⟨vSortedByHeight, hsorted⟩ := exists_isSortedByHeight (H := H) hinv hrest
  refine ⟨?_, ?_⟩
  · refine ⟨.ok (memoryNode H st setStakeSeen), keys, hscan, ?_⟩
    rw [scanned_eq (H := H) hinv hdisk hrest hchecked.1 hscan]
    exact ⟨vSortedByHeight, hsorted, (hload vSortedByHeight hsorted).symm⟩
  · rintro loaded ⟨keys, hscan, hloaded⟩
    rw [scanned_eq (H := H) hinv hdisk hrest hchecked.1 hscan] at hloaded
    obtain ⟨vSortedByHeight, hsorted, rfl⟩ := hloaded
    exact hload vSortedByHeight hsorted

end Restart

end Electra.Node
