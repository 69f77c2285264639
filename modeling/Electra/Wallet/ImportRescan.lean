import Electra.Ledger.Retarget
import Electra.Wallet.DumpRoundTrip
import Electra.Wallet.Rescan

/-!
# How far an import rescans

The birth time of a key is two hours before its first block, an import walks back to a block two hours
before that, and the scan skips only blocks that are as old.  Since no block is more than 50 minutes
earlier than one below it, no block that pays the key is missed.
-/

namespace Electra.Wallet

open Chain Ledger Node Foundations.WindowMedian

variable {P : ChainParams} {disk : BlockFiles} {genesis : CBlockIndex} {st : NodeState}
  {pindex below tip : PIndex}

/-- No need to read and scan the block. -/
def skipsBlock (nTimeFirstKey : ℤ) (pindex : PIndex) : Bool :=
  nTimeFirstKey ≠ 0 && pindex.nTime < nTimeFirstKey - 7200

/-- The blocks that `ScanForWalletTransactions` reads when it follows the links. -/
def scannedBlocks (st : NodeState) (nTimeFirstKey : ℤ) (pindexStart : PIndex) : List PIndex :=
  (followNext st.pnext st.pindexBest.length pindexStart).filter fun pindex ↦ !skipsBlock nTimeFirstKey pindex

/-- The time in the index is that of the block. -/
theorem skipsBlock_eq_beforeBirthday {nTimeFirstKey : ℤ} {block : CBlock} (h : pindex.nTime = block.nTime) :
    skipsBlock nTimeFirstKey pindex = CWallet.beforeBirthday nTimeFirstKey block := by
  rw [skipsBlock, CWallet.beforeBirthday, h]

theorem mem_ancestors : pindex ∈ ancestors tip ↔ pindex <:+ tip ∧ pindex ≠ [] := by
  induction tip with
  | nil => simp [ancestors]
  | cons index pprev ih =>
    rw [ancestors, List.mem_append, ih, List.mem_singleton, List.suffix_cons_iff]
    constructor
    · rintro (⟨hsuffix, hne⟩ | rfl)
      · exact ⟨.inr hsuffix, hne⟩
      · exact ⟨.inl rfl, List.cons_ne_nil _ _⟩
    · rintro ⟨rfl | hsuffix, hne⟩
      · exact .inr rfl
      · exact .inl ⟨hsuffix, hne⟩

/-- The scan meets every block above its start. -/
theorem mem_followNext {nSteps : ℕ} (hstart : below <:+ pindex) (h : pindex <:+ tip) (hne : below ≠ [])
    (hsteps : tip.length ≤ nSteps + below.length) : pindex ∈ followNext (linksTo tip) nSteps below := by
  have hsplit := followNext_linksTo hne (hstart.trans h) hsteps
  have hpindex : pindex ∈ ancestors tip := mem_ancestors.mpr ⟨h, by
    rintro rfl
    exact hne (List.suffix_nil.mp hstart)⟩
  rw [← hsplit, List.mem_append] at hpindex
  refine hpindex.resolve_left fun hlow ↦ ?_
  have hle := (mem_ancestors.mp hlow).1.length_le
  have hge := hstart.length_le
  have hpos := List.length_pos_iff.mpr hne
  rw [List.length_tail] at hle
  omega

theorem rescanStart_suffix (nTimeBegin : ℤ) (tip : PIndex) : rescanStart nTimeBegin tip <:+ tip := by
  induction tip with
  | nil => exact List.suffix_refl _
  | cons index pprev ih =>
    cases pprev with
    | nil => exact List.suffix_refl _
    | cons prev below =>
      rw [rescanStart]
      split
      · exact ih.trans (List.suffix_cons _ _)
      · exact List.suffix_refl _

/-- The walk ends at the first block, or at one that is old enough. -/
theorem rescanStart_old (nTimeBegin : ℤ) (tip : PIndex) : (rescanStart nTimeBegin tip).length ≤ 1 ∨
    (rescanStart nTimeBegin tip).nTime ≤ nTimeBegin - 7200 := by
  induction tip with
  | nil => exact .inl (Nat.zero_le 1)
  | cons index pprev ih =>
    cases pprev with
    | nil => exact .inl le_rfl
    | cons prev below =>
      rw [rescanStart]
      split
      · exact ih
      · next hold => exact .inr (not_lt.mp hold)

theorem rescanStart_ne_nil {nTimeBegin : ℤ} (hne : tip ≠ []) : rescanStart nTimeBegin tip ≠ [] := by
  induction tip with
  | nil => exact absurd rfl hne
  | cons index pprev ih =>
    cases pprev with
    | nil => exact hne
    | cons prev below =>
      rw [rescanStart]
      split
      · exact ih (List.cons_ne_nil _ _)
      · exact List.cons_ne_nil _ _

theorem nTime_mem_blockTimes (hpindex : pindex <:+ tip) (hne : pindex ≠ []) :
    pindex.nTime ∈ blockTimes tip := by
  cases pindex with
  | nil => exact absurd rfl hne
  | cons index pprev => exact List.mem_map_of_mem (hpindex.subset List.mem_cons_self)

/-- On an accepted chain no block is more than 50 minutes earlier than one below it. -/
theorem nTime_sub_le_of_suffix {chain : Branch} (haccepted : AcceptedBranch P disk genesis chain)
    (hpindex : pindex <:+ pindexOf genesis chain) (hbelow : below <:+ pindex) (hne : below ≠ []) :
    below.nTime - 3000 ≤ pindex.nTime := by
  obtain ⟨above, rfl⟩ := hbelow
  cases below with
  | nil => exact absurd rfl hne
  | cons first below =>
    have hsteady : Steady PIndex.nMedianTimeSpan 600
        (blockTimes above ++ (first.nTime : ℤ) :: blockTimes below) := by
      have htimes : blockTimes (above ++ first :: below) =
          blockTimes above ++ (first.nTime : ℤ) :: blockTimes below := by
        rw [blockTimes, List.map_append, List.map_cons]
        rfl
      rw [← htimes]
      exact (steady_blockTimes haccepted).of_suffix (hpindex.map _)
    have hbound := (hsteady.le_of_above (k := 5) (by decide) (by decide) (by decide)).1
    cases above with
    | nil => exact sub_le_self _ (by decide)
    | cons index above => exact hbound (index.nTime : ℤ) List.mem_cons_self

/-- No block is earlier than the first one. -/
theorem genesis_le_nTime {chain : Branch} (haccepted : AcceptedBranch P disk genesis chain)
    (hpindex : pindex <:+ pindexOf genesis chain) (hne : pindex ≠ []) : (genesis.nTime : ℤ) ≤ pindex.nTime := by
  have hsteady := steady_blockTimes haccepted
  have hmem := nTime_mem_blockTimes hpindex hne
  rw [pindexOf, blockTimes, List.map_append, List.map_singleton] at hsteady hmem
  exact hsteady.first_le (by decide) _ hmem

section Import

variable {env : DumpEnv} {wallet target : DumpWallet env} {last : Option PIndex} {header : List CommentLine}
  {file : List UInt8} {addKeyResult : CKeyID → AddKeyResult} {imported : Imported env} {keyid : CKeyID}
  {wtx : CWalletTx} {block : CBlock}

def blockAt (disk : BlockFiles) (pindex : PIndex) : Option CBlock :=
  pindex.head?.bind fun index ↦ disk.readBlock index.nFile index.nBlockPos

/-- A wallet transaction that is in a block of the main chain says so. -/
def Synchronised (disk : BlockFiles) (st : NodeState) (mapWallet : List CWalletTx) : Prop :=
  ∀ wtx ∈ mapWallet, ∀ (pindex : PIndex) (block : CBlock), pindex <:+ st.pindexBest → blockAt disk pindex = some block →
    wtx.toCTransaction ∈ block.vtx → wtx.hashBlock = pindex.getBlockHash

theorem ne_nil_of_isInMainChain (hlinks : st.pnext = linksTo st.pindexBest) (htip : st.pindexBest ≠ [])
    (h : isInMainChain st pindex = true) : pindex ≠ [] := by
  rintro rfl
  rw [isInMainChain, Bool.or_eq_true, hlinks, beq_iff_eq] at h
  rcases h with hnext | hbest
  · obtain ⟨next, hnext⟩ := Option.isSome_iff_exists.mp hnext
    exact (linksTo_eq_some_iff.mp hnext).2.2 rfl
  · exact htip hbest.symm

/-- The birth time of a key without metadata is two hours before a block of the main chain that is not above
any block that pays the key. -/
theorem exists_firstBlock (h : LookupRun P disk genesis st last) {mapKeyBirth : List (CKeyID × ℤ)}
    (hbirths : wallet.birthTimes st last = some mapKeyBirth)
    (hinfer : keyid ∈ keysToInfer wallet.creationTimes wallet.mapKeys.keys) :
    ∃ first, (keyid, birthTime first) ∈ mapKeyBirth ∧ first <:+ st.pindexBest ∧ first ≠ [] ∧
      ∀ wtx ∈ wallet.mapWallet, ∀ pindex, PaysIn env.owner st wallet.keystore keyid wtx pindex →
        first.nHeight ≤ pindex.nHeight := by
  obtain ⟨⟨chain, hinv⟩, -⟩ := h.inv
  have hlinks : st.pnext = linksTo st.pindexBest := by
    rw [hinv.onBranch.links, hinv.atTip.pindexBest]
  have htip : st.pindexBest ≠ [] := hinv.atTip.pindexBest ▸ pindexOf_ne_nil genesis chain
  have hheight : 0 ≤ st.nBestHeight := by
    have hlength := List.length_pos_iff.mpr (pindexOf_ne_nil genesis chain)
    rw [hinv.atTip.nBestHeight, PIndex.nHeight]
    omega
  obtain ⟨pindexMax, hmax, hbirth⟩ := mem_of_mem_keysToInfer hbirths hinfer
  obtain ⟨pindex, hfound, -, hmain, -⟩ := findBlockByHeight_of_lookupRun h
    (le_max_left 0 (st.nBestHeight - 144)) (by omega)
  obtain rfl : pindexMax = pindex := Option.some.inj (hmax.symm.trans hfound)
  obtain ⟨hkey, -, hpaid, hblock⟩ := @foldl_noteTx env.owner st wallet.keystore (keyid, pindexMax)
    wallet.mapWallet
  have hfirst : isInMainChain st (wallet.mapWallet.foldl (noteTx env.owner st wallet.keystore)
      (keyid, pindexMax)).2 = true := by
    rcases hblock with hsame | hnoted
    · rw [hsame]
      exact hmain
    · exact hnoted
  have hne := ne_nil_of_isInMainChain hlinks htip hfirst
  exact ⟨_, hbirth, (isInMainChain_iff hlinks hne).mp hfirst, hne, hpaid⟩

/-- The walk of an import that begins early enough does not stop above a block. -/
theorem rescanStart_suffix_of_early {chain : Branch} (haccepted : AcceptedBranch P disk genesis chain)
    {first : PIndex} {nTimeBegin : ℤ} (hne : first ≠ []) (hbegin : nTimeBegin ≤ first.nTime - 7200) (hpindex : pindex <:+ pindexOf genesis chain)
    (hlow : first <:+ pindex) : rescanStart nTimeBegin (pindexOf genesis chain) <:+ pindex := by
  have hstart := rescanStart_suffix nTimeBegin (pindexOf genesis chain)
  refine (List.suffix_or_suffix_of_suffix hstart hpindex).elim id fun habove ↦ ?_
  rcases rescanStart_old nTimeBegin (pindexOf genesis chain) with hone | hold
  · -- the first block of all
    have hlength := hlow.length_le
    have hpos := List.length_pos_iff.mpr hne
    rw [habove.eq_of_length_le (by omega)]
  · have htimes := nTime_sub_le_of_suffix haccepted hstart (hlow.trans habove) hne
    omega

/-- For a key without metadata in a wallet that is synchronised, an import of the dump into an empty wallet
starts the scan at or below every block of the main chain with a transaction that pays the key, and reads the
block. -/
theorem importwallet_rescans (h : LookupRun P disk genesis st last) (hgenesis : 7200 ≤ genesis.nTime)
    (htime : ∀ nTime, IsToken (env.encodeDumpTime nTime))
    (hexact : ∀ mapKeyBirth nTime, wallet.birthTimes st last = some mapKeyBirth →
      (keyid, nTime) ∈ mapKeyBirth → env.decodeDumpTime (env.encodeDumpTime nTime) = nTime)
    (hsync : Synchronised disk st wallet.mapWallet) (hdump : dumpwallet wallet header st last = .ok file)
    (hempty : target.IsEmpty) (himport : importwallet addKeyResult st target file = some imported)
    (hgood : imported.fGood = true) (hhave : wallet.haveKey keyid = true)
    (hunknown : ∀ nCreateTime, wallet.mapKeyMetadata.lookup keyid = some nCreateTime → nCreateTime = 0)
    (hwtx : wtx ∈ wallet.mapWallet) (hpays : keyid ∈ affectedKeysOf env.owner wallet.keystore wtx)
    (hpindex : pindex <:+ st.pindexBest) (hblock : blockAt disk pindex = some block)
    (hholds : wtx.toCTransaction ∈ block.vtx) :
    imported.pindex <:+ pindex ∧
      pindex ∈ scannedBlocks st imported.wallet.nTimeFirstKey imported.pindex := by
  obtain ⟨⟨chain, hinv⟩, -⟩ := h.inv
  have haccepted := hinv.onBranch.run.accepted
  have hbest := hinv.atTip.pindexBest
  have hpindexNe : pindex ≠ [] := by
    rintro rfl
    cases hblock
  obtain ⟨mapKeyBirth, s, hbirths, hread, hback, -⟩ := readBack_dumpwallet addKeyResult st htime hdump hempty
  -- the block that the birth time comes from
  have hinfer : keyid ∈ keysToInfer wallet.creationTimes wallet.mapKeys.keys := by
    refine mem_keysToInfer.mpr ⟨AList.mem_keys.mp (AList.lookup_isSome.mp hhave), fun nCreateTime hmem ↦ ?_⟩
    obtain ⟨⟨keyid', nCreateTime'⟩, hentry, heq⟩ := List.mem_map.mp hmem
    obtain ⟨rfl, rfl⟩ := Prod.mk.inj heq
    exact hunknown nCreateTime' (AList.mem_lookup_iff.mpr hentry)
  obtain ⟨first, hbirth, hfirst, hne, hlowest⟩ := exists_firstBlock h hbirths hinfer
  have hpaysIn : PaysIn env.owner st wallet.keystore keyid wtx pindex := by
    refine ⟨?_, ?_, hpays⟩
    · rw [hsync wtx hwtx pindex block hpindex hblock hholds]
      exact hinv.indexed.ancestor hinv.atTip.indexed (hbest ▸ hpindex) hpindexNe
    · have hlinks : st.pnext = linksTo st.pindexBest := by rw [hinv.onBranch.links, hbest]
      exact (isInMainChain_iff hlinks hpindexNe).mpr hpindex
  have hlow : first <:+ pindex := by
    have hheight := hlowest wtx hwtx pindex hpaysIn
    rw [PIndex.nHeight, PIndex.nHeight] at hheight
    exact List.suffix_of_suffix_length_le hfirst hpindex (by omega)
  -- the import begins at that time or earlier
  have himported : _ = imported := Option.some.inj ((show importwallet addKeyResult st target file = some _ by
    rw [importwallet, hread]; rfl).symm.trans himport)
  rw [← himported] at hgood ⊢
  have hbegin : s.nTimeBegin ≤ first.nTime - 7200 := by
    have hearlier := hback.nTimeBegin hgood (birthTime first, keyid) (mem_sortBirths.mpr hbirth) hhave
    rw [hexact mapKeyBirth (birthTime first) hbirths hbirth] at hearlier
    have hgenesisLe := genesis_le_nTime haccepted (hbest ▸ hfirst) hne
    have hmod : birthTime first ≤ first.nTime - 7200 := by
      rw [birthTime]
      omega
    omega
  have hstart : rescanStart s.nTimeBegin st.pindexBest <:+ pindex := by
    rw [hbest] at hpindex ⊢
    exact rescanStart_suffix_of_early haccepted hne hbegin hpindex hlow
  refine ⟨hstart, List.mem_filter.mpr ⟨?_, ?_⟩⟩
  · have hbestNe : st.pindexBest ≠ [] := hbest ▸ pindexOf_ne_nil genesis chain
    rw [hinv.onBranch.links, ← hbest]
    exact mem_followNext hstart hpindex (rescanStart_ne_nil hbestNe) (Nat.le_add_right _ _)
  · have htimes := nTime_sub_le_of_suffix haccepted (hbest ▸ hpindex) hlow hne
    have hfirstKey : (if s.wallet.nTimeFirstKey = 0 ∨ s.nTimeBegin < s.wallet.nTimeFirstKey then s.nTimeBegin
        else s.wallet.nTimeFirstKey) ≤ s.nTimeBegin := by
      split <;> omega
    have hlate : ¬ pindex.nTime < (if s.wallet.nTimeFirstKey = 0 ∨ s.nTimeBegin < s.wallet.nTimeFirstKey then
        s.nTimeBegin else s.wallet.nTimeFirstKey) - 7200 := by
      omega
    simp only [skipsBlock, hlate, decide_false, Bool.and_false, Bool.not_false]

end Import

namespace ImportExample

open Builders

def testNet : ChainParams := network true

def paidKey : CKeyID := 7

/-- The first block has the time of genesis. -/
def firstBlock : CBlock :=
  blockOf testNet 0 0 1489479450 (easiestBits testNet) [coinbase 1 1489479450 0 [output 0]]

/-- The coinbase of the second block pays a key. -/
def reward : CTransaction := coinbase 2 1489479750 1 [⟨0, scriptFor (.keyID paidKey)⟩]

def payingBlock : CBlock :=
  blockOf testNet 1 testNet.genesisHash 1489479750 (easiestBits testNet) [reward]

def files : BlockFiles := filesOf [(1, 8, firstBlock), (2, 8, payingBlock)]

def envAt (nFile : ℕ) : Env := { surroundings files 1489480000 with written := some (nFile, 8) }

def firstIndex : CBlockIndex := newBlockIndex testNet firstBlock 1 8 0 (0, false)

def started : NodeState := (startNode testNet (envAt 1) [] firstBlock 1 8).2

def onPaying : NodeEvent := .acceptBlock (envAt 2) payingBlock

def node : NodeState := handleEvent testNet started onPaying

def dumpEnv : DumpEnv where
  owner := ⟨testNet, fun _ ↦ 0, fun _ ↦ 0⟩
  fTestNet := true
  hash := fun _ ↦ 0
  keyID := fun _ ↦ some paidKey
  encodeDumpTime := fun _ ↦ Records.ofString "2017-03-14T06:17:30Z"
  decodeDumpTime := fun _ ↦ 1489472250

def emptyWallet : DumpWallet dumpEnv where
  mapKeys := ∅
  keyID_mapKeys := fun _ _ h ↦ nomatch h
  mapScripts := ∅
  mapKeyMetadata := ∅
  mapWallet := []
  mapAddressBook := fun _ ↦ none
  setKeyPool := []
  nTimeFirstKey := 0

def paidTx : CWalletTx := ⟨reward, payingBlock.getHash testNet, [], 0, false, []⟩

/-- A wallet with a key of unknown age. -/
def paidWallet : DumpWallet dumpEnv :=
  { emptyWallet.addKey paidKey DumpExample.oneKey rfl with mapWallet := [paidTx] }

theorem fits_onPaying : Fits files started onPaying := fits_of_writtenAt rfl rfl (by decide)

theorem run_node : LookupRun testNet files firstIndex node (lastAfter testNet started onPaying none) := by
  have hstart : startNode testNet (envAt 1) [] firstBlock 1 8 = (true, started) := Prod.ext (by decide) rfl
  have hnode : NodeRun testNet files firstIndex (ConnectsPostponed testNet) node :=
    .event (.start hstart (by decide)) fits_onPaying (by decide)
  obtain ⟨chain, hinv⟩ := hnode.inv
  exact (LookupRun.start hstart (by decide)).event fits_onPaying hinv.tipConsistent.memoryConsistent

/-- What the node and the wallet are like. -/
theorem paid_facts : paidWallet.birthTimes node (lastAfter testNet started onPaying none) =
      some [(paidKey, 1489472250)] ∧
    paidKey ∈ affectedKeysOf dumpEnv.owner paidWallet.keystore paidTx ∧
    node.pindexBest.getBlockHash = payingBlock.getHash testNet ∧
    blockAt files node.pindexBest = some payingBlock ∧
    node.pindexBest.tail = [firstIndex] ∧ blockAt files [firstIndex] = some firstBlock ∧
    reward ∉ firstBlock.vtx := by
  decide

theorem synchronised_paidWallet : Synchronised files node paidWallet.mapWallet := by
  obtain ⟨-, -, hhash, -, htail, hfirst, hother⟩ := paid_facts
  intro wtx hwtx pindex block hpindex hblock hholds
  obtain rfl := List.mem_singleton.mp hwtx
  by_cases hbest : pindex = node.pindexBest
  · rw [hbest, hhash]
    rfl
  · have hbelow : pindex <:+ [firstIndex] := by
      rw [← htail]
      cases htip : node.pindexBest with
      | nil =>
        rw [htip] at hpindex hbest
        exact absurd (List.suffix_nil.mp hpindex) hbest
      | cons index pprev =>
        rw [htip] at hpindex hbest
        exact (List.suffix_cons_iff.mp hpindex).resolve_left hbest
    rcases List.suffix_cons_iff.mp hbelow with rfl | hnil
    · obtain rfl := Option.some.inj (hfirst.symm.trans hblock)
      exact absurd hholds hother
    · rw [List.suffix_nil.mp hnil] at hblock
      cases hblock

theorem isToken_encodeDumpTime (nTime : ℤ) : IsToken (dumpEnv.encodeDumpTime nTime) := by
  change IsToken (Records.ofString "2017-03-14T06:17:30Z")
  unfold IsToken
  decide

theorem rescan_paidWallet : ∃ file imported,
    dumpwallet paidWallet [] node (lastAfter testNet started onPaying none) = .ok file ∧
    importwallet (fun _ ↦ .added) node emptyWallet file = some imported ∧
    imported.pindex <:+ node.pindexBest ∧
    node.pindexBest ∈ scannedBlocks node imported.wallet.nTimeFirstKey imported.pindex := by
  obtain ⟨hbirths, hpays, -, hblock, -⟩ := paid_facts
  obtain ⟨file, hfile⟩ : ∃ file, dumpwallet paidWallet [] node
      (lastAfter testNet started onPaying none) = .ok file := by
    rw [dumpwallet, hbirths]
    exact ⟨_, rfl⟩
  obtain ⟨-, imported, himport, hgood, -⟩ := @importwallet_dumpwallet _ _ emptyWallet _ _ node _ _
    (fun _ ↦ .added) isToken_encodeDumpTime hfile ⟨fun _ ↦ rfl, fun _ ↦ rfl⟩
  refine ⟨file, imported, hfile, himport, ?_⟩
  refine @importwallet_rescans _ _ _ _ _ _ _ _ _ _ _ _ _ paidKey paidTx payingBlock run_node (by decide)
    isToken_encodeDumpTime (fun mapKeyBirth nTime hmap hmem ↦ ?_) synchronised_paidWallet hfile
    ⟨fun _ ↦ rfl, fun _ ↦ rfl⟩ himport (hgood.mpr fun _ _ ↦ rfl) rfl (fun _ h ↦ ?_)
    List.mem_cons_self hpays (List.suffix_refl _) hblock List.mem_cons_self
  · obtain rfl := Option.some.inj (hbirths.symm.trans hmap)
    rw [(Prod.mk.inj (List.mem_singleton.mp hmem)).2]
    rfl
  · cases h

end ImportExample

end Electra.Wallet
