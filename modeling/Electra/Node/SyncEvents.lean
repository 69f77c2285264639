import Electra.Chain.Checkpoints
import Electra.Node.ChainMove
import Electra.Node.NodeRun

/-!
# Acceptance and checkpoints

A block enters the index at its own hash and nowhere else, and it may stay there although
`AcceptBlock` fails.  A checkpoint that is enforced is in the best chain from then on, and the index
is as before.
-/

namespace Electra.Node

open Chain Ledger Foundations.Outcome Foundations.WriteBatch

variable (P : ChainParams)

/-- Nothing fails once the block is in the index: its entry is committed, and if it has more trust than
the tip it becomes the tip. -/
def Completes (env : Env) (st : NodeState) (block : CBlock) : Prop :=
  env.fIndexCommitted = true ∧ ∀ call ∈ bestChainCall P st (.acceptBlock env block),
    (setBestChain P call.env call.st call.block call.pindexNew).1 = true

instance (env : Env) (st : NodeState) (block : CBlock) : Decidable (Completes P env st block) :=
  inferInstanceAs (Decidable (_ ∧ ∀ call ∈ bestChainCall P st (.acceptBlock env block),
    (setBestChain P call.env call.st call.block call.pindexNew).1 = true))

theorem indexNewBlock_fst (env : Env) (st : NodeState) (pindexNew : PIndex) :
    (indexNewBlock env st pindexNew).1 = env.fIndexCommitted := by
  unfold indexNewBlock Foundations.WriteBatch.Store.txnCommit
  cases env.fIndexCommitted <;> rfl

/-- When `AcceptBlock` returns true. -/
theorem acceptBlock_fst (env : Env) (st : NodeState) (block : CBlock) :
    (acceptBlock P env st block).1 = true ↔
      (acceptedEntry P env st block).isSome ∧ Completes P env st block := by
  rw [acceptBlock_eq, Completes]
  cases hentry : acceptedEntry P env st block with
  | none => simp
  | some pindexNew =>
    have hindexed := indexNewBlock_fst env st pindexNew
    cases hcall : bestChainCall P st (.acceptBlock env block) with
    | none => simp [hindexed]
    | some call =>
      have hcommitted : env.fIndexCommitted = true := by
        simp only [bestChainCall, hentry] at hcall
        cases hindex : indexNewBlock env st pindexNew with
        | mk fOk st₁ =>
          rw [hindex] at hcall hindexed
          cases fOk with
          | false => cases hcall
          | true => exact hindexed.symm
      simp [hcommitted]

/-- What `AcceptBlock` does to the index. -/
theorem mapBlockIndex_acceptBlock (env : Env) (st : NodeState) (block : CBlock) :
    (acceptBlock P env st block).2.mapBlockIndex =
      match acceptedEntry P env st block with
      | none => st.mapBlockIndex
      | some pindexNew => Function.update st.mapBlockIndex (block.getHash P) (some pindexNew) := by
  rw [acceptBlock_eq]
  cases hentry : acceptedEntry P env st block with
  | none => rfl
  | some pindexNew =>
    obtain ⟨index, pindexPrev, rfl, -, -, -, -, hashProofOfStake, stakeModifier, hindex⟩ :=
      acceptedEntry_eq_some hentry
    have hhash : PIndex.getBlockHash (index :: pindexPrev) = block.getHash P := by
      rw [hindex]
      rfl
    have hinserted : (indexNewBlock env st (index :: pindexPrev)).2.mapBlockIndex =
        Function.update st.mapBlockIndex (block.getHash P) (some (index :: pindexPrev)) := by
      rw [← hhash]
      rfl
    simp only
    cases hcall : bestChainCall P st (.acceptBlock env block) with
    | none => exact hinserted
    | some call =>
      obtain ⟨pindexNew, hentry', rfl⟩ := bestChainCall_acceptBlock hcall
      obtain rfl := Option.some.inj (hentry'.symm.trans hentry)
      exact (chainMoved P env _ block _).mapBlockIndex.trans hinserted

variable {P} {env : SyncEnv} {s : SyncState} {hashCheckpoint : Uint256}

theorem validateSyncCheckpoint_eq_true (h : (validateSyncCheckpoint s hashCheckpoint).1 = true) :
    (validateSyncCheckpoint s hashCheckpoint).2 = s ∧
      ∃ pindexSync pindexRecv, s.node.mapBlockIndex s.hashSyncCheckpoint = some pindexSync ∧
        s.node.mapBlockIndex hashCheckpoint = some pindexRecv ∧
        pindexSync.nHeight < pindexRecv.nHeight ∧ lowerTo pindexSync.nHeight pindexRecv ≠ [] ∧
        (lowerTo pindexSync.nHeight pindexRecv).getBlockHash = s.hashSyncCheckpoint := by
  unfold validateSyncCheckpoint at h ⊢
  cases hsync : s.node.mapBlockIndex s.hashSyncCheckpoint with
  | none => simp [hsync] at h
  | some pindexSync =>
    cases hrecv : s.node.mapBlockIndex hashCheckpoint with
    | none => simp [hsync, hrecv] at h
    | some pindexRecv =>
      simp only [hsync, hrecv] at h ⊢
      split at h
      · split at h
        · cases h
        · split at h <;> cases h
      · next hhigher =>
        rw [if_neg hhigher]
        split at h
        · cases h
        · next hne =>
          split at h
          · cases h
          · next hhash =>
            simp only [hhash]
            exact ⟨rfl, pindexSync, pindexRecv, rfl, rfl, not_le.mp hhigher, hne, not_not.mp hhash⟩

theorem writeSyncCheckpoint_eq (env : SyncEnv) (s : SyncState) (hashCheckpoint : Uint256) :
    ∃ txdb, writeSyncCheckpoint env s hashCheckpoint = (env.fCheckpointWritten,
      { s with
        node := { s.node with txdb }
        hashSyncCheckpoint :=
          if env.fCheckpointWritten then hashCheckpoint else s.hashSyncCheckpoint }) := by
  unfold writeSyncCheckpoint Store.txnCommit
  cases env.fCheckpointWritten with
  | false => exact ⟨_, rfl⟩
  | true => exact ⟨_, rfl⟩

/-- Moving the best chain to a checkpoint outside of it. -/
theorem setBestChainToCheckpoint_eq (P : ChainParams) (env : SyncEnv) (s : SyncState)
    (hashCheckpoint : Uint256) {pindex : PIndex} (h : isInMainChain s.node pindex = false) :
    (setBestChainToCheckpoint P env s hashCheckpoint pindex).2.node =
        setBestChainTo P env.toEnv s.node pindex ∧
      (setBestChainToCheckpoint P env s hashCheckpoint pindex).2.hashSyncCheckpoint =
        s.hashSyncCheckpoint ∧
      ((setBestChainToCheckpoint P env s hashCheckpoint pindex).1 = true →
        (setBestChainTo P env.toEnv s.node pindex).pindexBest = pindex) := by
  cases pindex with
  | nil => exact ⟨rfl, rfl, fun hfalse ↦ absurd hfalse Bool.false_ne_true⟩
  | cons index pprev =>
    rw [setBestChainToCheckpoint, setBestChainTo, h]
    cases readFromDisk P env.files index with
    | error reject => exact ⟨rfl, rfl, fun hfalse ↦ absurd hfalse Bool.false_ne_true⟩
    | ok block =>
      have htip := @tip_of_setBestChain (index :: pprev) P env.toEnv s.node block
      simp only [Bool.false_eq_true, if_false]
      cases hcall : setBestChain P env.toEnv s.node block (index :: pprev) with
      | mk fOk st =>
        rw [hcall] at htip
        cases fOk with
        | false => exact ⟨rfl, rfl, fun hfalse ↦ absurd hfalse Bool.false_ne_true⟩
        | true => exact ⟨rfl, rfl, fun hok ↦ (htip hok).1⟩

/-- Enforcing a checkpoint moves the best chain to it; it is only set once that is done. -/
theorem enforceSyncCheckpoint_cases (P : ChainParams) (env : SyncEnv) {pindex : PIndex}
    (h : s.node.mapBlockIndex hashCheckpoint = some pindex) :
    ∃ txdb, (enforceSyncCheckpoint P env s hashCheckpoint).2.node =
        { setBestChainTo P env.toEnv s.node pindex with txdb } ∧
      ((enforceSyncCheckpoint P env s hashCheckpoint).2.hashSyncCheckpoint = s.hashSyncCheckpoint ∨
        (enforceSyncCheckpoint P env s hashCheckpoint).2.hashSyncCheckpoint = hashCheckpoint ∧
          (isInMainChain s.node pindex = true ∨
            (setBestChainTo P env.toEnv s.node pindex).pindexBest = pindex)) := by
  have hwritten : ∀ s' : SyncState, s'.hashSyncCheckpoint = s.hashSyncCheckpoint →
      ∃ txdb, (writeSyncCheckpoint env s' hashCheckpoint).2.node = { s'.node with txdb } ∧
        ((writeSyncCheckpoint env s' hashCheckpoint).2.hashSyncCheckpoint = s.hashSyncCheckpoint ∨
          (writeSyncCheckpoint env s' hashCheckpoint).2.hashSyncCheckpoint = hashCheckpoint) := by
    intro s' hsame
    obtain ⟨txdb, heq⟩ := writeSyncCheckpoint_eq env s' hashCheckpoint
    refine ⟨txdb, by rw [heq], ?_⟩
    rw [heq]
    cases env.fCheckpointWritten with
    | false => exact .inl hsame
    | true => exact .inr rfl
  simp only [enforceSyncCheckpoint, h]
  cases hmain : isInMainChain s.node pindex with
  | true =>
    rw [if_pos rfl]
    obtain ⟨txdb, hnode, hhash⟩ := hwritten s rfl
    have hstay : setBestChainTo P env.toEnv s.node pindex = s.node := by
      cases pindex with
      | nil => rfl
      | cons index pprev => rw [setBestChainTo, hmain, if_pos rfl]
    refine ⟨txdb, ?_, hhash.imp_right fun heq ↦ ⟨heq, .inl rfl⟩⟩
    rw [hstay]
    exact hnode
  | false =>
    have hmoved := setBestChainToCheckpoint_eq P env s hashCheckpoint hmain
    simp only [Bool.false_eq_true, if_false]
    cases hcall : setBestChainToCheckpoint P env s hashCheckpoint pindex with
    | mk fOk s' =>
      rw [hcall] at hmoved
      obtain ⟨hnode, hhash, htip⟩ := hmoved
      cases fOk with
      | false =>
        refine ⟨s'.node.txdb, ?_, .inl hhash⟩
        rw [← hnode]
      | true =>
        obtain ⟨txdb, hnode', hhash'⟩ := hwritten s' hhash
        refine ⟨txdb, ?_, hhash'.imp_right fun heq ↦ ⟨heq, .inr (htip rfl)⟩⟩
        rw [← hnode]
        exact hnode'

/-- A message or a pending checkpoint leads at most to a valid checkpoint being enforced. -/
def Checkpointed (P : ChainParams) (env : SyncEnv) (s : SyncState) (hashCheckpoint : Uint256)
    (s' : SyncState) : Prop :=
  (s'.node = s.node ∧ s'.hashSyncCheckpoint = s.hashSyncCheckpoint) ∨
    (validateSyncCheckpoint s hashCheckpoint).1 = true ∧
      s'.node = (enforceSyncCheckpoint P env s hashCheckpoint).2.node ∧
      s'.hashSyncCheckpoint = (enforceSyncCheckpoint P env s hashCheckpoint).2.hashSyncCheckpoint

theorem validateSyncCheckpoint_snd (s : SyncState) (hashCheckpoint : Uint256) :
    (validateSyncCheckpoint s hashCheckpoint).2.node = s.node ∧
      (validateSyncCheckpoint s hashCheckpoint).2.hashSyncCheckpoint = s.hashSyncCheckpoint := by
  unfold validateSyncCheckpoint
  repeat' split
  all_goals exact ⟨rfl, rfl⟩

theorem checkpointed_processSyncCheckpoint (P : ChainParams) (env : SyncEnv) (s : SyncState)
    (fSignature : Bool) (hashCheckpoint : Uint256) : Checkpointed P env s hashCheckpoint
      (processSyncCheckpoint P env s fSignature hashCheckpoint).2 := by
  have hsnd := validateSyncCheckpoint_snd s hashCheckpoint
  rw [processSyncCheckpoint]
  split
  · exact .inl ⟨rfl, rfl⟩
  · split
    · exact .inl ⟨rfl, rfl⟩
    · cases hvalid : validateSyncCheckpoint s hashCheckpoint with
      | mk fValid s₁ =>
        rw [hvalid] at hsnd
        cases fValid with
        | false => exact .inl hsnd
        | true =>
          have hok : (validateSyncCheckpoint s hashCheckpoint).1 = true := by rw [hvalid]
          obtain rfl : s₁ = s := by
            have hsame := (validateSyncCheckpoint_eq_true hok).1
            rwa [hvalid] at hsame
          right
          refine ⟨hok, ?_⟩
          cases henforced : enforceSyncCheckpoint P env s₁ hashCheckpoint with
          | mk fOk s₂ => cases fOk <;> simp [henforced]

theorem checkpointed_acceptPendingSyncCheckpoint (P : ChainParams) (env : SyncEnv) (s : SyncState) :
    Checkpointed P env s s.hashPendingCheckpoint (acceptPendingSyncCheckpoint P env s).2 := by
  have hsnd := validateSyncCheckpoint_snd s s.hashPendingCheckpoint
  rw [acceptPendingSyncCheckpoint]
  split
  · cases hvalid : validateSyncCheckpoint s s.hashPendingCheckpoint with
    | mk fValid s₁ =>
      rw [hvalid] at hsnd
      cases fValid with
      | false => exact .inl hsnd
      | true =>
        have hok : (validateSyncCheckpoint s s.hashPendingCheckpoint).1 = true := by rw [hvalid]
        obtain rfl : s₁ = s := by
          have hsame := (validateSyncCheckpoint_eq_true hok).1
          rwa [hvalid] at hsame
        right
        refine ⟨hok, ?_⟩
        cases henforced : enforceSyncCheckpoint P env s₁ s₁.hashPendingCheckpoint with
        | mk fOk s₂ => cases fOk <;> simp [henforced]
  · exact .inl ⟨rfl, rfl⟩

theorem mapBlockIndex_setBestChainTo (P : ChainParams) (env : Env) (st : NodeState) (pindex : PIndex) :
    (setBestChainTo P env st pindex).mapBlockIndex = st.mapBlockIndex := by
  cases pindex with
  | nil => rfl
  | cons index pprev =>
    rw [setBestChainTo]
    split
    · rfl
    · cases readFromDisk P env.files index with
      | error reject => rfl
      | ok block => exact (chainMoved P env st block (index :: pprev)).mapBlockIndex

theorem Checkpointed.mapBlockIndex {s' : SyncState} (h : Checkpointed P env s hashCheckpoint s') :
    s'.node.mapBlockIndex = s.node.mapBlockIndex := by
  rcases h with ⟨hnode, -⟩ | ⟨hvalid, hnode, -⟩
  · rw [hnode]
  · obtain ⟨-, pindexSync, pindexRecv, -, hrecv, -⟩ := validateSyncCheckpoint_eq_true hvalid
    obtain ⟨txdb, henforced, -⟩ := enforceSyncCheckpoint_cases P env hrecv
    rw [hnode, henforced]
    exact mapBlockIndex_setBestChainTo P env.toEnv s.node pindexRecv

/-- What `AcceptBlock` meets, with the verdict of `CheckSync`. -/
def checkedEnv (P : ChainParams) (mode : CPMode) (env : SyncEnv) (s : SyncState) (block : CBlock) : Env :=
  { env.toEnv with
    fCheckSync := decide (mode ≠ .strict) || checkSync P s (block.getHash P)
      ((s.node.mapBlockIndex block.hashPrevBlock).getD []) }

/-- A checkpoint can only take effect after the block was accepted. -/
theorem acceptBlockSync_cases (P : ChainParams) (mode : CPMode) (env : SyncEnv) (s : SyncState)
    (block : CBlock) :
    (acceptBlockSync P mode env s block).1 =
        (acceptBlock P (checkedEnv P mode env s block) s.node block).1 ∧
      Checkpointed P env
        { s with node := (acceptBlock P (checkedEnv P mode env s block) s.node block).2 }
        s.hashPendingCheckpoint (acceptBlockSync P mode env s block).2 := by
  cases hcall : acceptBlock P (checkedEnv P mode env s block) s.node block with
  | mk fOk node =>
    unfold checkedEnv at hcall
    unfold acceptBlockSync
    cases fOk with
    | false =>
      simp only [hcall]
      exact ⟨trivial, .inl ⟨rfl, rfl⟩⟩
    | true =>
      simp only [hcall]
      exact ⟨trivial, checkpointed_acceptPendingSyncCheckpoint P env { s with node }⟩

theorem mapBlockIndex_acceptBlockSync (P : ChainParams) (mode : CPMode) (env : SyncEnv) (s : SyncState)
    (block : CBlock) : (acceptBlockSync P mode env s block).2.node.mapBlockIndex =
      match acceptedEntry P (checkedEnv P mode env s block) s.node block with
      | none => s.node.mapBlockIndex
      | some pindexNew => Function.update s.node.mapBlockIndex (block.getHash P) (some pindexNew) := by
  rw [(acceptBlockSync_cases P mode env s block).2.mapBlockIndex]
  exact mapBlockIndex_acceptBlock P _ s.node block

end Electra.Node
