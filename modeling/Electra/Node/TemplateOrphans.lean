import Electra.Node.BlockTemplate

/-!
# Orphans of a block template

`CreateNewBlock` notes a transaction that waits under the hashes of all pool transactions it waits for.
When a later input turns out to be missing it drops the orphan, but what was noted stays.  Every
pointer is to a live orphan unless some transaction waits first and misses an input later; then the
node follows a dangling pointer as soon as what that transaction waits for enters the block.
-/

namespace Electra.Node

open Chain Ledger Foundations Foundations.Outcome Foundations.ReadyQueue

/-- The dependency loop follows a pointer whose orphan is gone. -/
def noSuchOrphan : Reject := error "mapDependers: no such orphan"

section Inputs

variable (files : BlockFiles) (st : NodeState)

def isFound (prevout : COutPoint) : Bool := (readPrevTx files st.txdb prevout).isSome

/-- Neither in the chain nor in the pool. -/
def isMissing (prevout : COutPoint) : Bool :=
  !isFound files st prevout && (st.mempool.mapTx.lookup prevout.hash).isNone

/-- The pool transactions that a transaction is noted to wait for before its first missing input. -/
def waitsFor : List COutPoint → List Uint256
  | [] => []
  | prevout :: prevouts =>
      if isMissing files st prevout then []
      else if isFound files st prevout then waitsFor prevouts
      else prevout.hash :: waitsFor prevouts

end Inputs

/-- The orphan of a transaction is dropped after it was noted under a hash. -/
structure LeavesPointer (files : BlockFiles) (st : NodeState) (tx : CTransaction) (awaited : Uint256) :
    Prop where
  noted : awaited ∈ waitsFor files st (tx.vin.map CTxIn.prevout)
  missing : (tx.vin.map CTxIn.prevout).any (isMissing files st) = true

/-- A pointer to a dropped orphan is left under a hash. -/
def PointerLeft (env : MinerEnv) (st : NodeState) (awaited : Uint256) : Prop :=
  ∃ entry ∈ st.mempool.mapTx.entries, isQueued env st entry = true ∧
    LeavesPointer env.files st entry.2 awaited

variable {P : ChainParams} {D : Type} [Double D] {heap : Heap (TxPriority D)} {env : MinerEnv}
  {st : NodeState} {fProofOfStake : Bool}

/-- The loop over the inputs notes the transaction under what it waits for, up to the first missing
input. -/
theorem scanInputs_notes {files : BlockFiles} {hash : Uint256} {prevouts : List COutPoint}
    {scan scan' : InputScan D} {fMissingInputs : Bool}
    (h : scanInputs P files st hash scan prevouts = .ok (fMissingInputs, scan')) :
    fMissingInputs = prevouts.any (isMissing files st) ∧
      (∀ awaited key, key ∈ scan'.queue.dependers awaited ↔
        key ∈ scan.queue.dependers awaited ∨ awaited ∈ waitsFor files st prevouts ∧ key = hash) ∧
      ∀ awaited, awaited ∈ scan'.setDependsOn ↔
        awaited ∈ scan.setDependsOn ∨ awaited ∈ waitsFor files st prevouts := by
  induction prevouts generalizing scan with
  | nil =>
    obtain ⟨rfl, rfl⟩ := Prod.mk.inj (Except.ok.inj h)
    simp [waitsFor]
  | cons prevout prevouts ih =>
    unfold scanInputs at h
    unfold waitsFor
    split at h
    · next hread =>
      -- the previous transaction is in the chain
      have hfound : isFound files st prevout = true := by rw [isFound, hread]; rfl
      have hpresent : isMissing files st prevout = false := by simp [isMissing, hfound]
      obtain ⟨hmissing, hnotes, hdepends⟩ := ih h
      simp only [hfound, hpresent, List.any_cons, Bool.false_or, Bool.false_eq_true, if_false, if_true]
      exact ⟨hmissing, hnotes, hdepends⟩
    · next hread =>
      have hunread : isFound files st prevout = false := by rw [isFound, hread]; rfl
      split at h
      · next hlookup =>
        have hgone : isMissing files st prevout = true := by simp [isMissing, hunread, hlookup]
        obtain ⟨rfl, rfl⟩ := Prod.mk.inj (Except.ok.inj h)
        simp [hgone]
      · next txPrev hlookup =>
        have hpresent : isMissing files st prevout = false := by simp [isMissing, hlookup]
        simp only [bind_eq_ok, require_eq_ok] at h
        obtain ⟨txout, -, hrest⟩ := h
        obtain ⟨hmissing, hnotes, hdepends⟩ := ih hrest
        simp only [hunread, hpresent, List.any_cons, Bool.false_or, Bool.false_eq_true, if_false,
          List.mem_cons]
        refine ⟨hmissing, fun awaited key ↦ ?_, fun awaited ↦ ?_⟩
        · rw [hnotes, mem_dependers_noteDepender, or_assoc, or_and_right]
        · rw [hdepends, Finset.mem_insert, or_assoc]
          exact or_left_comm

/-- A queued transaction is noted under a hash. -/
def Notes (env : MinerEnv) (st : NodeState) (entry : Σ _ : Uint256, CTransaction) (awaited : Uint256) :
    Prop :=
  isQueued env st entry = true ∧ awaited ∈ waitsFor env.files st (entry.2.vin.map CTxIn.prevout)

/-- A queued transaction waits, and it misses no input. -/
def HeldBack (env : MinerEnv) (st : NodeState) (entry : Σ _ : Uint256, CTransaction) : Prop :=
  isQueued env st entry = true ∧ waitsFor env.files st (entry.2.vin.map CTxIn.prevout) ≠ [] ∧
    (entry.2.vin.map CTxIn.prevout).any (isMissing env.files st) = false

/-- The notes that the filling of the queue leaves, and the orphans that are there. -/
structure Filled (env : MinerEnv) (st : NodeState) (entries : List (Σ _ : Uint256, CTransaction))
    (queue : TxQueue D) : Prop where
  noted : ∀ awaited key, key ∈ queue.dependers awaited ↔
    ∃ entry ∈ entries, Notes env st entry awaited ∧ key = entry.1
  waiting : ∀ key, key ∈ queue.waiting ↔ ∃ entry ∈ entries, HeldBack env st entry ∧ key = entry.1

omit [Double D] in
theorem filled_empty : Filled env st [] (.empty : TxQueue D) where
  noted awaited key := by simp [ReadyQueue.empty]
  waiting key := by
    have hnone : key ∉ (.empty : TxQueue D).waiting := AList.notMem_empty key
    simp [hnone]

theorem exists_mem_append_singleton {α : Type*} {l : List α} {b : α} {p : α → Prop} :
    (∃ a ∈ l ++ [b], p a) ↔ (∃ a ∈ l, p a) ∨ p b := by
  simp only [List.mem_append, List.mem_singleton, or_and_right, exists_or, exists_eq_left]

omit [Double D] in
theorem Filled.append {entries : List (Σ _ : Uint256, CTransaction)} {queue queue' : TxQueue D}
    {entry : Σ _ : Uint256, CTransaction} (h : Filled env st entries queue)
    (hnoted : ∀ awaited key, key ∈ queue'.dependers awaited ↔
      key ∈ queue.dependers awaited ∨ Notes env st entry awaited ∧ key = entry.1)
    (hwaiting : ∀ key, key ∈ queue'.waiting ↔
      key ∈ queue.waiting ∨ HeldBack env st entry ∧ key = entry.1) :
    Filled env st (entries ++ [entry]) queue' where
  noted awaited key := by rw [hnoted, h.noted, exists_mem_append_singleton]
  waiting key := by rw [hwaiting, h.waiting, exists_mem_append_singleton]

theorem queueTx_filled {entries : List (Σ _ : Uint256, CTransaction)} {queue queue' : TxQueue D}
    {entry : Σ _ : Uint256, CTransaction} (hfilled : Filled env st entries queue)
    (h : queueTx P env st queue entry = .ok queue') :
    Filled env st (entries ++ [entry]) queue' := by
  obtain ⟨hash, tx⟩ := entry
  unfold queueTx at h
  simp only at h
  split at h
  · next hkind =>
    obtain rfl := Except.ok.inj h
    have hpassed : ¬ isQueued env st ⟨hash, tx⟩ = true := by
      intro hqueued
      simp [isQueued, isOrdinary] at hqueued
      simp [hqueued] at hkind
    apply hfilled.append
    · exact fun awaited key ↦ (or_iff_left fun hnotes ↦ hpassed hnotes.1.1).symm
    · exact fun key ↦ (or_iff_left fun hheld ↦ hpassed hheld.1.1).symm
  · next hkind =>
    have hqueued : isQueued env st ⟨hash, tx⟩ = true := by
      simpa [isQueued, isOrdinary, and_assoc] using hkind
    simp only [bind_eq_ok] at h
    obtain ⟨⟨fMissingInputs, scan⟩, hscan, hrest⟩ := h
    obtain ⟨-, hwaiting⟩ := scanInputs_queue hscan
    obtain ⟨hmissing, hnotes, hdepends⟩ := scanInputs_notes hscan
    have hnoted : ∀ awaited key, key ∈ scan.queue.dependers awaited ↔
        key ∈ queue.dependers awaited ∨ Notes env st ⟨hash, tx⟩ awaited ∧ key = hash := by
      intro awaited key
      rw [hnotes, Notes, and_iff_right hqueued]
    split at hrest
    · next hgone =>
      obtain rfl := Except.ok.inj hrest
      apply hfilled.append hnoted
      intro key
      rw [hwaiting]
      refine (or_iff_left fun hheld ↦ ?_).symm
      rw [hheld.1.2.2] at hmissing
      exact absurd hgone (Bool.eq_false_iff.mp hmissing)
    · next hpresent =>
      simp only [bind_eq_ok, pure_eq_ok] at hrest
      obtain ⟨nValueOut, -, rfl⟩ := hrest
      have hnone : (tx.vin.map CTxIn.prevout).any (isMissing env.files st) = false :=
        hmissing ▸ Bool.eq_false_iff.mpr hpresent
      have hempty : scan.setDependsOn = ∅ ↔
          waitsFor env.files st (tx.vin.map CTxIn.prevout) = [] := by
        rw [Finset.eq_empty_iff_forall_notMem, List.eq_nil_iff_forall_not_mem]
        apply forall_congr'
        intro awaited
        simp [hdepends]
      split
      · next hfree =>
        apply hfilled.append
        · exact hnoted
        · intro key
          change key ∈ scan.queue.waiting ↔ _
          rw [hwaiting]
          exact (or_iff_left fun hheld ↦ hheld.1.2.1 (hempty.mp hfree)).symm
      · next hwaits =>
        have hheld : HeldBack env st ⟨hash, tx⟩ := ⟨hqueued, mt hempty.mpr hwaits, hnone⟩
        apply hfilled.append
        · exact hnoted
        · intro key
          rw [mem_waiting_hold, hwaiting, or_comm]
          exact or_congr_right (and_iff_right hheld).symm

theorem queueTxs_filled {entries : List (Σ _ : Uint256, CTransaction)} {queue : TxQueue D}
    (h : entries.foldlM (queueTx P env st) .empty = .ok queue) : Filled env st entries queue := by
  refine foldlM_processed (Filled env st) ?_ filled_empty h
  intro pre entry post queue₁ queue₂ _ hpre hone
  exact queueTx_filled hpre hone

omit [Double D] in
/-- The pointers under a hash are live unless one was left there. -/
theorem Filled.liveAt_iff {queue : TxQueue D} (h : Filled env st st.mempool.mapTx.entries queue)
    (awaited : Uint256) : queue.LiveAt awaited ↔ ¬ PointerLeft env st awaited := by
  constructor
  · rintro hlive ⟨entry, hentry, hqueued, hnoted, hmissing⟩
    have hkey := hlive entry.1
      ((h.noted awaited entry.1).mpr ⟨entry, hentry, ⟨hqueued, hnoted⟩, rfl⟩)
    obtain ⟨entry', hentry', ⟨-, -, hnone⟩, hsame⟩ := (h.waiting entry.1).mp hkey
    -- the keys of the pool are distinct
    obtain rfl : entry = entry' := st.mempool.mapTx.nodupKeys.eq_of_fst_eq hentry hentry' hsame
    rw [hmissing] at hnone
    cases hnone
  · intro hleft key hkey
    obtain ⟨entry, hentry, ⟨hqueued, hnoted⟩, rfl⟩ := (h.noted awaited key).mp hkey
    refine (h.waiting entry.1).mpr ⟨entry, hentry, ⟨hqueued, List.ne_nil_of_mem hnoted, ?_⟩, rfl⟩
    rw [Bool.eq_false_iff]
    intro hmissing
    exact hleft ⟨entry, hentry, hqueued, hnoted, hmissing⟩

/-- The states in which the loop over the queue starts a round. -/
inductive Collects (P : ChainParams) (heap : Heap (TxPriority D)) (env : MinerEnv) (st : NodeState)
    (fProofOfStake : Bool) (queue : TxQueue D) : CollectState D → Prop
  | start : Collects P heap env st fProofOfStake queue (.init env.args queue)
  | round {s s' : CollectState D} {next : TxPriority D} {rest : TxQueue D}
      (collects : Collects P heap env st fProofOfStake queue s)
      (taken : s.queue.take heap (txPriorityCompare s.fSortedByFee) = some (next, rest))
      (collected : collectTx P env st fProofOfStake { s with queue := rest } next = .ok s') :
      Collects P heap env st fProofOfStake queue s'

omit [Double D] in
variable {s s' : CollectState D}

/-- A transaction is included only when the pointers under its hash are live. -/
theorem includeTx_notes {tx : CTransaction} (h : includeTx P env st s tx = .ok s') :
    s.queue.SameNotes s'.queue ∧
      (s'.vtx = s.vtx ∨ s'.vtx = s.vtx ++ [tx] ∧ s.queue.LiveAt (P.hashTx tx)) := by
  have hpassed : s.queue.SameNotes s.queue ∧
      (s.vtx = s.vtx ∨ s.vtx = s.vtx ++ [tx] ∧ s.queue.LiveAt (P.hashTx tx)) :=
    ⟨.refl _, .inl rfl⟩
  unfold includeTx at h
  simp only at h
  split at h
  · exact Except.ok.inj h ▸ hpassed
  · simp only [bind_eq_ok] at h
    obtain ⟨nValueIn, -, nValueOut, -, h⟩ := h
    split at h
    · exact Except.ok.inj h ▸ hpassed
    · simp only [bind_eq_ok] at h
      obtain ⟨nP2SHSigOps, -, h⟩ := h
      split at h
      · exact Except.ok.inj h ▸ hpassed
      · split at h
        · exact Except.ok.inj h ▸ hpassed
        · simp only [bind_eq_ok, require_eq_ok, pure_eq_ok] at h
          obtain ⟨queue, hqueue, rfl⟩ := h
          have hlive : s.queue.LiveAt (P.hashTx tx) := by
            rw [← release_isSome_iff, hqueue]
            rfl
          exact ⟨sameNotes_release hqueue, .inr ⟨rfl, hlive⟩⟩

theorem collectTx_notes {next : TxPriority D} (h : collectTx P env st fProofOfStake s next = .ok s') :
    s.queue.SameNotes s'.queue ∧
      (s'.vtx = s.vtx ∨ s'.vtx = s.vtx ++ [next.ptx] ∧ s.queue.LiveAt (P.hashTx next.ptx)) := by
  unfold collectTx at h
  split at h
  · exact Except.ok.inj h ▸ ⟨.refl _, .inl rfl⟩
  · obtain ⟨fSortedByFee, heq⟩ := prioritize_eq env.args s next
    rw [heq] at h
    have hincluded := includeTx_notes h
    exact hincluded

/-- The rounds change neither the notes nor which orphans are there, and the pointers under all that was
included are live. -/
theorem Collects.notes {queue : TxQueue D} (h : Collects P heap env st fProofOfStake queue s) :
    queue.SameNotes s.queue ∧ ∀ tx ∈ s.vtx, queue.LiveAt (P.hashTx tx) := by
  induction h with
  | start => exact ⟨.refl queue, fun tx htx ↦ by cases htx⟩
  | round collects taken collected ih =>
    obtain ⟨hsame, hlive⟩ := ih
    have hrest := hsame.trans (sameNotes_take taken)
    obtain ⟨hround, hvtx⟩ := collectTx_notes collected
    refine ⟨hrest.trans hround, ?_⟩
    rcases hvtx with hvtx | ⟨hvtx, hnext⟩
    · rw [hvtx]
      exact hlive
    · rw [hvtx]
      intro tx htx
      rcases List.mem_append.mp htx with htx | htx
      · exact hlive tx htx
      · rw [List.mem_singleton.mp htx]
        exact (hrest.liveAt_iff _).mp hnext

theorem Collects.of_collectTxs {queue : TxQueue D} {nTurns : ℕ}
    (h : Collects P heap env st fProofOfStake queue s)
    (hcollect : collectTxs P heap env st fProofOfStake nTurns s = .ok s') :
    Collects P heap env st fProofOfStake queue s' := by
  induction nTurns generalizing s with
  | zero => exact Except.ok.inj hcollect ▸ h
  | succ nTurns ih =>
    unfold collectTxs at hcollect
    split at hcollect
    · exact Except.ok.inj hcollect ▸ h
    · next next rest htake =>
      simp only [bind_eq_ok] at hcollect
      obtain ⟨s₁, hone, hrest⟩ := hcollect
      exact ih (h.round htake hone) hrest

theorem getValueOut_ne_noSuchOrphan (tx : CTransaction) : tx.getValueOut ≠ .error noSuchOrphan := by
  intro h
  obtain ⟨-, txout, -, nValueOut, -, -, hadd⟩ := foldlM_eq_error h
  rw [CTransaction.addValueOut, bind_eq_error] at hadd
  rcases hadd with hrange | ⟨u, -, hpure⟩
  · exact absurd (rejectIf_eq_error.mp hrange).2 (by decide)
  · cases hpure

theorem getOutputFor_ne_noSuchOrphan (inputs : MapPrevTx) (prevout : COutPoint) :
    getOutputFor inputs prevout ≠ .error noSuchOrphan := by
  intro h
  rw [getOutputFor, bind_eq_error] at h
  rcases h with hfind | ⟨prev, -, hout⟩
  · exact absurd (require_eq_error.mp hfind).2 (by decide)
  · exact absurd (require_eq_error.mp hout).2 (by decide)

theorem getValueIn_ne_noSuchOrphan (inputs : MapPrevTx) (tx : CTransaction) :
    getValueIn inputs tx ≠ .error noSuchOrphan := by
  intro h
  unfold getValueIn at h
  split at h
  · cases h
  · obtain ⟨-, prevout, -, nResult, -, -, hadd⟩ := foldlM_eq_error h
    rcases bind_eq_error.mp hadd with hout | ⟨txout, -, hpure⟩
    · exact getOutputFor_ne_noSuchOrphan _ _ hout
    · cases hpure

theorem getP2SHSigOpCount_ne_noSuchOrphan (inputs : MapPrevTx) (tx : CTransaction) :
    getP2SHSigOpCount P inputs tx ≠ .error noSuchOrphan := by
  intro h
  unfold getP2SHSigOpCount at h
  split at h
  · cases h
  · obtain ⟨-, txin, -, nSigOps, -, -, hadd⟩ := foldlM_eq_error h
    rcases bind_eq_error.mp hadd with hout | ⟨txout, -, hpure⟩
    · exact getOutputFor_ne_noSuchOrphan _ _ hout
    · cases hpure

theorem scanInputs_ne_noSuchOrphan (files : BlockFiles) (hash : Uint256) (prevouts : List COutPoint)
    (scan : InputScan D) : scanInputs P files st hash scan prevouts ≠ .error noSuchOrphan := by
  induction prevouts generalizing scan with
  | nil =>
    intro h
    cases h
  | cons prevout prevouts ih =>
    unfold scanInputs
    split
    · exact ih _
    · split
      · intro h
        cases h
      · intro h
        rcases bind_eq_error.mp h with hout | ⟨txout, -, hrest⟩
        · exact absurd (require_eq_error.mp hout).2 (by decide)
        · exact ih _ hrest

theorem queueTx_ne_noSuchOrphan (queue : TxQueue D) (entry : Σ _ : Uint256, CTransaction) :
    queueTx P env st queue entry ≠ .error noSuchOrphan := by
  intro h
  unfold queueTx at h
  simp only at h
  split at h
  · cases h
  · rcases bind_eq_error.mp h with hscan | ⟨⟨fMissingInputs, scan⟩, -, hrest⟩
    · exact scanInputs_ne_noSuchOrphan _ _ _ _ hscan
    · split at hrest
      · cases hrest
      · rcases bind_eq_error.mp hrest with hvalue | ⟨nValueOut, -, hpure⟩
        · exact getValueOut_ne_noSuchOrphan _ hvalue
        · cases hpure

omit [Double D] in
theorem includeTx_ne_noSuchOrphan {tx : CTransaction} (hlive : s.queue.LiveAt (P.hashTx tx)) :
    includeTx P env st s tx ≠ .error noSuchOrphan := by
  intro h
  unfold includeTx at h
  simp only at h
  split at h
  · cases h
  · rcases bind_eq_error.mp h with hin | ⟨nValueIn, -, h⟩
    · exact getValueIn_ne_noSuchOrphan _ _ hin
    rcases bind_eq_error.mp h with hout | ⟨nValueOut, -, h⟩
    · exact getValueOut_ne_noSuchOrphan _ hout
    split at h
    · cases h
    · rcases bind_eq_error.mp h with hsigOps | ⟨nP2SHSigOps, -, h⟩
      · exact getP2SHSigOpCount_ne_noSuchOrphan _ _ hsigOps
      split at h
      · cases h
      · split at h
        · cases h
        · rcases bind_eq_error.mp h with hqueue | ⟨queue, -, hpure⟩
          · have hsome := (release_isSome_iff s.queue (P.hashTx tx)).mpr hlive
            rw [(require_eq_error.mp hqueue).1] at hsome
            cases hsome
          · cases hpure

theorem collectTxs_ne_noSuchOrphan {queue : TxQueue D} (hlive : ∀ awaited, queue.LiveAt awaited)
    {nTurns : ℕ} (h : Collects P heap env st fProofOfStake queue s) :
    collectTxs P heap env st fProofOfStake nTurns s ≠ .error noSuchOrphan := by
  induction nTurns generalizing s with
  | zero => exact nofun
  | succ nTurns ih =>
    unfold collectTxs
    split
    · exact nofun
    · next next rest htake =>
      intro hfail
      rcases bind_eq_error.mp hfail with hone | ⟨s₁, hone, hrest⟩
      · unfold collectTx at hone
        split at hone
        · cases hone
        · obtain ⟨fSortedByFee, heq⟩ := prioritize_eq env.args { s with queue := rest } next
          rw [heq] at hone
          refine includeTx_ne_noSuchOrphan ?_ hone
          exact ((h.notes.1.trans (sameNotes_take htake)).liveAt_iff _).mpr (hlive _)
      · exact ih (h.round htake hone) hrest

/-- All pointers that the loop may follow are live if and only if none is left; then the node never
follows a dangling one, and it never gets past a transaction under whose hash one is left. -/
theorem dependers_live_iff :
    (∀ queue, st.mempool.mapTx.entries.foldlM (queueTx P env st) .empty = .ok queue →
        ((∀ s, Collects P heap env st fProofOfStake queue s → ∀ awaited, s.queue.LiveAt awaited) ↔
          ∀ awaited, ¬ PointerLeft env st awaited)) ∧
      ((∀ awaited, ¬ PointerLeft env st awaited) →
        createNewBlock P heap env st fProofOfStake ≠ .error noSuchOrphan) ∧
      ∀ template, createNewBlock P heap env st fProofOfStake = .ok template →
        ∀ tx ∈ template.block.vtx.tail, ¬ PointerLeft env st (P.hashTx tx) := by
  refine ⟨fun queue hqueue ↦ ⟨fun hlive awaited ↦ ?_, fun hnone s hcollects awaited ↦ ?_⟩, ?_, ?_⟩
  · exact ((queueTxs_filled hqueue).liveAt_iff awaited).mp (hlive _ .start awaited)
  · have hlive := ((queueTxs_filled hqueue).liveAt_iff awaited).mpr (hnone awaited)
    exact (hcollects.notes.1.liveAt_iff awaited).mpr hlive
  · intro hnone hfail
    rw [createNewBlock, bind_eq_error] at hfail
    rcases hfail with hscript | ⟨u, -, hfail⟩
    · exact absurd (rejectIf_eq_error.mp hscript).2 (by decide)
    rw [bind_eq_error] at hfail
    rcases hfail with hfill | ⟨queue, hqueue, hfail⟩
    · obtain ⟨-, entry, -, queue, -, -, hone⟩ := foldlM_eq_error hfill
      exact queueTx_ne_noSuchOrphan queue entry hone
    rcases bind_eq_error.mp hfail with hcollect | ⟨s, -, hpure⟩
    · have hlive : ∀ awaited, queue.LiveAt awaited := fun awaited ↦
        ((queueTxs_filled hqueue).liveAt_iff awaited).mpr (hnone awaited)
      exact collectTxs_ne_noSuchOrphan hlive .start hcollect
    · cases hpure
  · intro template hok tx htx
    simp only [createNewBlock, bind_eq_ok, rejectIf_eq_ok, pure_eq_ok, exists_const] at hok
    obtain ⟨-, queue, hqueue, s, hcollect, rfl⟩ := hok
    have hcollects : Collects P heap env st fProofOfStake queue s := Collects.start.of_collectTxs hcollect
    exact ((queueTxs_filled hqueue).liveAt_iff _).mp (hcollects.notes.2 tx htx)

namespace OrphanExample

open Builders PoolExample

def parentTx : CTransaction := spending 60 4000 [⟨3, 0⟩]
  [output (500000009 * COIN), output (500000009 * COIN)]

/-- Too late a lock time for the pool, though its inputs make it final. -/
def refusedTx : CTransaction :=
  { spending 61 4050 [⟨60, 1⟩] [output (500000008 * COIN)] with nLockTime := 2 ^ 31 }

/-- Waits for the first transaction and misses the second one. -/
def grandchildTx : CTransaction := spending 62 4100 [⟨60, 0⟩, ⟨61, 0⟩] [output (1000000016 * COIN)]

def disconnected : CBlock := blockOf testNet 13 12 4200 (easiestBits testNet)
  [coinbase 14 4200 13 [output 0], parentTx, refusedTx, grandchildTx]

def emptyRival : CBlock := blockOf testNet 23 12 4200 (easiestBits testNet)
  [coinbase 24 4200 13 [output 0]]

def emptyChild : CBlock := blockOf testNet 33 23 4500 (easiestBits testNet)
  [coinbase 34 4500 14 [output 0]]

def blocks : List (ℕ × ℕ × CBlock) :=
  quietFiles testNet 13 ++ [(14, 8, disconnected), (15, 8, emptyRival), (16, 8, emptyChild)]

def disk : BlockFiles := filesOf blocks

def envAt (nFile : ℕ) : Env := { surroundings disk 5000 with written := some (nFile, 8) }

def quietEvent (nHeight : ℕ) : NodeEvent := .acceptBlock (envAt (nHeight + 1)) (quietBlock testNet nHeight)

def quietNode : ℕ → NodeState
  | 0 => (startNode testNet (envAt 1) [] (quietBlock testNet 0) 1 8).2
  | nHeight + 1 => handleEvent testNet (quietNode nHeight) (quietEvent (nHeight + 1))

def connectedNode : NodeState := handleEvent testNet (quietNode 12) (.acceptBlock (envAt 14) disconnected)

def rivaledNode : NodeState := handleEvent testNet connectedNode (.acceptBlock (envAt 15) emptyRival)

/-- The chain has moved to the rivals, and the pool holds what was resurrected. -/
def reorganizedNode : NodeState := handleEvent testNet rivaledNode (.acceptBlock (envAt 16) emptyChild)

theorem writtenAt : ∀ entry ∈ blocks, WrittenAt disk entry.1 8 entry.2.2 := by decide

theorem fits_acceptBlock {st : NodeState} {nFile : ℕ} {block : CBlock}
    (h : (nFile, 8, block) ∈ blocks) : Fits disk st (.acceptBlock (envAt nFile) block) :=
  fits_of_writtenAt rfl rfl (writtenAt _ h)

theorem run_quietNode {nHeight : ℕ} (hle : nHeight ≤ 12) :
    NodeRun testNet disk PoolExample.genesis (fun _ _ ↦ True) (quietNode nHeight) := by
  induction nHeight with
  | zero =>
    have hstart : startNode testNet (envAt 1) [] (quietBlock testNet 0) 1 8 = (true, quietNode 0) :=
      Prod.ext (by decide) rfl
    exact .start hstart (by decide)
  | succ nHeight ih =>
    refine .event (ih (by omega)) (fits_acceptBlock ?_) trivial
    exact List.mem_append_left _ (List.mem_map.mpr ⟨nHeight + 1, List.mem_range.mpr (by omega), rfl⟩)

theorem run_reorganizedNode :
    NodeRun testNet disk PoolExample.genesis (fun _ _ ↦ True) reorganizedNode := by
  have hconnected : NodeRun testNet disk PoolExample.genesis (fun _ _ ↦ True) connectedNode :=
    .event (run_quietNode le_rfl) (fits_acceptBlock (by decide)) trivial
  have hrivaled : NodeRun testNet disk PoolExample.genesis (fun _ _ ↦ True) rivaledNode :=
    .event hconnected (fits_acceptBlock (by decide)) trivial
  exact .event hrivaled (fits_acceptBlock (by decide)) trivial

def minerEnv : MinerEnv := { TemplateExample.minerEnv 5000 5000 with files := disk }

end OrphanExample

open OrphanExample in
/-- A reorganization resurrects a transaction without one of those it spends from, and the miner then
follows the pointer that is left. -/
theorem follows_dangling :
    NodeRun PoolExample.testNet OrphanExample.disk PoolExample.genesis (fun _ _ ↦ True) reorganizedNode ∧
      reorganizedNode.mempool.mapTx.entries.map (fun entry ↦ entry.2) = [grandchildTx, parentTx] ∧
      createNewBlock PoolExample.testNet (firstHighest : Heap (TxPriority ℚ)) OrphanExample.minerEnv
        reorganizedNode false = .error noSuchOrphan := by
  refine ⟨run_reorganizedNode, by decide +kernel, ?_⟩
  have hfails : (match createNewBlock PoolExample.testNet (firstHighest : Heap (TxPriority ℚ)) OrphanExample.minerEnv
      reorganizedNode false with
    | .ok _ => none
    | .error reason => some reason) = some noSuchOrphan := by decide +kernel
  split at hfails
  · cases hfails
  · next reason hreason =>
    rw [hreason]
    exact congrArg Except.error (Option.some.inj hfails)

end Electra.Node
