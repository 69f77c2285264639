import Electra.Chain.ProcessBlock
import Electra.Node.SyncEvents

/-!
# The holding area of orphan blocks

The two maps of the holding area list the same blocks at all times between calls.  While the orphans
that wait for a block are tried, those tried so far are only left in the multimap, and the work queue
runs empty because every accepted orphan has left the holding area.

A block in the holding area waits for a block that is not in the index.  An accepted block is followed
by the orphans that wait for it; a block that enters the index without being accepted is not, and
leaves its orphans behind for good.
-/

namespace Electra.Node

open Chain Foundations Foundations.WorkQueue

section

variable (P : ChainParams)

/-- An orphan is stored under its own hash. -/
def Stored (orphans : OrphanBlocks) (block : CBlock) : Prop :=
  orphans.mapOrphanBlocks.lookup (block.getHash P) = some block

/-- The maps of the holding area while some orphans have been tried and dropped. -/
structure Holds (orphans : OrphanBlocks) (tried : List CBlock) : Prop where
  hash : ∀ hash block, orphans.mapOrphanBlocks.lookup hash = some block → block.getHash P = hash
  nodup : orphans.mapOrphanBlocksByPrev.Nodup
  mem_iff : ∀ hashPrev block, (hashPrev, block) ∈ orphans.mapOrphanBlocksByPrev ↔
    hashPrev = block.hashPrevBlock ∧ (Stored P orphans block ∨ block ∈ tried)
  dropped : ∀ block ∈ tried, orphans.mapOrphanBlocks.lookup (block.getHash P) = none

theorem holds_empty : Holds P .empty [] where
  hash hash block h := by simp [OrphanBlocks.empty] at h
  nodup := List.nodup_nil
  mem_iff hashPrev block := by simp [OrphanBlocks.empty, Stored]
  dropped block h := nomatch h

variable {P} {orphans : OrphanBlocks} {tried : List CBlock} {block : CBlock}

theorem mem_waitingFor {hashPrev : Uint256} :
    block ∈ orphans.waitingFor hashPrev ↔ (hashPrev, block) ∈ orphans.mapOrphanBlocksByPrev := by
  simp [OrphanBlocks.waitingFor]

theorem stored_insert {block' : CBlock}
    (hnew : orphans.mapOrphanBlocks.lookup (block.getHash P) = none) :
    Stored P (orphans.insert P block) block' ↔ block' = block ∨ Stored P orphans block' := by
  unfold Stored OrphanBlocks.insert
  by_cases heq : block'.getHash P = block.getHash P
  · rw [heq, AList.lookup_insert, hnew, Option.some.injEq]
    simp [eq_comm]
  · rw [AList.lookup_insert_ne heq]
    have hne : block' ≠ block := fun hsame ↦ heq (hsame ▸ rfl)
    simp [hne]

/-- Once an orphan is dropped, it is left in the multimap only. -/
theorem stored_dropTried {block' : CBlock} (h : Stored P orphans block) :
    Stored P (orphans.dropTried P block) block' ↔ Stored P orphans block' ∧ block' ≠ block := by
  unfold Stored OrphanBlocks.dropTried at *
  by_cases heq : block'.getHash P = block.getHash P
  · rw [heq, AList.lookup_erase, h, Option.some.injEq]
    simp [eq_comm]
  · rw [AList.lookup_erase_ne heq]
    have hne : block' ≠ block := fun hsame ↦ heq (hsame ▸ rfl)
    simp [hne]

namespace Holds

/-- The orphans that wait for a block are those with it as predecessor. -/
theorem mem_waitingFor (h : Holds P orphans []) {hashPrev : Uint256} :
    block ∈ orphans.waitingFor hashPrev ↔ hashPrev = block.hashPrevBlock ∧ Stored P orphans block := by
  rw [Node.mem_waitingFor, h.mem_iff]
  simp

theorem nodup_waitingFor (h : Holds P orphans tried) (hashPrev : Uint256) :
    (orphans.waitingFor hashPrev).Nodup := by
  refine (h.nodup.filter _).map_on ?_
  intro entry hentry entry' hentry' heq
  have hkey : entry.1 = hashPrev := by simpa using (List.mem_filter.mp hentry).2
  have hkey' : entry'.1 = hashPrev := by simpa using (List.mem_filter.mp hentry').2
  exact Prod.ext (hkey.trans hkey'.symm) heq

theorem stored_of_lookup (h : Holds P orphans tried) {hash : Uint256}
    (hlookup : orphans.mapOrphanBlocks.lookup hash = some block) : Stored P orphans block := by
  rw [Stored, h.hash hash block hlookup]
  exact hlookup

theorem insert (h : Holds P orphans [])
    (hnew : orphans.mapOrphanBlocks.lookup (block.getHash P) = none) :
    Holds P (orphans.insert P block) [] := by
  refine ⟨?_, ?_, ?_, nofun⟩
  · intro hash block' hlookup
    unfold OrphanBlocks.insert at hlookup
    by_cases heq : hash = block.getHash P
    · rw [heq, AList.lookup_insert, Option.some.injEq] at hlookup
      rw [heq, hlookup]
    · rw [AList.lookup_insert_ne heq] at hlookup
      exact h.hash hash block' hlookup
  · refine List.nodup_append.mpr ⟨h.nodup, List.nodup_singleton _, ?_⟩
    rintro entry hentry entry' hentry' rfl
    obtain rfl := List.mem_singleton.mp hentry'
    have hin := ((h.mem_iff _ _).mp hentry).2
    simp [Stored, hnew] at hin
  · intro hashPrev block'
    rw [stored_insert hnew]
    simp only [OrphanBlocks.insert, List.mem_append, h.mem_iff, List.mem_singleton, Prod.mk.injEq,
      List.not_mem_nil, or_false]
    constructor
    · rintro (⟨rfl, hin⟩ | ⟨rfl, rfl⟩)
      · exact ⟨rfl, .inr hin⟩
      · exact ⟨rfl, .inl rfl⟩
    · rintro ⟨rfl, rfl | hin⟩
      · exact .inr ⟨rfl, rfl⟩
      · exact .inl ⟨rfl, hin⟩

theorem dropTried (h : Holds P orphans tried) (hstored : Stored P orphans block) :
    Holds P (orphans.dropTried P block) (tried ++ [block]) := by
  refine ⟨?_, h.nodup, ?_, ?_⟩
  · intro hash block' hlookup
    unfold OrphanBlocks.dropTried at hlookup
    by_cases heq : hash = block.getHash P
    · rw [heq, AList.lookup_erase] at hlookup
      cases hlookup
    · rw [AList.lookup_erase_ne heq] at hlookup
      exact h.hash hash block' hlookup
  · intro hashPrev block'
    rw [stored_dropTried hstored, List.mem_append, List.mem_singleton]
    refine (h.mem_iff hashPrev block').trans (and_congr_right fun _ ↦ ?_)
    by_cases heq : block' = block
    · simp [heq, hstored]
    · simp [heq]
  · intro block' hin
    unfold OrphanBlocks.dropTried
    by_cases heq : block'.getHash P = block.getHash P
    · rw [heq, AList.lookup_erase]
    · rw [AList.lookup_erase_ne heq]
      rcases List.mem_append.mp hin with hin | hin
      · exact h.dropped block' hin
      · exact absurd (List.mem_singleton.mp hin ▸ rfl) heq

/-- When all orphans that wait for a block were tried, the multimap loses them too. -/
theorem eraseByPrev {hashPrev : Uint256} (h : Holds P orphans (orphans.waitingFor hashPrev)) :
    Holds P (orphans.eraseByPrev hashPrev) [] := by
  refine ⟨h.hash, h.nodup.filter _, ?_, nofun⟩
  intro hashPrev' block'
  have hmem : (hashPrev', block') ∈ (orphans.eraseByPrev hashPrev).mapOrphanBlocksByPrev ↔
      (hashPrev', block') ∈ orphans.mapOrphanBlocksByPrev ∧ hashPrev' ≠ hashPrev := by
    simp [OrphanBlocks.eraseByPrev]
  rw [hmem, h.mem_iff]
  simp only [List.not_mem_nil, or_false]
  constructor
  · rintro ⟨⟨rfl, hin⟩, hne⟩
    refine ⟨rfl, hin.resolve_right fun hwaiting ↦ ?_⟩
    exact hne ((h.mem_iff _ _).mp (Node.mem_waitingFor.mp hwaiting)).1.symm
  · rintro ⟨rfl, hin⟩
    refine ⟨⟨rfl, .inl hin⟩, ?_⟩
    rintro rfl
    have hwaiting : block' ∈ orphans.waitingFor block'.hashPrevBlock :=
      Node.mem_waitingFor.mpr ((h.mem_iff _ _).mpr ⟨rfl, .inl hin⟩)
    have hnone := h.dropped block' hwaiting
    rw [show orphans.mapOrphanBlocks.lookup _ = _ from hin] at hnone
    cases hnone

end Holds

end

open Foundations.Outcome

section Settled

variable (P : ChainParams) (mode : CPMode)

/-- Both maps of the holding area list the same blocks, each of them once, and none of these has its
predecessor in the index. -/
structure OrphansSettled (s : BlockState) : Prop where
  hash : ∀ hash block, s.orphans.mapOrphanBlocks.lookup hash = some block → block.getHash P = hash
  nodup : s.orphans.mapOrphanBlocksByPrev.Nodup
  byPrev : ∀ hashPrev block, (hashPrev, block) ∈ s.orphans.mapOrphanBlocksByPrev ↔
    hashPrev = block.hashPrevBlock ∧ s.orphans.mapOrphanBlocks.lookup (block.getHash P) = some block
  missing : ∀ hash block, s.orphans.mapOrphanBlocks.lookup hash = some block →
    s.sync.indexed block.hashPrevBlock = false

/-- A call of `AcceptBlock` that enters its block into the index is completed, unless no orphan waits for
the block. -/
def CompletesOrUnawaited (env : SyncEnv) (s : BlockState) (block : CBlock) : Prop :=
  (acceptedEntry P (checkedEnv P mode env s.sync block) s.sync.node block).isSome →
    s.orphans.waitingFor (block.getHash P) ≠ [] →
      Completes P (checkedEnv P mode env s.sync block) s.sync.node block

instance (env : SyncEnv) (s : BlockState) (block : CBlock) :
    Decidable (CompletesOrUnawaited P mode env s block) :=
  inferInstanceAs (Decidable (_ → ¬ _ → _))

/-- All calls of `AcceptBlock` by `ProcessBlock` for a block and its orphans are like that. -/
def LeavesNoOrphans (s : BlockState) : BlockEvent → Prop
  | .processBlock env block =>
      processBlockChecks P env s block = .ok () → s.sync.indexed block.hashPrevBlock →
        CompletesOrUnawaited P mode (env.accept (block.getHash P)) s block ∧
        ((acceptBlockSeen P mode (env.accept (block.getHash P)) s block).1 = true →
          (orphanLoop P mode env).RunMeets
            (fun s orphan ↦ CompletesOrUnawaited P mode (env.accept (orphan.getHash P)) s orphan)
            (s.orphans.mapOrphanBlocks.entries.length + 1)
            (acceptBlockSeen P mode (env.accept (block.getHash P)) s block).2 [block.getHash P])
  | _ => True

/-- The states of a process, which starts with an empty holding area on whatever index it has. -/
inductive ProcessRun (Meets : BlockState → BlockEvent → Prop) : BlockState → Prop
  | start {s : BlockState} (empty : s.orphans = .empty) : ProcessRun Meets s
  | event {s : BlockState} {event : BlockEvent} (run : ProcessRun Meets s) (meets : Meets s event) :
      ProcessRun Meets (handleBlockEvent P mode s event)

variable {P mode} {s : BlockState} {env : SyncEnv} {block : CBlock}

/-- The stored orphans whose predecessor is in the index wait for some of the given keys. -/
def WaitFor (P : ChainParams) (s : BlockState) (keys : List Uint256) : Prop :=
  ∀ block, Stored P s.orphans block → s.sync.indexed block.hashPrevBlock → block.hashPrevBlock ∈ keys

/-- A block that enters the index is in the queue, or no orphan waits for it. -/
theorem WaitFor.accept {keys : List Uint256} (h : WaitFor P s keys) {tried : List CBlock}
    (hholds : Holds P s.orphans tried) (hgood : CompletesOrUnawaited P mode env s block) :
    WaitFor P (acceptBlockSeen P mode env s block).2
      (keys ++ if (acceptBlockSeen P mode env s block).1 then [block.getHash P] else []) := by
  intro orphan hstored hindexed
  have hmap := mapBlockIndex_acceptBlockSync P mode env s.sync block
  cases hentry : acceptedEntry P (checkedEnv P mode env s.sync block) s.sync.node block with
  | none =>
    rw [hentry] at hmap
    refine List.mem_append_left _ (h orphan hstored ?_)
    exact (congrArg Option.isSome (congrFun hmap orphan.hashPrevBlock)).symm.trans hindexed
  | some pindexNew =>
    rw [hentry] at hmap
    by_cases hwaits : orphan.hashPrevBlock = block.getHash P
    · have hmem : orphan ∈ s.orphans.waitingFor (block.getHash P) :=
        mem_waitingFor.mpr ((hholds.mem_iff _ _).mpr ⟨hwaits.symm, .inl hstored⟩)
      have hcompletes := hgood (by rw [hentry]; rfl) (List.ne_nil_of_mem hmem)
      have hok : (acceptBlockSeen P mode env s block).1 = true := by
        refine (acceptBlockSync_cases P mode env s.sync block).1.trans ?_
        exact (acceptBlock_fst P _ _ _).mpr ⟨by rw [hentry]; rfl, hcompletes⟩
      rw [hok, if_pos rfl, hwaits]
      exact List.mem_append_right _ (List.mem_singleton_self _)
    · refine List.mem_append_left _ (h orphan hstored ?_)
      have hsame := (congrFun hmap orphan.hashPrevBlock).trans (Function.update_of_ne hwaits _ _)
      exact (congrArg Option.isSome hsame).symm.trans hindexed

/-- The number of blocks in the holding area. -/
def heldCount (s : BlockState) : ℕ := s.orphans.mapOrphanBlocks.entries.length

theorem heldCount_dropTried {orphans : OrphanBlocks} (h : Stored P orphans block) :
    (orphans.dropTried P block).mapOrphanBlocks.entries.length + 1 =
      orphans.mapOrphanBlocks.entries.length := by
  have hkey : block.getHash P ∈ orphans.mapOrphanBlocks.keys := by
    rw [← AList.mem_keys, ← AList.lookup_isSome, show orphans.mapOrphanBlocks.lookup _ = _ from h]
    rfl
  have hlength : ∀ m : AList fun _ : Uint256 ↦ CBlock, m.entries.length = m.keys.length :=
    fun m ↦ (List.length_map _).symm
  rw [hlength, hlength, OrphanBlocks.dropTried, AList.keys_erase,
    List.length_erase_add_one hkey]

/-- Within a turn, with the orphans tried so far: the multimap is as at its start, and every key in the
queue is owed to an orphan that was dropped. -/
structure TurnInv (P : ChainParams) (orphans : OrphanBlocks) (nBound : ℕ) (tried : List CBlock)
    (s : BlockState) (vWorkQueue : List Uint256) : Prop where
  holds : Holds P s.orphans tried
  byPrev : s.orphans.mapOrphanBlocksByPrev = orphans.mapOrphanBlocksByPrev
  size : heldCount s + vWorkQueue.length ≤ nBound

section Turn

variable {penv : ProcessEnv} {orphans : OrphanBlocks} {nBound : ℕ} {hashPrev : Uint256}
  {tried rest : List CBlock} {orphan : CBlock} {vWorkQueue : List Uint256}

/-- The next orphan of a turn is still stored. -/
theorem TurnInv.stored (h : TurnInv P orphans nBound tried s vWorkQueue)
    (hitems : orphans.waitingFor hashPrev = tried ++ orphan :: rest) : Stored P s.orphans orphan := by
  have hsame : s.orphans.waitingFor hashPrev = orphans.waitingFor hashPrev := by
    rw [OrphanBlocks.waitingFor, h.byPrev, OrphanBlocks.waitingFor]
  have hnodup : (tried ++ orphan :: rest).Nodup := by
    rw [← hitems, ← hsame]
    exact h.holds.nodup_waitingFor hashPrev
  have hmem : orphan ∈ s.orphans.waitingFor hashPrev := by
    rw [hsame, hitems]
    exact List.mem_append_right _ List.mem_cons_self
  refine (((h.holds.mem_iff _ _).mp (mem_waitingFor.mp hmem)).2).resolve_right fun hin ↦ ?_
  exact (List.nodup_append.mp hnodup).2.2 orphan hin orphan List.mem_cons_self rfl

theorem TurnInv.visit (h : TurnInv P orphans nBound tried s vWorkQueue)
    (hitems : orphans.waitingFor hashPrev = tried ++ orphan :: rest) :
    TurnInv P orphans nBound (tried ++ [orphan]) (acceptOrphanBlock P mode penv s orphan).1
      (vWorkQueue ++ (acceptOrphanBlock P mode penv s orphan).2.toList) := by
  have hstored := h.stored hitems
  refine ⟨h.holds.dropTried hstored, h.byPrev, ?_⟩
  have hone : (acceptOrphanBlock P mode penv s orphan).2.toList.length ≤ 1 := by
    cases (acceptOrphanBlock P mode penv s orphan).2 <;> simp
  have hdropped := heldCount_dropTried hstored
  have hsize := h.size
  have hafter : heldCount (acceptOrphanBlock P mode penv s orphan).1 =
      (s.orphans.dropTried P orphan).mapOrphanBlocks.entries.length := rfl
  rw [List.length_append, hafter]
  unfold heldCount at hsize
  omega

theorem WaitFor.visit (h : WaitFor P s (hashPrev :: vWorkQueue))
    (hinv : TurnInv P orphans nBound tried s vWorkQueue)
    (hitems : orphans.waitingFor hashPrev = tried ++ orphan :: rest)
    (hgood : CompletesOrUnawaited P mode (penv.accept (orphan.getHash P)) s orphan) :
    WaitFor P (acceptOrphanBlock P mode penv s orphan).1
      (hashPrev :: (vWorkQueue ++ (acceptOrphanBlock P mode penv s orphan).2.toList)) := by
  intro block hstored hindexed
  have hbefore := ((stored_dropTried (hinv.stored hitems)).mp hstored).1
  have haccept := h.accept hinv.holds hgood block hbefore hindexed
  have hqueue : (acceptOrphanBlock P mode penv s orphan).2.toList =
      if (acceptBlockSeen P mode (penv.accept (orphan.getHash P)) s orphan).1 then [orphan.getHash P]
      else [] := by
    have hsnd : (acceptOrphanBlock P mode penv s orphan).2 =
        if (acceptBlockSeen P mode (penv.accept (orphan.getHash P)) s orphan).1 then
          some (orphan.getHash P)
        else none := rfl
    rw [hsnd]
    split <;> rfl
  rw [hqueue]
  exact haccept

/-- At the end of a turn all orphans that waited for its block are gone. -/
theorem TurnInv.leave (h : TurnInv P orphans nBound (orphans.waitingFor hashPrev) s vWorkQueue) :
    Holds P (s.orphans.eraseByPrev hashPrev) [] := by
  have hsame : orphans.waitingFor hashPrev = s.orphans.waitingFor hashPrev := by
    rw [OrphanBlocks.waitingFor, ← h.byPrev, OrphanBlocks.waitingFor]
  have hholds := h.holds
  rw [hsame] at hholds
  exact hholds.eraseByPrev

theorem WaitFor.leave (h : WaitFor P s (hashPrev :: vWorkQueue))
    (hinv : TurnInv P orphans nBound (orphans.waitingFor hashPrev) s vWorkQueue) :
    WaitFor P { s with orphans := s.orphans.eraseByPrev hashPrev } vWorkQueue := by
  intro block hstored hindexed
  rcases List.mem_cons.mp (h block hstored hindexed) with heq | hqueue
  · have hmem : block ∈ orphans.waitingFor hashPrev := by
      rw [mem_waitingFor, ← hinv.byPrev, hinv.holds.mem_iff]
      exact ⟨heq.symm, .inl hstored⟩
    have hnone := hinv.holds.dropped block hmem
    rw [show s.orphans.mapOrphanBlocks.lookup _ = _ from hstored] at hnone
    cases hnone
  · exact hqueue

theorem turn_holds (penv : ProcessEnv) (h : Holds P s.orphans []) (hashPrev : Uint256)
    (vWorkQueue : List Uint256) :
    Holds P ((orphanLoop P mode penv).turn s hashPrev vWorkQueue).1.orphans [] ∧
      heldCount ((orphanLoop P mode penv).turn s hashPrev vWorkQueue).1 +
        ((orphanLoop P mode penv).turn s hashPrev vWorkQueue).2.length ≤
          heldCount s + vWorkQueue.length := by
  have hstart : TurnInv P s.orphans (heldCount s + vWorkQueue.length) [] s vWorkQueue :=
    ⟨h, rfl, le_refl _⟩
  have hinv : TurnInv P s.orphans (heldCount s + vWorkQueue.length) (s.orphans.waitingFor hashPrev) _ _ :=
    (orphanLoop P mode penv).foldl_visitNext_always _
      (fun tried orphan rest s' queue hitems hinv ↦ hinv.visit hitems) hstart
  exact ⟨hinv.leave, hinv.size⟩

theorem turn_waitFor (h : Holds P s.orphans []) (hwait : WaitFor P s (hashPrev :: vWorkQueue))
    (hmeets : (orphanLoop P mode penv).VisitsMeet
      (fun s orphan ↦ CompletesOrUnawaited P mode (penv.accept (orphan.getHash P)) s orphan) s
      (s.orphans.waitingFor hashPrev)) :
    WaitFor P ((orphanLoop P mode penv).turn s hashPrev vWorkQueue).1
      ((orphanLoop P mode penv).turn s hashPrev vWorkQueue).2 := by
  have hstart : TurnInv P s.orphans (heldCount s + vWorkQueue.length) [] s vWorkQueue :=
    ⟨h, rfl, le_refl _⟩
  have hinv := (orphanLoop P mode penv).foldl_visitNext
    (fun tried s' queue ↦ TurnInv P s.orphans (heldCount s + vWorkQueue.length) tried s' queue ∧
      WaitFor P s' (hashPrev :: queue))
    (fun tried orphan rest s' queue hitems hinv hgood ↦
      ⟨hinv.1.visit hitems, hinv.2.visit hinv.1 hitems hgood⟩) hmeets ⟨hstart, hwait⟩
  exact hinv.2.leave hinv.1

/-- The work queue runs empty, with the holding area in order. -/
theorem processOrphans_holds (penv : ProcessEnv) (h : Holds P s.orphans []) (hash : Uint256) :
    Holds P (processOrphans P mode penv s hash).orphans [] ∧
      ((orphanLoop P mode penv).run (heldCount s + 1) s [hash]).2 = [] := by
  constructor
  · exact (orphanLoop P mode penv).run_invariant_always (fun s _ ↦ Holds P s.orphans [])
      (fun s key queue hinv ↦ (turn_holds penv hinv key queue).1) _ h
  · exact (orphanLoop P mode penv).run_snd_eq_nil heldCount (fun s ↦ Holds P s.orphans [])
      (fun s key queue hinv ↦ turn_holds penv hinv key queue) _ h (by simp)

theorem processOrphans_waitFor (h : Holds P s.orphans []) {hash : Uint256} (hwait : WaitFor P s [hash])
    (hmeets : (orphanLoop P mode penv).RunMeets
      (fun s orphan ↦ CompletesOrUnawaited P mode (penv.accept (orphan.getHash P)) s orphan)
      (heldCount s + 1) s [hash]) : WaitFor P (processOrphans P mode penv s hash) [] := by
  have hend := (orphanLoop P mode penv).run_invariant
    (fun s queue ↦ Holds P s.orphans [] ∧ WaitFor P s queue)
    (fun s key queue hinv hvisits ↦
      ⟨(turn_holds penv hinv.1 key queue).1, turn_waitFor hinv.1 hinv.2 hvisits⟩) _ hmeets ⟨h, hwait⟩
  rw [(processOrphans_holds penv h hash).2] at hend
  exact hend.2

end Turn

theorem orphansSettled_iff : OrphansSettled P s ↔ Holds P s.orphans [] ∧ WaitFor P s [] := by
  constructor
  · intro h
    refine ⟨⟨h.hash, h.nodup, fun hashPrev block ↦ ?_, nofun⟩, fun block hstored hindexed ↦ ?_⟩
    · rw [h.byPrev]
      simp [Stored]
    · rw [h.missing _ _ hstored] at hindexed
      cases hindexed
  · rintro ⟨hholds, hwait⟩
    refine ⟨hholds.hash, hholds.nodup, fun hashPrev block ↦ ?_, fun hash block hlookup ↦ ?_⟩
    · rw [hholds.mem_iff]
      simp [Stored]
    · by_contra hindexed
      exact nomatch hwait block (hholds.stored_of_lookup hlookup) (by simpa using hindexed)

/-- A block that passes the first checks is neither in the index nor in the holding area. -/
theorem new_of_checks {penv : ProcessEnv} (h : processBlockChecks P penv s block = .ok ()) :
    s.sync.indexed (block.getHash P) = false ∧
      s.orphans.mapOrphanBlocks.lookup (block.getHash P) = none := by
  simp only [processBlockChecks, bind_eq_ok, rejectIf_eq_ok] at h
  obtain ⟨-, hindexed, -, hstored, -⟩ := h
  exact ⟨by simpa using hindexed, by simpa using hstored⟩

/-- What `ProcessBlock` does with a block. -/
theorem processBlock_cases (P : ChainParams) (mode : CPMode) (penv : ProcessEnv) (s : BlockState)
    (block : CBlock) :
    (∃ reject, processBlockChecks P penv s block = .error reject ∧
        (processBlock P mode penv s block).2 = s) ∨
      processBlockChecks P penv s block = .ok () ∧
        (s.sync.indexed block.hashPrevBlock = false ∧
            (processBlock P mode penv s block).2 = (holdOrphan P s block).2 ∨
          s.sync.indexed block.hashPrevBlock = true ∧ ∃ fAccepted s₁,
            acceptBlockSeen P mode (penv.accept (block.getHash P)) s block = (fAccepted, s₁) ∧
              (processBlock P mode penv s block).2 =
                if fAccepted then processOrphans P mode penv s₁ (block.getHash P) else s₁) := by
  rw [processBlock]
  cases hchecks : processBlockChecks P penv s block with
  | error reject => exact .inl ⟨reject, rfl, rfl⟩
  | ok u =>
    refine .inr ⟨rfl, ?_⟩
    cases hprev : s.sync.indexed block.hashPrevBlock with
    | false => exact .inl ⟨rfl, rfl⟩
    | true =>
      refine .inr ⟨rfl, ?_⟩
      cases hcall : acceptBlockSeen P mode (penv.accept (block.getHash P)) s block with
      | mk fAccepted s₁ =>
        refine ⟨fAccepted, s₁, rfl, ?_⟩
        cases fAccepted <;> simp

/-- A call keeps the holding area in order, whatever fails in it. -/
theorem holds_processBlock (h : Holds P s.orphans []) (penv : ProcessEnv) (block : CBlock) :
    Holds P (processBlock P mode penv s block).2.orphans [] := by
  rcases processBlock_cases P mode penv s block with
    ⟨reject, -, heq⟩ | ⟨hchecks, ⟨-, heq⟩ | ⟨-, fAccepted, s₁, hcall, heq⟩⟩
  · rw [heq]
    exact h
  · rw [heq, Chain.holdOrphan]
    split
    · exact h
    · exact h.insert (new_of_checks hchecks).2
  · have hsame : s₁.orphans = s.orphans := congrArg (fun result ↦ result.2.orphans) hcall.symm
    rw [heq]
    cases fAccepted with
    | false => exact hsame ▸ h
    | true =>
      rw [if_pos rfl]
      exact (processOrphans_holds penv (hsame ▸ h) _).1

theorem holds_handleBlockEvent (h : Holds P s.orphans []) (event : BlockEvent) :
    Holds P (handleBlockEvent P mode s event).orphans [] := by
  cases event with
  | processBlock penv block => exact holds_processBlock h penv block
  | checkpoint env fSignature hashCheckpoint => exact h
  | acceptTx env tx => exact h
  | removeTx tx fRecursive => exact h

theorem ProcessRun.holds {Meets : BlockState → BlockEvent → Prop} (h : ProcessRun P mode Meets s) :
    Holds P s.orphans [] := by
  induction h with
  | start empty => exact empty ▸ holds_empty P
  | event run meets ih => exact holds_handleBlockEvent ih _

theorem WaitFor.processBlock (h : WaitFor P s []) (hholds : Holds P s.orphans []) {penv : ProcessEnv}
    (hmeets : LeavesNoOrphans P mode s (.processBlock penv block)) :
    WaitFor P (Chain.processBlock P mode penv s block).2 [] := by
  rcases processBlock_cases P mode penv s block with
    ⟨reject, -, heq⟩ | ⟨hchecks, ⟨hprev, heq⟩ | ⟨hprev, fAccepted, s₁, hcall, heq⟩⟩
  · rw [heq]
    exact h
  · rw [heq, holdOrphan]
    split
    · exact h
    · intro block' hstored hindexed
      rcases (stored_insert (new_of_checks hchecks).2).mp hstored with rfl | hstored
      · exact absurd (hprev.symm.trans hindexed) Bool.false_ne_true
      · exact h block' hstored hindexed
  · obtain ⟨hgood, hqueue⟩ := hmeets hchecks hprev
    have haccept := h.accept hholds hgood
    have hsame : s₁.orphans = s.orphans := congrArg (fun result ↦ result.2.orphans) hcall.symm
    rw [hcall, ← hsame] at hqueue
    rw [hcall] at haccept
    rw [heq]
    cases fAccepted with
    | false => exact haccept
    | true => exact processOrphans_waitFor (hsame ▸ hholds) haccept (hqueue rfl)

theorem mapBlockIndex_acceptTx (P : ChainParams) (env : Env) (st : NodeState) (tx : CTransaction) :
    (acceptToMemoryPool P env st tx).mapBlockIndex = st.mapBlockIndex := by
  unfold acceptToMemoryPool
  split <;> rfl

theorem WaitFor.congr {s' : BlockState} {keys : List Uint256} (h : WaitFor P s keys)
    (hmap : s'.sync.node.mapBlockIndex = s.sync.node.mapBlockIndex) (horphans : s'.orphans = s.orphans) :
    WaitFor P s' keys := by
  intro block hstored hindexed
  rw [SyncState.indexed, hmap] at hindexed
  exact h block (horphans ▸ hstored) hindexed

/-- Only `ProcessBlock` changes the index or the holding area. -/
theorem WaitFor.handleBlockEvent (h : WaitFor P s []) (hholds : Holds P s.orphans []) {event : BlockEvent}
    (hmeets : LeavesNoOrphans P mode s event) : WaitFor P (handleBlockEvent P mode s event) [] := by
  cases event with
  | processBlock penv block => exact h.processBlock hholds hmeets
  | checkpoint env fSignature hashCheckpoint =>
    exact h.congr
      (checkpointed_processSyncCheckpoint P env s.sync fSignature hashCheckpoint).mapBlockIndex rfl
  | acceptTx env tx => exact h.congr (mapBlockIndex_acceptTx P env s.sync.node tx) rfl
  | removeTx tx fRecursive => exact h.congr rfl rfl

/-- In every run whose calls of `AcceptBlock` complete for the blocks that orphans wait for, no orphan
is stranded. -/
theorem orphansSettled_of_run (h : ProcessRun P mode (LeavesNoOrphans P mode) s) : OrphansSettled P s := by
  refine orphansSettled_iff.mpr ⟨h.holds, ?_⟩
  induction h with
  | start empty =>
    intro block hstored
    simp [Stored, empty, OrphanBlocks.empty] at hstored
  | event run meets ih => exact ih.handleBlockEvent run.holds meets

end Settled

namespace OrphanBlockExample

open Builders

def testNet : ChainParams := network true

/-- A block on genesis that pays itself more than its reward. -/
def greedy : CBlock := blockOf testNet 1 testNet.genesisHash 600 (easiestBits testNet)
  [coinbase 2 600 1 [output (2000000 * COIN)]]

/-- A modest block with the same name. -/
def modest : CBlock := quietBlock testNet 1

/-- The block on top of either. -/
def child : CBlock := quietBlock testNet 2

def disk (block : CBlock) : BlockFiles :=
  filesOf [(1, 8, quietBlock testNet 0), (2, 8, block), (3, 8, child)]

def envAt (block : CBlock) (nFile : ℕ) : SyncEnv :=
  { surroundings (disk block) 1000 with written := some (nFile, 8), fCheckpointWritten := true }

def arrival (block : CBlock) : ProcessEnv :=
  ⟨1000, fun hash ↦ envAt block (if hash = 1 then 2 else 3)⟩

/-- A process on a fresh index. -/
def started (block : CBlock) : BlockState :=
  ⟨(startSync testNet (envAt block 1) [] (quietBlock testNet 0) 1 8).2, ∅, .empty⟩

def onChild (block : CBlock) : BlockEvent := .processBlock (arrival block) child

def onBlock (block : CBlock) : BlockEvent := .processBlock (arrival block) block

/-- The child arrives first. -/
def waiting (block : CBlock) : BlockState := handleBlockEvent testNet .strict (started block) (onChild block)

def resolved (block : CBlock) : BlockState := handleBlockEvent testNet .strict (waiting block) (onBlock block)

theorem run_waiting {Meets : BlockState → BlockEvent → Prop} (block : CBlock)
    (h : Meets (started block) (onChild block)) : ProcessRun testNet .strict Meets (waiting block) :=
  .event (.start rfl) h

end OrphanBlockExample

open OrphanBlockExample in
theorem orphansSettled_example : OrphansSettled testNet (resolved modest) := by
  have hwaiting : LeavesNoOrphans testNet .strict (started modest) (onChild modest) := by
    intro _ hprev
    exact absurd hprev (by decide)
  have hresolved : LeavesNoOrphans testNet .strict (waiting modest) (onBlock modest) := by
    intro _ _
    exact ⟨by decide, fun _ ↦ by decide⟩
  exact orphansSettled_of_run (.event (run_waiting modest hwaiting) hresolved)

open OrphanBlockExample in
theorem not_orphansSettled_greedy :
    ProcessRun testNet .strict (fun _ _ ↦ True) (resolved greedy) ∧
      (resolved greedy).orphans.mapOrphanBlocks.lookup (child.getHash testNet) = some child ∧
      (resolved greedy).sync.indexed child.hashPrevBlock = true ∧
      ¬ OrphansSettled testNet (resolved greedy) := by
  have hstored : (resolved greedy).orphans.mapOrphanBlocks.lookup (child.getHash testNet) = some child := by
    decide
  have hindexed : (resolved greedy).sync.indexed child.hashPrevBlock = true := by decide
  refine ⟨.event (run_waiting _ trivial) trivial, hstored, hindexed, fun h ↦ ?_⟩
  exact absurd (hindexed.symm.trans (h.missing _ _ hstored)) (by decide)

end Electra.Node
