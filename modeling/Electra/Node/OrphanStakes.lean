import Electra.Node.OrphanBlocks

/-!
# The stakes of the orphans

The set of stakes has no multiplicity.  It lists the stakes of the proof-of-stake blocks in the holding
area as long as an orphan that is dropped does not share its stake with one that stays.
-/

namespace Electra.Node

open Chain Foundations Foundations.WorkQueue Foundations.Outcome

section Stakes

variable (P : ChainParams) (mode : CPMode)

/-- The set has exactly the stakes of the proof-of-stake blocks in the holding area. -/
def StakesExact (orphans : OrphanBlocks) : Prop :=
  ∀ stake, stake ∈ orphans.setStakeSeenOrphan ↔
    ∃ block, Stored P orphans block ∧ block.isProofOfStake = true ∧ block.getProofOfStake = stake

/-- The orphans that are tried, and so dropped, when an arriving block is accepted. -/
def triedOrphans (s : BlockState) : BlockEvent → List CBlock
  | .processBlock env block =>
      match processBlockChecks P env s block with
      | .error _ => []
      | .ok _ =>
          if !s.sync.indexed block.hashPrevBlock then []
          else
            match acceptBlockSeen P mode (env.accept (block.getHash P)) s block with
            | (false, _) => []
            | (true, s) => (orphanLoop P mode env).visited (heldCount s + 1) s [block.getHash P]
  | _ => []

/-- No orphan that is dropped has the stake of a proof-of-stake block that stays in the holding area. -/
def SparesStakes (s : BlockState) (event : BlockEvent) : Prop :=
  ∀ orphan ∈ triedOrphans P mode s event, ∀ block, Stored P s.orphans block →
    block.isProofOfStake = true → block ∉ triedOrphans P mode s event →
      orphan.getProofOfStake ≠ block.getProofOfStake

variable {P mode} {s : BlockState} {env : ProcessEnv} {block : CBlock} {orphans : OrphanBlocks}

/-- The holding area after some orphans were dropped one after the other. -/
theorem foldl_dropTried (P : ChainParams) (tried : List CBlock) (orphans : OrphanBlocks) :
    (∀ hash, (tried.foldl (OrphanBlocks.dropTried P) orphans).mapOrphanBlocks.lookup hash =
        if hash ∈ tried.map (CBlock.getHash P) then none else orphans.mapOrphanBlocks.lookup hash) ∧
      ∀ stake, stake ∈ (tried.foldl (OrphanBlocks.dropTried P) orphans).setStakeSeenOrphan ↔
        stake ∈ orphans.setStakeSeenOrphan ∧ stake ∉ tried.map CBlock.getProofOfStake := by
  induction tried generalizing orphans with
  | nil => simp
  | cons orphan tried ih =>
    obtain ⟨hlookup, hstake⟩ := ih (orphans.dropTried P orphan)
    rw [List.foldl_cons]
    constructor
    · intro hash
      rw [hlookup, OrphanBlocks.dropTried, List.map_cons]
      by_cases heq : hash = orphan.getHash P
      · rw [heq, AList.lookup_erase, ite_self, if_pos List.mem_cons_self]
      · rw [AList.lookup_erase_ne heq]
        simp only [List.mem_cons, heq, false_or]
    · intro stake
      rw [hstake, OrphanBlocks.dropTried, Finset.mem_erase]
      simp only [List.map_cons, List.mem_cons, not_or]
      tauto

/-- Dropping stored orphans keeps the set exact if and only if none of them has the stake of a block
that stays. -/
theorem stakesExact_foldl_dropTried {tried : List CBlock} (hstored : ∀ orphan ∈ tried, Stored P orphans orphan)
    (h : StakesExact P orphans) : StakesExact P (tried.foldl (OrphanBlocks.dropTried P) orphans) ↔
      ∀ orphan ∈ tried, ∀ block, Stored P orphans block → block.isProofOfStake = true → block ∉ tried →
        orphan.getProofOfStake ≠ block.getProofOfStake := by
  obtain ⟨hlookup, hstake⟩ := foldl_dropTried P tried orphans
  have hafter : ∀ block, Stored P (tried.foldl (OrphanBlocks.dropTried P) orphans) block ↔
      Stored P orphans block ∧ block ∉ tried := by
    intro block
    rw [Stored, hlookup, Stored]
    split
    · next hin =>
      obtain ⟨orphan, horphan, hhash⟩ := List.mem_map.mp hin
      have hsame := hstored orphan horphan
      rw [Stored, hhash] at hsame
      constructor
      · intro hnone
        cases hnone
      · rintro ⟨hblock, hnot⟩
        obtain rfl := Option.some.inj (hsame.symm.trans hblock)
        exact absurd horphan hnot
    · next hout =>
      exact ⟨fun hblock ↦ ⟨hblock, fun hin ↦ hout (List.mem_map_of_mem hin)⟩, fun hboth ↦ hboth.1⟩
  constructor
  · intro hexact orphan horphan block hblock hstake' hstays heq
    have hin := (hexact block.getProofOfStake).mpr ⟨block, (hafter block).mpr ⟨hblock, hstays⟩, hstake', rfl⟩
    exact ((hstake _).mp hin).2 (heq ▸ List.mem_map_of_mem horphan)
  · intro hspares stake
    rw [hstake, h stake]
    constructor
    · rintro ⟨⟨block, hblock, hpos, rfl⟩, hnot⟩
      exact ⟨block, (hafter block).mpr ⟨hblock, fun hin ↦ hnot (List.mem_map_of_mem hin)⟩, hpos, rfl⟩
    · rintro ⟨block, hblock, hpos, rfl⟩
      obtain ⟨hbefore, hstays⟩ := (hafter block).mp hblock
      refine ⟨⟨block, hbefore, hpos, rfl⟩, fun hin ↦ ?_⟩
      obtain ⟨orphan, horphan, heq⟩ := List.mem_map.mp hin
      exact hspares orphan horphan block hbefore hpos hstays heq

/-- The holding area without its multimap. -/
def withoutPrevs (orphans : OrphanBlocks) : OrphanBlocks := { orphans with mapOrphanBlocksByPrev := [] }

/-- The multimap aside, the loop drops the orphans it visits and does nothing else. -/
theorem processOrphans_orphans (P : ChainParams) (mode : CPMode) (env : ProcessEnv) (s : BlockState) (hash : Uint256) :
    withoutPrevs (processOrphans P mode env s hash).orphans =
      ((orphanLoop P mode env).visited (heldCount s + 1) s [hash]).foldl (OrphanBlocks.dropTried P)
        (withoutPrevs s.orphans) :=
  (orphanLoop P mode env).run_foldl (fun s : BlockState ↦ withoutPrevs s.orphans) (OrphanBlocks.dropTried P)
    (fun _ _ ↦ rfl) (fun _ _ ↦ rfl) (fun _ _ ↦ rfl) _ s [hash]

theorem stored_of_turn (env : ProcessEnv) {hashPrev : Uint256} {vWorkQueue : List Uint256}
    (h : Stored P ((orphanLoop P mode env).turn s hashPrev vWorkQueue).1.orphans block) :
    Stored P s.orphans block := by
  have hdrop : ∀ orphans orphan, Stored P (orphans.dropTried P orphan) block → Stored P orphans block := by
    intro orphans orphan hstored
    unfold Stored OrphanBlocks.dropTried at hstored
    by_cases heq : block.getHash P = orphan.getHash P
    · rw [heq, AList.lookup_erase] at hstored
      cases hstored
    · rw [AList.lookup_erase_ne heq] at hstored
      exact hstored
  have hstart : Stored P s.orphans block → Stored P s.orphans block := id
  exact (orphanLoop P mode env).foldl_visitNext_always
    (fun _ s' _ ↦ Stored P s'.orphans block → Stored P s.orphans block)
    (fun _ orphan _ s' _ _ hinv hstored ↦ hinv (hdrop s'.orphans orphan hstored)) hstart h

theorem stored_of_visited (mode : CPMode) (env : ProcessEnv) (h : Holds P s.orphans []) (nTurns : ℕ)
    (vWorkQueue : List Uint256) :
    ∀ orphan ∈ (orphanLoop P mode env).visited nTurns s vWorkQueue, Stored P s.orphans orphan :=
  (orphanLoop P mode env).forall_visited
    (fun s' ↦ Holds P s'.orphans [] ∧ ∀ block, Stored P s'.orphans block → Stored P s.orphans block)
    (fun _ key queue hinv ↦
      ⟨(turn_holds env hinv.1 key queue).1, fun block hstored ↦ hinv.2 block (stored_of_turn env hstored)⟩)
    (fun _ _ hinv orphan horphan ↦ hinv.2 orphan (hinv.1.mem_waitingFor.mp horphan).2)
    nTurns ⟨h, fun _ hstored ↦ hstored⟩

theorem stakesExact_insert (h : StakesExact P orphans)
    (hnew : orphans.mapOrphanBlocks.lookup (block.getHash P) = none) :
    StakesExact P (orphans.insert P block) := by
  intro stake
  have hset : stake ∈ (orphans.insert P block).setStakeSeenOrphan ↔
      (block.isProofOfStake = true ∧ block.getProofOfStake = stake) ∨ stake ∈ orphans.setStakeSeenOrphan := by
    unfold OrphanBlocks.insert
    cases block.isProofOfStake with
    | false => simp
    | true => simp [Finset.mem_insert, eq_comm]
  rw [hset, h stake]
  constructor
  · rintro (⟨hpos, rfl⟩ | ⟨block', hstored, hpos, rfl⟩)
    · exact ⟨block, (stored_insert hnew).mpr (.inl rfl), hpos, rfl⟩
    · exact ⟨block', (stored_insert hnew).mpr (.inr hstored), hpos, rfl⟩
  · rintro ⟨block', hstored, hpos, rfl⟩
    rcases (stored_insert hnew).mp hstored with rfl | hstored
    · exact .inl ⟨hpos, rfl⟩
    · exact .inr ⟨block', hstored, hpos, rfl⟩

/-- The orphans that a call tries. -/
theorem triedOrphans_of_accepted {s₁ : BlockState} {fAccepted : Bool}
    (hchecks : processBlockChecks P env s block = .ok ())
    (hprev : s.sync.indexed block.hashPrevBlock = true)
    (hcall : acceptBlockSeen P mode (env.accept (block.getHash P)) s block = (fAccepted, s₁)) :
    triedOrphans P mode s (.processBlock env block) =
      if fAccepted then (orphanLoop P mode env).visited (heldCount s₁ + 1) s₁ [block.getHash P] else [] := by
  simp only [triedOrphans, hchecks, hprev, hcall]
  cases fAccepted <;> rfl

/-- A call keeps the set exact if and only if it spares the stakes of the blocks that stay. -/
theorem stakesExact_processBlock (hholds : Holds P s.orphans []) (h : StakesExact P s.orphans)
    (env : ProcessEnv) (block : CBlock) :
    StakesExact P (processBlock P mode env s block).2.orphans ↔
      SparesStakes P mode s (.processBlock env block) := by
  have hnone : triedOrphans P mode s (.processBlock env block) = [] →
      SparesStakes P mode s (.processBlock env block) := by
    intro hnil orphan horphan
    rw [hnil] at horphan
    cases horphan
  rcases processBlock_cases P mode env s block with
    ⟨reject, hchecks, heq⟩ | ⟨hchecks, ⟨hprev, heq⟩ | ⟨hprev, fAccepted, s₁, hcall, heq⟩⟩
  · rw [heq]
    exact iff_of_true h (hnone (by simp [triedOrphans, hchecks]))
  · refine iff_of_true ?_ (hnone (by simp [triedOrphans, hchecks, hprev]))
    rw [heq, holdOrphan]
    split
    · exact h
    · exact stakesExact_insert h (new_of_checks hchecks).2
  · have htried := triedOrphans_of_accepted hchecks hprev hcall
    have hsame : s₁.orphans = s.orphans := congrArg (fun result ↦ result.2.orphans) hcall.symm
    rw [heq]
    cases fAccepted with
    | false => exact iff_of_true (hsame ▸ h) (hnone htried)
    | true =>
      have hholds₁ : Holds P s₁.orphans [] := hsame ▸ hholds
      have hstored := stored_of_visited mode env hholds₁ (heldCount s₁ + 1) [block.getHash P]
      have hparts := processOrphans_orphans P mode env s₁ (block.getHash P)
      -- membership does not look at the multimap
      have hexact : ∀ orphans, StakesExact P (withoutPrevs orphans) ↔ StakesExact P orphans :=
        fun _ ↦ Iff.rfl
      rw [if_pos rfl, ← hexact, hparts, SparesStakes, htried, if_pos rfl, ← hsame]
      exact stakesExact_foldl_dropTried hstored ((hexact _).mpr (hsame ▸ h))

theorem stakesExact_handleBlockEvent (hholds : Holds P s.orphans []) (h : StakesExact P s.orphans)
    (event : BlockEvent) :
    StakesExact P (handleBlockEvent P mode s event).orphans ↔ SparesStakes P mode s event := by
  cases event with
  | processBlock env block => exact stakesExact_processBlock hholds h env block
  | checkpoint env fSignature hashCheckpoint => exact iff_of_true h nofun
  | acceptTx env tx => exact iff_of_true h nofun
  | removeTx tx fRecursive => exact iff_of_true h nofun

/-- In every run whose calls spare the stakes of the orphans that stay, the set of stakes is exact, and
the next event leaves it so if and only if it spares them too. -/
theorem stakesExact_of_run (h : ProcessRun P mode (SparesStakes P mode) s) :
    StakesExact P s.orphans ∧ ∀ event, StakesExact P (handleBlockEvent P mode s event).orphans ↔
      SparesStakes P mode s event := by
  have hexact : StakesExact P s.orphans := by
    induction h with
    | start empty =>
      intro stake
      simp [empty, OrphanBlocks.empty, Stored]
    | event run meets ih => exact (stakesExact_handleBlockEvent run.holds ih _).mpr meets
  exact ⟨hexact, stakesExact_handleBlockEvent h.holds hexact⟩

end Stakes

namespace OrphanStakeExample

open Builders OrphanBlockExample

/-- A block with the one stake of the example. -/
def staked (name : ℕ) (hashPrevBlock : Uint256) : CBlock :=
  blockOf testNet name hashPrevBlock 900 (getCompact bnProofOfStakeLimit)
    [coinbase (name + 100) 900 2 [⟨0, []⟩], coinstake 60 900 [⟨7, 0⟩] COIN]

/-- The first one waits for the modest block, its duplicate for a block that never comes. -/
def first : CBlock := staked 20 1

def duplicate : CBlock := staked 21 50

/-- Because of this block the duplicate is let in. -/
def onDuplicate : CBlock :=
  blockOf testNet 22 21 1200 (easiestBits testNet) [coinbase 23 1200 3 [output 0]]

def arrives (s : BlockState) (block : CBlock) : BlockState :=
  handleBlockEvent testNet .strict s (.processBlock (arrival modest) block)

def held : BlockState := arrives (started modest) first

def heldBoth : BlockState := arrives (arrives held onDuplicate) duplicate

theorem run_arrives {Meets : BlockState → BlockEvent → Prop} {s : BlockState} {block : CBlock}
    (run : ProcessRun testNet .strict Meets s) (h : Meets s (.processBlock (arrival modest) block)) :
    ProcessRun testNet .strict Meets (arrives s block) := .event run h

end OrphanStakeExample

open OrphanBlockExample OrphanStakeExample in
theorem stakesExact_example : StakesExact testNet (arrives held modest).orphans := by
  have hnil : triedOrphans testNet .strict (started modest) (.processBlock (arrival modest) first) = [] := by
    decide
  have htried : triedOrphans testNet .strict held (.processBlock (arrival modest) modest) = [first] := by
    decide
  have hheld : held.orphans.mapOrphanBlocks.entries = [⟨first.getHash testNet, first⟩] := by decide
  have hrun : ProcessRun testNet .strict (SparesStakes testNet .strict) held := by
    refine run_arrives (.start rfl) fun orphan horphan ↦ ?_
    rw [hnil] at horphan
    cases horphan
  refine ((stakesExact_of_run hrun).2 _).mpr fun orphan _ block hstored _ hstays ↦ ?_
  -- nothing but the tried block was stored
  have hmem : (⟨block.getHash testNet, block⟩ : (_ : Uint256) × CBlock) ∈
      held.orphans.mapOrphanBlocks.entries := AList.mem_lookup_iff.mp hstored
  rw [hheld, List.mem_singleton] at hmem
  obtain rfl : block = first := congrArg (fun entry ↦ entry.2) hmem
  rw [htried] at hstays
  exact absurd (List.mem_singleton_self _) hstays

open OrphanBlockExample OrphanStakeExample in
theorem not_stakesExact_duplicate :
    ProcessRun testNet .strict (fun _ _ ↦ True) (arrives heldBoth modest) ∧
      Stored testNet (arrives heldBoth modest).orphans duplicate ∧ duplicate.isProofOfStake = true ∧
      duplicate.getProofOfStake ∉ (arrives heldBoth modest).orphans.setStakeSeenOrphan ∧
      ¬ StakesExact testNet (arrives heldBoth modest).orphans := by
  have hstored : (arrives heldBoth modest).orphans.mapOrphanBlocks.lookup (duplicate.getHash testNet) =
      some duplicate := by decide
  have hpos : duplicate.isProofOfStake = true := by decide
  have hlost : duplicate.getProofOfStake ∉ (arrives heldBoth modest).orphans.setStakeSeenOrphan := by
    decide
  have hrun : ProcessRun testNet .strict (fun _ _ ↦ True) (arrives heldBoth modest) :=
    run_arrives (run_arrives (run_arrives (run_arrives (.start rfl) trivial) trivial) trivial) trivial
  exact ⟨hrun, hstored, hpos, hlost, fun h ↦ hlost ((h _).mpr ⟨duplicate, hstored, hpos, rfl⟩)⟩

end Electra.Node
