import Electra.Node.NodeRun

/-!
# The tip in memory and in the database

After every event of a run the memory and the database name one tip, which is the last block that
was connected, as long as no postponed block fails.  One that fails is forgiven as an error that is
not fatal, yet the tip in memory becomes the last postponed block.

`FindBlockByHeight` starts at the genesis entry, at the tip or at the entry it returned last, whichever
it expects to be near, and follows `pprev` or `pnext`.  The entry it returned last is forgotten when
the tip changes, so that it always lies on the best chain.
-/

namespace Electra.Node

open Chain Ledger Foundations.Outcome Foundations.WriteBatch

section Consistency

variable (P : ChainParams) (disk : BlockFiles) (genesis : CBlockIndex)

/-- Memory and database name the tip of the branch that is connected, and following the links from
genesis leads to it through its ancestors. -/
structure TipConsistent (st : NodeState) (chain : Branch) : Prop where
  pindexBest : st.pindexBest = pindexOf genesis chain
  hashBestChain : st.hashBestChain = st.pindexBest.getBlockHash
  nBestHeight : st.nBestHeight = st.pindexBest.nHeight
  stored : st.txdb.readHashBestChain = some st.hashBestChain
  connected : IndexRun P disk genesis chain st.txdb.readTxIndex
  links : ∀ nSteps, st.pindexBest.length ≤ nSteps + 1 →
    followNext st.pnext nSteps st.pindexGenesisBlock = ancestors st.pindexBest

variable {P disk genesis} {st : NodeState} {chain : Branch}

theorem NodeInv.tipConsistent (h : NodeInv P disk genesis st chain) :
    TipConsistent P disk genesis st chain where
  pindexBest := h.atTip.pindexBest
  hashBestChain := by rw [h.atTip.hashBestChain, h.atTip.pindexBest]
  nBestHeight := by rw [h.atTip.nBestHeight, h.atTip.pindexBest]
  stored := by rw [h.onBranch.stored, h.atTip.hashBestChain]
  connected := h.onBranch.run
  links := by
    intro nSteps hsteps
    rw [h.atTip.pindexBest] at hsteps ⊢
    rw [h.indexed.started, h.onBranch.links]
    have hsuffix : [genesis] <:+ pindexOf genesis chain := List.suffix_append _ _
    exact followNext_linksTo (List.cons_ne_nil genesis []) hsuffix (by simpa using hsteps)

/-- If the database still names the new tip after a call, all postponed blocks connected. -/
theorem postponedConnect_of_stored (h : NodeInv P disk genesis st chain) {env : Env} {block : CBlock}
    {index : CBlockIndex} {below : Branch} (fits : CallFits P disk genesis env st block index below)
    (hstored : (setBestChain P env st block (index :: pindexOf genesis below)).2.txdb.readHashBestChain =
      some (setBestChain P env st block (index :: pindexOf genesis below)).2.hashBestChain) :
    PostponedConnect P env st block (index :: pindexOf genesis below) := by
  obtain ⟨-, ⟨-, -, hconnect⟩ | ⟨hmove, rest, done, hsplit, hbranch, hall⟩⟩ := moveBestChain_inv h fits
  · exact hconnect
  · rw [← hall]
    rw [setBestChain_eq, if_pos hmove] at hstored
    have hhash : (pindexOf genesis done).getBlockHash = index.phashBlock := by
      have hnamed := hbranch.stored.symm.trans hstored
      exact (Option.some.inj hnamed).trans fits.accepted.1.getHash
    have htip : index :: pindexOf genesis below = pindexOf genesis (rest ++ done) := by
      rw [← hsplit, pindexOf_cons]
    have hsuffix : pindexOf genesis done <:+ index :: pindexOf genesis below := by
      rw [htip, pindexOf, pindexOf, List.map_append, List.append_assoc]
      exact List.suffix_append _ _
    have hdone := h.indexed.ancestor fits.indexed hsuffix (pindexOf_ne_nil genesis done)
    rw [hhash, fits.indexed, htip] at hdone
    have hlength := congrArg List.length (Option.some.inj hdone)
    simp only [pindexOf, List.length_append, List.length_map] at hlength
    exact List.length_eq_zero_iff.mp (by omega)

/-- An event that leaves the tip consistent connects its postponed blocks. -/
theorem NodeInv.connectsPostponed_of_tipConsistent (h : NodeInv P disk genesis st chain)
    {event : NodeEvent} (hfits : Fits disk st event)
    (hconsistent : ∃ chain, TipConsistent P disk genesis (Chain.handleEvent P st event) chain) :
    ConnectsPostponed P st event := by
  obtain ⟨chain', hconsistent⟩ := hconsistent
  intro call hcall
  obtain ⟨hcallInv, index, below, hindex, fits⟩ := exists_callFits h hfits hcall
  have hstored := hconsistent.stored
  rw [handleEvent_of_call hcall, BestChainCall.result, hindex] at hstored
  rw [hindex]
  exact postponedConnect_of_stored hcallInv fits hstored

/-- As long as all calls of `SetBestChain` connect their postponed blocks the tip is consistent; the
next event leaves it so if and only if its call does. -/
theorem tipConsistent_of_nodeRun
    (h : NodeRun P disk genesis (ConnectsPostponed P) st) :
    (∃ chain, TipConsistent P disk genesis st chain) ∧ ∀ event, Fits disk st event →
      ((∃ chain, TipConsistent P disk genesis (handleEvent P st event) chain) ↔
        ConnectsPostponed P st event) := by
  obtain ⟨chain, hinv⟩ := h.inv
  refine ⟨⟨chain, hinv.tipConsistent⟩, fun event hfits ↦ ⟨?_, ?_⟩⟩
  · exact hinv.connectsPostponed_of_tipConsistent hfits
  · intro hconnect
    obtain ⟨chain', hinv'⟩ := hinv.handleEvent hfits hconnect
    exact ⟨chain', hinv'.tipConsistent⟩

end Consistency

namespace TipExample

open Builders

def testNet : ChainParams := network true

/-- The block at height 2 that leaves the subsidy alone. -/
def modest : CBlock := blockOf testNet 12 1 900 (easiestBits testNet) [coinbase 13 900 2 [output 0]]

/-- Its rival takes twice the subsidy. -/
def greedy : CBlock := blockOf testNet 22 1 900 (easiestBits testNet)
  [coinbase 23 900 2 [output (2000000038 * COIN)]]

def disk : BlockFiles :=
  filesOf (quietFiles testNet 2 ++ [(3, 8, modest), (4, 8, greedy)])

def genesis : CBlockIndex :=
  newBlockIndex testNet (quietBlock testNet 0) 1 8 0 (0, false)

def envAt (nFile : ℕ) : Env := { surroundings disk 1000 with written := some (nFile, 8) }

def started : NodeState := (startNode testNet (envAt 1) [] (quietBlock testNet 0) 1 8).2

/-- The first block enters the index, but the commit that makes it the tip fails. -/
def lost : NodeEvent := .acceptBlock { envAt 2 with fCommitted := fun _ ↦ false } (quietBlock testNet 1)

def onModest : NodeEvent := .acceptBlock (envAt 3) modest

def onGreedy : NodeEvent := .acceptBlock (envAt 4) greedy

theorem run_started (Meets : NodeState → NodeEvent → Prop) : NodeRun testNet disk genesis Meets started :=
  .start (show startNode testNet (envAt 1) [] (quietBlock testNet 0) 1 8 = (true, started) from
    Prod.ext (by decide) rfl) (by decide)

variable {st : NodeState}

theorem run_lost {Meets : NodeState → NodeEvent → Prop}
    (h : Meets started lost) :
    NodeRun testNet disk genesis Meets (handleEvent testNet started lost) :=
  .event (run_started Meets) (fits_of_writtenAt rfl rfl (by decide)) h

theorem fits_onModest : Fits disk st onModest := fits_of_writtenAt rfl rfl (by decide)

theorem fits_onGreedy : Fits disk st onGreedy := fits_of_writtenAt rfl rfl (by decide)

end TipExample

open TipExample in
theorem tipConsistent_example :
    ∃ chain, TipConsistent testNet disk genesis
      (handleEvent testNet (handleEvent testNet started lost) onModest) chain :=
  ((tipConsistent_of_nodeRun (run_lost (by decide))).2 onModest fits_onModest).mpr
    (by decide)

open TipExample in
theorem not_tipConsistent_greedy :
    NodeRun testNet disk genesis (fun _ _ ↦ True)
        (handleEvent testNet (handleEvent testNet started lost) onGreedy) ∧
      (handleEvent testNet (handleEvent testNet started lost) onGreedy).hashBestChain = 22 ∧
      (handleEvent testNet (handleEvent testNet started lost) onGreedy).txdb.readHashBestChain =
        some 1 ∧
      ¬ ∃ chain, TipConsistent testNet disk genesis
        (handleEvent testNet (handleEvent testNet started lost) onGreedy) chain := by
  have hhash : (handleEvent testNet (handleEvent testNet started lost) onGreedy).hashBestChain = 22 := by
    decide
  have hstored : (handleEvent testNet (handleEvent testNet started lost)
      onGreedy).txdb.readHashBestChain = some 1 := by decide
  refine ⟨.event (run_lost trivial) fits_onGreedy trivial, hhash, hstored, ?_⟩
  rintro ⟨chain, hconsistent⟩
  have hsame := hconsistent.stored
  rw [hhash, hstored] at hsame
  exact absurd hsame (by decide)

/-- The entries that are in the main chain when the links are those of the tip. -/
theorem isInMainChain_iff {st : NodeState} (hlinks : st.pnext = linksTo st.pindexBest)
    {pindex : PIndex} (hne : pindex ≠ []) :
    isInMainChain st pindex = true ↔ pindex <:+ st.pindexBest := by
  rw [isInMainChain, Bool.or_eq_true, beq_iff_eq, hlinks]
  constructor
  · rintro (hnext | rfl)
    · obtain ⟨next, hnext⟩ := Option.isSome_iff_exists.mp hnext
      obtain ⟨hsuffix, rfl, -⟩ := linksTo_eq_some_iff.mp hnext
      exact (List.tail_suffix next).trans hsuffix
    · exact List.suffix_refl _
  · rintro ⟨above, habove⟩
    rcases List.eq_nil_or_concat above with rfl | ⟨rest, index, rfl⟩
    · exact .inr habove
    · left
      rw [List.concat_eq_append, List.append_assoc, List.singleton_append] at habove
      have hnext : linksTo st.pindexBest pindex = some (index :: pindex) :=
        linksTo_eq_some_iff.mpr ⟨⟨rest, habove⟩, rfl, hne⟩
      rw [hnext]
      rfl

/-- `while (pblockindex->nHeight < nHeight) pblockindex = pblockindex->pnext`, with the number of
steps as fuel; `none` when a link is missing. -/
def raiseTo (pnext : PIndex → Option PIndex) (nHeight : ℤ) : ℕ → PIndex → Option PIndex
  | 0, pblockindex => if pblockindex.nHeight < nHeight then none else some pblockindex
  | nSteps + 1, pblockindex =>
      if pblockindex.nHeight < nHeight then
        match pnext pblockindex with
        | none => none
        | some next => raiseTo pnext nHeight nSteps next
      else some pblockindex

/-- The entry where the search starts. -/
def searchStart (st : NodeState) (pblockindexFBBHLast : Option PIndex) (nHeight : ℤ) : PIndex :=
  let pblockindex := if nHeight < st.nBestHeight.tdiv 2 then st.pindexGenesisBlock else st.pindexBest
  match pblockindexFBBHLast with
  | none => pblockindex
  | some last => if |nHeight - pblockindex.nHeight| > |nHeight - last.nHeight| then last else pblockindex

/-- `FindBlockByHeight`; a null pointer on the way is `none`. -/
def findBlockByHeight (st : NodeState) (pblockindexFBBHLast : Option PIndex) (nHeight : ℤ) :
    Option PIndex :=
  match lowerTo nHeight (searchStart st pblockindexFBBHLast nHeight) with
  | [] => none
  | index :: pprev => raiseTo st.pnext nHeight nHeight.toNat (index :: pprev)

variable {nHeight : ℤ} {chain : Branch}

/-- Along the links every height up to that of the tip is reached. -/
theorem raiseTo_linksTo {tip pindex : PIndex} (h : pindex <:+ tip) (hne : pindex ≠ [])
    (htip : nHeight ≤ tip.nHeight) {nSteps : ℕ} (hsteps : nHeight ≤ pindex.nHeight + nSteps) :
    ∃ found, raiseTo (linksTo tip) nHeight nSteps pindex = some found ∧ found <:+ tip ∧
      pindex <:+ found ∧ found.nHeight = max nHeight pindex.nHeight := by
  induction nSteps generalizing pindex with
  | zero =>
    have hle : ¬ pindex.nHeight < nHeight := by
      rw [Nat.cast_zero, add_zero] at hsteps
      exact not_lt.mpr hsteps
    rw [raiseTo, if_neg hle]
    exact ⟨pindex, rfl, h, List.suffix_refl _, by omega⟩
  | succ nSteps ih =>
    rw [raiseTo]
    split
    · next hlow =>
      obtain ⟨above, habove⟩ := h
      rcases List.eq_nil_or_concat above with rfl | ⟨rest, index, rfl⟩
      · rw [List.nil_append] at habove
        rw [habove] at hlow
        omega
      · rw [List.concat_eq_append, List.append_assoc, List.singleton_append] at habove
        have hsuffix : index :: pindex <:+ tip := ⟨rest, habove⟩
        have hnext : linksTo tip pindex = some (index :: pindex) :=
          linksTo_eq_some_iff.mpr ⟨hsuffix, rfl, hne⟩
        have hheight : PIndex.nHeight (index :: pindex) = pindex.nHeight + 1 := by
          simp only [PIndex.nHeight, List.length_cons, Nat.cast_add, Nat.cast_one]
          omega
        have hsteps' : nHeight ≤ PIndex.nHeight (index :: pindex) + nSteps := by
          push_cast at hsteps
          omega
        obtain ⟨found, hfound, htipFound, hbelow, heq⟩ := ih hsuffix (List.cons_ne_nil _ _) hsteps'
        rw [hnext]
        refine ⟨found, hfound, htipFound, (List.suffix_cons index pindex).trans hbelow, ?_⟩
        omega
    · next hle => exact ⟨pindex, rfl, h, List.suffix_refl _, by omega⟩

/-- From any entry of the best chain the search ends at the entry of the given height. -/
theorem search_linksTo {tip start : PIndex} (h : start <:+ tip) (hne : start ≠ [])
    (hnonneg : 0 ≤ nHeight) (htip : nHeight ≤ tip.nHeight) :
    ∃ index pprev, lowerTo nHeight start = index :: pprev ∧
      ∃ found, raiseTo (linksTo tip) nHeight nHeight.toNat (index :: pprev) = some found ∧
        found <:+ tip ∧ found.nHeight = nHeight := by
  obtain ⟨genesis, hgenesis⟩ : ∃ genesis, [genesis] <:+ start :=
    ⟨start.getLast hne, start.dropLast, List.dropLast_append_getLast hne⟩
  have hlow := suffix_lowerTo hnonneg hgenesis
  have hsuffix := (lowerTo_suffix nHeight start).trans h
  rcases length_lowerTo_le nHeight start with hnil | hle
  · rw [hnil] at hlow
    simp at hlow
  · cases hlowered : lowerTo nHeight start with
    | nil =>
      rw [hlowered] at hlow
      simp at hlow
    | cons index pprev =>
      rw [hlowered] at hsuffix hle
      have hheight : 0 ≤ PIndex.nHeight (index :: pprev) := by
        simp [PIndex.nHeight]
      obtain ⟨found, hfound, htipFound, -, heq⟩ :=
        raiseTo_linksTo hsuffix (List.cons_ne_nil _ _) htip (by omega : nHeight ≤ _ + (nHeight.toNat : ℤ))
      exact ⟨index, pprev, rfl, found, hfound, htipFound, by omega⟩

/-- `hashBestChain`, `pindexBest` and the links from genesis name one tip. -/
structure MemoryConsistent (st : NodeState) : Prop where
  hashBestChain : st.hashBestChain = st.pindexBest.getBlockHash
  links : ∀ nSteps, st.pindexBest.length ≤ nSteps + 1 →
    followNext st.pnext nSteps st.pindexGenesisBlock = ancestors st.pindexBest

theorem TipConsistent.memoryConsistent {P : ChainParams} {disk : BlockFiles} {genesis : CBlockIndex}
    {st : NodeState} (h : TipConsistent P disk genesis st chain) :
    MemoryConsistent st := ⟨h.hashBestChain, h.links⟩

section Run

variable (P : ChainParams) (disk : BlockFiles) (genesis : CBlockIndex)

/-- The pointer that an event leaves: `SetBestChain` forgets it when it succeeds. -/
def lastAfter (st : NodeState) (event : NodeEvent) (pblockindexFBBHLast : Option PIndex) :
    Option PIndex :=
  match bestChainCall P st event with
  | none => pblockindexFBBHLast
  | some call =>
      if (setBestChain P call.env call.st call.block call.pindexNew).1 then none
      else pblockindexFBBHLast

/-- Runs of a node in which blocks are looked up between the events, each of which ends with a
consistent tip. -/
inductive LookupRun : NodeState → Option PIndex → Prop
  | start {env : Env} {setpwalletRegistered : List CWallet} {block : CBlock} {nFile nBlockPos : ℕ}
      {st : NodeState}
      (run : startNode P env setpwalletRegistered block nFile nBlockPos = (true, st))
      (started : st.pindexGenesisBlock = [genesis]) : LookupRun st none
  | event {st : NodeState} {last : Option PIndex} {event : NodeEvent} (run : LookupRun st last)
      (fits : Fits disk st event)
      (consistent : MemoryConsistent (handleEvent P st event)) :
      LookupRun (handleEvent P st event) (lastAfter P st event last)
  | lookup {st : NodeState} {last : Option PIndex} {nHeight : ℤ} (run : LookupRun st last)
      (nonneg : 0 ≤ nHeight) (le : nHeight ≤ st.nBestHeight) :
      LookupRun st (findBlockByHeight st last nHeight)

variable {P disk genesis} {st : NodeState} {last : Option PIndex}

/-- If the links still lead to the new tip after a call, all postponed blocks connected. -/
theorem postponedConnect_of_links (h : NodeInv P disk genesis st chain) {env : Env} {block : CBlock}
    {index : CBlockIndex} {below : Branch} (fits : CallFits P disk genesis env st block index below)
    (hlinks : MemoryConsistent (setBestChain P env st block (index :: pindexOf genesis below)).2) :
    PostponedConnect P env st block (index :: pindexOf genesis below) := by
  obtain ⟨hsame, ⟨-, -, hconnect⟩ | ⟨hmove, rest, done, hsplit, hbranch, hall⟩⟩ :=
    moveBestChain_inv h fits
  · exact hconnect
  · rw [← hall]
    have hfollow := hlinks.links (index :: pindexOf genesis below).length
    rw [setBestChain_eq, if_pos hmove] at hfollow
    have htip : index :: pindexOf genesis below = pindexOf genesis (rest ++ done) := by
      rw [← hsplit, pindexOf_cons]
    have hlength : (pindexOf genesis done).length + rest.length =
        (index :: pindexOf genesis below).length := by
      rw [htip]
      simp only [pindexOf, List.length_append, List.length_map, List.length_singleton]
      omega
    have hdone := followNext_linksTo (List.cons_ne_nil genesis []) (genesis_suffix_pindexOf genesis done)
      (by rw [List.length_singleton]; omega :
        (pindexOf genesis done).length ≤ (index :: pindexOf genesis below).length + [genesis].length)
    have hall : followNext (linksTo (pindexOf genesis done)) (index :: pindexOf genesis below).length
        [genesis] = ancestors (index :: pindexOf genesis below) := by
      rw [← hbranch.links, ← h.indexed.started, ← hsame.pindexGenesisBlock]
      exact hfollow (Nat.le_succ _)
    have hsameLength : (ancestors (pindexOf genesis done)).length =
        (ancestors (index :: pindexOf genesis below)).length := by
      rw [← hdone, ← hall]
      rfl
    rw [length_ancestors, length_ancestors] at hsameLength
    exact List.length_eq_zero_iff.mp (by omega)

/-- An event that leaves the memory consistent connects its postponed blocks. -/
theorem NodeInv.connectsPostponed_of_links (h : NodeInv P disk genesis st chain) {event : NodeEvent}
    (hfits : Fits disk st event) (hconsistent : MemoryConsistent (Chain.handleEvent P st event)) :
    ConnectsPostponed P st event := by
  intro call hcall
  obtain ⟨hcallInv, index, below, hindex, fits⟩ := exists_callFits h hfits hcall
  rw [handleEvent_of_call hcall, BestChainCall.result, hindex] at hconsistent
  rw [hindex]
  exact postponedConnect_of_links hcallInv fits hconsistent

/-- The pointer lies on the best chain. -/
def OnBestChain (st : NodeState) (last : Option PIndex) : Prop :=
  ∀ pindex ∈ last, pindex ≠ [] ∧ pindex <:+ st.pindexBest

/-- With a pointer on the best chain the search returns the entry of that height. -/
theorem NodeInv.findBlockByHeight (h : NodeInv P disk genesis st chain) (hlast : OnBestChain st last)
    (hnonneg : 0 ≤ nHeight) (hle : nHeight ≤ st.nBestHeight) :
    ∃ pindex, Node.findBlockByHeight st last nHeight = some pindex ∧ pindex <:+ st.pindexBest ∧
      pindex.nHeight = nHeight := by
  have hlinks : st.pnext = linksTo st.pindexBest := by
    rw [h.onBranch.links, h.atTip.pindexBest]
  have htip : nHeight ≤ st.pindexBest.nHeight := by
    rw [h.atTip.nBestHeight] at hle
    rw [h.atTip.pindexBest]
    exact hle
  have hgenesis : [genesis] <:+ st.pindexBest := by
    rw [h.atTip.pindexBest]
    exact genesis_suffix_pindexOf genesis chain
  have hends : ∀ pblockindex : PIndex,
      pblockindex = st.pindexGenesisBlock ∨ pblockindex = st.pindexBest →
        pblockindex ≠ [] ∧ pblockindex <:+ st.pindexBest := by
    rintro pblockindex (rfl | rfl)
    · rw [h.indexed.started]
      exact ⟨List.cons_ne_nil _ _, hgenesis⟩
    · refine ⟨?_, List.suffix_refl _⟩
      rw [h.atTip.pindexBest]
      exact pindexOf_ne_nil genesis chain
  have hstart : searchStart st last nHeight ≠ [] ∧ searchStart st last nHeight <:+ st.pindexBest := by
    unfold searchStart
    generalize hfirst : (if nHeight < st.nBestHeight.tdiv 2 then st.pindexGenesisBlock
      else st.pindexBest) = first
    have hfirstEnds : first ≠ [] ∧ first <:+ st.pindexBest := by
      apply hends
      rw [← hfirst]
      split
      · exact .inl rfl
      · exact .inr rfl
    cases last with
    | none => exact hfirstEnds
    | some pindex =>
      dsimp only
      split
      · exact hlast pindex rfl
      · exact hfirstEnds
  obtain ⟨index, pprev, hlowered, found, hfound, hsuffix, hheight⟩ :=
    search_linksTo hstart.2 hstart.1 hnonneg htip
  refine ⟨found, ?_, hsuffix, hheight⟩
  rw [Node.findBlockByHeight, hlowered, hlinks]
  exact hfound

/-- A call that fails leaves the tip; one that succeeds forgets the pointer. -/
theorem NodeInv.onBestChain_lastAfter (h : NodeInv P disk genesis st chain) {event : NodeEvent}
    (hfits : Fits disk st event) (hconnect : ConnectsPostponed P st event) (hlast : OnBestChain st last) :
    OnBestChain (Chain.handleEvent P st event) (lastAfter P st event last) := by
  cases hcall : bestChainCall P st event with
  | none =>
    have hinv := h.handleEvent_of_noCall hfits hcall
    rw [lastAfter, hcall]
    intro pindex hpindex
    rw [hinv.atTip.pindexBest, ← h.atTip.pindexBest]
    exact hlast pindex hpindex
  | some call =>
    rw [lastAfter, hcall]
    dsimp only
    split
    · intro pindex hpindex
      cases hpindex
    · next hfail =>
      have hpostponed := hconnect call hcall
      obtain ⟨hinv, index, below, hindex, fits⟩ := exists_callFits h hfits hcall
      rw [hindex] at hpostponed hfail
      have hmove : ¬ (moveBestChain P call.env call.st call.block
          (index :: pindexOf genesis below)).1 = true := by
        rw [setBestChain_eq] at hfail
        exact hfail
      have hnext := hinv.setBestChain fits hpostponed
      rw [if_neg hmove] at hnext
      intro pindex hpindex
      rw [handleEvent_of_call hcall, BestChainCall.result, hindex, hnext.atTip.pindexBest,
        ← h.atTip.pindexBest]
      exact hlast pindex hpindex

/-- A run keeps the invariant of the node and the pointer on the best chain. -/
theorem LookupRun.inv (h : LookupRun P disk genesis st last) :
    (∃ chain, NodeInv P disk genesis st chain) ∧ OnBestChain st last := by
  induction h with
  | start run started =>
    refine ⟨⟨[], nodeInv_start run started⟩, fun pindex hpindex ↦ ?_⟩
    cases hpindex
  | event run fits consistent ih =>
    obtain ⟨⟨chain, hinv⟩, hlast⟩ := ih
    have hconnect := hinv.connectsPostponed_of_links fits consistent
    exact ⟨hinv.handleEvent fits hconnect, hinv.onBestChain_lastAfter fits hconnect hlast⟩
  | lookup run nonneg le ih =>
    obtain ⟨⟨chain, hinv⟩, hlast⟩ := ih
    refine ⟨⟨chain, hinv⟩, ?_⟩
    obtain ⟨pindex, hfound, hsuffix, hheight⟩ := hinv.findBlockByHeight hlast nonneg le
    intro found hmem
    obtain rfl : pindex = found := Option.some.inj (hfound.symm.trans hmem)
    refine ⟨?_, hsuffix⟩
    rintro rfl
    simp only [PIndex.nHeight, List.length_nil, Nat.cast_zero] at hheight
    omega

/-- In every reachable state a lookup returns the block of the main chain at its height. -/
theorem findBlockByHeight_of_lookupRun (h : LookupRun P disk genesis st last) {nHeight : ℤ}
    (hnonneg : 0 ≤ nHeight) (hle : nHeight ≤ st.nBestHeight) :
    ∃ pindex, findBlockByHeight st last nHeight = some pindex ∧ pindex.nHeight = nHeight ∧
      isInMainChain st pindex = true ∧ pindex <:+ st.pindexBest := by
  obtain ⟨⟨chain, hinv⟩, hlast⟩ := h.inv
  obtain ⟨pindex, hfound, hsuffix, hheight⟩ := hinv.findBlockByHeight hlast hnonneg hle
  have hne : pindex ≠ [] := by
    rintro rfl
    simp only [PIndex.nHeight, List.length_nil, Nat.cast_zero] at hheight
    omega
  have hlinks : st.pnext = linksTo st.pindexBest := by
    rw [hinv.onBranch.links, hinv.atTip.pindexBest]
  exact ⟨pindex, hfound, hheight, (isInMainChain_iff hlinks hne).mpr hsuffix, hsuffix⟩

end Run

open Builders TipExample in
/-- A lookup before a reorganisation and one after it. -/
theorem findBlockByHeight_reorganized :
    ∃ last pindex, LookupRun testNet disk genesis
        (handleEvent testNet (handleEvent testNet started lost) onModest) last ∧
      findBlockByHeight (handleEvent testNet (handleEvent testNet started lost) onModest) last 1 =
        some pindex ∧ pindex.nHeight = 1 ∧
      isInMainChain (handleEvent testNet (handleEvent testNet started lost) onModest) pindex = true ∧
      pindex <:+ (handleEvent testNet (handleEvent testNet started lost) onModest).pindexBest := by
  have hlost : NodeRun testNet disk genesis (ConnectsPostponed testNet)
      (handleEvent testNet started lost) := run_lost (by decide)
  have hmodest : NodeRun testNet disk genesis (ConnectsPostponed testNet)
      (handleEvent testNet (handleEvent testNet started lost) onModest) :=
    .event hlost fits_onModest (by decide)
  have hstarted : LookupRun testNet disk genesis started none :=
    .start (show startNode testNet (envAt 1) [] (quietBlock testNet 0) 1 8 = (true, started) from
      Prod.ext (by decide) rfl) (by decide)
  have hlostFits : Fits disk started lost :=
    fits_of_writtenAt rfl rfl (by decide)
  obtain ⟨lostChain, hlostInv⟩ := hlost.inv
  obtain ⟨modestChain, hmodestInv⟩ := hmodest.inv
  have hlookup := (hstarted.event hlostFits hlostInv.tipConsistent.memoryConsistent).lookup
    (le_refl 0) (by decide)
  have hrun := hlookup.event fits_onModest hmodestInv.tipConsistent.memoryConsistent
  obtain ⟨pindex, hfound⟩ :=
    findBlockByHeight_of_lookupRun hrun (zero_le_one : (0 : ℤ) ≤ 1) (by decide)
  exact ⟨_, pindex, hrun, hfound⟩

end Electra.Node
