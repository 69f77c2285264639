import Electra.Foundations.SharedDraft
import Electra.Node.BlockTemplate
import Electra.Node.GetWork

/-!
# Handed-out work comes back

A submission under a root that is still noted rebuilds the block that was last handed out with this root,
and a request works on a live block of the tip.  `getworkex` does so as long as no new block fails after
the tip has changed, and as long as the coinbases that come with its works are the ones it handed out.
-/

namespace Electra.Node

open Chain Net Script Text Wallet Foundations Foundations.Outcome Foundations.ReadyQueue Relation

namespace CBlock

/-- The part of a block that its works share, up to the script of the coinbase. -/
def draft (block : CBlock) : CBlock := { block with nTime := 0, nNonce := 0, hashMerkleRoot := 0 }

theorem setCoinbaseScript_setCoinbaseScript (block : CBlock) (scriptSig scriptSig' : CScript) :
    setCoinbaseScript (setCoinbaseScript block scriptSig) scriptSig' = setCoinbaseScript block scriptSig' := by
  unfold setCoinbaseScript
  simp only [List.modify_modify_eq, Function.comp_def, setScriptSig_setScriptSig]

theorem vtx_of_draft_eq {block block' : CBlock} (h : draft block = draft block') :
    block.vtx = block'.vtx := by
  show (draft block).vtx = (draft block').vtx
  rw [h]

theorem eq_of_draft_eq {block block' : CBlock} (h : draft block = draft block') (nTime nNonce : ℕ)
    (root : Uint256) :
    { block with nTime := nTime, nNonce := nNonce, hashMerkleRoot := root } =
      ({ block' with nTime := nTime, nNonce := nNonce, hashMerkleRoot := root } : CBlock) := by
  show ({ draft block with nTime := nTime, nNonce := nNonce, hashMerkleRoot := root } : CBlock) =
    { draft block' with nTime := nTime, nNonce := nNonce, hashMerkleRoot := root }
  rw [h]

theorem hasCoinbaseInput_eq_true {block : CBlock} (h : hasCoinbaseInput block = true) :
    ∃ tx vtx txin vin, block.vtx = tx :: vtx ∧ tx.vin = txin :: vin := by
  unfold hasCoinbaseInput at h
  cases hvtx : block.vtx with
  | nil => simp [hvtx] at h
  | cons tx vtx =>
    cases hvin : tx.vin with
    | nil => simp [hvtx, hvin] at h
    | cons txin vin => exact ⟨tx, vtx, txin, vin, rfl, hvin⟩

theorem hasCoinbaseInput_setCoinbaseScript {block : CBlock} (h : hasCoinbaseInput block = true)
    (scriptSig : CScript) : hasCoinbaseInput (setCoinbaseScript block scriptSig) = true := by
  obtain ⟨tx, vtx, txin, vin, hvtx, hvin⟩ := hasCoinbaseInput_eq_true h
  simp [hasCoinbaseInput, setCoinbaseScript, setScriptSig, hvtx, hvin]

theorem coinbaseScriptSig_setCoinbaseScript {block : CBlock} (h : hasCoinbaseInput block = true)
    (scriptSig : CScript) : coinbaseScriptSig (setCoinbaseScript block scriptSig) = scriptSig := by
  obtain ⟨tx, vtx, txin, vin, hvtx, hvin⟩ := hasCoinbaseInput_eq_true h
  simp [coinbaseScriptSig, setCoinbaseScript, setScriptSig, CTransaction.scriptSig0, hvtx, hvin]

end CBlock

theorem length_coinbaseScript_le (pindexPrev : PIndex) {nExtraNonce : ℕ} (h : nExtraNonce < 2 ^ 32) :
    (coinbaseScript pindexPrev nExtraNonce).length ≤ 100 := by
  have hheight : 0 ≤ (pindexPrev.nHeight + 1) % 2 ^ 32 ∧ (pindexPrev.nHeight + 1) % 2 ^ 32 < 2 ^ 32 := by
    omega
  have hnonce : (getvch nExtraNonce).length ≤ 4 + 1 := length_getvch_le (by simpa using h)
  have hpushed : (getvch ((pindexPrev.nHeight + 1) % 2 ^ 32)).length ≤ 4 + 1 :=
    length_getvch_le (by omega)
  unfold coinbaseScript pushInt64 pushBytes COINBASE_FLAGS
  simp only [if_pos (show (getvch (nExtraNonce : ℤ)).length < 0x4c by omega),
    if_pos (show (getvch ((pindexPrev.nHeight + 1) % 2 ^ 32)).length < 0x4c by omega)]
  split_ifs <;> simp only [List.length_append, List.length_cons, List.length_nil] <;> omega

variable {P : ChainParams} {D : Type} [Double D] {env : WorkEnv D} {w : WorkStatics} {p : ℕ}
  {block : CBlock}

theorem incrementExtraNonce_eq (hashPrevBlock : Uint256) (pindexPrev : PIndex) (nExtraNonce : ℕ)
    (h : hasCoinbaseInput block = true) :
    ∃ nExtraNonce' scriptSig, incrementExtraNonce P hashPrevBlock block pindexPrev nExtraNonce =
      .ok (block.hashPrevBlock, nExtraNonce', CBlock.rebuildRoot P (CBlock.setCoinbaseScript block scriptSig)) := by
  let nExtraNonce' := ((if hashPrevBlock ≠ block.hashPrevBlock then 0 else nExtraNonce) + 1) % 2 ^ 32
  have hlength : ¬ (coinbaseScript pindexPrev nExtraNonce').length > 100 :=
    not_lt.mpr (length_coinbaseScript_le pindexPrev (Nat.mod_lt _ (Nat.two_pow_pos 32)))
  refine ⟨nExtraNonce', coinbaseScript pindexPrev nExtraNonce', ?_⟩
  show (rejectIf (hasCoinbaseInput block = false) _ >>= fun _ ↦
    rejectIf ((coinbaseScript pindexPrev nExtraNonce').length > 100) _ >>= fun _ ↦ pure _) = _
  rw [rejectIf, if_neg (by rw [h]; exact Bool.noConfusion), rejectIf, if_neg hlength]
  rfl

namespace WorkStatics

open SharedDraft

/-- The block that a pointer leads to. -/
def block? (w : WorkStatics) (p : ℕ) : Option CBlock := w.memory[p]?.join

theorem deref_eq_ok (h : w.block? p = some block) : w.deref (some p) = .ok (p, block) := by
  have hcell : w.memory[p]? = some (some block) := Option.join_eq_some_iff.mp h
  simp only [deref, hcell]

theorem lt_length_of_block? (h : w.block? p = some block) : p < w.memory.length := by
  by_contra hnot
  rw [block?, List.getElem?_eq_none (not_lt.mp hnot)] at h
  cases h

theorem block?_length (w : WorkStatics) : w.block? w.memory.length = none := by
  rw [block?, List.getElem?_eq_none le_rfl]
  rfl

theorem block?_write (hp : p < w.memory.length) :
    (w.write p block).block? = Function.update w.block? p (some block) := by
  funext q
  unfold block? write
  by_cases hq : q = p
  · rw [hq, Function.update_self, List.getElem?_set_self hp]
    rfl
  · rw [Function.update_of_ne hq, List.getElem?_set_ne (Ne.symm hq)]

theorem block?_push (w : WorkStatics) (block : CBlock) :
    (w.push block).block? = Function.update w.block? w.memory.length (some block) := by
  funext q
  by_cases hq : q = w.memory.length
  · rw [hq, Function.update_self, block?, push, List.getElem?_concat_length]
    rfl
  · rw [Function.update_of_ne hq, block?, block?, push]
    rcases Nat.lt_or_ge q w.memory.length with hlt | hge
    · rw [List.getElem?_append_left hlt]
    · rw [List.getElem?_eq_none (by simp; omega), List.getElem?_eq_none hge]

/-- Deleting leaves the other blocks. -/
theorem block?_dropOld (w : WorkStatics) (pindexBest : PIndex) (h : (w.dropOld pindexBest).block? p = some block) :
    w.block? p = some block := by
  unfold dropOld at h
  split_ifs at h with htip
  · exact h
  · unfold block? at h ⊢
    simp only at h
    generalize w.memory = memory at h ⊢
    generalize w.vNewBlock = vNewBlock at h
    induction vNewBlock generalizing memory with
    | nil => exact h
    | cons q vNewBlock ih =>
      have hset := ih _ h
      rw [List.getElem?_set] at hset
      split_ifs at hset <;> simp_all

/-- What the works of a call share, as drafts that are issued with varying scripts. -/
def desk (w : WorkStatics) (issued : Uint256 → Option CBlock) : Desk Uint256 CScript CBlock where
  cells p := (w.block? p).map CBlock.draft
  notes := w.mapNewBlock
  issued root := (issued root).map CBlock.draft

theorem desk_write (hp : p < w.memory.length) (issued : Uint256 → Option CBlock) :
    (w.write p block).desk issued = (w.desk issued).put p (CBlock.draft block) := by
  unfold desk Desk.put
  rw [block?_write hp]
  congr 1
  funext q
  by_cases hq : q = p
  · rw [hq, Function.update_self, Function.update_self, Option.map_some]
  · rw [Function.update_of_ne hq, Function.update_of_ne hq]

theorem desk_push (w : WorkStatics) (issued : Uint256 → Option CBlock) (block : CBlock) :
    (w.push block).desk issued = (w.desk issued).put w.memory.length (CBlock.draft block) := by
  unfold desk Desk.put
  rw [block?_push]
  congr 1
  funext q
  by_cases hq : q = w.memory.length
  · rw [hq, Function.update_self, Function.update_self, Option.map_some]
  · rw [Function.update_of_ne hq, Function.update_of_ne hq]

end WorkStatics

/-- Set the script of a draft. -/
def setScript (scriptSig : CScript) (block : CBlock) : CBlock := CBlock.setCoinbaseScript block scriptSig

theorem setScript_setScript (scriptSig scriptSig' : CScript) (block : CBlock) :
    setScript scriptSig (setScript scriptSig' block) = setScript scriptSig block :=
  CBlock.setCoinbaseScript_setCoinbaseScript block scriptSig' scriptSig

/-- The noted works of a call are the ones that were last handed out under their roots. -/
structure WorksKept (P : ChainParams) (w : WorkStatics) (issued : Uint256 → Option CBlock) : Prop where
  drafts : SharedDraft.Inv setScript (w.desk issued)
  coinbase : ∀ p block, w.block? p = some block → hasCoinbaseInput block = true
  roots : ∀ root block, issued root = some block → block.hashMerkleRoot = root ∧ buildMerkleTree P block = root

/-- There is a live block for the remembered tip. -/
def OnTip (w : WorkStatics) : Prop :=
  w.pindexPrev ≠ [] → ∃ p block, w.pblock = some p ∧ w.block? p = some block ∧
    block.hashPrevBlock = w.pindexPrev.getBlockHash

section Step

open SharedDraft

variable {issued : Uint256 → Option CBlock} {node : NodeState} {call : WorkCall} {s : WorkNode}

theorem WorksKept.dropOld (h : WorksKept P w issued) (pindexBest : PIndex) :
    WorksKept P (w.dropOld pindexBest) issued where
  drafts := by
    by_cases htip : w.pindexPrev = pindexBest
    · rw [WorkStatics.dropOld, if_pos htip]
      exact h.drafts
    · have hcleared : (w.dropOld pindexBest).desk issued =
          (w.desk issued).clear ((w.dropOld pindexBest).desk issued).cells := by
        unfold WorkStatics.dropOld
        rw [if_neg htip]
        rfl
      rw [hcleared]
      exact h.drafts.step setScript_setScript .clear
  coinbase p block hblock := h.coinbase p block (w.block?_dropOld pindexBest hblock)
  roots := h.roots

theorem WorksKept.push (h : WorksKept P w issued) (hblock : hasCoinbaseInput block = true) :
    WorksKept P (w.push block) issued where
  drafts := by
    rw [WorkStatics.desk_push]
    have hnone : (w.desk issued).cells w.memory.length = none := by
      show (w.block? w.memory.length).map CBlock.draft = none
      rw [w.block?_length, Option.map_none]
    exact h.drafts.step setScript_setScript (.add hnone)
  coinbase p found hfound := by
    rw [WorkStatics.block?_push] at hfound
    by_cases hp : p = w.memory.length
    · rw [hp, Function.update_self] at hfound
      rwa [← Option.some.inj hfound]
    · exact h.coinbase p found (by rwa [Function.update_of_ne hp] at hfound)
  roots := h.roots

variable {scriptSig : CScript}

/-- A block gets another script, and any header. -/
theorem WorksKept.vary (h : WorksKept P w issued) (hp : w.block? p = some block) {block' : CBlock}
    (hdraft : CBlock.draft block' = CBlock.draft (CBlock.setCoinbaseScript block scriptSig)) :
    WorksKept P (w.write p block') issued where
  drafts := by
    rw [WorkStatics.desk_write (w.lt_length_of_block? hp), hdraft]
    have hcell : (w.desk issued).cells p = some (CBlock.draft block) := by
      show (w.block? p).map CBlock.draft = _
      rw [hp, Option.map_some]
    exact h.drafts.step setScript_setScript (.vary hcell)
  coinbase q found hfound := by
    rw [WorkStatics.block?_write (w.lt_length_of_block? hp)] at hfound
    by_cases hq : q = p
    · rw [hq, Function.update_self] at hfound
      have hinput := CBlock.hasCoinbaseInput_setCoinbaseScript (h.coinbase p block hp) scriptSig
      rw [← Option.some.inj hfound, hasCoinbaseInput, CBlock.vtx_of_draft_eq hdraft]
      exact hinput
    · exact h.coinbase q found (by rwa [Function.update_of_ne hq] at hfound)
  roots := h.roots

/-- A block is handed out, and its script noted. -/
theorem WorksKept.issue (h : WorksKept P w issued) (hp : w.block? p = some block)
    (hset : CBlock.setCoinbaseScript block (CBlock.coinbaseScriptSig block) = block)
    (hroot : block.hashMerkleRoot = buildMerkleTree P block) (nExtraNonce : ℕ) :
    WorksKept P { w with
      nExtraNonce := nExtraNonce
      mapNewBlock := Function.update w.mapNewBlock block.hashMerkleRoot
        (some (p, CBlock.coinbaseScriptSig block)) }
      (Function.update issued block.hashMerkleRoot (some block)) where
  drafts := by
    have hcell : (w.desk issued).cells p = some (CBlock.draft block) := by
      show (w.block? p).map CBlock.draft = _
      rw [hp, Option.map_some]
    have hsame : setScript (CBlock.coinbaseScriptSig block) (CBlock.draft block) = CBlock.draft block :=
      congrArg CBlock.draft hset
    have hissue : Move setScript (w.desk issued) ((w.desk issued).issue block.hashMerkleRoot p
        (CBlock.coinbaseScriptSig block) (CBlock.draft block)) := .issue hcell hsame
    convert h.drafts.step setScript_setScript hissue using 1
    unfold WorkStatics.desk Desk.issue
    congr 1
    funext root
    by_cases hr : root = block.hashMerkleRoot
    · rw [hr, Function.update_self, Function.update_self, Option.map_some]
    · rw [Function.update_of_ne hr, Function.update_of_ne hr]
  coinbase := h.coinbase
  roots root found hfound := by
    by_cases hr : root = block.hashMerkleRoot
    · rw [hr, Function.update_self] at hfound
      rw [← Option.some.inj hfound, hr]
      exact ⟨rfl, hroot.symm⟩
    · exact h.roots root found (by rwa [Function.update_of_ne hr] at hfound)

theorem newBlock_eq_block (h : newBlock P env node = .block block) :
    block.hashPrevBlock = node.pindexBest.getBlockHash ∧ hasCoinbaseInput block = true := by
  unfold newBlock at h
  cases hfault : env.fault with
  | some fault =>
    rw [hfault] at h
    cases h
  | none =>
    rw [hfault] at h
    cases hcreate : createNewBlock P env.heap env.miner node false with
    | error reject =>
      rw [hcreate] at h
      cases h
    | ok template =>
      rw [hcreate] at h
      cases h
      simp only [createNewBlock, bind_eq_ok, rejectIf_eq_ok, pure_eq_ok] at hcreate
      obtain ⟨-, -, -, -, -, -, rfl⟩ := hcreate
      exact ⟨rfl, rfl⟩

/-- What the update leaves: the works are kept, and once it succeeds the tip is the remembered one. -/
structure Updated (P : ChainParams) (node : NodeState) (issued : Uint256 → Option CBlock)
    (result : Except WorkFailure Unit × WorkStatics) : Prop where
  kept : WorksKept P result.2 issued
  onTip : OnTip result.2
  tip : result.1 = .ok () → result.2.pindexPrev = node.pindexBest
  fails : ∀ e, result.1 = .error e → e = .exception ∨ e = outOfMemory

theorem onTip_push (w : WorkStatics) {pindexBest : PIndex}
    (hprev : block.hashPrevBlock = pindexBest.getBlockHash) :
    OnTip { w.push block with pindexPrev := pindexBest } := by
  intro _
  refine ⟨w.memory.length, block, rfl, ?_, hprev⟩
  show (w.push block).block? w.memory.length = some block
  rw [WorkStatics.block?_push, Function.update_self]

theorem Updated.of_not_isObsolete (h : WorksKept P w issued) (htip : OnTip w)
    (hnot : ¬ w.isObsolete env s = true) : Updated P s.node issued (.ok (), w) where
  kept := h
  onTip := htip
  tip _ := by
    by_contra hne
    exact hnot (by simp [WorkStatics.isObsolete, hne])
  fails _ he := nomatch he

theorem getworkUpdate_spec (h : WorksKept P w issued) (htip : OnTip w) :
    Updated P s.node issued (getworkUpdate P env s w) := by
  unfold getworkUpdate
  split_ifs with hobsolete
  · have hdropped := h.dropOld s.node.pindexBest
    have hkept : WorksKept P { w.dropOld s.node.pindexBest with
        pindexPrev := []
        nTransactionsUpdatedLast := s.nTransactionsUpdated
        nStart := env.nStart } issued := ⟨hdropped.drafts, hdropped.coinbase, hdropped.roots⟩
    cases hnew : newBlock P env s.node with
    | fault fault =>
      cases fault with
      | thrown =>
        refine ⟨hkept, fun hne ↦ absurd rfl hne, fun hok ↦ (nomatch hok), fun e he ↦ .inl ?_⟩
        exact (Except.error.inj he).symm
      | null =>
        refine ⟨⟨hkept.drafts, hkept.coinbase, hkept.roots⟩, fun hne ↦ absurd rfl hne,
          fun hok ↦ (nomatch hok), fun e he ↦ .inr ?_⟩
        exact (Except.error.inj he).symm
    | block block =>
      obtain ⟨hprev, hinput⟩ := newBlock_eq_block hnew
      have hpushed := hkept.push hinput
      exact ⟨⟨hpushed.drafts, hpushed.coinbase, hpushed.roots⟩, onTip_push _ hprev, fun _ ↦ rfl,
        fun e he ↦ (nomatch he)⟩
  · exact .of_not_isObsolete h htip hobsolete

/-- A new block fails by an exception at most, and while the remembered tip is current. -/
def FailsOnTip (P : ChainParams) (env : WorkEnv D) (w : WorkStatics) (node : NodeState) : Prop :=
  ∀ fault, newBlock P env node = .fault fault → fault = .thrown ∧ w.pindexPrev = node.pindexBest

theorem getworkexUpdate_spec (h : WorksKept P w issued) (htip : OnTip w)
    (hfails : w.isObsolete env s = true → FailsOnTip P env w s.node) :
    Updated P s.node issued (getworkexUpdate P env s w) := by
  unfold getworkexUpdate
  split_ifs with hobsolete
  · have hdropped := h.dropOld s.node.pindexBest
    have hkept : WorksKept P { w.dropOld s.node.pindexBest with
        nTransactionsUpdatedLast := s.nTransactionsUpdated
        pindexPrev := s.node.pindexBest
        nStart := env.nStart } issued := ⟨hdropped.drafts, hdropped.coinbase, hdropped.roots⟩
    cases hnew : newBlock P env s.node with
    | fault fault =>
      obtain ⟨rfl, hcurrent⟩ := hfails hobsolete fault hnew
      refine ⟨hkept, ?_, fun hok ↦ (nomatch hok), fun e he ↦ .inl (Except.error.inj he).symm⟩
      -- the block of the current tip is still there
      rw [WorkStatics.dropOld, if_pos hcurrent]
      intro hne
      have hold := htip (by rw [hcurrent]; exact hne)
      rw [hcurrent] at hold
      exact hold
    | block block =>
      obtain ⟨hprev, hinput⟩ := newBlock_eq_block hnew
      exact ⟨hkept.push hinput, onTip_push _ hprev, fun _ ↦ rfl, fun e he ↦ (nomatch he)⟩
  · exact .of_not_isObsolete h htip hobsolete

theorem updateBlock_spec (h : WorksKept P w issued) (htip : OnTip w)
    (hfails : call = .getworkex → w.isObsolete env s = true → FailsOnTip P env w s.node) :
    Updated P s.node issued (updateBlock P env call s w) := by
  cases call with
  | getwork => exact getworkUpdate_spec h htip
  | getworkex => exact getworkexUpdate_spec h htip (hfails rfl)

/-- What handing out gives: the block is the one that `pblock` points to, and it is noted. -/
structure HandedOut (P : ChainParams) (w : WorkStatics) (issued : Uint256 → Option CBlock) (block : CBlock) :
    Prop where
  kept : WorksKept P w (Function.update issued block.hashMerkleRoot (some block))
  onTip : OnTip w
  live : ∃ p, w.pblock = some p ∧ w.block? p = some block

theorem handOut_spec (env : WorkEnv D) (h : WorksKept P (s.statics call) issued) (hpblock : (s.statics call).pblock = some p)
    (hblock : (s.statics call).block? p = some block)
    (hprev : block.hashPrevBlock = (s.statics call).pindexPrev.getBlockHash) :
    ∃ block' w hashPrevBlock, handOut P env call s =
        (.ok (.work block'), { s.put call w with hashPrevBlock := hashPrevBlock }) ∧
      block'.hashPrevBlock = block.hashPrevBlock ∧ HandedOut P w issued block' := by
  let fresh : CBlock :=
    { block with nTime := workTime env block (s.statics call).pindexPrev call, nNonce := 0 }
  have hfresh : hasCoinbaseInput fresh = true := h.coinbase p block hblock
  obtain ⟨nExtraNonce, scriptSig, hincrement⟩ := incrementExtraNonce_eq (P := P) s.hashPrevBlock
    (s.statics call).pindexPrev (s.statics call).nExtraNonce hfresh
  let varied := CBlock.rebuildRoot P (CBlock.setCoinbaseScript fresh scriptSig)
  have hscript : CBlock.coinbaseScriptSig varied = scriptSig :=
    CBlock.coinbaseScriptSig_setCoinbaseScript hfresh scriptSig
  have hwritten : WorksKept P ((s.statics call).write p varied) issued := h.vary hblock rfl
  have hfound : ((s.statics call).write p varied).block? p = some varied := by
    rw [WorkStatics.block?_write (WorkStatics.lt_length_of_block? hblock), Function.update_self]
  have hset : CBlock.setCoinbaseScript varied (CBlock.coinbaseScriptSig varied) = varied := by
    rw [hscript]
    show ({ CBlock.setCoinbaseScript (CBlock.setCoinbaseScript fresh scriptSig) scriptSig with
      hashMerkleRoot := buildMerkleTree P (CBlock.setCoinbaseScript fresh scriptSig) } : CBlock) = varied
    rw [CBlock.setCoinbaseScript_setCoinbaseScript]
    rfl
  have hderef : (s.statics call).deref (s.statics call).pblock = .ok (p, block) := by
    rw [hpblock]
    exact WorkStatics.deref_eq_ok hblock
  refine ⟨varied, _, fresh.hashPrevBlock, ?_, rfl, hwritten.issue hfound hset rfl nExtraNonce,
    fun _ ↦ ⟨p, varied, hpblock, hfound, hprev⟩, p, hpblock, hfound⟩
  simp only [handOut, hderef]
  rw [show incrementExtraNonce P s.hashPrevBlock _ (s.statics call).pindexPrev _ = _ from hincrement]
  rfl

/-- The coinbase that comes with a work is the one that was handed out with it. -/
def IsHandedCoinbase (sizes : ElementSizes) (coinbase : List UInt8) (block : CBlock) (scriptSig : CScript) :
    Prop :=
  ∃ tx st, (readTx sizes).run ⟨CDataStream.ofBytes coinbase, []⟩ = .ok (tx, st) ∧
    (CBlock.setCoinbaseScript block scriptSig).vtx.head? = some tx

theorem restoreCoinbase_eq (env : WorkEnv D) {coinbase : List UInt8} (h : hasCoinbaseInput block = true)
    (hcoinbase : coinbase ≠ [] → IsHandedCoinbase env.sizes coinbase block scriptSig) (nTime nNonce : ℕ) :
    restoreCoinbase env scriptSig coinbase { block with nTime := nTime, nNonce := nNonce } =
      (.ok (), CBlock.setCoinbaseScript { block with nTime := nTime, nNonce := nNonce } scriptSig) := by
  unfold restoreCoinbase
  split_ifs with hempty hinput
  · rfl
  · exact absurd h hinput
  · obtain ⟨tx, vtx, txin, vin, hvtx, -⟩ := CBlock.hasCoinbaseInput_eq_true h
    obtain ⟨txRead, st, hread, hhead⟩ := hcoinbase hempty
    rw [CBlock.setCoinbaseScript, hvtx, List.modify_zero_cons, List.head?_cons] at hhead
    simp only [hvtx, hread, ← Option.some.inj hhead, CBlock.setCoinbaseScript, List.modify_zero_cons]

theorem OnTip.write (h : OnTip w) (hp : w.block? p = some block) {block' : CBlock}
    (hprev : block'.hashPrevBlock = block.hashPrevBlock) : OnTip (w.write p block') := by
  intro hne
  obtain ⟨q, found, hq, hfound, htip⟩ := h hne
  by_cases heq : q = p
  · subst heq
    obtain rfl : block = found := Option.some.inj (hp.symm.trans hfound)
    refine ⟨q, block', hq, ?_, hprev.trans htip⟩
    rw [WorkStatics.block?_write (WorkStatics.lt_length_of_block? hp), Function.update_self]
  · refine ⟨q, found, hq, ?_, htip⟩
    rw [WorkStatics.block?_write (WorkStatics.lt_length_of_block? hp), Function.update_of_ne heq, hfound]

/-- The noted block and script are those of the block that was last handed out. -/
theorem WorksKept.noted (h : WorksKept P w issued) {root : Uint256}
    (hnote : w.mapNewBlock root = some (p, scriptSig)) :
    ∃ block handed, w.block? p = some block ∧ issued root = some handed ∧
      CBlock.draft handed = CBlock.draft (CBlock.setCoinbaseScript block scriptSig) := by
  obtain ⟨draft, hcell, hissued⟩ := h.drafts root p scriptSig hnote
  obtain ⟨block, hblock, rfl⟩ := Option.map_eq_some_iff.mp hcell
  obtain ⟨handed, hhanded, hdraft⟩ := Option.map_eq_some_iff.mp hissued
  exact ⟨block, handed, hblock, hhanded, hdraft⟩

theorem submit_spec (h : WorksKept P (s.statics call) issued) (htip : OnTip (s.statics call))
    {vchData coinbase : List UInt8}
    (hnote : (s.statics call).mapNewBlock (dataRoot vchData) = some (p, scriptSig))
    (hcoinbase : coinbase ≠ [] → ∀ block, (s.statics call).block? p = some block →
      IsHandedCoinbase env.sizes coinbase block scriptSig) :
    ∃ handed w, submit P env call vchData coinbase s = (.ok (.checked
        { handed with nTime := dataTime vchData, nNonce := dataNonce vchData }), s.put call w) ∧
      issued (dataRoot vchData) = some handed ∧ WorksKept P w issued ∧ OnTip w := by
  obtain ⟨block, handed, hblock, hhanded, hdraft⟩ := h.noted hnote
  have hrestored := restoreCoinbase_eq env (h.coinbase p block hblock)
    (fun hne ↦ hcoinbase hne block hblock) (dataTime vchData) (dataNonce vchData)
  obtain ⟨hroot, hmerkle⟩ := h.roots _ handed hhanded
  let rebuilt := CBlock.rebuildRoot P (CBlock.setCoinbaseScript
    { block with nTime := dataTime vchData, nNonce := dataNonce vchData } scriptSig)
  have hrebuilt : rebuilt = { handed with nTime := dataTime vchData, nNonce := dataNonce vchData } := by
    have htree : buildMerkleTree P (CBlock.setCoinbaseScript block scriptSig) = handed.hashMerkleRoot := by
      rw [hroot, ← hmerkle, buildMerkleTree, buildMerkleTree, CBlock.vtx_of_draft_eq hdraft]
    have heq := CBlock.eq_of_draft_eq hdraft (dataTime vchData) (dataNonce vchData) handed.hashMerkleRoot
    rw [heq, ← htree]
    rfl
  refine ⟨handed, (s.statics call).write p rebuilt, ?_, hhanded, h.vary hblock rfl, htip.write hblock rfl⟩
  rw [← hrebuilt]
  simp only [submit, hnote, WorkStatics.deref_eq_ok hblock, hrestored]
  rfl

end Step

/-- The call takes this work back. -/
def TakesBack (P : ChainParams) (env : WorkEnv D) (call : WorkCall) (params : List Value) (s : WorkNode)
    (vchData coinbase : List UInt8) : Prop :=
  params.length ≤ call.maxParams ∧ checkNode P env s.node = .ok () ∧ params ≠ [] ∧
    parseWork params = .ok (vchData, coinbase)

/-- A request of `getworkex` makes a new block, or fails to by an exception while the remembered tip is
current, and the coinbase that comes with a noted work is empty or the one that was handed out. -/
structure MeetsWorkEx (P : ChainParams) (env : WorkEnv D) (params : List Value) (s : WorkNode) : Prop where
  fails : params = [] → checkNode P env s.node = .ok () → (s.statics .getworkex).isObsolete env s = true →
    FailsOnTip P env (s.statics .getworkex) s.node
  coinbase : ∀ vchData coinbase, TakesBack P env .getworkex params s vchData coinbase → coinbase ≠ [] →
    ∀ p scriptSig block, (s.statics .getworkex).mapNewBlock (dataRoot vchData) = some (p, scriptSig) →
      (s.statics .getworkex).block? p = some block → IsHandedCoinbase env.sizes coinbase block scriptSig

def MeetsWork (P : ChainParams) (s : WorkNode) : WorkEvent D → Prop
  | .call .getworkex env params => MeetsWorkEx P env params s
  | _ => True

/-- The blocks that the calls have handed out last, by their roots. -/
abbrev Issued := WorkCall → Uint256 → Option CBlock

def recordWork (issued : Issued) : WorkEvent D → Option (Except WorkFailure WorkReply) → Issued
  | .call call _ _, some (.ok (.work block)) =>
      Function.update issued call (Function.update (issued call) block.hashMerkleRoot (some block))
  | _, _ => issued

inductive WorkRun (P : ChainParams) (Meets : WorkNode → WorkEvent D → Prop) : WorkNode → Issued → Prop
  | start (node : NodeState) (nTransactionsUpdated : ℕ) :
      WorkRun P Meets ⟨node, nTransactionsUpdated, 0, fun _ ↦ .empty⟩ fun _ _ ↦ none
  | event {s issued} (run : WorkRun P Meets s issued) (event : WorkEvent D) (meets : Meets s event) :
      WorkRun P Meets (handleWork P s event).2 (recordWork issued event (handleWork P s event).1)

/-- An error, or an exception, that the caller sees. -/
def WorkFailure.Clean : WorkFailure → Prop
  | .rpc .outOfRange | .assertion | .nullPointer | .deletedBlock => False
  | _ => True

/-- A request works on a live block of the tip or fails. -/
def WorksOnTip (s : WorkNode) (call : WorkCall) (result : Except WorkFailure WorkReply × WorkNode) : Prop :=
  (∃ block p, result.1 = .ok (.work block) ∧ block.hashPrevBlock = s.node.pindexBest.getBlockHash ∧
    (result.2.statics call).pblock = some p ∧ (result.2.statics call).block? p = some block) ∨
  ∃ e, result.1 = .error e ∧ e.Clean

/-- A work is taken back as the block that was handed out, with the time and the nonce of the miner. -/
def RebuildsHanded (P : ChainParams) (issued : Uint256 → Option CBlock) (vchData : List UInt8)
    (reply : Except WorkFailure WorkReply) : Prop :=
  ∃ handed, issued (dataRoot vchData) = some handed ∧ handed.hashMerkleRoot = dataRoot vchData ∧
    buildMerkleTree P handed = dataRoot vchData ∧
    reply = .ok (.checked { handed with nTime := dataTime vchData, nNonce := dataNonce vchData })

/-- What holds of a call: it takes back what was handed out, or works on the tip. -/
structure CallUpheld (P : ChainParams) (s : WorkNode) (issued : Issued) (call : WorkCall) (env : WorkEnv D)
    (params : List Value) : Prop where
  submission : ∀ vchData coinbase, TakesBack P env call params s vchData coinbase →
    (s.statics call).mapNewBlock (dataRoot vchData) ≠ none →
      RebuildsHanded P (issued call) vchData (handleCall P env call params s).1
  request : params = [] → WorksOnTip s call (handleCall P env call params s)

/-- The works of both calls are kept, and their blocks are live. -/
structure WorkInv (P : ChainParams) (s : WorkNode) (issued : Issued) : Prop where
  kept : ∀ call, WorksKept P (s.statics call) (issued call)
  onTip : ∀ call, OnTip (s.statics call)

section Run

variable {s : WorkNode} {issued : Issued} {call : WorkCall} {params : List Value}

theorem handleCall_eq (env : WorkEnv D) (call : WorkCall) (params : List Value) (s : WorkNode) :
    handleCall P env call params s = runWork P env call params s := by
  cases call <;> rfl

theorem clean_of_checkNode {node : NodeState} {e : WorkFailure} (h : checkNode P env node = .error e) :
    e.Clean := by
  unfold checkNode at h
  simp only [bind_eq_error, rejectIf_eq_error] at h
  rcases h with ⟨-, rfl⟩ | ⟨-, -, ⟨-, rfl⟩ | ⟨-, -, -, rfl⟩⟩ <;> trivial

/-- A call changes the state of that call only. -/
theorem WorkInv.put (h : WorkInv P s issued) {w : WorkStatics} {issuedCall : Uint256 → Option CBlock}
    (hkept : WorksKept P w issuedCall) (htip : OnTip w) (hashPrevBlock : Uint256) :
    WorkInv P { s.put call w with hashPrevBlock := hashPrevBlock } (Function.update issued call issuedCall) where
  kept other := by
    by_cases heq : other = call
    · subst heq
      show WorksKept P (Function.update s.statics other w other) _
      rwa [Function.update_self, Function.update_self]
    · show WorksKept P (Function.update s.statics call w other) _
      rw [Function.update_of_ne heq, Function.update_of_ne heq]
      exact h.kept other
  onTip other := by
    by_cases heq : other = call
    · subst heq
      show OnTip (Function.update s.statics other w other)
      rwa [Function.update_self]
    · show OnTip (Function.update s.statics call w other)
      rw [Function.update_of_ne heq]
      exact h.onTip other

theorem WorkInv.put_same (h : WorkInv P s issued) {w : WorkStatics} (hkept : WorksKept P w (issued call))
    (htip : OnTip w) : WorkInv P (s.put call w) issued := by
  have hput : WorkInv P (s.put call w) (Function.update issued call (issued call)) :=
    h.put hkept htip s.hashPrevBlock
  rwa [Function.update_eq_self] at hput

theorem statics_put (s : WorkNode) (call : WorkCall) (w : WorkStatics) : (s.put call w).statics call = w :=
  Function.update_self _ _ _

theorem request_spec (params : List Value) (h : WorkInv P s issued) (hbest : s.node.pindexBest ≠ [])
    (hfails : call = .getworkex → (s.statics call).isObsolete env s = true →
      FailsOnTip P env (s.statics call) s.node) :
    WorksOnTip s call (request P env call s) ∧ WorkInv P (request P env call s).2
      (recordWork issued (.call call env params) (some (request P env call s).1)) := by
  have hupdated := updateBlock_spec (h.kept call) (h.onTip call) hfails
  cases hupdate : updateBlock P env call s (s.statics call) with
  | mk reply w =>
    rw [hupdate] at hupdated
    cases reply with
    | error e =>
      rw [show request P env call s = (.error e, s.put call w) by simp only [request, hupdate]]
      refine ⟨.inr ⟨e, rfl, ?_⟩, h.put_same hupdated.kept hupdated.onTip⟩
      rcases hupdated.fails e rfl with rfl | rfl <;> trivial
    | ok u =>
      cases u
      have hcurrent : w.pindexPrev = s.node.pindexBest := hupdated.tip rfl
      obtain ⟨p, block, hpblock, hblock, hprev⟩ := hupdated.onTip (by rw [hcurrent]; exact hbest)
      have hw : w = (s.put call w).statics call := (statics_put s call w).symm
      have hkept : WorksKept P ((s.put call w).statics call) (issued call) := hw ▸ hupdated.kept
      rw [hw] at hpblock hblock hprev
      obtain ⟨handed, w', hashPrevBlock, hresult, hsame, hout⟩ := handOut_spec env hkept hpblock hblock hprev
      obtain ⟨q, hq, hlive⟩ := hout.live
      have hput : (s.put call w).put call w' = s.put call w' := by
        unfold WorkNode.put
        rw [Function.update_idem]
      rw [show request P env call s = handOut P env call (s.put call w) by simp only [request, hupdate],
        hresult, hput]
      refine ⟨.inl ⟨handed, q, rfl, ?_, ?_, ?_⟩, h.put hout.kept hout.onTip hashPrevBlock⟩
      · rw [hsame, hprev, statics_put, hcurrent]
      · show ((s.put call w').statics call).pblock = some q
        rw [statics_put, hq]
      · show ((s.put call w').statics call).block? q = some handed
        rw [statics_put, hlive]

theorem submit_inv (params : List Value) (h : WorkInv P s issued) {vchData coinbase : List UInt8}
    (hcoinbase : coinbase ≠ [] → ∀ p scriptSig block,
      (s.statics call).mapNewBlock (dataRoot vchData) = some (p, scriptSig) →
      (s.statics call).block? p = some block → IsHandedCoinbase env.sizes coinbase block scriptSig) :
    ((s.statics call).mapNewBlock (dataRoot vchData) ≠ none →
      RebuildsHanded P (issued call) vchData (submit P env call vchData coinbase s).1) ∧
    WorkInv P (submit P env call vchData coinbase s).2
      (recordWork issued (.call call env params) (some (submit P env call vchData coinbase s).1)) := by
  cases hnote : (s.statics call).mapNewBlock (dataRoot vchData) with
  | none =>
    have hunknown : submit P env call vchData coinbase s = (.ok .unknownRoot, s) := by
      simp only [submit, hnote]
    rw [hunknown]
    exact ⟨fun hne ↦ absurd rfl hne, h⟩
  | some note =>
    obtain ⟨p, scriptSig⟩ := note
    obtain ⟨handed, w, hsubmit, hhanded, hkept, htip⟩ := submit_spec (h.kept call) (h.onTip call) hnote
      (fun hne block hblock ↦ hcoinbase hne p scriptSig block hnote hblock)
    obtain ⟨hroot, hmerkle⟩ := (h.kept call).roots _ handed hhanded
    rw [hsubmit]
    exact ⟨fun _ ↦ ⟨handed, hhanded, hroot, hmerkle, rfl⟩, h.put_same hkept htip⟩

/-- `getwork` is called with one parameter at most. -/
theorem coinbase_eq_nil {vchData coinbase : List UInt8} (hlength : params.length ≤ 1)
    (h : parseWork params = .ok (vchData, coinbase)) : coinbase = [] := by
  have hnone : params[1]? = none := List.getElem?_eq_none hlength
  unfold parseWork at h
  simp only [hnone, bind_eq_ok, rejectIf_eq_ok, pure_eq_ok] at h
  obtain ⟨data, -, _, rfl, -, -, hpair⟩ := h
  exact (Prod.mk.inj hpair).2.symm

theorem pindexBest_ne_nil {node : NodeState} {u : Unit} (h : checkNode P env node = .ok u) :
    node.pindexBest ≠ [] := by
  unfold checkNode at h
  simp only [bind_eq_ok, rejectIf_eq_ok] at h
  obtain ⟨-, -, -, hready, -⟩ := h
  exact fun hnil ↦ hready (.inr hnil)

/-- One call; each case is a way through `runWork`. -/
theorem call_spec (h : WorkInv P s issued) (hmeets : MeetsWork P s (.call call env params)) :
    CallUpheld P s issued call env params ∧ WorkInv P (handleWork P s (.call call env params)).2
      (recordWork issued (.call call env params) (handleWork P s (.call call env params)).1) := by
  have hresult {result : Except WorkFailure WorkReply × WorkNode}
      (heq : runWork P env call params s = result)
      (hsubmission : ∀ vchData coinbase, TakesBack P env call params s vchData coinbase →
        (s.statics call).mapNewBlock (dataRoot vchData) ≠ none → RebuildsHanded P (issued call) vchData result.1)
      (hrequest : params = [] → WorksOnTip s call result)
      (hinv : WorkInv P result.2 (recordWork issued (.call call env params) (some result.1))) :
      CallUpheld P s issued call env params ∧ WorkInv P (handleWork P s (.call call env params)).2
        (recordWork issued (.call call env params) (handleWork P s (.call call env params)).1) := by
    have hhandle : handleCall P env call params s = result := (handleCall_eq env call params s).trans heq
    simp only [handleWork, hhandle]
    exact ⟨⟨fun vchData coinbase htakes hnoted ↦ hhandle ▸ hsubmission vchData coinbase htakes hnoted,
      fun hnil ↦ hhandle ▸ hrequest hnil⟩, hinv⟩
  by_cases hlength : params.length > call.maxParams
  · refine hresult (by rw [runWork, if_pos hlength]) ?_ ?_ h
    · exact fun _ _ htakes ↦ absurd htakes.1 (not_le.mpr hlength)
    · rintro rfl
      exact absurd hlength (Nat.not_lt_zero _)
  · cases hcheck : checkNode P env s.node with
    | error e =>
      refine hresult (by rw [runWork, if_neg hlength, hcheck]) ?_ ?_ h
      · intro _ _ htakes
        rw [TakesBack, hcheck] at htakes
        cases htakes.2.1
      · exact fun _ ↦ .inr ⟨e, rfl, clean_of_checkNode hcheck⟩
    | ok u =>
      by_cases hnil : params = []
      · have hfails : call = .getworkex → (s.statics call).isObsolete env s = true →
            FailsOnTip P env (s.statics call) s.node := by
          rintro rfl hobsolete
          exact MeetsWorkEx.fails hmeets hnil hcheck hobsolete
        obtain ⟨hworks, hinv⟩ := request_spec params h (pindexBest_ne_nil hcheck) hfails
        refine hresult (by rw [runWork, if_neg hlength, hcheck, if_pos hnil]) ?_ (fun _ ↦ hworks) hinv
        exact fun _ _ htakes ↦ absurd hnil htakes.2.2.1
      · cases hparse : parseWork params with
        | error e =>
          refine hresult (by rw [runWork, if_neg hlength, hcheck, if_neg hnil, hparse]) ?_
            (fun hempty ↦ absurd hempty hnil) h
          intro _ _ htakes
          rw [TakesBack, hparse] at htakes
          cases htakes.2.2.2
        | ok work =>
          obtain ⟨vchData, coinbase⟩ := work
          have htakes : TakesBack P env call params s vchData coinbase :=
            ⟨not_lt.mp hlength, hcheck, hnil, hparse⟩
          have hcoinbase : coinbase ≠ [] → ∀ p scriptSig block,
              (s.statics call).mapNewBlock (dataRoot vchData) = some (p, scriptSig) →
              (s.statics call).block? p = some block → IsHandedCoinbase env.sizes coinbase block scriptSig := by
            intro hne
            cases call with
            | getwork => exact absurd (coinbase_eq_nil (not_lt.mp hlength) hparse) hne
            | getworkex => exact MeetsWorkEx.coinbase hmeets vchData coinbase htakes hne
          obtain ⟨hrebuilds, hinv⟩ := submit_inv params h hcoinbase
          refine hresult (by rw [runWork, if_neg hlength, hcheck, if_neg hnil, hparse]) ?_
            (fun hempty ↦ absurd hempty hnil) hinv
          intro vchData' coinbase' htakes'
          rw [TakesBack, hparse] at htakes'
          obtain ⟨rfl, rfl⟩ := Prod.mk.inj (Except.ok.inj htakes'.2.2.2)
          exact hrebuilds

theorem handleWork_inv (h : WorkInv P s issued) {event : WorkEvent D} (hmeets : MeetsWork P s event) :
    WorkInv P (handleWork P s event).2 (recordWork issued event (handleWork P s event).1) := by
  cases event with
  | node node nTransactionsUpdated => exact ⟨h.kept, h.onTip⟩
  | call call env params => exact (call_spec h hmeets).2

theorem WorkInv.start (node : NodeState) (nTransactionsUpdated : ℕ) :
    WorkInv P ⟨node, nTransactionsUpdated, 0, fun _ ↦ .empty⟩ fun _ _ ↦ none where
  kept _ := ⟨fun _ _ _ hnote ↦ (nomatch hnote), fun _ _ hblock ↦ (nomatch hblock),
    fun _ _ hissued ↦ (nomatch hissued)⟩
  onTip _ hne := absurd rfl hne

theorem workInv_of_workRun (run : WorkRun (D := D) P (MeetsWork P) s issued) : WorkInv P s issued := by
  induction run with
  | start node nTransactionsUpdated => exact .start node nTransactionsUpdated
  | event run event meets ih => exact handleWork_inv ih meets

/-- Whatever happened before, a call takes back what was handed out, or works on a live block of the
tip. -/
theorem callUpheld_of_workRun (run : WorkRun (D := D) P (MeetsWork P) s issued)
    (hmeets : MeetsWork P s (.call call env params)) : CallUpheld P s issued call env params :=
  (call_spec (workInv_of_workRun run) hmeets).1

end Run

namespace WorkExample

open Builders PoolExample TemplateExample

def workEnv (fault : Option NewBlockFault) : WorkEnv ℚ where
  heap := firstHighest
  miner := minerEnv 5000 5000
  fault
  fConnected := true
  fInitialDownload := false
  nNow := 5000
  nStart := 5000
  nAdjustedTime := 5000
  sizes := elementSizes64
  torn _ tx := tx

def freshNode : WorkNode := ⟨quietNode 12, 1, 0, fun _ ↦ .empty⟩

/-- The events, last one first: work is handed out, the tip changes, and a new block fails. -/
def askEvent (fault : Option NewBlockFault) : WorkEvent ℚ := .call .getworkex (workEnv fault) []

def workNode : List (WorkEvent ℚ) → WorkNode
  | [] => freshNode
  | event :: events => (handleWork testNet (workNode events) event).2

def workIssued : List (WorkEvent ℚ) → Issued
  | [] => fun _ _ ↦ none
  | event :: events => recordWork (workIssued events) event (handleWork testNet (workNode events) event).1

def failedEvents : List (WorkEvent ℚ) := [askEvent (some .thrown), .node (quietNode 13) 1, askEvent none]

def handedData : List UInt8 :=
  match (handleCall testNet (workEnv none) .getworkex [] freshNode).1 with
  | .ok (.work block) => workData block
  | _ => []

def handBack : List Value := [.str (hexStr handedData)]

/-- The work comes back with a coinbase that was not handed out. -/
def handBackOther : List Value := [.str (hexStr handedData), .str (hexStr (writeTx childTx))]

def NewBlock.isBlock : NewBlock → Bool
  | .block _ => true
  | .fault _ => false

def checkedRoot : Except WorkFailure WorkReply → Option Uint256
  | .ok (.checked block) => some block.hashMerkleRoot
  | _ => none

theorem work_facts :
    checkNode testNet (workEnv none) (workNode [askEvent none]).node = .ok () ∧
    NewBlock.isBlock (newBlock testNet (workEnv none) freshNode.node) = true ∧
    parseWork handBack = .ok (handedData, []) ∧ parseWork handBackOther = .ok (handedData, writeTx childTx) ∧
    (((workNode [askEvent none]).statics .getworkex).mapNewBlock (dataRoot handedData)).isSome = true ∧
    checkedRoot (handleCall testNet (workEnv none) .getworkex handBackOther (workNode [askEvent none])).1 ≠
      some (dataRoot handedData) ∧
    (handleCall testNet (workEnv none) .getworkex [] (workNode failedEvents)).1 = .error .deletedBlock := by
  decide +kernel

theorem run_workNode {Meets : WorkNode → WorkEvent ℚ → Prop} (events : List (WorkEvent ℚ))
    (h : ∀ event rest, event :: rest <:+ events → Meets (workNode rest) event) :
    WorkRun testNet Meets (workNode events) (workIssued events) := by
  induction events with
  | nil => exact .start _ _
  | cons event events ih =>
    refine .event (ih fun event' rest hrest ↦ h event' rest (hrest.trans (List.suffix_cons _ _))) event ?_
    exact h event events (List.suffix_refl _)

end WorkExample

open WorkExample PoolExample in
theorem rebuildsHanded_example : RebuildsHanded testNet (workIssued [askEvent none] .getworkex) handedData
    (handleCall testNet (workEnv none) .getworkex handBack (workNode [askEvent none])).1 := by
  obtain ⟨hcheck, hblock, hparse, -, hnoted, -⟩ := work_facts
  have hasked : MeetsWork testNet freshNode (askEvent none) := by
    refine ⟨fun _ _ _ fault hfault ↦ ?_, fun _ _ htakes ↦ absurd rfl htakes.2.2.1⟩
    have hfault : newBlock testNet (workEnv none) freshNode.node = .fault fault := hfault
    rw [hfault] at hblock
    cases hblock
  have hrun : WorkRun testNet (MeetsWork testNet) (workNode [askEvent none]) (workIssued [askEvent none]) :=
    .event (.start (quietNode 12) 1) (askEvent none) hasked
  have hback : MeetsWork testNet (workNode [askEvent none]) (.call .getworkex (workEnv none) handBack) := by
    refine ⟨fun hnil ↦ absurd hnil (List.cons_ne_nil _ _), fun vchData coinbase htakes hne ↦ ?_⟩
    exact absurd (coinbase_eq_nil le_rfl htakes.2.2.2) hne
  refine (callUpheld_of_workRun hrun hback).submission handedData [] ⟨?_, hcheck, List.cons_ne_nil _ _, hparse⟩ ?_
  · exact Nat.le_succ 1
  · exact Option.isSome_iff_ne_none.mp hnoted

open WorkExample PoolExample TemplateExample in
/-- After a new block has failed on a new tip, the next request follows a pointer to a deleted block; and
a work that comes with another coinbase is not the one that was handed out. -/
theorem not_callUpheld :
    (∃ s issued, WorkRun testNet (fun _ (_ : WorkEvent ℚ) ↦ True) s issued ∧
      ¬ CallUpheld testNet s issued .getworkex (workEnv none) []) ∧
    ∃ s issued, WorkRun testNet (fun _ (_ : WorkEvent ℚ) ↦ True) s issued ∧
      ¬ CallUpheld testNet s issued .getworkex (workEnv none) handBackOther := by
  obtain ⟨hcheck, -, -, hparse, hnoted, hother, hdeleted⟩ := work_facts
  constructor
  · refine ⟨_, _, run_workNode failedEvents fun _ _ _ ↦ trivial, fun hupheld ↦ ?_⟩
    rcases hupheld.request rfl with ⟨block, p, hwork, -⟩ | ⟨e, herror, hclean⟩
    · rw [hdeleted] at hwork
      cases hwork
    · rw [hdeleted] at herror
      rw [← Except.error.inj herror] at hclean
      exact hclean
  · refine ⟨_, _, run_workNode [askEvent none] fun _ _ _ ↦ trivial, fun hupheld ↦ ?_⟩
    obtain ⟨handed, -, hroot, -, hreply⟩ := hupheld.submission handedData (writeTx childTx)
      ⟨le_rfl, hcheck, List.cons_ne_nil _ _, hparse⟩ (Option.isSome_iff_ne_none.mp hnoted)
    rw [hreply] at hother
    exact hother (congrArg some hroot)

end Electra.Node
