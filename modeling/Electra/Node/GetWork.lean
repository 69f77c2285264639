import Electra.Chain.Miner
import Electra.Text.Hex
import Electra.Wallet.RpcValue
import Electra.Wallet.SpendMine

/-!
# Work for miners

`getwork` and `getworkex` hand out work on a new block and take solved work back.  Each keeps the blocks
it has made since the tip changed; all works on one block share it, and only its script is noted for each
root.
-/

namespace Electra.Node

open Chain Net Text Wallet Foundations.Codec Foundations.Outcome Foundations.ReadyQueue

/-- The static variables of a call.  A pointer to a block is its place in the memory of the call, where
a deleted block leaves nothing; an empty chain is a null `pindexPrev`. -/
structure WorkStatics where
  memory : List (Option CBlock)
  mapNewBlock : Uint256 → Option (ℕ × CScript)
  vNewBlock : List ℕ
  nTransactionsUpdatedLast : ℕ
  pindexPrev : PIndex
  nStart : ℤ
  pblock : Option ℕ
  nExtraNonce : ℕ

def WorkStatics.empty : WorkStatics where
  memory := []
  mapNewBlock _ := none
  vNewBlock := []
  nTransactionsUpdatedLast := 0
  pindexPrev := []
  nStart := 0
  pblock := none
  nExtraNonce := 0

inductive WorkCall
  | getwork
  | getworkex
deriving DecidableEq

/-- The node, the static variable that `IncrementExtraNonce` shares, and those of the calls. -/
structure WorkNode where
  node : NodeState
  nTransactionsUpdated : ℕ
  hashPrevBlock : Uint256
  statics : WorkCall → WorkStatics

def WorkNode.put (s : WorkNode) (call : WorkCall) (w : WorkStatics) : WorkNode :=
  { s with statics := Function.update s.statics call w }

/-- How a call fails: with an error, by an exception that passes through it, by an assertion, or by
following a pointer to nothing or to a deleted block. -/
inductive WorkFailure
  | rpc (failure : RpcFailure)
  | exception
  | assertion
  | nullPointer
  | deletedBlock
deriving DecidableEq

/-- What a call gives: a block to work on, the block that `CheckWork` is called with, or `false`. -/
inductive WorkReply
  | work (block : CBlock)
  | checked (block : CBlock)
  | unknownRoot
deriving DecidableEq

/-- How `CreateNewBlock` fails. -/
inductive NewBlockFault
  | null
  | thrown
deriving DecidableEq

variable {D : Type} [Double D]

/-- The readings of the clock, the answers of the network, what the wallet and the disk make of a new
block, and what a coinbase that cannot be read leaves. -/
structure WorkEnv (D : Type) [Double D] where
  heap : Heap (TxPriority D)
  miner : MinerEnv
  fault : Option NewBlockFault
  fConnected : Bool
  fInitialDownload : Bool
  nNow : ℤ
  nStart : ℤ
  nAdjustedTime : ℤ
  sizes : ElementSizes
  torn : List UInt8 → CTransaction → CTransaction

variable (P : ChainParams) (env : WorkEnv D)

inductive NewBlock
  | block (block : CBlock)
  | fault (fault : NewBlockFault)

def newBlock (node : NodeState) : NewBlock :=
  match env.fault with
  | some fault => .fault fault
  | none =>
      match createNewBlock P env.heap env.miner node false with
      | .ok template => .block template.block
      | .error _ => .fault .thrown

/-- The checks at the start of both calls. -/
def checkNode (node : NodeState) : Except WorkFailure Unit := do
  rejectIf (env.fConnected = false) (.rpc (.jsonRpc (-9) "Electra is not connected!"))
  rejectIf (env.fInitialDownload ∨ node.pindexBest = [])
    (.rpc (.jsonRpc (-10) "Electra is downloading blocks..."))
  rejectIf (node.pindexBest.nHeight ≥ if P.fTestNet then LAST_POW_BLOCK_TEST else LAST_POW_BLOCK)
    (.rpc (.jsonRpc (-1) "No more PoW blocks"))

namespace WorkStatics

/-- Follow a pointer. -/
def deref (w : WorkStatics) : Option ℕ → Except WorkFailure (ℕ × CBlock)
  | none => .error .nullPointer
  | some p =>
      match w.memory[p]? with
      | some (some block) => .ok (p, block)
      | _ => .error .deletedBlock

def write (w : WorkStatics) (p : ℕ) (block : CBlock) : WorkStatics :=
  { w with memory := w.memory.set p (some block) }

/-- The tip has changed, or transactions have and a minute has passed. -/
def isObsolete (w : WorkStatics) (s : WorkNode) : Bool :=
  decide (w.pindexPrev ≠ s.node.pindexBest) ||
    (decide (s.nTransactionsUpdated ≠ w.nTransactionsUpdatedLast) && decide (env.nNow - w.nStart > 60))

/-- Deallocate old blocks since they're obsolete now. -/
def dropOld (w : WorkStatics) (pindexBest : PIndex) : WorkStatics :=
  if w.pindexPrev = pindexBest then w
  else { w with
    mapNewBlock := fun _ ↦ none
    memory := w.vNewBlock.foldl (fun memory p ↦ memory.set p none) w.memory
    vNewBlock := [] }

/-- A new block that `pblock` points to. -/
def push (w : WorkStatics) (block : CBlock) : WorkStatics :=
  { w with
    memory := w.memory ++ [some block]
    vNewBlock := w.vNewBlock ++ [w.memory.length]
    pblock := some w.memory.length }

end WorkStatics

def outOfMemory : WorkFailure := .rpc (.jsonRpc (-7) "Out of memory")

/-- The new block of `getwork`: the remembered tip is null until there is one. -/
def getworkUpdate (s : WorkNode) (w : WorkStatics) : Except WorkFailure Unit × WorkStatics :=
  if w.isObsolete env s then
    let w := { w.dropOld s.node.pindexBest with
      pindexPrev := []
      nTransactionsUpdatedLast := s.nTransactionsUpdated
      nStart := env.nStart }
    match newBlock P env s.node with
    | .fault .thrown => (.error .exception, w)
    | .fault .null => (.error outOfMemory, { w with pblock := none })
    | .block block => (.ok (), { w.push block with pindexPrev := s.node.pindexBest })
  else (.ok (), w)

/-- The new block of `getworkex`: the tip is remembered before there is one. -/
def getworkexUpdate (s : WorkNode) (w : WorkStatics) : Except WorkFailure Unit × WorkStatics :=
  if w.isObsolete env s then
    let w := { w.dropOld s.node.pindexBest with
      nTransactionsUpdatedLast := s.nTransactionsUpdated
      pindexPrev := s.node.pindexBest
      nStart := env.nStart }
    match newBlock P env s.node with
    | .fault .thrown => (.error .exception, w)
    | .fault .null => (.error outOfMemory, { w with pblock := none })
    | .block block => (.ok (), w.push block)
  else (.ok (), w)

def updateBlock : WorkCall → WorkNode → WorkStatics → Except WorkFailure Unit × WorkStatics
  | .getwork => getworkUpdate P env
  | .getworkex => getworkexUpdate P env

/-- `unsigned int` of a time. -/
def timeField (nTime : ℤ) : ℕ := (nTime % 2 ^ 32).toNat

/-- `getwork` keeps a time that is ahead of the clock. -/
def workTime (block : CBlock) (pindexPrev : PIndex) : WorkCall → ℕ
  | .getwork => timeField (max block.nTime env.nAdjustedTime)
  | .getworkex => timeField (max (pindexPrev.getMedianTimePast + 1) env.nAdjustedTime)

def CBlock.setCoinbaseScript (block : CBlock) (scriptSig : CScript) : CBlock :=
  { block with vtx := block.vtx.modify 0 fun tx ↦ setScriptSig tx 0 scriptSig }

def CBlock.rebuildRoot (block : CBlock) : CBlock :=
  { block with hashMerkleRoot := buildMerkleTree P block }

/-- `vtx[0].vin[0]` is there. -/
def hasCoinbaseInput (block : CBlock) : Bool := (block.vtx[0]?.bind fun tx ↦ tx.vin[0]?).isSome

/-- Height first in coinbase required for block.version=2. -/
def coinbaseScript (pindexPrev : PIndex) (nExtraNonce : ℕ) : CScript :=
  pushBytes (pushInt64 [] ((pindexPrev.nHeight + 1) % 2 ^ 32)) (getvch nExtraNonce) ++ COINBASE_FLAGS

/-- The shared static variable, the counter of the caller and the block, after the call. -/
def incrementExtraNonce (hashPrevBlock : Uint256) (block : CBlock) (pindexPrev : PIndex) (nExtraNonce : ℕ) :
    Except WorkFailure (Uint256 × ℕ × CBlock) := do
  let nExtraNonce := ((if hashPrevBlock ≠ block.hashPrevBlock then 0 else nExtraNonce) + 1) % 2 ^ 32
  rejectIf (hasCoinbaseInput block = false) (.rpc .outOfRange)
  let scriptSig := coinbaseScript pindexPrev nExtraNonce
  rejectIf (scriptSig.length > 100) .assertion
  return (block.hashPrevBlock, nExtraNonce, CBlock.rebuildRoot P (CBlock.setCoinbaseScript block scriptSig))

/-- `pblock->vtx[0].vin[0].scriptSig`. -/
def CBlock.coinbaseScriptSig (block : CBlock) : CScript := (block.vtx[0]?.map CTransaction.scriptSig0).getD []

/-- The part after the update: vary the coinbase and note the script under the new root. -/
def handOut (call : WorkCall) (s : WorkNode) : Except WorkFailure WorkReply × WorkNode :=
  let w := s.statics call
  match w.deref w.pblock with
  | .error e => (.error e, s)
  | .ok (p, block) =>
      let block := { block with nTime := workTime env block w.pindexPrev call, nNonce := 0 }
      match incrementExtraNonce P s.hashPrevBlock block w.pindexPrev w.nExtraNonce with
      | .error e => (.error e, s.put call (w.write p block))
      | .ok (hashPrevBlock, nExtraNonce, block) =>
          let w := { w.write p block with
            nExtraNonce
            mapNewBlock := Function.update w.mapNewBlock block.hashMerkleRoot
              (some (p, CBlock.coinbaseScriptSig block)) }
          (.ok (.work block), { s.put call w with hashPrevBlock })

def request (call : WorkCall) (s : WorkNode) : Except WorkFailure WorkReply × WorkNode :=
  match updateBlock P env call s (s.statics call) with
  | (.error e, w) => (.error e, s.put call w)
  | (.ok (), w) => handOut P env call (s.put call w)

/-- The bytes of each number of four bytes the other way round. -/
def byteReverse : List UInt8 → List UInt8
  | a :: b :: c :: d :: rest => d :: c :: b :: a :: byteReverse rest
  | rest => rest

/-- The header at the start of the data, and what `FormatHashBlocks` adds to its 80 bytes. -/
def workData (block : CBlock) : List UInt8 :=
  byteReverse (writeHeader block.toCBlockHeader ++ (0x80 :: List.replicate 45 0 ++ [2, 0x80]))

def dataField (vchData : List UInt8) (nOffset nSize : ℕ) : ℕ :=
  ofLeBytes (((byteReverse vchData).drop nOffset).take nSize)

def dataRoot (vchData : List UInt8) : Uint256 := BitVec.ofNat 256 (dataField vchData 36 32)

def dataTime (vchData : List UInt8) : ℕ := dataField vchData 68 4

def dataNonce (vchData : List UInt8) : ℕ := dataField vchData 76 4

/-- The data and the coinbase, which is empty where none is given. -/
def parseWork (params : List Value) : Except RpcFailure (List UInt8 × List UInt8) := do
  let vchData ← (params.getD 0 .null).getStr
  let coinbase ← match params[1]? with
    | none => pure []
    | some v => v.getStr
  let vchData := parseHex vchData
  rejectIf (vchData.length ≠ 128) (.jsonRpc RPC_INVALID_PARAMETER "Invalid parameter")
  return (vchData, parseHex coinbase)

/-- Put the noted script into the coinbase, or read the coinbase that comes with the work. -/
def restoreCoinbase (scriptSig : CScript) (coinbase : List UInt8) (block : CBlock) :
    Except WorkFailure Unit × CBlock :=
  if coinbase = [] then
    if hasCoinbaseInput block then (.ok (), CBlock.setCoinbaseScript block scriptSig)
    else (.error (.rpc .outOfRange), block)
  else
    match block.vtx with
    | [] => (.error (.rpc .outOfRange), block)
    | txOld :: vtx =>
        match (readTx env.sizes).run ⟨CDataStream.ofBytes coinbase, []⟩ with
        | .ok (tx, _) => (.ok (), { block with vtx := tx :: vtx })
        | .error _ => (.error .exception, { block with vtx := env.torn coinbase txOld :: vtx })

def submit (call : WorkCall) (vchData coinbase : List UInt8) (s : WorkNode) :
    Except WorkFailure WorkReply × WorkNode :=
  let w := s.statics call
  match w.mapNewBlock (dataRoot vchData) with
  | none => (.ok .unknownRoot, s)
  | some (p, scriptSig) =>
      match w.deref (some p) with
      | .error e => (.error e, s)
      | .ok (p, block) =>
          let block := { block with nTime := dataTime vchData, nNonce := dataNonce vchData }
          match restoreCoinbase env scriptSig coinbase block with
          | (.error e, block) => (.error e, s.put call (w.write p block))
          | (.ok (), block) =>
              let block := CBlock.rebuildRoot P block
              (.ok (.checked block), s.put call (w.write p block))

def WorkCall.maxParams : WorkCall → ℕ
  | .getwork => 1
  | .getworkex => 2

/-- The start of the help text. -/
def WorkCall.usage : WorkCall → String
  | .getwork => "getwork [data]"
  | .getworkex => "getworkex [data, coinbase]"

/-- With parameters a call takes work back, without it hands out work. -/
def runWork (call : WorkCall) (params : List Value) (s : WorkNode) :
    Except WorkFailure WorkReply × WorkNode :=
  if params.length > call.maxParams then (.error (.rpc (.runtimeError call.usage)), s)
  else
    match checkNode P env s.node with
    | .error e => (.error e, s)
    | .ok () =>
        if params = [] then request P env call s
        else
          match parseWork params with
          | .error e => (.error (.rpc e), s)
          | .ok (vchData, coinbase) => submit P env call vchData coinbase s

def getwork (params : List Value) (s : WorkNode) : Except WorkFailure WorkReply × WorkNode :=
  runWork P env .getwork params s

def getworkex (params : List Value) (s : WorkNode) : Except WorkFailure WorkReply × WorkNode :=
  runWork P env .getworkex params s

def handleCall : WorkCall → List Value → WorkNode → Except WorkFailure WorkReply × WorkNode
  | .getwork => getwork P env
  | .getworkex => getworkex P env

/-- What happens to the node: its tip, its chain or its pool changes, or a call is made. -/
inductive WorkEvent (D : Type) [Double D]
  | node (node : NodeState) (nTransactionsUpdated : ℕ)
  | call (call : WorkCall) (env : WorkEnv D) (params : List Value)

/-- The reply, where there is one, and the state after the event. -/
def handleWork (s : WorkNode) : WorkEvent D → Option (Except WorkFailure WorkReply) × WorkNode
  | .node node nTransactionsUpdated => (none, { s with node, nTransactionsUpdated })
  | .call call env params =>
      let (reply, s) := handleCall P env call params s
      (some reply, s)

end Electra.Node
