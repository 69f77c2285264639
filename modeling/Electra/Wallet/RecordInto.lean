import Electra.Foundations.ReadInto
import Electra.Wallet.Records

/-!
# Reading a record into an object

Strings, vectors and transactions of the wallet are read into objects that are there, one field after the
other, so that a failure leaves an object with some of the new fields.  `CDataStream::read` throws before it
touches its destination.
-/

namespace Electra.Wallet

open Chain Net Foundations.ReadInto
open Foundations.Codec (readItems)
open Records (CMerkleTx MapValue RecordSizes insertItem readChar readPair)

/-- `str.resize(nSize)`. -/
def resizeString (nSize : ℕ) (str : List UInt8) : List UInt8 :=
  str.take nSize ++ List.replicate (nSize - str.length) 0

def stringData (nSize : ℕ) : Reader (List UInt8) := if nSize ≠ 0 then readData nSize else return []

/-- The string is resized before its bytes are read; a failure gives what is left of it. -/
def readStringInto (str : List UInt8) : Into ReadState (List UInt8) := fun is ↦
  match readCompactSize.run is with
  | .error _ => .error str
  | .ok (nSize, is) =>
      match (stringData nSize).run is with
      | .error _ => .error (resizeString nSize str)
      | .ok (data, is) => .ok (data, is)

/-- The vector is cleared, and grows by a block before this is read. -/
def readBytesInto : Into ReadState (List UInt8) := fun is ↦
  match readCompactSize.run is with
  | .error _ => .error []
  | .ok (nSize, is) =>
      batchesInto (fun n ↦ atOnce (readData n) (List.replicate n 0)) (1 + 4999999) nSize nSize is

/-- The same with the default constructor of the elements. -/
def readVectorInto {α : Type} (fresh : α) (into : Into ReadState α) (nElement : ℕ) :
    Into ReadState (List α) := fun is ↦
  match readCompactSize.run is with
  | .error _ => .error []
  | .ok (nSize, is) => batchesInto (itemsInto fresh into) (5000000 / nElement) nSize nSize is

def readPairInto : Into ReadState (List UInt8 × List UInt8) := fun is ↦ do
  let (pair, is) ← field (fun first ↦ (first, [])) (readStringInto [] is)
  field (fun second ↦ (pair.1, second)) (readStringInto pair.2 is)

/-- Items are read one at a time into a local object. -/
def insertItems : ℕ → MapValue → Into ReadState MapValue
  | 0, m, is => .ok (m, is)
  | n + 1, m, is =>
      match readPair.run is with
      | .error _ => .error m
      | .ok (item, is) => insertItems n (insertItem m item) is

def readMapInto : Into ReadState MapValue := fun is ↦
  match readCompactSize.run is with
  | .error _ => .error ∅
  | .ok (nSize, is) => insertItems nSize ∅ is

def nullTxIn : CTxIn := ⟨⟨0, uintMax⟩, [], uintMax⟩

def readTxInInto (txin : CTxIn) : Into ReadState CTxIn := fun is ↦ do
  let (txin, is) ← field (fun prevout ↦ { txin with prevout }) (atOnce readOutPoint txin.prevout is)
  let (txin, is) ← field (fun scriptSig ↦ { txin with scriptSig }) (readBytesInto is)
  field (fun nSequence ↦ { txin with nSequence }) (atOnce (readUInt 4) txin.nSequence is)

def nullTxOut : CTxOut := ⟨-1, []⟩

def readTxOutInto (txout : CTxOut) : Into ReadState CTxOut := fun is ↦ do
  let (txout, is) ← field (fun nValue ↦ { txout with nValue }) (atOnce (readInt 8) txout.nValue is)
  field (fun scriptPubKey ↦ { txout with scriptPubKey }) (readBytesInto is)

variable (sizes : RecordSizes)

def readTransactionInto (tx : CTransaction) : Into ReadState CTransaction := fun is ↦ do
  let (tx, is) ← field (fun nVersion ↦ { tx with nVersion }) (atOnce (readInt 4) tx.nVersion is)
  let (tx, is) ← field (fun nTime ↦ { tx with nTime }) (atOnce (readUInt 4) tx.nTime is)
  let (tx, is) ← field (fun vin ↦ { tx with vin })
    (readVectorInto nullTxIn (readTxInInto nullTxIn) sizes.cTxIn is)
  let (tx, is) ← field (fun vout ↦ { tx with vout })
    (readVectorInto nullTxOut (readTxOutInto nullTxOut) sizes.cTxOut is)
  field (fun nLockTime ↦ { tx with nLockTime }) (atOnce (readUInt 4) tx.nLockTime is)

def readMerkleTxInto (tx : CMerkleTx) : Into ReadState CMerkleTx := fun is ↦ do
  let (tx, is) ← field (fun toCTransaction ↦ { tx with toCTransaction })
    (readTransactionInto sizes tx.toCTransaction is)
  let (tx, is) ← field (fun hashBlock ↦ { tx with hashBlock }) (atOnce readUint256 tx.hashBlock is)
  let (tx, is) ← field (fun vMerkleBranch ↦ { tx with vMerkleBranch })
    (readVectorInto 0 (atOnce readUint256 0) 32 is)
  field (fun nIndex ↦ { tx with nIndex }) (atOnce (readInt 4) tx.nIndex is)

/-- A fresh transaction, made at this time. -/
def nullMerkleTx (nAdjustedTime : ℕ) : CMerkleTx where
  nVersion := 1
  nTime := nAdjustedTime
  vin := []
  vout := []
  nLockTime := 0
  hashBlock := 0
  vMerkleBranch := []
  nIndex := -1

/-- `CWalletTx::Init(NULL)`, without the cached sums. -/
def initWalletTx (tx : CMerkleTx) : Records.CWalletTx where
  toCMerkleTx := tx
  vtxPrev := []
  mapValue := ∅
  vOrderForm := []
  fTimeReceivedIsTxTime := 0
  nTimeReceived := 0
  nTimeSmart := 0
  fFromMe := 0
  strFromAccount := []
  vfSpent := []
  nOrderPos := -1

/-- `fSpent` is a local variable. -/
def readSpentInto (wtx : Records.CWalletTx) : Into ReadState Records.CWalletTx := fun is ↦
  match readChar.run is with
  | .error _ => .error wtx
  | .ok (fSpent, is) =>
      .ok (Records.takeReserved wtx.toCMerkleTx wtx.vtxPrev wtx.mapValue wtx.vOrderForm
        wtx.fTimeReceivedIsTxTime wtx.nTimeReceived wtx.fFromMe fSpent, is)

/-- The fields behind the map. -/
def readFlagsInto (wtx : Records.CWalletTx) : Into ReadState Records.CWalletTx := fun is ↦ do
  let (wtx, is) ← field (fun vOrderForm ↦ { wtx with vOrderForm })
    (readVectorInto ([], []) readPairInto sizes.pair is)
  let (wtx, is) ← field (fun fTimeReceivedIsTxTime ↦ { wtx with fTimeReceivedIsTxTime })
    (atOnce (readUInt 4) wtx.fTimeReceivedIsTxTime is)
  let (wtx, is) ← field (fun nTimeReceived ↦ { wtx with nTimeReceived })
    (atOnce (readUInt 4) wtx.nTimeReceived is)
  let (wtx, is) ← field (fun fFromMe ↦ { wtx with fFromMe }) (atOnce readChar wtx.fFromMe is)
  readSpentInto wtx is

/-- The object is reset, but for what it has from `CMerkleTx`. -/
def readWalletTxInto (nAdjustedTime : ℕ) (wtx : Records.CWalletTx) :
    Into ReadState Records.CWalletTx := fun is ↦ do
  let wtx := initWalletTx wtx.toCMerkleTx
  let (wtx, is) ← field (fun toCMerkleTx ↦ { wtx with toCMerkleTx })
    (readMerkleTxInto sizes wtx.toCMerkleTx is)
  let (wtx, is) ← field (fun vtxPrev ↦ { wtx with vtxPrev })
    (readVectorInto (nullMerkleTx nAdjustedTime) (readMerkleTxInto sizes (nullMerkleTx nAdjustedTime))
      sizes.cMerkleTx is)
  let (wtx, is) ← field (fun mapValue ↦ { wtx with mapValue }) (readMapInto is)
  readFlagsInto sizes wtx is

theorem followsAll_readStringInto (str : List UInt8) : FollowsAll (readStringInto str) Records.readString := by
  intro is
  have hread : Records.readString.run is =
      readCompactSize.run is >>= fun p ↦ (stringData p.1).run p.2 := StateT.run_bind ..
  rw [hread, readStringInto]
  cases readCompactSize.run is with
  | error e => rfl
  | ok p =>
    obtain ⟨nSize, rest⟩ := p
    change Follows _ ((stringData nSize).run rest)
    dsimp only
    cases (stringData nSize).run rest <;> rfl

theorem followsAll_readBytesInto : FollowsAll readBytesInto readBytes := by
  intro is
  rw [readBytes, StateT.run_bind, readBytesInto]
  cases readCompactSize.run is with
  | error e => rfl
  | ok p =>
    have hblocks := FollowsAll.batchesInto (fun n ↦ followsAll_atOnce (readData n) (List.replicate n 0))
      (1 + 4999999) p.1 p.1
    exact hblocks p.2

theorem followsAll_readVectorInto {α : Type} {fresh : α} {into : Into ReadState α} {read : Reader α}
    (h : FollowsAll into read) (nElement : ℕ) :
    FollowsAll (readVectorInto fresh into nElement) (readVector read nElement) := by
  intro is
  rw [readVector, StateT.run_bind, readVectorInto]
  cases readCompactSize.run is with
  | error e => rfl
  | ok p =>
    have hblocks := FollowsAll.batchesInto (fun n ↦ @FollowsAll.itemsInto _ _ _ _ _ fresh h n)
      (5000000 / nElement) p.1 p.1
    exact hblocks p.2

theorem followsAll_readPairInto : FollowsAll readPairInto readPair := by
  intro is
  rw [readPair]
  refine (followsAll_readStringInto [] is).field_bind fun first is ↦ ?_
  exact (followsAll_readStringInto [] is).field fun _ _ ↦ rfl

theorem follows_insertItems (n : ℕ) (m : MapValue) (is : ReadState) :
    Follows (insertItems n m is) ((readItems readPair n).run is >>= fun p ↦
      Except.ok (p.1.foldl insertItem m, p.2)) := by
  induction n generalizing m is with
  | zero => rfl
  | succ n ih =>
    rw [readItems, StateT.run_bind, insertItems]
    cases readPair.run is with
    | error e => rfl
    | ok p =>
      obtain ⟨item, rest⟩ := p
      have hrest := ih (insertItem m item) rest
      change Follows (insertItems n (insertItem m item) rest) (((readItems readPair n).run rest >>= fun p ↦
        Except.ok (item :: p.1, p.2)) >>= fun p ↦ Except.ok (p.1.foldl insertItem m, p.2))
      revert hrest
      cases (readItems readPair n).run rest <;> exact id

theorem followsAll_readMapInto : FollowsAll readMapInto Records.readMap := by
  intro is
  rw [Records.readMap, StateT.run_bind, readMapInto]
  cases readCompactSize.run is with
  | error e => rfl
  | ok p => exact follows_insertItems p.1 ∅ p.2

theorem followsAll_readTxInInto (txin : CTxIn) : FollowsAll (readTxInInto txin) readTxIn := by
  intro is
  rw [readTxIn]
  refine (followsAll_atOnce readOutPoint txin.prevout is).field_bind fun prevout is ↦ ?_
  refine (followsAll_readBytesInto is).field_bind fun scriptSig is ↦ ?_
  exact (followsAll_atOnce (readUInt 4) txin.nSequence is).field fun _ _ ↦ rfl

theorem followsAll_readTxOutInto (txout : CTxOut) : FollowsAll (readTxOutInto txout) readTxOut := by
  intro is
  rw [readTxOut]
  refine (followsAll_atOnce (readInt 8) txout.nValue is).field_bind fun nValue is ↦ ?_
  exact (followsAll_readBytesInto is).field fun _ _ ↦ rfl

theorem followsAll_readTransactionInto (tx : CTransaction) :
    FollowsAll (readTransactionInto sizes tx) (readTx sizes.toElementSizes) := by
  intro is
  rw [readTx]
  refine (followsAll_atOnce (readInt 4) tx.nVersion is).field_bind fun nVersion is ↦ ?_
  refine (followsAll_atOnce (readUInt 4) tx.nTime is).field_bind fun nTime is ↦ ?_
  refine (followsAll_readVectorInto (followsAll_readTxInInto nullTxIn) sizes.cTxIn is).field_bind
    fun vin is ↦ ?_
  refine (followsAll_readVectorInto (followsAll_readTxOutInto nullTxOut) sizes.cTxOut is).field_bind
    fun vout is ↦ ?_
  exact (followsAll_atOnce (readUInt 4) tx.nLockTime is).field fun _ _ ↦ rfl

theorem followsAll_readMerkleTxInto (tx : CMerkleTx) :
    FollowsAll (readMerkleTxInto sizes tx) (Records.readMerkleTx sizes) := by
  intro is
  rw [Records.readMerkleTx]
  refine (followsAll_readTransactionInto sizes tx.toCTransaction is).field_bind fun tx' is ↦ ?_
  refine (followsAll_atOnce readUint256 tx.hashBlock is).field_bind fun hashBlock is ↦ ?_
  refine (followsAll_readVectorInto (followsAll_atOnce readUint256 0) 32 is).field_bind
    fun vMerkleBranch is ↦ ?_
  exact (followsAll_atOnce (readInt 4) tx.nIndex is).field fun _ _ ↦ rfl

theorem follows_readSpentInto (wtx : Records.CWalletTx) (is : ReadState) :
    Follows (readSpentInto wtx is) (readChar.run is >>= fun p ↦
      Except.ok (Records.takeReserved wtx.toCMerkleTx wtx.vtxPrev wtx.mapValue wtx.vOrderForm
        wtx.fTimeReceivedIsTxTime wtx.nTimeReceived wtx.fFromMe p.1, p.2)) := by
  unfold readSpentInto
  cases readChar.run is <;> rfl

theorem follows_readFlagsInto (wtx : Records.CWalletTx) (is : ReadState) :
    Follows (readFlagsInto sizes wtx is) ((do
      let vOrderForm ← readVector readPair sizes.pair
      let fTimeReceivedIsTxTime ← readUInt 4
      let nTimeReceived ← readUInt 4
      let fFromMe ← readChar
      let fSpent ← readChar
      return Records.takeReserved wtx.toCMerkleTx wtx.vtxPrev wtx.mapValue vOrderForm
        fTimeReceivedIsTxTime nTimeReceived fFromMe fSpent : Reader Records.CWalletTx).run is) := by
  refine (followsAll_readVectorInto followsAll_readPairInto sizes.pair is).field_bind
    fun vOrderForm is ↦ ?_
  refine (followsAll_atOnce (readUInt 4) wtx.fTimeReceivedIsTxTime is).field_bind
    fun fTimeReceivedIsTxTime is ↦ ?_
  refine (followsAll_atOnce (readUInt 4) wtx.nTimeReceived is).field_bind fun nTimeReceived is ↦ ?_
  refine (followsAll_atOnce readChar wtx.fFromMe is).field_bind fun fFromMe is ↦ ?_
  exact follows_readSpentInto { wtx with vOrderForm, fTimeReceivedIsTxTime, nTimeReceived, fFromMe } is

/-- A transaction is read into an object just when it can be read, and then nothing of the old one is
left. -/
theorem followsAll_readWalletTxInto (nAdjustedTime : ℕ) (wtx : Records.CWalletTx) :
    FollowsAll (readWalletTxInto sizes nAdjustedTime wtx) (Records.readWalletTx sizes) := by
  intro is
  rw [Records.readWalletTx]
  refine (followsAll_readMerkleTxInto sizes wtx.toCMerkleTx is).field_bind fun tx is ↦ ?_
  refine (followsAll_readVectorInto (followsAll_readMerkleTxInto sizes (nullMerkleTx nAdjustedTime))
    sizes.cMerkleTx is).field_bind fun vtxPrev is ↦ ?_
  refine (followsAll_readMapInto is).field_bind fun mapValue is ↦ ?_
  exact follows_readFlagsInto sizes
    { initWalletTx wtx.toCMerkleTx with toCMerkleTx := tx, vtxPrev, mapValue } is

end Electra.Wallet
