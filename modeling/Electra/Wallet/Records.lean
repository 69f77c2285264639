import Electra.Net.Serialize
import Electra.Text.Money
import Std.Data.ExtTreeMap

/-!
# Wallet records

How transactions and accounting entries are written to the wallet file.  Fields that came later are put
into `mapValue` under keys of their own, or after the end of the comment, and are taken out again both
by the reader and by the writer.
-/

namespace Electra.Wallet.Records

open Chain Net Text Foundations.Codec

/-- The characters of `c_str()`. -/
def cStr (s : List UInt8) : List Char := (s.takeWhile (· ≠ 0)).map fun b ↦ Char.ofNat b.toNat

def ofText (text : List Char) : List UInt8 := text.map fun c ↦ UInt8.ofNat c.toNat

def ofString (text : String) : List UInt8 := ofText text.toList

/-- `std::string` is written like a vector of bytes, and read at once. -/
def readString : Reader (List UInt8) := do
  let nSize ← readCompactSize
  if nSize ≠ 0 then readData nSize else return []

def writePair (item : List UInt8 × List UInt8) : List UInt8 := writeBytes item.1 ++ writeBytes item.2

def readPair : Reader (List UInt8 × List UInt8) := do
  let first ← readString
  let second ← readString
  return (first, second)

/-- `mapValue_t`: keys are in the order of their bytes. -/
abbrev MapValue := Std.ExtTreeMap (List UInt8) (List UInt8)

def writeMap (m : MapValue) : List UInt8 := writeCompactSize m.size ++ m.toList.flatMap writePair

/-- `insert` keeps the value of a key that is there. -/
def insertItem (m : MapValue) (item : List UInt8 × List UInt8) : MapValue := m.insertIfNew item.1 item.2

def readMap : Reader MapValue := do
  let nSize ← readCompactSize
  let items ← readItems readPair nSize
  return items.foldl insertItem ∅

def readOrderPos (mapValue : MapValue) : ℤ :=
  match mapValue[ofString "n"]? with
  | none => -1
  | some text => atoi64 (cStr text)

def writeOrderPos (nOrderPos : ℤ) (mapValue : MapValue) : MapValue :=
  if nOrderPos = -1 then mapValue else mapValue.insert (ofString "n") (ofText (i64tostr nOrderPos))

structure CMerkleTx extends CTransaction where
  hashBlock : Uint256
  vMerkleBranch : List Uint256
  nIndex : ℤ
deriving DecidableEq

/-- What a wallet keeps with a transaction, without the cached sums. -/
structure CWalletTx extends CMerkleTx where
  vtxPrev : List CMerkleTx
  mapValue : MapValue
  vOrderForm : List (List UInt8 × List UInt8)
  fTimeReceivedIsTxTime : ℕ
  nTimeReceived : ℕ
  nTimeSmart : ℕ
  fFromMe : UInt8
  strFromAccount : List UInt8
  vfSpent : List UInt8
  nOrderPos : ℤ
deriving DecidableEq

/-- Sizes of the elements of the vectors in a record. -/
structure RecordSizes extends ElementSizes where
  cMerkleTx : ℕ
  pair : ℕ
  cMerkleTx_pos : 0 < 5000000 / cMerkleTx
  pair_pos : 0 < 5000000 / pair

variable (sizes : RecordSizes)

def writeMerkleTx (tx : CMerkleTx) : List UInt8 :=
  writeTx tx.toCTransaction ++ (writeUint256 tx.hashBlock ++
    (writeVector writeUint256 tx.vMerkleBranch ++ writeInt 4 tx.nIndex))

def readMerkleTx : Reader CMerkleTx := do
  let tx ← readTx sizes.toElementSizes
  let hashBlock ← readUint256
  let vMerkleBranch ← readVector readUint256 32
  let nIndex ← readInt 4
  return ⟨tx, hashBlock, vMerkleBranch, nIndex⟩

def readChar : Reader UInt8 := do
  let n ← readUInt 1
  return UInt8.ofNat n

/-- The flags as a text of the characters 0 and 1. -/
def spentText (vfSpent : List UInt8) : List UInt8 :=
  vfSpent.map fun f ↦ if f ≠ 0 then UInt8.ofNat '1'.toNat else UInt8.ofNat '0'.toNat

def spentFlags (text : List UInt8) : List UInt8 :=
  text.map fun c ↦ if c ≠ UInt8.ofNat '0'.toNat then 1 else 0

/-- The fields that are put into the map before it is written. -/
def CWalletTx.putReserved (wtx : CWalletTx) : MapValue :=
  let mapValue := (wtx.mapValue.insert (ofString "fromaccount") wtx.strFromAccount).insert
    (ofString "spent") (spentText wtx.vfSpent)
  let mapValue := writeOrderPos wtx.nOrderPos mapValue
  if wtx.nTimeSmart ≠ 0 then
    mapValue.insert (ofString "timesmart") (ofText (Nat.toDigits 10 wtx.nTimeSmart))
  else mapValue

def reservedKeys : List (List UInt8) :=
  ["fromaccount", "version", "spent", "n", "timesmart"].map ofString

/-- The erasures at the end. -/
def eraseReserved (mapValue : MapValue) : MapValue :=
  reservedKeys.foldl (fun m key ↦ m.erase key) mapValue

/-- What is written, and the object afterwards. -/
def writeWalletTx (wtx : CWalletTx) : List UInt8 × CWalletTx :=
  let fSpent : UInt8 := if wtx.vfSpent.any (· ≠ 0) then 1 else 0
  let wtx := { wtx with mapValue := wtx.putReserved }
  (writeMerkleTx wtx.toCMerkleTx ++ (writeVector writeMerkleTx wtx.vtxPrev ++
    (writeMap wtx.mapValue ++ (writeVector writePair wtx.vOrderForm ++
      (writeUInt 4 wtx.fTimeReceivedIsTxTime ++ (writeUInt 4 wtx.nTimeReceived ++
        (writeUInt 1 wtx.fFromMe.toNat ++ writeUInt 1 fSpent.toNat)))))),
    { wtx with mapValue := eraseReserved wtx.mapValue })

def readTimeSmart (mapValue : MapValue) : ℕ :=
  match mapValue[ofString "timesmart"]? with
  | some text => (atoi64 (cStr text) % 2 ^ 32).toNat
  | none => 0

/-- Records without the text have one flag for all outputs. -/
def readSpent (mapValue : MapValue) (nOutputs : ℕ) (fSpent : UInt8) : List UInt8 :=
  match mapValue[ofString "spent"]? with
  | some text => spentFlags text
  | none => List.replicate nOutputs fSpent

/-- Take the fields that were put into the map from it, after everything is read. -/
def takeReserved (tx : CMerkleTx) (vtxPrev : List CMerkleTx) (mapValue : MapValue)
    (vOrderForm : List (List UInt8 × List UInt8)) (fTimeReceivedIsTxTime nTimeReceived : ℕ)
    (fFromMe fSpent : UInt8) : CWalletTx where
  toCMerkleTx := tx
  vtxPrev := vtxPrev
  mapValue := eraseReserved mapValue
  vOrderForm := vOrderForm
  fTimeReceivedIsTxTime := fTimeReceivedIsTxTime
  nTimeReceived := nTimeReceived
  nTimeSmart := readTimeSmart mapValue
  fFromMe := fFromMe
  strFromAccount := (mapValue[ofString "fromaccount"]?).getD []
  vfSpent := readSpent mapValue tx.vout.length fSpent
  nOrderPos := readOrderPos mapValue

/-- The object is reset before it is read. -/
def readWalletTx : Reader CWalletTx := do
  let tx ← readMerkleTx sizes
  let vtxPrev ← readVector (readMerkleTx sizes) sizes.cMerkleTx
  let mapValue ← readMap
  let vOrderForm ← readVector readPair sizes.pair
  let fTimeReceivedIsTxTime ← readUInt 4
  let nTimeReceived ← readUInt 4
  let fFromMe ← readChar
  let fSpent ← readChar
  return takeReserved tx vtxPrev mapValue vOrderForm fTimeReceivedIsTxTime nTimeReceived fFromMe fSpent

/-- Without the account and the number, which are in the record's key. -/
structure CAccountingEntry where
  nCreditDebit : ℤ
  nTime : ℤ
  strOtherAccount : List UInt8
  strComment : List UInt8
  mapValue : MapValue
  nOrderPos : ℤ
  ssExtra : List UInt8
deriving DecidableEq

/-- A fresh object: `SetNull`. -/
def CAccountingEntry.null : CAccountingEntry := ⟨0, 0, [], [], ∅, -1, []⟩

/-- `!(nType & SER_GETHASH)`. -/
def hasVersion (nType : ℕ) : Bool := nType &&& SER_GETHASH == 0

/-- The comment that is written: map and extra bytes follow a zero byte, if there are any. -/
def CAccountingEntry.writtenComment (entry : CAccountingEntry) : List UInt8 :=
  let mapValue := writeOrderPos entry.nOrderPos entry.mapValue
  if mapValue.isEmpty && entry.ssExtra.isEmpty then entry.strComment
  else entry.strComment ++ 0 :: (writeMap mapValue ++ entry.ssExtra)

/-- What is written, and the object afterwards. -/
def writeAccountingEntry (nType : ℕ) (nVersion : ℤ) (entry : CAccountingEntry) :
    List UInt8 × CAccountingEntry :=
  ((if hasVersion nType then writeInt 4 nVersion else []) ++ (writeInt 8 entry.nCreditDebit ++
    (writeInt 8 entry.nTime ++ (writeBytes entry.strOtherAccount ++ writeBytes entry.writtenComment))),
    { entry with
      strComment := entry.writtenComment.takeWhile (· ≠ 0)
      mapValue := (writeOrderPos entry.nOrderPos entry.mapValue).erase (ofString "n") })

/-- Map and extra bytes after the first zero byte of the comment, if there is one. -/
def readEmbedded (strComment : List UInt8) : Except String (Option (MapValue × List UInt8)) :=
  match strComment.dropWhile (· ≠ 0) with
  | [] => .ok none
  | _ :: embedded =>
    match readMap.run ⟨.ofBytes embedded, []⟩ with
    | .error text => .error text
    | .ok (mapValue, ss) => .ok (some (mapValue, ss.unread))

def readVersion (nType : ℕ) : Reader Unit :=
  if hasVersion nType then do
    let _ ← readInt 4
    return ()
  else return ()

/-- Reads into an object, whose extra bytes stay if the comment has no zero byte. -/
def readAccountingEntry (nType : ℕ) (me : CAccountingEntry) : Reader CAccountingEntry := do
  readVersion nType
  let nCreditDebit ← readInt 8
  let nTime ← readInt 8
  let strOtherAccount ← readString
  let strComment ← readString
  match readEmbedded strComment with
  | .error text => failure text
  | .ok embedded =>
    let (mapValue, ssExtra) := embedded.getD (∅, me.ssExtra)
    return {
      nCreditDebit := nCreditDebit
      nTime := nTime
      strOtherAccount := strOtherAccount
      strComment := strComment.takeWhile (· ≠ 0)
      mapValue := mapValue.erase (ofString "n")
      nOrderPos := readOrderPos mapValue
      ssExtra := ssExtra }

end Electra.Wallet.Records
