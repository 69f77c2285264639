import Electra.Text.Base58
import Electra.Text.Hex
import Electra.Wallet.BirthTimes
import Electra.Wallet.RecordRoundTrip

/-!
# Wallet dumps

A version byte and the 20 bytes of a key or script id, in Base58 with a checksum.

`dumpwallet` writes a line for every private key, with its birth time and what the key is for.
`importwallet` reads such a file line by line, enters the keys that the wallet does not have, and scans
the block chain again from two hours before the first of the times.
-/

namespace Electra.Wallet

open Chain Foundations Text

/-- `CBase58Data` and `CElectraAddress`. -/
structure CElectraAddress where
  nVersion : UInt8
  vchData : List UInt8
deriving DecidableEq

namespace CElectraAddress

def PUBKEY_ADDRESS : UInt8 := 33
def SCRIPT_ADDRESS : UInt8 := 40
def PUBKEY_ADDRESS_TEST : UInt8 := 92
def SCRIPT_ADDRESS_TEST : UInt8 := 41

variable (fTestNet : Bool) (hash : List UInt8 → Uint256)

/-- The bytes of an id in memory. -/
def setData (nVersion : UInt8) (id : CKeyID) : CElectraAddress := ⟨nVersion, Codec.leBytes 20 id.toNat⟩

/-- There is no address of no destination. -/
def set : CTxDestination → Option CElectraAddress
  | .keyID id => some (setData (if fTestNet then PUBKEY_ADDRESS_TEST else PUBKEY_ADDRESS) id)
  | .scriptID id => some (setData (if fTestNet then SCRIPT_ADDRESS_TEST else SCRIPT_ADDRESS) id)
  | .noDestination => none

def toString (addr : CElectraAddress) : List Char :=
  encodeBase58Check hash (addr.nVersion :: addr.vchData)

/-- The result, and what becomes of the address. -/
def setString (psz : List Char) : Bool × CElectraAddress :=
  match (decodeBase58Check hash psz).getD [] with
  | [] => (false, ⟨0, []⟩)
  | nVersion :: vchData => (true, ⟨nVersion, vchData⟩)

def isValid (addr : CElectraAddress) : Bool :=
  if addr.nVersion = PUBKEY_ADDRESS ∨ addr.nVersion = SCRIPT_ADDRESS then
    !fTestNet && addr.vchData.length = 20
  else if addr.nVersion = PUBKEY_ADDRESS_TEST ∨ addr.nVersion = SCRIPT_ADDRESS_TEST then
    fTestNet && addr.vchData.length = 20
  else false

def get (addr : CElectraAddress) : CTxDestination :=
  let id : CKeyID := BitVec.ofNat 160 (Codec.ofLeBytes (addr.vchData.take 20))
  if !isValid fTestNet addr then .noDestination
  else if addr.nVersion = PUBKEY_ADDRESS ∨ addr.nVersion = PUBKEY_ADDRESS_TEST then .keyID id
  else if addr.nVersion = SCRIPT_ADDRESS ∨ addr.nVersion = SCRIPT_ADDRESS_TEST then .scriptID id
  else .noDestination

variable {fTestNet : Bool} {hash : List UInt8 → Uint256} {addr : CElectraAddress}

@[simp]
theorem setString_toString : setString hash (toString hash addr) = (true, addr) := by
  rw [setString, toString, decodeBase58Check_encodeBase58Check]
  rfl

theorem id_leBytes (id : CKeyID) :
    BitVec.ofNat 160 (Codec.ofLeBytes ((Codec.leBytes 20 id.toNat).take 20)) = id := by
  have htake : (Codec.leBytes 20 id.toNat).take 20 = Codec.leBytes 20 id.toNat :=
    List.take_of_length_le (Codec.length_leBytes 20 _).le
  rw [htake, Codec.ofLeBytes_leBytes id.isLt, BitVec.ofNat_toNat, BitVec.setWidth_eq]

theorem get_set {dest : CTxDestination} (h : set fTestNet dest = some addr) :
    get fTestNet addr = dest := by
  cases dest with
  | noDestination => cases h
  | keyID id =>
    obtain rfl := Option.some.inj h
    unfold get
    simp only [setData, id_leBytes, isValid, Codec.length_leBytes]
    cases fTestNet <;> rfl
  | scriptID id =>
    obtain rfl := Option.some.inj h
    unfold get
    simp only [setData, id_leBytes, isValid, Codec.length_leBytes]
    cases fTestNet <;> rfl

/-- The round trips of Base58.  What is accepted is written again, up to the white space around it, unless
the string has a NUL in it, which ends what is read. -/
theorem base58_iff (hash : List UInt8 → Uint256) (fTestNet : Bool) :
    (∀ v, decodeBase58 (encodeBase58 v) = some v) ∧
    (∀ v, decodeBase58Check hash (encodeBase58Check hash v) = some v) ∧
    (∀ dest addr, set fTestNet dest = some addr →
      ∃ addr', setString hash (toString hash addr) = (true, addr') ∧ get fTestNet addr' = dest) ∧
    ∀ str v, decodeBase58 str = some v → (encodeBase58 v = trim str ↔ '\x00' ∉ str) := by
  refine ⟨decodeBase58_encodeBase58, decodeBase58Check_encodeBase58Check hash, ?_, ?_⟩
  · intro dest addr h
    exact ⟨addr, setString_toString, get_set h⟩
  · intro str v h
    exact encodeBase58_eq_trim_iff h

/-- What stands behind a NUL is dropped. -/
theorem not_encodeBase58_of_accepted :
    ¬∀ str v, decodeBase58 str = some v → encodeBase58 v = trim str := by
  intro h
  have hbyte : encodeBase58 [0] = ['1'] := by
    rw [encodeBase58_eq]
    rfl
  have hdecode : decodeBase58 ['1', '\x00', 'x'] = some [0] := by decide
  have htrim := h _ _ hdecode
  rw [hbyte] at htrim
  exact absurd htrim (by decide)

end CElectraAddress

open Node
open Records (ofText ofString cStr)

/-- A secret of 32 bytes, and whether its public key is compressed. -/
structure SecretKey where
  vchSecret : List UInt8
  fCompressed : Bool
  length_vchSecret : vchSecret.length = 32
deriving DecidableEq

section Secrets

variable (fTestNet : Bool) (hash : List UInt8 → Uint256)

def secretVersion : UInt8 :=
  128 + if fTestNet then CElectraAddress.PUBKEY_ADDRESS_TEST else CElectraAddress.PUBKEY_ADDRESS

/-- `CElectraSecret::SetSecret`. -/
def SecretKey.toData (key : SecretKey) : CElectraAddress :=
  ⟨secretVersion fTestNet, key.vchSecret ++ if key.fCompressed then [1] else []⟩

def SecretKey.toText (key : SecretKey) : List UInt8 :=
  ofText (CElectraAddress.toString hash (key.toData fTestNet))

/-- `CElectraSecret::IsValid`. -/
def isSecret (data : CElectraAddress) : Bool :=
  data.nVersion = secretVersion fTestNet &&
    (data.vchData.length = 32 || (data.vchData.length = 33 && data.vchData.getD 32 0 = 1))

theorem length_of_isSecret {data : CElectraAddress} (h : isSecret fTestNet data = true) :
    (data.vchData.take 32).length = 32 := by
  simp only [isSecret, Bool.and_eq_true, Bool.or_eq_true, decide_eq_true_iff] at h
  rw [List.length_take]
  omega

/-- `CElectraSecret::SetString` and `GetSecret`. -/
def secretOfText (strSecret : List UInt8) : Option SecretKey :=
  let data := CElectraAddress.setString hash (cStr strSecret)
  if h : data.1 = true ∧ isSecret fTestNet data.2 = true then
    some ⟨data.2.vchData.take 32, data.2.vchData.length = 33, length_of_isSecret fTestNet h.2⟩
  else none

end Secrets

/-- A comment of one line. -/
structure CommentLine where
  text : List UInt8
  head?_text : text.head? = some 35
  notMem_text : 10 ∉ text

/-- What dumps depend on: the network with its hash, the id of the public key of a secret, which throws for
a bad secret, and the format of times. -/
structure DumpEnv where
  owner : OwnerEnv
  fTestNet : Bool
  hash : List UInt8 → Uint256
  keyID : SecretKey → Option CKeyID
  encodeDumpTime : ℤ → List UInt8
  decodeDumpTime : List UInt8 → ℤ

/-- The parts of an unlocked wallet that dumps are about.  Every key stands under the id of its public key.
Of the metadata only the time of creation is there, and of the key pool the ids, which are `none` where
the database cannot be read. -/
structure DumpWallet (env : DumpEnv) where
  mapKeys : AList fun _ : CKeyID ↦ SecretKey
  keyID_mapKeys : ∀ keyid key, mapKeys.lookup keyid = some key → env.keyID key = some keyid
  mapScripts : AList fun _ : CKeyID ↦ CScript
  mapKeyMetadata : AList fun _ : CKeyID ↦ ℤ
  mapWallet : List CWalletTx
  mapAddressBook : CTxDestination → Option (List UInt8)
  setKeyPool : List (Option CKeyID)
  nTimeFirstKey : ℤ

variable (env : DumpEnv)

namespace DumpWallet

variable {env} (wallet : DumpWallet env)

def keystore : OwnerStore := ⟨wallet.mapKeys.keys.toFinset, wallet.mapScripts⟩

def haveKey (keyid : CKeyID) : Bool := (wallet.mapKeys.lookup keyid).isSome

def getAllReserveKeys : Except String (List CKeyID) :=
  wallet.setKeyPool.mapM fun
    | none => .error "GetAllReserveKeyHashes() : read failed"
    | some keyID =>
        if wallet.haveKey keyID then .ok keyID
        else .error "GetAllReserveKeyHashes() : unknown key in key pool"

/-- The times of creation in the metadata. -/
def creationTimes : List (CKeyID × ℤ) := wallet.mapKeyMetadata.entries.map fun entry ↦ (entry.1, entry.2)

def birthTimes (st : NodeState) (pblockindexFBBHLast : Option PIndex) : Option (List (CKeyID × ℤ)) :=
  getKeyBirthTimes env.owner st pblockindexFBBHLast wallet.keystore wallet.creationTimes
    wallet.mapKeys.keys wallet.mapWallet

end DumpWallet

section Dump

variable {env} (wallet : DumpWallet env)

/-- What the key is for. -/
def dumpMark (setKeyPool : List CKeyID) (keyid : CKeyID) : List UInt8 :=
  match wallet.mapAddressBook (.keyID keyid) with
  | some label => ofString "label=" ++ encodeDumpString label
  | none => if keyid ∈ setKeyPool then ofString "reserve=1" else ofString "change=1"

def dumpAddress (keyid : CKeyID) : List UInt8 :=
  ofText (CElectraAddress.toString env.hash (CElectraAddress.setData
    (if env.fTestNet then CElectraAddress.PUBKEY_ADDRESS_TEST else CElectraAddress.PUBKEY_ADDRESS) keyid))

/-- `"%s %s label=%s # addr=%s\n"` and its two variants. -/
def dumpLine (setKeyPool : List CKeyID) (nTime : ℤ) (keyid : CKeyID) (key : SecretKey) : List UInt8 :=
  [32].intercalate [key.toText env.fTestNet env.hash, env.encodeDumpTime nTime,
    dumpMark wallet setKeyPool keyid, ofString "#", ofString "addr=" ++ @dumpAddress env keyid]

/-- Sort time/key pairs. -/
def sortBirths (mapKeyBirth : List (CKeyID × ℤ)) : List (ℤ × CKeyID) :=
  (mapKeyBirth.map fun birth ↦ (birth.2, birth.1)).mergeSort fun birth birth' ↦
    decide (birth.1 < birth'.1 ∨ birth.1 = birth'.1 ∧ birth.2 ≤ birth'.2)

/-- The lines of the keys that the wallet has. -/
def keyLines (setKeyPool : List CKeyID) (vKeyBirth : List (ℤ × CKeyID)) : List (List UInt8) :=
  vKeyBirth.filterMap fun birth ↦
    (wallet.mapKeys.lookup birth.2).map fun key ↦ dumpLine wallet setKeyPool birth.1 birth.2 key

def endl (line : List UInt8) : List UInt8 := line ++ [10]

/-- The file with some comments at its top, or the text of an error. -/
def dumpwallet (header : List CommentLine) (st : NodeState) (pblockindexFBBHLast : Option PIndex) :
    Except String (List UInt8) := do
  let mapKeyBirth ← Outcome.require (wallet.birthTimes st pblockindexFBBHLast) "null pointer"
  let setKeyPool ← wallet.getAllReserveKeys
  .ok ((header.map CommentLine.text ++ [[]] ++ keyLines wallet setKeyPool (sortBirths mapKeyBirth) ++
    [[], ofString "# End of dump"]).flatMap endl)

end Dump

/-- `AddKey`: the secret cannot be encrypted, or the key is in the wallet but not in its database, or in
both. -/
inductive AddKeyResult
  | refused
  | unwritten
  | added
deriving DecidableEq

def DumpWallet.addKey {env : DumpEnv} (wallet : DumpWallet env) (keyid : CKeyID) (key : SecretKey)
    (h : env.keyID key = some keyid) : DumpWallet env where
  mapKeys := wallet.mapKeys.insert keyid key
  keyID_mapKeys := by
    intro keyid' key' hlookup
    by_cases heq : keyid' = keyid
    · subst heq
      rw [AList.lookup_insert] at hlookup
      rw [← Option.some.inj hlookup]
      exact h
    · rw [AList.lookup_insert_ne heq] at hlookup
      exact wallet.keyID_mapKeys keyid' key' hlookup
  mapScripts := wallet.mapScripts
  mapKeyMetadata := wallet.mapKeyMetadata
  mapWallet := wallet.mapWallet
  mapAddressBook := wallet.mapAddressBook
  setKeyPool := wallet.setKeyPool
  nTimeFirstKey := wallet.nTimeFirstKey

/-- The tokens of a line up to a comment, as far as they say something: the label, and whether there is
one. -/
def readMarks : List (List UInt8) → List UInt8 × Bool → List UInt8 × Bool
  | [], label => label
  | mark :: marks, label =>
      if (ofString "#").isPrefixOf mark then label
      else
        let fLabel := if mark = ofString "change=1" ∨ mark = ofString "reserve=1" then false else label.2
        if (ofString "label=").isPrefixOf mark then readMarks marks (decodeDumpString (mark.drop 6), true)
        else readMarks marks (label.1, fLabel)

structure ImportState (env : DumpEnv) where
  wallet : DumpWallet env
  nTimeBegin : ℤ
  fGood : Bool

section Import

variable {env} (addKeyResult : CKeyID → AddKeyResult)

/-- A key that was added gets its time and its label. -/
def ImportState.keyAdded (s : ImportState env) (wallet : DumpWallet env) (keyid : CKeyID) (nTime : ℤ)
    (label : List UInt8 × Bool) : ImportState env where
  wallet := { wallet with
    mapKeyMetadata := wallet.mapKeyMetadata.insert keyid nTime
    mapAddressBook := if label.2 then Function.update wallet.mapAddressBook (.keyID keyid) (some label.1)
      else wallet.mapAddressBook }
  nTimeBegin := min s.nTimeBegin nTime
  fGood := s.fGood

/-- The import of a key that was read. -/
def importKey (s : ImportState env) (keyid : CKeyID) (key : SecretKey) (h : env.keyID key = some keyid)
    (nTime : ℤ) (label : List UInt8 × Bool) : ImportState env :=
  if s.wallet.haveKey keyid then s
  else
    match addKeyResult keyid with
    | .refused => { s with fGood := false }
    | .unwritten => { s with wallet := s.wallet.addKey keyid key h, fGood := false }
    | .added => s.keyAdded (s.wallet.addKey keyid key h) keyid nTime label

/-- `none` if the key throws. -/
def importLine (s : ImportState env) (line : List UInt8) : Option (ImportState env) :=
  if line.isEmpty || line.head? = some 35 then some s
  else
    match line.splitOn 32 with
    | strSecret :: strTime :: marks =>
        match secretOfText env.fTestNet env.hash strSecret with
        | none => some s
        | some key =>
            match h : env.keyID key with
            | none => none
            | some keyid => some (importKey addKeyResult s keyid key h (env.decodeDumpTime strTime)
                (readMarks marks ([], true)))
    | _ => some s

/-- The walk back to a block that is old enough. -/
def rescanStart (nTimeBegin : ℤ) : PIndex → PIndex
  | index :: pprev :: below =>
      if (index.nTime : ℤ) > nTimeBegin - 7200 then rescanStart nTimeBegin (pprev :: below)
      else index :: pprev :: below
  | pindex => pindex

/-- The wallet after the lines of the file, the block from which the chain is scanned again, and whether
all keys could be added. -/
structure Imported (env : DumpEnv) where
  wallet : DumpWallet env
  pindex : PIndex
  fGood : Bool

/-- `importwallet` up to the scan. -/
def importwallet (st : NodeState) (wallet : DumpWallet env) (file : List UInt8) : Option (Imported env) := do
  let s ← (file.splitOn 10).foldlM (importLine addKeyResult) ⟨wallet, st.pindexBest.nTime, true⟩
  some {
    wallet := { s.wallet with
      nTimeFirstKey := if s.wallet.nTimeFirstKey = 0 ∨ s.nTimeBegin < s.wallet.nTimeFirstKey then
        s.nTimeBegin else s.wallet.nTimeFirstKey }
    pindex := rescanStart s.nTimeBegin st.pindexBest
    fGood := s.fGood }

end Import

end Electra.Wallet
