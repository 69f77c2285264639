import Electra.Chain.Builders
import Electra.Script.CombineValid
import Electra.Script.KeyRuns
import Electra.Script.SignatureHash
import Electra.Wallet.CachedAmounts

/-!
# Spending what is ours

`SignSignature` lets the key store produce the signatures that the script of a coin asks for, and then
runs the interpreter on what it has built.  Behind a script hash it signs for the redeem script, which it
pushes last.

A script that `IsMine` accepts and that is no script hash gets a script of pushes that the interpreter
accepts.  Behind a script hash this takes a redeem script that is no script hash itself and that fits
into one push.
-/

namespace Electra.Wallet

open Chain Script

def SIGHASH_ALL : BitVec 32 := 1

/-- The digests and the signatures of keys. -/
structure SignEnv (Key : Type) where
  P : ChainParams
  digests : Crypto
  signHash : List UInt8 → Uint256
  getPubKey : Key → Valtype
  sign : Key → Uint256 → Option Valtype
  /-- `SetPubKey` and `Verify`. -/
  verify : Valtype → Uint256 → Valtype → Bool

namespace SignEnv

variable {Key : Type} (env : SignEnv Key)

/-- The identifier of a public key or of a script. -/
def getID (vch : Valtype) : CKeyID := uint160 (env.digests.hash160 vch).toList

def owner : OwnerEnv := ⟨env.P, env.getID, env.getID⟩

/-- `CheckSig`: the hash type is one byte tacked on to the end of the signature. -/
def checkSig (txTo : CTransaction) (nIn : ℕ) (nHashType : BitVec 32) (vchSig vchPubKey : Valtype)
    (scriptCode : CScript) : Bool :=
  match vchSig.getLast? with
  | none => false
  | some back =>
      let nLast := BitVec.ofNat 32 back.toNat
      if nHashType ≠ 0 ∧ nHashType ≠ nLast then false
      else env.verify vchPubKey (signatureHash env.signHash scriptCode txTo nIn nLast) vchSig.dropLast

/-- What the interpreter uses for an input. -/
def crypto (txTo : CTransaction) (nIn : ℕ) (nHashType : BitVec 32) : Crypto :=
  { env.digests with checkSig := env.checkSig txTo nIn nHashType }

/-- `VerifyScript` for an input. -/
def verifyScript (scriptSig scriptPubKey : CScript) (txTo : CTransaction) (nIn : ℕ)
    (nHashType : BitVec 32) : Bool :=
  match (Script.verifyScript (env.crypto txTo nIn nHashType) scriptSig scriptPubKey).result with
  | .ok _ => true
  | .error _ => false

theorem verifyScript_iff {scriptSig scriptPubKey : CScript} {txTo : CTransaction} {nIn : ℕ}
    {nHashType : BitVec 32} : env.verifyScript scriptSig scriptPubKey txTo nIn nHashType = true ↔
      (Script.verifyScript (env.crypto txTo nIn nHashType) scriptSig scriptPubKey).result = .ok () := by
  unfold verifyScript
  split
  · next heq => exact iff_of_true rfl heq
  · next heq => exact iff_of_false Bool.false_ne_true (heq ▸ nofun)

end SignEnv

/-- A key store with the private keys it can hand out. -/
structure SigningStore (Key : Type) extends OwnerStore where
  getKey : CKeyID → Option Key
  getPubKey : CKeyID → Option Valtype

/-- `txin.scriptSig`, by reference. -/
def setScriptSig (txTo : CTransaction) (nIn : ℕ) (scriptSig : CScript) : CTransaction :=
  { txTo with vin := txTo.vin.modify nIn fun txin ↦ { txin with scriptSig } }

theorem setScriptSig_setScriptSig (txTo : CTransaction) (nIn : ℕ) (scriptSig scriptSig' : CScript) :
    setScriptSig (setScriptSig txTo nIn scriptSig) nIn scriptSig' = setScriptSig txTo nIn scriptSig' := by
  unfold setScriptSig
  rw [List.modify_modify_eq]
  rfl

namespace SigningStore

variable {Key : Type} (env : SignEnv Key) (keystore : SigningStore Key)

def sign1 (address : CKeyID) (hash : Uint256) (nHashType : BitVec 32) (scriptSigRet : CScript) :
    Bool × CScript :=
  match keystore.getKey address with
  | none => (false, scriptSigRet)
  | some key =>
      match env.sign key hash with
      | none => (false, scriptSigRet)
      | some vchSig => (true, pushBytes scriptSigRet (vchSig ++ [UInt8.ofNat nHashType.toNat]))

/-- The loop of `SignN`, with the number of signatures that are missing. -/
def signNFrom (hash : Uint256) (nHashType : BitVec 32) : ℕ → List Valtype → CScript → Bool × CScript
  | 0, _, scriptSigRet => (true, scriptSigRet)
  | _ + 1, [], scriptSigRet => (false, scriptSigRet)
  | nMissing + 1, pubkey :: pubkeys, scriptSigRet =>
      let (fSigned, scriptSigRet) := keystore.sign1 env (env.getID pubkey) hash nHashType scriptSigRet
      signNFrom hash nHashType (if fSigned then nMissing else nMissing + 1) pubkeys scriptSigRet

def signN (multisigdata : List Valtype) (hash : Uint256) (nHashType : BitVec 32) (scriptSigRet : CScript) :
    Bool × CScript :=
  keystore.signNFrom env hash nHashType ((multisigdata.headD []).headD 0).toNat
    (multisigdata.drop 1).dropLast scriptSigRet

/-- `Solver` with a key store: whether the script is satisfied, the signatures or the redeem script, and
the type. -/
def solver (scriptPubKey : CScript) (hash : Uint256) (nHashType : BitVec 32) :
    Bool × CScript × Script.TxnOutType :=
  let (fSolved, whichType, vSolutions) := Script.solver scriptPubKey .nonstandard []
  if !fSolved then (false, [], whichType)
  else
    match whichType with
    | .nonstandard => (false, [], .nonstandard)
    | .pubkey =>
        let (fSigned, scriptSigRet) := keystore.sign1 env (env.getID (vSolutions.headD [])) hash nHashType []
        (fSigned, scriptSigRet, .pubkey)
    | .pubkeyhash =>
        let keyID := uint160 (vSolutions.headD [])
        let (fSigned, scriptSigRet) := keystore.sign1 env keyID hash nHashType []
        if !fSigned then (false, scriptSigRet, .pubkeyhash)
        else (true, pushBytes scriptSigRet ((keystore.getPubKey keyID).getD []), .pubkeyhash)
    | .scripthash =>
        match keystore.mapScripts.lookup (uint160 (vSolutions.headD [])) with
        | none => (false, [], .scripthash)
        | some subscript => (true, subscript, .scripthash)
    | .multisig =>
        -- workaround CHECKMULTISIG bug
        let (fSigned, scriptSigRet) := keystore.signN env vSolutions hash nHashType [OP_0]
        (fSigned, scriptSigRet, .multisig)

/-- `SignSignature`: whether the input is signed, and the transaction with its script.  The index is
asserted to be in range. -/
def signSignature (fromPubKey : CScript) (txTo : CTransaction) (nIn : ℕ) (nHashType : BitVec 32) :
    Option (Bool × CTransaction) :=
  if txTo.vin.length ≤ nIn then none
  else
    let hash := signatureHash env.signHash fromPubKey txTo nIn nHashType
    let (fSolved, scriptSig, whichType) := keystore.solver env fromPubKey hash nHashType
    let txTo := setScriptSig txTo nIn scriptSig
    if !fSolved then some (false, txTo)
    else if whichType = .scripthash then
      let subscript := scriptSig
      -- Recompute txn hash using subscript in place of scriptPubKey:
      let hash2 := signatureHash env.signHash subscript txTo nIn nHashType
      let (fSolved, scriptSig, subType) := keystore.solver env subscript hash2 nHashType
      -- Append serialized subscript whether or not it is completely signed:
      let scriptSig := pushBytes scriptSig subscript
      let txTo := setScriptSig txTo nIn scriptSig
      if !(fSolved && decide (subType ≠ .scripthash)) then some (false, txTo)
      else some (env.verifyScript scriptSig fromPubKey txTo nIn 0, txTo)
    else
      -- Test solution
      some (env.verifyScript scriptSig fromPubKey txTo nIn 0, txTo)

end SigningStore

open Foundations Foundations.GreedyMatch

variable {Key : Type} {env : SignEnv Key} {keystore : SigningStore Key}

namespace SignEnv

/-- Every key makes signatures that pass for it, and both have the form that the interpreter asks for. -/
structure SignsCorrectly (env : SignEnv Key) : Prop where
  verifies : ∀ key hash, ∃ vchSig, env.sign key hash = some vchSig ∧
    env.verify (env.getPubKey key) hash vchSig = true
  canonicalPubKey : ∀ key, isCanonicalPubKey (env.getPubKey key) = true
  canonicalSignature : ∀ key hash, ∀ vchSig ∈ env.sign key hash,
    isCanonicalSignature (vchSig ++ [1]) = true ∧
      vchSig ++ [1] ≠ (env.digests.hash160 (env.getPubKey key)).toList

end SignEnv

/-- The public keys that a script names. -/
def namedKeys (script : CScript) : List Valtype :=
  match Script.solver script .nonstandard [] with
  | (_, .pubkey, vSolutions) => vSolutions
  | (_, .multisig, vSolutions) => vSolutions.tail.dropLast
  | _ => []

namespace SigningStore

/-- The private keys and redeem scripts are there under their own identifiers. -/
structure Holds (env : SignEnv Key) (keystore : SigningStore Key) : Prop where
  key : ∀ keyID ∈ keystore.mapKeys, ∃ key, keystore.getKey keyID = some key ∧
    keystore.getPubKey keyID = some (env.getPubKey key) ∧ env.getID (env.getPubKey key) = keyID
  script : ∀ keyID, ∀ subscript ∈ keystore.mapScripts.lookup keyID, env.getID subscript = keyID

/-- No public key of the script shares its identifier with another key of the store. -/
def NamesOwnKeys (env : SignEnv Key) (keystore : SigningStore Key) (script : CScript) : Prop :=
  ∀ pubkey ∈ namedKeys script, ∀ key ∈ keystore.getKey (env.getID pubkey), pubkey = env.getPubKey key

/-- The redeem script of a script hash is no script hash itself, and can be pushed. -/
def RedeemFits (keystore : SigningStore Key) (scriptPubKey : CScript) : Prop :=
  isPayToScriptHash scriptPubKey = true →
    ∀ subscript ∈ keystore.mapScripts.lookup (uint160 ((scriptPubKey.drop 2).take 20)),
      isPayToScriptHash subscript = false ∧ subscript.length ≤ 520

end SigningStore

theorem uint160_inj {v w : Valtype} (hv : v.length = 20) (hw : w.length = 20) (h : uint160 v = uint160 w) :
    v = w := by
  have hlt {u : Valtype} (hu : u.length = 20) : Codec.ofLeBytes u < 2 ^ 160 := by
    have hbytes := Codec.ofLeBytes_lt u
    rw [hu] at hbytes
    exact hbytes.trans_le (by norm_num)
  have hsame : Codec.ofLeBytes v = Codec.ofLeBytes w := by
    unfold uint160 at h
    rw [if_pos hv, if_pos hw] at h
    have hnat := congrArg BitVec.toNat h
    rwa [BitVec.toNat_ofNat, BitVec.toNat_ofNat, Nat.mod_eq_of_lt (hlt hv),
      Nat.mod_eq_of_lt (hlt hw)] at hnat
  calc
    v = Codec.leBytes v.length (Codec.ofLeBytes v) := (Codec.leBytes_ofLeBytes v).symm
    _ = Codec.leBytes w.length (Codec.ofLeBytes w) := by rw [hsame, hv, hw]
    _ = w := Codec.leBytes_ofLeBytes w

theorem hash160_eq_of_uint160 {hash : Valtype} (hhash : hash.length = 20) {vch : Valtype}
    (h : env.getID vch = uint160 hash) : (env.digests.hash160 vch).toList = hash :=
  uint160_inj (Vector.length_toList) hhash h

theorem blankSignatures_setScriptSig {scriptCode scriptSig : CScript} {nIn : ℕ} (vin : List CTxIn) :
    blankSignatures scriptCode nIn (vin.modify nIn fun txin ↦ { txin with scriptSig }) =
      blankSignatures scriptCode nIn vin := by
  unfold blankSignatures
  congr 1
  apply List.ext_getElem?
  intro i
  rw [List.getElem?_map, List.getElem?_map, List.getElem?_modify]
  cases vin[i]? with
  | none => rfl
  | some txin => split_ifs <;> rfl

/-- A signature does not sign itself. -/
theorem signatureHash_setScriptSig (hash : List UInt8 → Uint256) (scriptCode : CScript)
    (txTo : CTransaction) (nIn : ℕ) (nHashType : BitVec 32) (scriptSig : CScript) :
    signatureHash hash scriptCode (setScriptSig txTo nIn scriptSig) nIn nHashType =
      signatureHash hash scriptCode txTo nIn nHashType := by
  unfold signatureHash signatureData blankedTx setScriptSig
  simp only [List.length_modify, blankSignatures_setScriptSig]

theorem checkSig_concat {txTo : CTransaction} {nIn : ℕ} {vchSig vchPubKey : Valtype}
    {scriptCode : CScript} : env.checkSig txTo nIn 0 (vchSig ++ [1]) vchPubKey scriptCode =
      env.verify vchPubKey (signatureHash env.signHash scriptCode txTo nIn SIGHASH_ALL) vchSig := by
  unfold SignEnv.checkSig
  rw [List.getLast?_concat, List.dropLast_concat]
  rfl

theorem firstByte_of_isCanonicalSignature {sig : Valtype} (h : isCanonicalSignature sig = true) :
    sig.getD 0 0 = 0x30 := by
  by_contra hhead
  unfold isCanonicalSignature at h
  simp only [hhead, ne_eq, not_false_eq_true, if_true] at h
  split_ifs at h

theorem firstByte_ne_of_isCanonicalPubKey {key : Valtype} (h : isCanonicalPubKey key = true) :
    key.getD 0 0 ≠ 0x30 := by
  intro hhead
  have hheadD : key.headD 0 = 0x30 := by
    cases key with
    | nil => exact hhead
    | cons byte key => exact hhead
  unfold isCanonicalPubKey at h
  rw [hheadD] at h
  simp at h

/-- No signature is a key. -/
theorem ne_of_isCanonical {sig key : Valtype} (hsig : isCanonicalSignature sig = true)
    (hkey : isCanonicalPubKey key = true) : key ≠ sig := by
  rintro rfl
  exact firstByte_ne_of_isCanonicalPubKey hkey (firstByte_of_isCanonicalSignature hsig)

namespace SigningStore

/-- The signature of a key of the store, with its hash type. -/
def signatureOf (env : SignEnv Key) (keystore : SigningStore Key) (hash : Uint256) (keyID : CKeyID) :
    Valtype :=
  ((keystore.getKey keyID).bind fun key ↦ env.sign key hash).getD [] ++ [1]

/-- The signature of a key passes for it, for every script and input that have the hash. -/
structure Passes (env : SignEnv Key) (keystore : SigningStore Key) (hash : Uint256) (keyID : CKeyID)
    (key : Key) : Prop where
  getKey : keystore.getKey keyID = some key
  getPubKey : keystore.getPubKey keyID = some (env.getPubKey key)
  getID : env.getID (env.getPubKey key) = keyID
  canonical : isCanonicalSignature (keystore.signatureOf env hash keyID) = true
  notHash : keystore.signatureOf env hash keyID ≠ (env.digests.hash160 (env.getPubKey key)).toList
  valid : ∀ txTo nIn scriptCode, signatureHash env.signHash scriptCode txTo nIn SIGHASH_ALL = hash →
    validSignature (env.crypto txTo nIn 0) scriptCode (keystore.signatureOf env hash keyID)
      (env.getPubKey key) = true
  sign1 : ∀ scriptSigRet, keystore.sign1 env keyID hash SIGHASH_ALL scriptSigRet =
    (true, pushBytes scriptSigRet (keystore.signatureOf env hash keyID))

variable (hsigns : env.SignsCorrectly) (hholds : keystore.Holds env)
include hsigns hholds

variable {keyID : CKeyID} {hash : Uint256} {script : CScript}

theorem exists_passes (hash : Uint256) (hkeyID : keyID ∈ keystore.mapKeys) :
    ∃ key, keystore.Passes env hash keyID key := by
  obtain ⟨key, hgetKey, hgetPubKey, hgetID⟩ := hholds.key keyID hkeyID
  obtain ⟨vchSig, hsign, hverify⟩ := hsigns.verifies key hash
  have hcanonical := hsigns.canonicalSignature key hash vchSig hsign
  have hof : keystore.signatureOf env hash keyID = vchSig ++ [1] := by
    unfold signatureOf
    rw [hgetKey, Option.bind_some, hsign]
    rfl
  refine ⟨key, hgetKey, hgetPubKey, hgetID, hof ▸ hcanonical.1, hof ▸ hcanonical.2, ?_, ?_⟩
  · intro txTo nIn scriptCode hhash
    apply validSignature_iff.mpr
    refine ⟨hof ▸ hcanonical.1, hsigns.canonicalPubKey key, ?_⟩
    calc
      env.checkSig txTo nIn 0 (keystore.signatureOf env hash keyID) (env.getPubKey key) scriptCode
        = env.verify (env.getPubKey key) hash vchSig := by rw [hof, checkSig_concat, hhash]
      _ = true := hverify
  · intro scriptSigRet
    unfold sign1
    rw [hgetKey, hof]
    simp only [hsign]
    rfl

omit hsigns hholds

/-- What signs a script for every input that has the hash. -/
structure Signs (env : SignEnv Key) (hash : Uint256) (script : CScript) (values : List Valtype) : Prop where
  length_le : ∀ v ∈ values, v.length ≤ 120
  count_le : values.length ≤ 17
  accepts : ∀ txTo nIn, signatureHash env.signHash script txTo nIn SIGHASH_ALL = hash →
    Accepts (env.crypto txTo nIn 0) values.reverse script

theorem Passes.length_le {key : Key} (h : keystore.Passes env hash keyID key) :
    (keystore.signatureOf env hash keyID).length ≤ 120 :=
  (length_of_isCanonicalSignature h.canonical).2.trans (by decide)

theorem Passes.ne_nil {key : Key} (h : keystore.Passes env hash keyID key) :
    [] ≠ keystore.signatureOf env hash keyID := by
  intro hnil
  have hlength := (length_of_isCanonicalSignature h.canonical).1
  rw [← hnil] at hlength
  exact absurd hlength (by decide)

theorem signs_pubkey {key : Instruction} (hreads : Reads script [key, opInstr OP_CHECKSIG])
    (hkey : IsKeySize key.vch.length) {k : Key}
    (hpasses : keystore.Passes env hash (env.getID key.vch) k)
    (hcanonical : isCanonicalPubKey key.vch = true) (hname : key.vch = env.getPubKey k) :
    Signs env hash script [keystore.signatureOf env hash (env.getID key.vch)] where
  length_le := List.forall_mem_singleton.mpr hpasses.length_le
  count_le := by simp
  accepts txTo nIn hhash := by
    have hlength : script.length ≤ 10000 := by
      have hbound := length_le_of_reads hreads (n := 120) (by
        simp only [List.forall_mem_cons]
        exact ⟨hkey.2, Nat.zero_le _, List.forall_mem_nil _⟩)
      rw [List.length_cons, List.length_singleton, List.length_nil] at hbound
      omega
    apply accepts_pubkey hreads hkey
    · rw [dropSignature_eq hpasses.canonical hreads hlength, hname]
      · exact hname ▸ hpasses.valid txTo nIn script hhash
      · simp only [List.forall_mem_cons]
        exact ⟨ne_of_isCanonical hpasses.canonical hcanonical, hpasses.ne_nil, List.forall_mem_nil _⟩
    · decide

theorem signs_pubkeyhash {hash160 : Instruction}
    (hreads : Reads script [opInstr OP_DUP, opInstr OP_HASH160, hash160, opInstr OP_EQUALVERIFY,
      opInstr OP_CHECKSIG]) (hlength : hash160.vch.length = 20) {key : Key}
    (hpasses : keystore.Passes env hash (uint160 hash160.vch) key)
    (hcanonical : isCanonicalPubKey (env.getPubKey key) = true) :
    Signs env hash script
      [keystore.signatureOf env hash (uint160 hash160.vch), env.getPubKey key] where
  length_le := by
    have hkey : (env.getPubKey key).length ≤ 120 := by
      unfold isCanonicalPubKey at hcanonical
      split_ifs at hcanonical
      all_goals
        rw [beq_iff_eq.mp hcanonical]
        decide
    simp only [List.forall_mem_cons]
    exact ⟨hpasses.length_le, hkey, List.forall_mem_nil _⟩
  count_le := by simp
  accepts txTo nIn hhash := by
    have hsame := hash160_eq_of_uint160 hlength hpasses.getID
    have hshort : script.length ≤ 10000 := by
      have hbound := length_le_of_reads hreads (n := 20) (by
        simp only [List.forall_mem_cons]
        exact ⟨Nat.zero_le _, Nat.zero_le _, hlength.le, Nat.zero_le _, Nat.zero_le _,
          List.forall_mem_nil _⟩)
      simp only [List.length_cons, List.length_nil] at hbound
      omega
    apply accepts_pubkeyhash (C := env.crypto txTo nIn 0) hreads hlength hsame
    · rw [dropSignature_eq hpasses.canonical hreads hshort]
      · exact hpasses.valid txTo nIn script hhash
      · have hnot : hash160.vch ≠ keystore.signatureOf env hash (uint160 hash160.vch) :=
          fun heq ↦ hpasses.notHash (heq.symm.trans hsame.symm)
        simp only [List.forall_mem_cons]
        exact ⟨hpasses.ne_nil, hpasses.ne_nil, hnot, hpasses.ne_nil, hpasses.ne_nil,
          List.forall_mem_nil _⟩
    · decide

/-- Keys of the store sign one after the other until enough have signed. -/
theorem signNFrom_eq {pubkeys : List Valtype}
    (hpasses : ∀ pubkey ∈ pubkeys, ∃ key, keystore.Passes env hash (env.getID pubkey) key)
    {nMissing : ℕ} (hmissing : nMissing ≤ pubkeys.length) (scriptSigRet : CScript) :
    keystore.signNFrom env hash SIGHASH_ALL nMissing pubkeys scriptSigRet =
      (true, ((pubkeys.take nMissing).map fun pubkey ↦
        keystore.signatureOf env hash (env.getID pubkey)).foldl pushBytes scriptSigRet) := by
  induction pubkeys generalizing nMissing scriptSigRet with
  | nil =>
    obtain rfl := Nat.le_zero.mp hmissing
    rfl
  | cons pubkey pubkeys ih =>
    cases nMissing with
    | zero => rfl
    | succ nMissing =>
      obtain ⟨key, hkey⟩ := hpasses pubkey List.mem_cons_self
      rw [signNFrom, hkey.sign1]
      exact ih (fun pubkey hmem ↦ hpasses pubkey (List.mem_cons_of_mem _ hmem))
        (Nat.le_of_succ_le_succ hmissing) _

/-- The first keys sign, in their order. -/
theorem greedyMatch_of_signed {C : Crypto} {pubkeys : List Valtype} (hvalid : ∀ pubkey ∈ pubkeys,
      validSignature C script (keystore.signatureOf env hash (env.getID pubkey)) pubkey = true) (m : ℕ) :
    greedyMatch (validSignature C script)
      ((pubkeys.take m).map fun pubkey ↦ keystore.signatureOf env hash (env.getID pubkey)).reverse
      pubkeys.reverse = true := by
  apply (greedyMatch_iff_sublistForall₂ _ _).mpr
  apply sublistForall₂_reverse
  apply List.sublistForall₂_iff.mpr
  refine ⟨pubkeys.take m, ?_, List.take_sublist m pubkeys⟩
  apply List.forall₂_map_left_iff.mpr
  apply List.forall₂_same.mpr
  exact fun pubkey hmem ↦ hvalid pubkey (List.mem_of_mem_take hmem)

theorem length_le_of_multisigShape {m n : ℕ} {keys : List Instruction}
    (h : MultisigShape script m keys n) (hcounts : GoodCounts m keys n) : script.length ≤ 10000 := by
  have hbound := length_le_of_reads h.reads (n := 120) (by
    simp only [List.forall_mem_cons, List.forall_mem_append]
    exact ⟨Nat.zero_le _, fun key hkey ↦ (h.allKeys key hkey).2, Nat.zero_le _, Nat.zero_le _,
      List.forall_mem_nil _⟩)
  have hn := h.n_le
  simp only [List.length_cons, List.length_append, List.length_nil, hcounts.2.2] at hbound
  omega

theorem signs_multisig {m n : ℕ} {keys : List Instruction} (h : MultisigShape script m keys n)
    (hcounts : GoodCounts m keys n) (hpasses : ∀ pubkey ∈ keys.map Instruction.vch, ∃ key,
      keystore.Passes env hash (env.getID pubkey) key ∧ pubkey = env.getPubKey key ∧
        isCanonicalPubKey pubkey = true) :
    Signs env hash script ([] :: ((keys.map Instruction.vch).take m).map fun pubkey ↦
      keystore.signatureOf env hash (env.getID pubkey)) where
  length_le := by
    refine List.forall_mem_cons.mpr ⟨Nat.zero_le _, List.forall_mem_map.mpr fun pubkey hmem ↦ ?_⟩
    obtain ⟨key, hkey, _⟩ := hpasses pubkey (List.mem_of_mem_take hmem)
    exact hkey.length_le
  count_le := by
    have hm := h.m_le
    simp only [List.length_cons, List.length_map, List.length_take]
    omega
  accepts txTo nIn hhash := by
    let pubkeys := keys.map Instruction.vch
    let sigs := (pubkeys.take m).map fun pubkey ↦ keystore.signatureOf env hash (env.getID pubkey)
    have hlength : script.length ≤ 10000 := length_le_of_multisigShape h hcounts
    have hsigs : sigs.reverse.length = m := by
      have hmin : min m keys.length = m := min_eq_left (hcounts.2.1.trans hcounts.2.2.ge)
      simp only [sigs, pubkeys, List.length_reverse, List.length_map, List.length_take, hmin]
    have hdrop : sigs.reverse.foldl dropSignature script = script := by
      apply foldl_dropSignature_eq h hlength
      intro sig hsig
      obtain ⟨pubkey, hmem, rfl⟩ := List.mem_map.mp (List.mem_reverse.mp hsig)
      obtain ⟨key, hkey, _⟩ := hpasses pubkey (List.mem_of_mem_take hmem)
      refine ⟨hkey.canonical, fun hin ↦ ?_⟩
      obtain ⟨_, _, _, hcanonical⟩ := hpasses _ hin
      exact ne_of_isCanonical hkey.canonical hcanonical rfl
    have hmatch : multisigMatch (env.crypto txTo nIn 0) script keys sigs.reverse = true := by
      unfold multisigMatch stackedKeys
      rw [hdrop]
      apply greedyMatch_of_signed
      intro pubkey hmem
      obtain ⟨key, hkey, hname, _⟩ := hpasses pubkey hmem
      exact hname ▸ hkey.valid txTo nIn script hhash
    have hroom : (sigs.reverse ++ [] :: []).length + (n + 2) ≤ 1000 := by
      have hm := h.m_le
      have hn := h.n_le
      rw [List.length_append, hsigs, List.length_singleton]
      omega
    have hrun : (evalScript (env.crypto txTo nIn 0) (sigs.reverse ++ [] :: []) script).result =
        .ok (ofBool true :: []) := by
      rw [evalScript_multisig h hcounts hlength hsigs hroom, hmatch]
    rw [List.reverse_cons]
    exact ⟨_, _, hrun, castToBool_ofBool true⟩

/-- The solver satisfies a script, which is no script hash, with a script of pushes. -/
structure Solves (env : SignEnv Key) (keystore : SigningStore Key) (hash : Uint256) (script : CScript)
    (values : List Valtype) : Prop where
  eq : ∃ whichType ≠ .scripthash,
    keystore.solver env script hash SIGHASH_ALL = (true, pushAll values, whichType)
  signs : Signs env hash script values

theorem exists_solves (hsigns : env.SignsCorrectly) (hholds : keystore.Holds env)
    (hnames : keystore.NamesOwnKeys env script) (hp2sh : isPayToScriptHash script = false) {depth : ℕ}
    (hmine : keystore.isMineFuel env.owner (depth + 1) script = true) (hash : Uint256) :
    ∃ values, Solves env keystore hash script values := by
  rcases hsolver : Script.solver script .nonstandard [] with ⟨fSolved, whichType, parts⟩
  cases fSolved with
  | false => simp [OwnerStore.isMineFuel, hsolver] at hmine
  | true =>
    have hgrammar := grammar_of_solver hsolver
    unfold OwnerStore.isMineFuel at hmine
    unfold NamesOwnKeys namedKeys at hnames
    simp only [hsolver] at hmine hnames
    cases hgrammar with
    | @pubkey _ key hreads hkey =>
      have hkeyID : env.getID key.vch ∈ keystore.mapKeys := of_decide_eq_true hmine
      obtain ⟨k, hpasses⟩ := exists_passes hsigns hholds hash hkeyID
      have hname := hnames key.vch List.mem_cons_self k hpasses.getKey
      refine ⟨_, ⟨.pubkey, by decide, ?_⟩, signs_pubkey hreads hkey hpasses
        (hname ▸ hsigns.canonicalPubKey k) hname⟩
      unfold solver
      rw [hsolver]
      simp only [List.headD_cons, hpasses.sign1]
      rfl
    | @pubkeyhash _ h160 hreads hlength =>
      have hkeyID : uint160 h160.vch ∈ keystore.mapKeys := of_decide_eq_true hmine
      obtain ⟨key, hpasses⟩ := exists_passes hsigns hholds hash hkeyID
      refine ⟨_, ⟨.pubkeyhash, by decide, ?_⟩, signs_pubkeyhash hreads hlength hpasses
        (hsigns.canonicalPubKey key)⟩
      unfold solver
      rw [hsolver]
      simp only [List.headD_cons, hpasses.sign1, hpasses.getPubKey]
      rfl
    | scripthash hhash =>
      rw [isPayToScriptHash_of_shape hhash] at hp2sh
      cases hp2sh
    | @multisig _ m n keys hshape hcounts =>
      have hparts : (multisigParts m keys n).tail.dropLast = keys.map Instruction.vch :=
        pubkeys_multisigParts m n keys
      have hall : ∀ pubkey ∈ keys.map Instruction.vch, env.getID pubkey ∈ keystore.mapKeys := by
        have hcount := of_decide_eq_true hmine
        rw [List.drop_one, hparts] at hcount
        exact fun pubkey hmem ↦ of_decide_eq_true (List.countP_eq_length.mp hcount pubkey hmem)
      have hpasses : ∀ pubkey ∈ keys.map Instruction.vch, ∃ key,
          keystore.Passes env hash (env.getID pubkey) key ∧ pubkey = env.getPubKey key ∧
            isCanonicalPubKey pubkey = true := by
        intro pubkey hmem
        obtain ⟨key, hkey⟩ := exists_passes hsigns hholds hash (hall pubkey hmem)
        have hname := hnames pubkey (hparts.symm ▸ hmem : pubkey ∈ (multisigParts m keys n).tail.dropLast) key hkey.getKey
        exact ⟨key, hkey, hname, hname ▸ hsigns.canonicalPubKey key⟩
      refine ⟨_, ⟨.multisig, by decide, ?_⟩, signs_multisig hshape hcounts hpasses⟩
      have hm : ((multisigParts m keys n).headD []).headD 0 = UInt8.ofNat m := rfl
      have hrequired : (UInt8.ofNat m).toNat = m := by
        have hle := hshape.m_le
        rw [UInt8.toNat_ofNat', Nat.mod_eq_of_lt (by omega)]
      have hmissing : m ≤ (keys.map Instruction.vch).length := by
        rw [List.length_map, hcounts.2.2]
        exact hcounts.2.1
      unfold solver
      rw [hsolver]
      simp only [signN, hm, hrequired, List.drop_one, hparts]
      rw [signNFrom_eq (fun pubkey hmem ↦ (hpasses pubkey hmem).imp fun _ h ↦ h.1) hmissing]
      rfl

section Verify

variable {hash : Uint256} {script : CScript} {values : List Valtype}

theorem Signs.pushable (h : Signs env hash script values) {last : List Valtype} (hlast : AllShort last)
    (hone : last.length ≤ 1) : Pushable (values ++ last) where
  short := List.forall_mem_append.mpr ⟨fun v hv ↦ (h.length_le v hv).trans (by decide), hlast⟩
  count_le := by
    have hcount := h.count_le
    rw [List.length_append]
    omega
  length_le := by
    have hvalues : (pushAll values).length ≤ values.length * (120 + 3) :=
      length_pushAll_le fun v hv ↦ ⟨(h.length_le v hv).trans (by decide), h.length_le v hv⟩
    have hpushed : (pushAll last).length ≤ last.length * (520 + 3) :=
      length_pushAll_le fun v hv ↦ ⟨hlast v hv, hlast v hv⟩
    have hcount := h.count_le
    rw [pushAll_append, List.length_append]
    calc
      (pushAll values).length + (pushAll last).length
        ≤ values.length * (120 + 3) + last.length * (520 + 3) := Nat.add_le_add hvalues hpushed
      _ ≤ 17 * (120 + 3) + 1 * (520 + 3) :=
          Nat.add_le_add (Nat.mul_le_mul_right _ hcount) (Nat.mul_le_mul_right _ hone)
      _ ≤ 10000 := by decide

theorem Signs.verifyScript (h : Signs env hash script values) (hp2sh : isPayToScriptHash script = false)
    (txTo : CTransaction) {nIn : ℕ}
    (hhash : signatureHash env.signHash script txTo nIn SIGHASH_ALL = hash) :
    (Script.verifyScript (env.crypto txTo nIn 0) (pushAll values) script).result = .ok () := by
  have hpushable := h.pushable (List.forall_mem_nil Short) (Nat.zero_le 1)
  rw [List.append_nil] at hpushable
  apply verifyScript_pushAll hpushable (h.accepts txTo nIn hhash)
  intro hyes
  rw [hp2sh] at hyes
  cases hyes

/-- Behind a script hash the redeem script is pushed last, and must be short. -/
theorem Signs.verifyScript_redeem (h : Signs env hash script values) {scriptHash : Valtype}
    (hlength : scriptHash.length = 20) (hID : env.getID script = uint160 scriptHash) (txTo : CTransaction)
    {nIn : ℕ} (hhash : signatureHash env.signHash script txTo nIn SIGHASH_ALL = hash) :
    (Script.verifyScript (env.crypto txTo nIn 0) (pushAll (values ++ [script]))
      (OP_HASH160 :: 0x14 :: (scriptHash ++ [OP_EQUAL]))).result = .ok () ↔ script.length ≤ 520 := by
  constructor
  · intro hverify
    obtain ⟨stack, heval, _⟩ := verifyScript_eq_ok_iff.mp hverify
    exact allShort_of_evalScript heval script (List.mem_append_right values (List.mem_singleton_self script))
  · intro hshort
    have hpushable := h.pushable (List.forall_mem_singleton.mpr hshort) (Nat.le_refl 1)
    have hreverse : (values ++ [script]).reverse = script :: values.reverse := by simp
    apply verifyScript_pushAll hpushable
    · rw [hreverse]
      apply (accepts_scripthash_iff hlength).mpr
      have hcount := h.count_le
      exact ⟨by rw [List.length_reverse]; omega, hash160_eq_of_uint160 hlength hID⟩
    · exact fun _ ↦ ⟨script, values.reverse, hreverse, h.accepts txTo nIn hhash⟩

end Verify

/-- Outside pay-to-script-hash. -/
theorem signSignature_of_solves {txTo : CTransaction} {nIn : ℕ} (hnIn : nIn < txTo.vin.length)
    (hp2sh : isPayToScriptHash script = false) {values : List Valtype}
    (h : Solves env keystore (signatureHash env.signHash script txTo nIn SIGHASH_ALL) script values) :
    keystore.signSignature env script txTo nIn SIGHASH_ALL =
        some (true, setScriptSig txTo nIn (pushAll values)) ∧
      (Script.verifyScript (env.crypto (setScriptSig txTo nIn (pushAll values)) nIn 0) (pushAll values)
        script).result = .ok () := by
  have hverify := h.signs.verifyScript hp2sh (setScriptSig txTo nIn (pushAll values))
    (signatureHash_setScriptSig _ _ _ _ _ _)
  obtain ⟨whichType, htype, hsolver⟩ := h.eq
  refine ⟨?_, hverify⟩
  unfold signSignature
  rw [if_neg (not_le.mpr hnIn)]
  simp only [hsolver, Bool.not_true, Bool.false_eq_true, if_false, if_neg htype]
  rw [env.verifyScript_iff.mpr hverify]

/-- For a script hash with its redeem script in the store. -/
theorem signSignature_scripthash {scriptHash : Valtype} (hlength : scriptHash.length = 20)
    {subscript : CScript} (hlookup : keystore.mapScripts.lookup (uint160 scriptHash) = some subscript)
    {txTo : CTransaction} {nIn : ℕ} (hnIn : nIn < txTo.vin.length) :
    keystore.signSignature env (OP_HASH160 :: 0x14 :: (scriptHash ++ [OP_EQUAL])) txTo nIn SIGHASH_ALL =
      let hash2 := signatureHash env.signHash subscript txTo nIn SIGHASH_ALL
      let (fSolved, scriptSig, subType) := keystore.solver env subscript hash2 SIGHASH_ALL
      let signed := setScriptSig txTo nIn (pushBytes scriptSig subscript)
      if !(fSolved && decide (subType ≠ .scripthash)) then some (false, signed)
      else some (env.verifyScript (pushBytes scriptSig subscript)
        (OP_HASH160 :: 0x14 :: (scriptHash ++ [OP_EQUAL])) signed nIn 0, signed) := by
  have hsolver (hash : Uint256) :
      keystore.solver env (OP_HASH160 :: 0x14 :: (scriptHash ++ [OP_EQUAL])) hash SIGHASH_ALL =
        (true, subscript, .scripthash) := by
    unfold solver
    rw [solver_scripthash hlength]
    simp only [List.nil_append, List.headD_cons, hlookup]
    rfl
  unfold signSignature
  rw [if_neg (not_le.mpr hnIn)]
  simp only [hsolver, Bool.not_true, Bool.false_eq_true, if_false, if_true, signatureHash_setScriptSig,
    setScriptSig_setScriptSig]

theorem solver_snd_snd_scripthash {scriptHash : Valtype} (hlength : scriptHash.length = 20)
    (hash : Uint256) : (keystore.solver env (OP_HASH160 :: 0x14 :: (scriptHash ++ [OP_EQUAL])) hash
      SIGHASH_ALL).2.2 = .scripthash := by
  unfold solver
  rw [solver_scripthash hlength]
  simp only [List.nil_append, List.headD_cons]
  cases keystore.mapScripts.lookup (uint160 scriptHash) <;> rfl

theorem isMineFuel_scripthash {scriptHash : Valtype} (hlength : scriptHash.length = 20) {depth : ℕ}
    (hmine : keystore.isMineFuel env.owner (depth + 1)
      (OP_HASH160 :: 0x14 :: (scriptHash ++ [OP_EQUAL])) = true) :
    ∃ subscript, keystore.mapScripts.lookup (uint160 scriptHash) = some subscript ∧
      keystore.isMineFuel env.owner depth subscript = true := by
  unfold OwnerStore.isMineFuel at hmine
  rw [solver_scripthash hlength] at hmine
  simp only [List.nil_append, List.headD_cons] at hmine
  cases hlookup : keystore.mapScripts.lookup (uint160 scriptHash) with
  | none =>
    rw [hlookup] at hmine
    cases hmine
  | some subscript =>
    rw [hlookup] at hmine
    exact ⟨subscript, rfl, hmine⟩

/-- An output that is ours can be signed for if and only if it pays to no script hash, or to that of a
short redeem script that is no script hash itself. -/
theorem signSignature_iff (hsigns : env.SignsCorrectly) (hholds : keystore.Holds env)
    {scriptPubKey : CScript} (hnames : keystore.NamesOwnKeys env scriptPubKey)
    (hredeem : ∀ keyID, ∀ subscript ∈ keystore.mapScripts.lookup keyID,
      keystore.NamesOwnKeys env subscript)
    (hmine : keystore.isMine env.owner scriptPubKey = true) {txTo : CTransaction} {nIn : ℕ}
    (hnIn : nIn < txTo.vin.length) :
    (∃ scriptSig, keystore.signSignature env scriptPubKey txTo nIn SIGHASH_ALL =
        some (true, setScriptSig txTo nIn scriptSig) ∧
      (Script.verifyScript (env.crypto (setScriptSig txTo nIn scriptSig) nIn 0) scriptSig
        scriptPubKey).result = .ok ()) ↔
    keystore.RedeemFits scriptPubKey := by
  cases hp2sh : isPayToScriptHash scriptPubKey with
  | false =>
    obtain ⟨values, hsolves⟩ := exists_solves hsigns hholds hnames hp2sh hmine
      (signatureHash env.signHash scriptPubKey txTo nIn SIGHASH_ALL)
    apply iff_of_true
    · exact ⟨pushAll values, signSignature_of_solves hnIn hp2sh hsolves⟩
    · intro hyes
      rw [hp2sh] at hyes
      cases hyes
  | true =>
    obtain ⟨scriptHash, hlength, rfl⟩ := shape_of_isPayToScriptHash hp2sh
    obtain ⟨subscript, hlookup, hsub⟩ := isMineFuel_scripthash hlength hmine
    have hID := hholds.script _ subscript hlookup
    have hhash : ((OP_HASH160 :: 0x14 :: (scriptHash ++ [OP_EQUAL])).drop 2).take 20 = scriptHash := by
      show (scriptHash ++ [OP_EQUAL]).take 20 = scriptHash
      rw [← hlength, List.take_left]
    have hfits : keystore.RedeemFits (OP_HASH160 :: 0x14 :: (scriptHash ++ [OP_EQUAL])) ↔
        isPayToScriptHash subscript = false ∧ subscript.length ≤ 520 := by
      unfold RedeemFits
      rw [hhash, hlookup]
      simp [hp2sh]
    rw [hfits, signSignature_scripthash hlength hlookup hnIn]
    cases hnested : isPayToScriptHash subscript with
    | true =>
      obtain ⟨scriptHash', hlength', rfl⟩ := shape_of_isPayToScriptHash hnested
      have htype (hash : Uint256) : (keystore.solver env
          (OP_HASH160 :: 0x14 :: (scriptHash' ++ [OP_EQUAL])) hash SIGHASH_ALL).2.2 = .scripthash :=
        solver_snd_snd_scripthash hlength' hash
      apply iff_of_false
      · rintro ⟨scriptSig, hsign, _⟩
        simp only [htype, ne_eq, not_true_eq_false, decide_false, Bool.and_false, Bool.not_false, if_true]
          at hsign
        cases hsign
      · exact fun hfit ↦ Bool.false_ne_true hfit.1.symm
    | false =>
      obtain ⟨depth, hdepth⟩ : ∃ depth, keystore.mapScripts.entries.length = depth + 1 := by
        apply Nat.exists_eq_succ_of_ne_zero
        intro hzero
        rw [hzero] at hsub
        cases hsub
      obtain ⟨values, hsolves⟩ := exists_solves hsigns hholds (hredeem _ subscript hlookup) hnested
        (hdepth ▸ hsub) (signatureHash env.signHash subscript txTo nIn SIGHASH_ALL)
      obtain ⟨whichType, htype, hsolver⟩ := hsolves.eq
      have hverify := hsolves.signs.verifyScript_redeem hlength hID
        (setScriptSig txTo nIn (pushAll (values ++ [subscript])))
        (signatureHash_setScriptSig _ _ _ _ _ _)
      simp only [hsolver, htype, ne_eq, not_false_eq_true, decide_true, Bool.and_true, Bool.not_true,
        Bool.false_eq_true, if_false, pushBytes_pushAll, true_and]
      rw [← hverify, ← env.verifyScript_iff]
      constructor
      · rintro ⟨scriptSig, hsign, _⟩
        exact (Prod.mk.inj (Option.some.inj hsign)).1
      · intro hyes
        rw [hyes]
        exact ⟨_, rfl, env.verifyScript_iff.mp hyes⟩

end SigningStore

namespace SignExample

open Builders

/-- A single key whose signatures are all the same. -/
def signer : SignEnv Unit where
  P := network true
  digests := { oneKey with hash160 := fun vch ↦ if vch = theKey then .replicate 20 1 else .replicate 20 0 }
  signHash _ := 0
  getPubKey _ := theKey
  sign _ _ := some theSig.dropLast
  verify vchPubKey _ vchSig := decide (vchPubKey = theKey ∧ vchSig = theSig.dropLast)

/-- The key and one redeem script. -/
def store (redeem : CScript) : SigningStore Unit where
  mapKeys := {signer.getID theKey}
  mapScripts := (∅ : AList fun _ : CKeyID ↦ CScript).insert 0 redeem
  getKey keyID := if keyID = signer.getID theKey then some () else none
  getPubKey keyID := if keyID = signer.getID theKey then some theKey else none

def payToScript : CScript := OP_HASH160 :: 0x14 :: (List.replicate 20 0 ++ [OP_EQUAL])

/-- One signature of sixteen keys. -/
def payToOneOfSixteen : CScript :=
  OP_1 :: ((List.replicate 16 (pushBytes [] theKey)).flatten ++ [OP_16, OP_CHECKMULTISIG])

def spending : CTransaction where
  nVersion := 1
  nTime := 0
  vin := [⟨⟨0, 0⟩, [], 0⟩]
  vout := []
  nLockTime := 0

theorem signsCorrectly : signer.SignsCorrectly where
  verifies _ _ := ⟨theSig.dropLast, rfl, rfl⟩
  canonicalPubKey _ := show isCanonicalPubKey theKey = true by decide
  canonicalSignature _ _ vchSig hsign := by
    obtain rfl : theSig.dropLast = vchSig := Option.some.inj hsign
    show isCanonicalSignature theSig = true ∧ theSig ≠ (signer.digests.hash160 theKey).toList
    decide

variable {redeem : CScript}

theorem lookup_store {keyID : CKeyID} {subscript : CScript}
    (h : subscript ∈ (store redeem).mapScripts.lookup keyID) : keyID = 0 ∧ subscript = redeem := by
  have hlookup : AList.lookup keyID
      ((∅ : AList fun _ : CKeyID ↦ CScript).insert 0 redeem) = some subscript := h
  by_cases hkeyID : keyID = 0
  · rw [hkeyID, AList.lookup_insert] at hlookup
    exact ⟨hkeyID, (Option.some.inj hlookup).symm⟩
  · rw [AList.lookup_insert_ne hkeyID, AList.lookup_empty] at hlookup
    cases hlookup

theorem holds (hredeem : redeem ≠ theKey) : (store redeem).Holds signer where
  key keyID hmem := by
    obtain rfl := Finset.mem_singleton.mp hmem
    refine ⟨(), ?_, ?_, rfl⟩
    · show (if signer.getID theKey = signer.getID theKey then some () else none) = some ()
      exact if_pos rfl
    · show (if signer.getID theKey = signer.getID theKey then some theKey else none) = some theKey
      exact if_pos rfl
  script keyID subscript hlookup := by
    obtain ⟨rfl, rfl⟩ := lookup_store hlookup
    have hdigest : signer.digests.hash160 subscript = .replicate 20 0 := if_neg hredeem
    unfold SignEnv.getID
    rw [hdigest]
    decide

theorem namesOwnKeys {script : CScript} (h : ∀ pubkey ∈ namedKeys script, pubkey = theKey) :
    (store redeem).NamesOwnKeys signer script := fun pubkey hmem _ _ ↦ h pubkey hmem

theorem checks :
    (∀ pubkey ∈ namedKeys payToScript ++ namedKeys payToOneOfOne ++ namedKeys payToOneOfSixteen,
      pubkey = theKey) ∧
    payToOneOfOne ≠ theKey ∧ payToOneOfSixteen ≠ theKey ∧
    isPayToScriptHash payToOneOfOne = false ∧ payToOneOfOne.length ≤ 520 ∧
    (store payToOneOfOne).isMine signer.owner payToScript = true ∧
    (store payToOneOfSixteen).isMine signer.owner payToScript = true ∧
    ((store payToOneOfSixteen).signSignature signer payToScript spending 0 SIGHASH_ALL).map Prod.fst =
      some false := by
  decide +kernel

theorem namesOwnKeys_redeem {redeem : CScript} (h : ∀ pubkey ∈ namedKeys redeem, pubkey = theKey)
    (keyID : CKeyID) : ∀ subscript ∈ (store redeem).mapScripts.lookup keyID,
      (store redeem).NamesOwnKeys signer subscript := by
  intro subscript hlookup
  obtain ⟨-, rfl⟩ := lookup_store hlookup
  exact namesOwnKeys h

theorem redeemFits : (store payToOneOfOne).RedeemFits payToScript := by
  intro _ subscript hlookup
  obtain ⟨-, rfl⟩ := lookup_store hlookup
  exact ⟨checks.2.2.2.1, checks.2.2.2.2.1⟩

/-- A payment to the script hash of one key is signed for. -/
theorem signSignature_oneOfOne : ∃ scriptSig,
    (store payToOneOfOne).signSignature signer payToScript spending 0 SIGHASH_ALL =
        some (true, setScriptSig spending 0 scriptSig) ∧
      (Script.verifyScript (signer.crypto (setScriptSig spending 0 scriptSig) 0 0) scriptSig
        payToScript).result = .ok () := by
  obtain ⟨hnamed, hredeem, _, _, _, hmine, _⟩ := checks
  apply (SigningStore.signSignature_iff signsCorrectly (holds hredeem) (namesOwnKeys fun pubkey hmem ↦ ?_)
    (namesOwnKeys_redeem fun pubkey hmem ↦ ?_) hmine (Nat.lt_succ_self 0)).mpr redeemFits
  · exact hnamed pubkey (by simp [hmem])
  · exact hnamed pubkey (by simp [hmem])

/-- The redeem script of sixteen keys is too long to be pushed, though the payment counts as ours. -/
theorem not_signSignature :
    ¬ ∀ (Key : Type) (env : SignEnv Key) (keystore : SigningStore Key) (scriptPubKey : CScript)
      (txTo : CTransaction) (nIn : ℕ), env.SignsCorrectly → keystore.Holds env →
      keystore.NamesOwnKeys env scriptPubKey →
      (∀ keyID, ∀ subscript ∈ keystore.mapScripts.lookup keyID, keystore.NamesOwnKeys env subscript) →
      keystore.isMine env.owner scriptPubKey = true → nIn < txTo.vin.length →
      ∃ signed, keystore.signSignature env scriptPubKey txTo nIn SIGHASH_ALL = some (true, signed) := by
  intro hall
  obtain ⟨hnamed, _, hredeem, _, _, _, hmine, hfails⟩ := checks
  obtain ⟨signed, hsigned⟩ := hall Unit signer (store payToOneOfSixteen) payToScript spending 0
    signsCorrectly (holds hredeem) (namesOwnKeys fun pubkey hmem ↦ hnamed pubkey (by simp [hmem]))
    (namesOwnKeys_redeem fun pubkey hmem ↦ hnamed pubkey (by simp [hmem])) hmine (Nat.lt_succ_self 0)
  rw [hsigned] at hfails
  cases hfails

end SignExample

end Electra.Wallet
