import Electra.Node.TipConsistency
import Electra.Wallet.CachedAmounts

/-!
# Birth times of keys

`GetKeyBirthTimes` gives every key the time of its creation.  For a key without one it takes the time of
the first block of the main chain with a wallet transaction that pays the key, or of the block 144 below
the tip if there is none before that.
-/

namespace Electra.Wallet

open Chain Node Script

/-- Multisig scripts have more than one address. -/
def extractDestinations (getID : Valtype → CKeyID) (scriptPubKey : CScript) : Option (List CTxDestination) :=
  let (fSolved, typeRet, vSolutions) := solver scriptPubKey .nonstandard []
  if !fSolved then none
  else if typeRet = .multisig then
    some (((vSolutions.drop 1).dropLast).map fun pubkey ↦ .keyID (getID pubkey))
  else (extractDestination getID scriptPubKey).map fun address ↦ [address]

namespace OwnerStore

variable (env : OwnerEnv) (keystore : OwnerStore)

/-- `CAffectedKeysVisitor`: the script behind a script hash is looked up in turn. -/
def affectedKeysFuel : ℕ → CScript → List CKeyID
  | 0, _ => []
  | depth + 1, script =>
      match extractDestinations env.getID script with
      | none => []
      | some vDest => vDest.flatMap fun
          | .noDestination => []
          | .keyID keyId => if keystore.haveKey keyId then [keyId] else []
          | .scriptID scriptId =>
              match keystore.mapScripts.lookup scriptId with
              | none => []
              | some subscript => affectedKeysFuel depth subscript

/-- Each lookup goes to another script of the store. -/
def extractAffectedKeys (scriptPubKey : CScript) : List CKeyID :=
  keystore.affectedKeysFuel env (keystore.mapScripts.entries.length + 1) scriptPubKey

end OwnerStore

/-- A key with the block that is its first one so far. -/
abbrev FirstBlock := CKeyID × PIndex

def noteKey (pindex : PIndex) (first : FirstBlock) (keyid : CKeyID) : FirstBlock :=
  if first.1 = keyid ∧ pindex.nHeight < first.2.nHeight then (first.1, pindex) else first

/-- The keys that a wallet transaction pays. -/
def affectedKeysOf (env : OwnerEnv) (keystore : OwnerStore) (wtx : CWalletTx) : List CKeyID :=
  wtx.vout.flatMap fun txout ↦ keystore.extractAffectedKeys env txout.scriptPubKey

/-- Iterate over the outputs of a transaction that is already in a block. -/
def noteTx (env : OwnerEnv) (st : NodeState) (keystore : OwnerStore) (first : FirstBlock) (wtx : CWalletTx) :
    FirstBlock :=
  match st.mapBlockIndex wtx.hashBlock with
  | none => first
  | some pindex =>
      if isInMainChain st pindex then (affectedKeysOf env keystore wtx).foldl (noteKey pindex) first
      else first

/-- Block times can be 2h off.  The time of a block is an unsigned integer of 32 bits. -/
def birthTime (pindex : PIndex) : ℤ := (pindex.nTime - 7200) % 2 ^ 32

section Births

variable (env : OwnerEnv) (st : NodeState) (pblockindexFBBHLast : Option PIndex) (keystore : OwnerStore)
  (mapKeyMetadata : List (CKeyID × ℤ)) (setKeys : List CKeyID) (mapWallet : List CWalletTx)

/-- The keys with metadata. -/
def knownBirths : List (CKeyID × ℤ) := mapKeyMetadata.filter fun entry ↦ entry.2 ≠ 0

/-- The keys whose birth is inferred. -/
def keysToInfer : List CKeyID :=
  setKeys.filter fun keyid ↦ keyid ∉ (knownBirths mapKeyMetadata).map Prod.fst

/-- `none` where a null pointer would be read. -/
def getKeyBirthTimes : Option (List (CKeyID × ℤ)) :=
  if keysToInfer mapKeyMetadata setKeys = [] then some (knownBirths mapKeyMetadata)
  else do
    -- the tip can be reorganised; use a 144-block safety margin
    let pindexMax ← findBlockByHeight st pblockindexFBBHLast (max 0 (st.nBestHeight - 144))
    let mapKeyFirstBlock := (keysToInfer mapKeyMetadata setKeys).map fun keyid ↦
      mapWallet.foldl (noteTx env st keystore) (keyid, pindexMax)
    some (knownBirths mapKeyMetadata ++ mapKeyFirstBlock.map fun first ↦ (first.1, birthTime first.2))

end Births

section Notes

variable {env : OwnerEnv} {st : NodeState} {keystore : OwnerStore} {first : FirstBlock} {wtx : CWalletTx}
  {mapWallet : List CWalletTx} {keyid : CKeyID} {pindex : PIndex} {keys : List CKeyID} {Q : PIndex → Prop}

/-- A wallet transaction in a block of the main chain that pays a key. -/
def PaysIn (env : OwnerEnv) (st : NodeState) (keystore : OwnerStore) (keyid : CKeyID) (wtx : CWalletTx)
    (pindex : PIndex) : Prop :=
  st.mapBlockIndex wtx.hashBlock = some pindex ∧ isInMainChain st pindex = true ∧
    keyid ∈ affectedKeysOf env keystore wtx

/-- The key is the same, the block is not higher, and is the old one or the one that is noted. -/
theorem foldl_noteKey : (keys.foldl (noteKey pindex) first).1 = first.1 ∧
    (keys.foldl (noteKey pindex) first).2.nHeight ≤ first.2.nHeight ∧
    (first.1 ∈ keys → (keys.foldl (noteKey pindex) first).2.nHeight ≤ pindex.nHeight) ∧
    ((keys.foldl (noteKey pindex) first).2 = first.2 ∨ (keys.foldl (noteKey pindex) first).2 = pindex) := by
  induction keys generalizing first with
  | nil => exact ⟨rfl, le_rfl, fun h ↦ absurd h List.not_mem_nil, .inl rfl⟩
  | cons keyid keys ih =>
    rw [List.foldl_cons]
    obtain ⟨hkey, hle, hmem, hblock⟩ := @ih (noteKey pindex first keyid)
    rw [noteKey] at hkey hle hmem hblock ⊢
    split at hkey
    · next hlower =>
      rw [if_pos hlower] at hle hmem hblock ⊢
      exact ⟨hkey, hle.trans hlower.2.le, fun _ ↦ hle, .inr (hblock.elim id id)⟩
    · next hkeep =>
      rw [if_neg hkeep] at hle hmem hblock ⊢
      refine ⟨hkey, hle, fun h ↦ ?_, hblock⟩
      rcases List.mem_cons.mp h with heq | hrest
      · have hnot : ¬ pindex.nHeight < first.2.nHeight := fun hlt ↦ hkeep ⟨heq, hlt⟩
        omega
      · exact hmem hrest

theorem noteTx_spec : (noteTx env st keystore first wtx).1 = first.1 ∧
    (noteTx env st keystore first wtx).2.nHeight ≤ first.2.nHeight ∧
    (∀ pindex, PaysIn env st keystore first.1 wtx pindex →
      (noteTx env st keystore first wtx).2.nHeight ≤ pindex.nHeight) ∧
    ((noteTx env st keystore first wtx).2 = first.2 ∨
      isInMainChain st (noteTx env st keystore first wtx).2 = true) := by
  unfold noteTx
  cases hindex : st.mapBlockIndex wtx.hashBlock with
  | none =>
    refine ⟨rfl, le_rfl, fun pindex hpays ↦ ?_, .inl rfl⟩
    have hfound := hpays.1
    rw [hindex] at hfound
    cases hfound
  | some pindex =>
    dsimp only
    split
    · next hmain =>
      obtain ⟨hkey, hle, hmem, hblock⟩ := @foldl_noteKey first pindex (affectedKeysOf env keystore wtx)
      refine ⟨hkey, hle, fun pindex' hpays ↦ ?_, hblock.imp_right fun heq ↦ ?_⟩
      · obtain rfl : pindex = pindex' := Option.some.inj (hindex.symm.trans hpays.1)
        exact hmem hpays.2.2
      · rw [heq]
        exact hmain
    · next hside =>
      refine ⟨rfl, le_rfl, fun pindex' hpays ↦ ?_, .inl rfl⟩
      obtain rfl : pindex = pindex' := Option.some.inj (hindex.symm.trans hpays.1)
      exact absurd hpays.2.1 hside

/-- After all transactions the block of a key is not higher than any block with a payment to it. -/
theorem foldl_noteTx : (mapWallet.foldl (noteTx env st keystore) first).1 = first.1 ∧
    (mapWallet.foldl (noteTx env st keystore) first).2.nHeight ≤ first.2.nHeight ∧
    (∀ wtx ∈ mapWallet, ∀ pindex, PaysIn env st keystore first.1 wtx pindex →
      (mapWallet.foldl (noteTx env st keystore) first).2.nHeight ≤ pindex.nHeight) ∧
    ((mapWallet.foldl (noteTx env st keystore) first).2 = first.2 ∨
      isInMainChain st (mapWallet.foldl (noteTx env st keystore) first).2 = true) := by
  induction mapWallet generalizing first with
  | nil => exact ⟨rfl, le_rfl, fun _ h ↦ absurd h List.not_mem_nil, .inl rfl⟩
  | cons wtx mapWallet ih =>
    rw [List.foldl_cons]
    obtain ⟨hkey, hle, hpaid, hblock⟩ := @noteTx_spec env st keystore first wtx
    obtain ⟨hkeys, hles, hpaids, hblocks⟩ := @ih (noteTx env st keystore first wtx)
    refine ⟨hkeys.trans hkey, hles.trans hle, fun wtx' hwtx pindex hpays ↦ ?_, ?_⟩
    · rcases List.mem_cons.mp hwtx with rfl | hrest
      · exact hles.trans (hpaid pindex hpays)
      · exact hpaids wtx' hrest pindex (hkey.symm ▸ hpays)
    · rcases hblocks with hsame | hmain
      · rw [hsame]
        exact hblock
      · exact .inr hmain

end Notes

section Births

variable {env : OwnerEnv} {st : NodeState} {last : Option PIndex} {keystore : OwnerStore}
  {mapKeyMetadata mapKeyBirth : List (CKeyID × ℤ)} {setKeys : List CKeyID} {mapWallet : List CWalletTx}
  {keyid : CKeyID} {P : ChainParams} {disk : BlockFiles} {genesis : CBlockIndex}

theorem mem_keysToInfer : keyid ∈ keysToInfer mapKeyMetadata setKeys ↔
    keyid ∈ setKeys ∧ ∀ nCreateTime, (keyid, nCreateTime) ∈ mapKeyMetadata → nCreateTime = 0 := by
  rw [keysToInfer, List.mem_filter, decide_eq_true_iff, knownBirths, List.mem_map]
  refine and_congr_right fun _ ↦ ⟨fun h nCreateTime hmem ↦ ?_, fun h ↦ ?_⟩
  · by_contra hne
    exact h ⟨_, List.mem_filter.mpr ⟨hmem, decide_eq_true hne⟩, rfl⟩
  · rintro ⟨⟨keyid', nCreateTime⟩, hmem, rfl⟩
    obtain ⟨hmem, hne⟩ := List.mem_filter.mp hmem
    exact of_decide_eq_true hne (h nCreateTime hmem)

/-- A key without metadata gets the time of its first block. -/
theorem mem_of_mem_keysToInfer (h : getKeyBirthTimes env st last keystore mapKeyMetadata setKeys mapWallet =
    some mapKeyBirth) (hinfer : keyid ∈ keysToInfer mapKeyMetadata setKeys) :
    ∃ pindexMax, findBlockByHeight st last (max 0 (st.nBestHeight - 144)) = some pindexMax ∧
      (keyid, birthTime (mapWallet.foldl (noteTx env st keystore) (keyid, pindexMax)).2) ∈ mapKeyBirth := by
  rw [getKeyBirthTimes, if_neg (List.ne_nil_of_mem hinfer)] at h
  obtain ⟨pindexMax, hmax, hbirths⟩ := Option.bind_eq_some_iff.mp h
  refine ⟨pindexMax, hmax, ?_⟩
  rw [← Option.some.inj hbirths]
  apply List.mem_append_right
  have hfirst := List.mem_map_of_mem (f := fun first : FirstBlock ↦ (first.1, birthTime first.2))
    (List.mem_map_of_mem (f := fun keyid ↦ mapWallet.foldl (noteTx env st keystore) (keyid, pindexMax)) hinfer)
  rwa [foldl_noteTx.1] at hfirst

/-- Every key has a birth time. -/
theorem mem_getKeyBirthTimes (h : getKeyBirthTimes env st last keystore mapKeyMetadata setKeys mapWallet =
    some mapKeyBirth) (hkey : keyid ∈ setKeys) : ∃ nTime, (keyid, nTime) ∈ mapKeyBirth := by
  by_cases hinfer : keyid ∈ keysToInfer mapKeyMetadata setKeys
  · obtain ⟨pindexMax, -, hmem⟩ := mem_of_mem_keysToInfer h hinfer
    exact ⟨_, hmem⟩
  · have hknown : keyid ∈ (knownBirths mapKeyMetadata).map Prod.fst := by
      by_contra hunknown
      exact hinfer (List.mem_filter.mpr ⟨hkey, decide_eq_true hunknown⟩)
    obtain ⟨⟨keyid', nTime⟩, hmem, rfl⟩ := List.mem_map.mp hknown
    rw [getKeyBirthTimes] at h
    split at h
    · exact ⟨nTime, Option.some.inj h ▸ hmem⟩
    · obtain ⟨pindexMax, -, hbirths⟩ := Option.bind_eq_some_iff.mp h
      exact ⟨nTime, Option.some.inj hbirths ▸ List.mem_append_left _ hmem⟩

/-- No key has two birth times. -/
theorem nodup_getKeyBirthTimes (h : getKeyBirthTimes env st last keystore mapKeyMetadata setKeys mapWallet =
    some mapKeyBirth) (hmetadata : (mapKeyMetadata.map Prod.fst).Nodup) (hkeys : setKeys.Nodup) :
    (mapKeyBirth.map Prod.fst).Nodup := by
  have hknown : ((knownBirths mapKeyMetadata).map Prod.fst).Nodup :=
    hmetadata.sublist (List.filter_sublist.map Prod.fst)
  rw [getKeyBirthTimes] at h
  split at h
  · rw [← Option.some.inj h]
    exact hknown
  · obtain ⟨pindexMax, -, hbirths⟩ := Option.bind_eq_some_iff.mp h
    have hinferred : (((keysToInfer mapKeyMetadata setKeys).map fun keyid ↦
        mapWallet.foldl (noteTx env st keystore) (keyid, pindexMax)).map fun first ↦
          (first.1, birthTime first.2)).map Prod.fst = keysToInfer mapKeyMetadata setKeys := by
      rw [List.map_map, List.map_map, ← List.map_id (keysToInfer mapKeyMetadata setKeys), List.map_map]
      exact List.map_congr_left fun keyid _ ↦ foldl_noteTx.1
    rw [← Option.some.inj hbirths, List.map_append, hinferred]
    refine hknown.append (hkeys.filter _) fun keyid hmem hinfer ↦ ?_
    exact of_decide_eq_true (List.mem_filter.mp hinfer).2 hmem

end Births

end Electra.Wallet
