import Mathlib.Algebra.GroupWithZero.Nat
import Electra.Foundations.Vault
import Electra.Wallet.KeyStoreCalls

/-!
# Runs of an encrypted wallet

The wallet answers `AddKey`, `EncryptWallet`, `Lock`, `Unlock` and `ChangeWalletPassphrase` as a vault
does that holds its keys, as long as encryption does not leave it without a key.  Then every key comes
back with the current passphrase and no other one opens the wallet.
-/

namespace Electra.Wallet

open Electra.Foundations

inductive WalletCall where
  | addKey (key : CKey)
  | encryptWallet (strWalletPassphrase : SecureString) (drawn : CWallet.EncryptionDraw)
      (newKeys : List CKey)
  | lock
  | unlock (strWalletPassphrase : SecureString)
  | changeWalletPassphrase (strOldWalletPassphrase strNewWalletPassphrase : SecureString)
      (nMeasured : BitVec 32)

/-- The call that the vault gets. -/
def WalletCall.toCall : WalletCall → Vault.Call CKey SecureString
  | addKey key => .put key
  | encryptWallet strWalletPassphrase _ newKeys => .protect strWalletPassphrase newKeys
  | lock => .shut
  | unlock strWalletPassphrase => .reopen strWalletPassphrase
  | changeWalletPassphrase strOldWalletPassphrase strNewWalletPassphrase _ =>
      .change strOldWalletPassphrase strNewWalletPassphrase

variable (C : KeyCrypto)

def CWallet.call (w : CWallet) : WalletCall → Except String (Bool × CWallet)
  | .addKey key => .ok (w.addKey C key)
  | .encryptWallet strWalletPassphrase drawn newKeys =>
      w.encryptWallet C strWalletPassphrase drawn newKeys
  | .lock => .ok w.lock
  | .unlock strWalletPassphrase => .ok (w.unlock C strWalletPassphrase)
  | .changeWalletPassphrase strOldWalletPassphrase strNewWalletPassphrase nMeasured =>
      .ok (w.changeWalletPassphrase C strOldWalletPassphrase strNewWalletPassphrase nMeasured)

variable (allKeys : Set CKey) (passphrases : Set SecureString)

/-- The calls that are made, with these keys and passphrases: the last three only on an encrypted
wallet. -/
def WalletCall.Admissible (w : CWallet) : WalletCall → Prop
  | addKey key => key ∈ allKeys
  | encryptWallet strWalletPassphrase _ newKeys =>
      strWalletPassphrase ∈ passphrases ∧ ∀ key ∈ newKeys, key ∈ allKeys
  | lock => w.isCrypted = true
  | unlock strWalletPassphrase => w.isCrypted = true ∧ strWalletPassphrase ∈ passphrases
  | changeWalletPassphrase strOldWalletPassphrase strNewWalletPassphrase _ =>
      w.isCrypted = true ∧ strOldWalletPassphrase ∈ passphrases ∧
        strNewWalletPassphrase ∈ passphrases

/-- Encryption finds a key in the wallet, or its key pool gets one. -/
def WalletCall.LeavesKey (w : CWallet) : WalletCall → Prop
  | encryptWallet _ _ newKeys =>
      w.isCrypted = false → w.mapKeys.isEmpty = true → newKeys ≠ []
  | _ => True

abbrev WalletLog := List (Vault.Call CKey SecureString × Bool)

/-- A run from a new wallet, each of whose calls meets a condition on the wallet it is made on. -/
abbrev WalletRun (Admits : CWallet → WalletCall → Prop) : WalletLog → CWallet → Prop :=
  Vault.Run (fun w call ↦ w.call C call) WalletCall.toCall Admits CWallet.new

/-- `GetKey` returns the key with its own secret and public key. -/
def CWallet.Returns (w : CWallet) (key : CKey) : Prop :=
  ∃ key', w.getKey C (key.keyID C) false = some key' ∧ key'.vchSecret = key.vchSecret ∧
    key'.getPubKey C = key.getPubKey C

/-- No key is lost: after these calls the keys that were added come back from a wallet that is not
locked, the current passphrase unlocks it, and no other one does. -/
structure CWallet.KeysKept (log : WalletLog) (w : CWallet) : Prop where
  mapKeys : w.isCrypted = true → w.mapKeys.isEmpty = true
  pass : w.isCrypted = true → (Vault.logPass log).isSome = true
  getKey : w.isLocked = false → ∀ key ∈ Vault.logItems log, w.Returns C key
  getKey_locked : w.isLocked = true → ∀ address fCompressedPubKey,
    w.getKey C address fCompressedPubKey = none
  unlock : w.isLocked = true → ∀ pass, Vault.logPass log = some pass →
    (w.unlock C pass).1 = true ∧ ∀ key ∈ Vault.logItems log, (w.unlock C pass).2.Returns C key
  unlock_other : w.isLocked = true → ∀ pass, Vault.logPass log = some pass →
    ∀ other ∈ passphrases, other ≠ pass →
      (w.unlock C other).1 = false ∧ (w.unlock C other).2.isLocked = true

/-- The wallet keeps what the vault holds. -/
def KeepsVault (v : Vault CKey SecureString) (w : CWallet) : Prop :=
  (∀ key ∈ v.items, key ∈ allKeys) ∧
    ((v.pass = none ∧ w.Plain C v.items) ∨
      ∃ pass ∈ passphrases, ∃ vMasterKey, v.pass = some pass ∧ v.items ≠ [] ∧
        w.Sealed C pass vMasterKey v.items ∧ w.vMasterKey = if v.isShut then [] else vMasterKey)

variable {C} {allKeys} {passphrases}

theorem keepsVault_new : KeepsVault C allKeys passphrases Vault.empty CWallet.new := by
  refine ⟨by simp [Vault.empty], .inl ⟨rfl, rfl, rfl, Std.TreeMap.isEmpty_emptyc,
    Std.TreeMap.isEmpty_emptyc, ?_⟩⟩
  exact Directory.of_isEmpty Std.TreeMap.isEmpty_emptyc

section Step

variable (hC : C.Lawful passphrases) (hid : Set.InjOn (CKey.keyID C) allKeys)
  {v : Vault CKey SecureString} {w : CWallet}

include hid in
theorem KeepsVault.addKey (h : KeepsVault C allKeys passphrases v w) {key : CKey}
    (hkey : key ∈ allKeys) :
    ∃ w', w.addKey C key = ((v.step (.put key)).1, w') ∧
      KeepsVault C allKeys passphrases (v.step (.put key)).2 w' := by
  obtain ⟨hkeys, ⟨hpass, hplain⟩ | ⟨pass, hmem, vMasterKey, hpass, hitems, hsealed, hmaster⟩⟩ := h
  · have hinj : ∀ other ∈ v.items, other.keyID C = key.keyID C → other = key :=
      fun other hother haddress ↦ hid (hkeys other hother) hkey haddress
    obtain ⟨w', hadd, hplain'⟩ := hplain.addKey hinj
    have hstep : v.step (.put key) = (true, { v with items := key :: v.items }) := by
      simp [Vault.step, Vault.isShut_of_pass hpass]
    rw [hstep]
    exact ⟨w', hadd, List.forall_mem_cons.mpr ⟨hkey, hkeys⟩, .inl ⟨hpass, hplain'⟩⟩
  · cases hshut : v.isShut with
    | true =>
        rw [hshut, if_pos rfl] at hmaster
        have hstep : v.step (.put key) = (false, v) := by
          simp [Vault.step, hshut]
        rw [hstep]
        refine ⟨w, hsealed.addKey_shut hmaster key, hkeys, .inr ⟨pass, hmem, vMasterKey, hpass, hitems,
          hsealed, ?_⟩⟩
        rw [hshut, if_pos rfl, hmaster]
    | false =>
        rw [hshut, if_neg Bool.false_ne_true] at hmaster
        obtain ⟨w', hadd, hsealed', hmaster'⟩ := hsealed.addKey_open hmaster
          fun other hother haddress ↦ hid (hkeys other hother) hkey haddress
        have hstep : v.step (.put key) = (true, { v with items := key :: v.items }) := by
          simp [Vault.step, hshut]
        rw [hstep]
        refine ⟨w', hadd, List.forall_mem_cons.mpr ⟨hkey, hkeys⟩, .inr ⟨pass, hmem, vMasterKey, hpass,
          List.cons_ne_nil key v.items, hsealed', ?_⟩⟩
        simp only [hshut, hmaster', Bool.false_eq_true, if_false]

include hC hid in
theorem KeepsVault.encryptWallet (h : KeepsVault C allKeys passphrases v w) {pass : SecureString}
    (hpass : pass ∈ passphrases) (drawn : CWallet.EncryptionDraw) {newKeys : List CKey}
    (hnew : ∀ key ∈ newKeys, key ∈ allKeys)
    (hleaves : w.isCrypted = false → w.mapKeys.isEmpty = true → newKeys ≠ []) :
    ∃ w', w.encryptWallet C pass drawn newKeys = .ok ((v.step (.protect pass newKeys)).1, w') ∧
      KeepsVault C allKeys passphrases (v.step (.protect pass newKeys)).2 w' := by
  obtain ⟨hkeys, ⟨hnone, hplain⟩ | ⟨pass', hmem, vMasterKey, hpass', hitems, hsealed, hmaster⟩⟩ := h
  · obtain ⟨w', hcall, hsealed, hmaster⟩ :=
      CWallet.encryptWallet_plain hid hC hplain hpass drawn newKeys hkeys hnew
    have hkey : newKeys ++ v.items ≠ [] := by
      intro hnil
      obtain ⟨hnewNil, hitemsNil⟩ := List.append_eq_nil_iff.mp hnil
      refine hleaves hplain.fUseCrypto ?_ hnewNil
      have hdir := hplain.mapKeys
      rw [hitemsNil] at hdir
      exact hdir.isEmpty_nil
    have hstep : (v.step (.protect pass newKeys)).1 = true := by
      simp [Vault.step, hnone]
    have hitems' : (v.step (.protect pass newKeys)).2.items = newKeys ++ v.items := by
      simp [Vault.step, hnone]
    refine ⟨w', ?_, ?_, .inr ⟨pass, hpass, List.ofFn drawn.vMasterKey, ?_, ?_, ?_, ?_⟩⟩
    · rw [hstep]
      exact hcall
    · rw [hitems']
      exact List.forall_mem_append.mpr ⟨hnew, hkeys⟩
    · simp [Vault.step, hnone]
    · rw [hitems']
      exact hkey
    · rw [hitems']
      exact hsealed
    · rw [hmaster]
      simp [Vault.step, hnone]
  · have hstep : v.step (.protect pass newKeys) = (false, v) := by
      simp [Vault.step, hpass']
    rw [hstep]
    refine ⟨w, ?_, hkeys, .inr ⟨pass', hmem, vMasterKey, hpass', hitems, hsealed, hmaster⟩⟩
    simp only [CWallet.encryptWallet, CWallet.isCrypted, hsealed.fUseCrypto, if_true]

theorem KeepsVault.sealed (h : KeepsVault C allKeys passphrases v w) (hw : w.isCrypted = true) :
    ∃ pass ∈ passphrases, ∃ vMasterKey, v.pass = some pass ∧ v.items ≠ [] ∧
      w.Sealed C pass vMasterKey v.items ∧ w.vMasterKey = if v.isShut then [] else vMasterKey := by
  obtain ⟨-, ⟨-, hplain⟩ | hsealed⟩ := h
  · have hfalse : w.isCrypted = false := hplain.fUseCrypto
    rw [hw] at hfalse
    cases hfalse
  · exact hsealed

theorem KeepsVault.lock (h : KeepsVault C allKeys passphrases v w) (hw : w.isCrypted = true) :
    ∃ w', w.lock = ((v.step .shut).1, w') ∧ KeepsVault C allKeys passphrases (v.step .shut).2 w' := by
  obtain ⟨pass, hmem, vMasterKey, hpass, hitems, hsealed, -⟩ := h.sealed hw
  have hsome : v.pass.isSome = true := by
    rw [hpass]
    rfl
  have hstep : v.step .shut =
      (true, { v with isShut := true, pass_of_isShut := fun _ ↦ hsome }) := by
    simp only [Vault.step, dif_pos hsome]
  rw [hstep]
  exact ⟨_, CWallet.lock_of_fUseCrypto hsealed.fUseCrypto, h.1,
    .inr ⟨pass, hmem, vMasterKey, hpass, hitems, hsealed.withMasterKey [], rfl⟩⟩

include hC in
theorem KeepsVault.unlock (h : KeepsVault C allKeys passphrases v w) (hw : w.isCrypted = true)
    {pass : SecureString} (hpass : pass ∈ passphrases) :
    ∃ w', w.unlock C pass = ((v.step (.reopen pass)).1, w') ∧
      KeepsVault C allKeys passphrases (v.step (.reopen pass)).2 w' := by
  obtain ⟨pass', hmem, vMasterKey, hpass', hitems, hsealed, hmaster⟩ := h.sealed hw
  by_cases hopens : v.isShut = true ∧ v.pass = some pass
  · obtain ⟨hshut, hsame⟩ := hopens
    rw [hshut, if_pos rfl] at hmaster
    obtain rfl : pass' = pass := Option.some_inj.mp (hpass'.symm.trans hsame)
    have hstep : v.step (.reopen pass') =
        (true, { v with isShut := false, pass_of_isShut := by simp }) := by
      simp only [Vault.step, hshut, hsame, and_self, if_true]
    rw [hstep]
    exact ⟨_, hsealed.unlock_self hC hmaster hpass, h.1,
      .inr ⟨pass', hmem, vMasterKey, hpass', hitems, hsealed.withMasterKey vMasterKey, rfl⟩⟩
  · have hstep : v.step (.reopen pass) = (false, v) := by
      simp only [Vault.step, if_neg hopens]
    rw [hstep]
    refine ⟨w, ?_, h⟩
    cases hshut : v.isShut with
    | false =>
        rw [hshut, if_neg Bool.false_ne_true] at hmaster
        exact CWallet.Sealed.unlock_of_not_isLocked (hsealed.isLocked_open hmaster) pass
    | true =>
        refine hsealed.unlock_other hC hitems hmem hpass ?_
        rintro rfl
        exact hopens ⟨hshut, hpass'⟩

include hC in
theorem KeepsVault.changeWalletPassphrase (h : KeepsVault C allKeys passphrases v w)
    (hw : w.isCrypted = true) {old new : SecureString} (hold : old ∈ passphrases)
    (hnew : new ∈ passphrases) (nMeasured : BitVec 32) :
    ∃ w', w.changeWalletPassphrase C old new nMeasured = ((v.step (.change old new)).1, w') ∧
      KeepsVault C allKeys passphrases (v.step (.change old new)).2 w' := by
  obtain ⟨pass, hmem, vMasterKey, hpass, hitems, hsealed, hmaster⟩ := h.sealed hw
  by_cases hsame : old = pass
  · subst hsame
    have hstep : v.step (.change old new) =
        (true, { v with pass := some new, pass_of_isShut := fun _ ↦ rfl }) := by
      simp only [Vault.step, hpass, if_true]
    obtain ⟨w', hcall, hsealed', hmaster'⟩ :=
      hsealed.changeWalletPassphrase_self hC hmem new nMeasured
    have hlocked : w.isLocked = v.isShut := by
      cases hshut : v.isShut with
      | true => exact hsealed.isLocked_shut (by rw [hmaster, hshut, if_pos rfl])
      | false => exact hsealed.isLocked_open (by rw [hmaster, hshut, if_neg Bool.false_ne_true])
    rw [hstep]
    rw [hlocked] at hmaster'
    exact ⟨w', hcall, h.1, .inr ⟨new, hnew, vMasterKey, rfl, hitems, hsealed', hmaster'⟩⟩
  · have hne : v.pass ≠ some old := by
      rw [hpass]
      exact fun heq ↦ hsame (Option.some_inj.mp heq).symm
    have hsome : v.pass.isSome = true := by
      rw [hpass]
      rfl
    have hstep : v.step (.change old new) =
        (false, { v with isShut := true, pass_of_isShut := fun _ ↦ hsome }) := by
      simp only [Vault.step, if_neg hne, dif_pos hsome]
    rw [hstep]
    exact ⟨_, hsealed.changeWalletPassphrase_other hC hitems hmem hold hsame new nMeasured, h.1,
      .inr ⟨pass, hmem, vMasterKey, hpass, hitems, hsealed.withMasterKey [], rfl⟩⟩

include hC hid in
/-- Every call is answered as the vault answers it. -/
theorem KeepsVault.call (h : KeepsVault C allKeys passphrases v w) (call : WalletCall)
    (hadmissible : call.Admissible allKeys passphrases w) (hleaves : call.LeavesKey w) :
    ∃ w', w.call C call = .ok ((v.step call.toCall).1, w') ∧
      KeepsVault C allKeys passphrases (v.step call.toCall).2 w' := by
  cases call with
  | addKey key =>
      obtain ⟨w', hcall, hkeeps⟩ := h.addKey hid hadmissible
      exact ⟨w', congrArg Except.ok hcall, hkeeps⟩
  | encryptWallet pass drawn newKeys =>
      exact h.encryptWallet hC hid hadmissible.1 drawn hadmissible.2 hleaves
  | lock =>
      obtain ⟨w', hcall, hkeeps⟩ := h.lock hadmissible
      exact ⟨w', congrArg Except.ok hcall, hkeeps⟩
  | unlock pass =>
      obtain ⟨w', hcall, hkeeps⟩ := h.unlock hC hadmissible.1 hadmissible.2
      exact ⟨w', congrArg Except.ok hcall, hkeeps⟩
  | changeWalletPassphrase old new nMeasured =>
      obtain ⟨w', hcall, hkeeps⟩ :=
        h.changeWalletPassphrase hC hadmissible.1 hadmissible.2.1 hadmissible.2.2 nMeasured
      exact ⟨w', congrArg Except.ok hcall, hkeeps⟩

end Step

/-! ## Every key comes back -/

theorem KeepsVault.keysKept (hC : C.Lawful passphrases) {v : Vault CKey SecureString} {w : CWallet}
    (h : KeepsVault C allKeys passphrases v w) {log : WalletLog}
    (hlogItems : v.items = Vault.logItems log) (hlogPass : v.pass = Vault.logPass log) :
    w.KeysKept C passphrases log := by
  have hlocked_crypted : w.isLocked = true → w.isCrypted = true := by
    intro hlocked
    by_contra hcrypted
    simp only [CWallet.isLocked, Bool.not_eq_true] at hlocked hcrypted
    simp [hcrypted] at hlocked
  have hlocked_shut : w.isLocked = true → ∃ pass ∈ passphrases, ∃ vMasterKey,
      v.pass = some pass ∧ v.items ≠ [] ∧ w.Sealed C pass vMasterKey v.items ∧ w.vMasterKey = [] := by
    intro hlocked
    obtain ⟨pass, hmem, vMasterKey, hpass, hitems, hsealed, -⟩ := h.sealed (hlocked_crypted hlocked)
    refine ⟨pass, hmem, vMasterKey, hpass, hitems, hsealed, ?_⟩
    rw [CWallet.isLocked_of_fUseCrypto hsealed.fUseCrypto] at hlocked
    exact List.isEmpty_iff.mp hlocked
  refine ⟨?_, ?_, ?_, ?_, ?_, ?_⟩
  · intro hcrypted
    obtain ⟨_, _, _, _, _, hsealed, _⟩ := h.sealed hcrypted
    exact hsealed.mapKeys
  · intro hcrypted
    obtain ⟨pass, _, _, hpass, _⟩ := h.sealed hcrypted
    rw [← hlogPass, hpass]
    rfl
  · intro hopen key hkey
    rw [← hlogItems] at hkey
    obtain ⟨-, ⟨-, hplain⟩ | ⟨pass, _, vMasterKey, _, _, hsealed, hmaster⟩⟩ := h
    · exact ⟨key, hplain.getKey hkey, rfl, rfl⟩
    · cases hshut : v.isShut with
      | true =>
          rw [hshut, if_pos rfl] at hmaster
          rw [hsealed.isLocked_shut hmaster] at hopen
          cases hopen
      | false =>
          rw [hshut, if_neg Bool.false_ne_true] at hmaster
          exact hsealed.getKey_open hC hmaster hkey
  · intro hlocked address fCompressedPubKey
    obtain ⟨_, _, _, _, _, hsealed, hmaster⟩ := hlocked_shut hlocked
    exact hsealed.getKey_shut hmaster address fCompressedPubKey
  · intro hlocked pass hpass
    obtain ⟨pass', hmem, vMasterKey, hpass', _, hsealed, hmaster⟩ := hlocked_shut hlocked
    obtain rfl : pass' = pass := Option.some_inj.mp (hpass'.symm.trans (hlogPass.trans hpass))
    rw [hsealed.unlock_self hC hmaster hmem]
    refine ⟨rfl, fun key hkey ↦ ?_⟩
    rw [← hlogItems] at hkey
    exact (hsealed.withMasterKey vMasterKey).getKey_open hC rfl hkey
  · intro hlocked pass hpass other hother hne
    obtain ⟨pass', hmem, vMasterKey, hpass', hitems, hsealed, hmaster⟩ := hlocked_shut hlocked
    obtain rfl : pass' = pass := Option.some_inj.mp (hpass'.symm.trans (hlogPass.trans hpass))
    rw [hsealed.unlock_other hC hitems hmem hother hne]
    exact ⟨rfl, hlocked⟩

/-- In every run in which no encryption leaves the wallet without a key, every key that was added
comes back, and no call throws. -/
theorem keysKept_of_walletRun (hC : C.Lawful passphrases)
    (hid : Set.InjOn (CKey.keyID C) allKeys) {log : WalletLog} {w : CWallet}
    (hrun : WalletRun C (fun w call ↦ call.Admissible allKeys passphrases w ∧ call.LeavesKey w) log w) :
    w.KeysKept C passphrases log ∧
      ∀ call : WalletCall, call.Admissible allKeys passphrases w → call.LeavesKey w →
        ∃ answer w', w.call C call = .ok (answer, w') := by
  obtain ⟨v, hkeeps, hitems, hpass⟩ := hrun.refines keepsVault_new
    fun v w call hkeeps hadmits ↦ hkeeps.call hC hid call hadmits.1 hadmits.2
  refine ⟨hkeeps.keysKept hC hitems hpass, fun call hadmissible hleaves ↦ ?_⟩
  obtain ⟨w', hcall, -⟩ := hkeeps.call hC hid call hadmissible hleaves
  exact ⟨_, w', hcall⟩

/-! ## A cipher that tags its texts -/

/-- Encryption puts the key before the text.  Under another key the text is 47 bytes that end in the
one byte of a padding. -/
def tagCrypto : KeyCrypto where
  publicKey vchSecret fCompressed :=
    if fCompressed then ⟨2 :: vchSecret⟩ else ⟨4 :: vchSecret ++ List.replicate 32 0⟩
  readsPublicKey := CPubKey.isValid
  getID vchPubKey := BitVec.ofNat 160 (vchPubKey.vchPubKey.map UInt8.toNat).sum
  getHash _ _ := 0
  bytesToKey _ pass salt _ := ⟨pass, salt⟩
  encrypt crypter text := crypter.chKey ++ text
  decrypt crypter text :=
    if crypter.chKey <+: text then some (text.drop crypter.chKey.length)
    else some (List.replicate 47 0)

theorem tagCrypto_lawful (passphrases : Set SecureString) : tagCrypto.Lawful passphrases where
  readsPublicKey key := by
    have hsize := key.size_vchSecret
    cases hform : key.fCompressedPubKey <;> simp [tagCrypto, CPubKey.isValid, hsize]
  publicKey_form key := by
    have hsize := key.size_vchSecret
    cases hform : key.fCompressedPubKey <;> simp [tagCrypto, hsize]
  decrypt_encrypt crypter text := by
    simp [tagCrypto]
  decrypt_wrong crypter wrong vchSecret vchSecret' fCompressed fCompressed' hne hsize hsize' h := by
    simp only [tagCrypto] at h
    split at h
    · rename_i hinitial
      have hdrop := congrArg List.length (Option.some_inj.mp h)
      rw [List.length_drop, List.length_append, hsize, hsize'] at hdrop
      have hlength := hinitial.length_le
      rw [List.length_append, hsize] at hlength
      exact absurd (List.prefix_of_prefix_length_le hinitial (List.prefix_append _ _) (by omega)
        |>.eq_of_length (by omega)) hne
    · have hgarbage := congrArg List.length (Option.some_inj.mp h)
      rw [List.length_replicate, hsize'] at hgarbage
      omega
  bytesToKey_inj pass _ pass' _ _ _ _ h := h

def keyOfByte (byte : UInt8) (fCompressed : Bool) : CKey :=
  ⟨List.replicate 32 byte, fCompressed, by simp⟩

theorem keysKept_tagCrypto :
    ∃ w : CWallet, w.KeysKept tagCrypto {[97], [98]}
      [(.protect [97] [keyOfByte 2 true], true), (.put (keyOfByte 1 false), true)] := by
  let allKeys : Set CKey := {keyOfByte 1 false, keyOfByte 2 true}
  have hid : Set.InjOn (CKey.keyID tagCrypto) allKeys := by
    have hne : (keyOfByte 1 false).keyID tagCrypto ≠ (keyOfByte 2 true).keyID tagCrypto := by
      decide
    intro key hkey key' hkey' haddress
    rcases hkey with rfl | rfl <;> rcases hkey' with rfl | rfl
    · rfl
    · exact absurd haddress hne
    · exact absurd haddress.symm hne
    · rfl
  let drawn : CWallet.EncryptionDraw := ⟨fun _ ↦ 7, fun _ ↦ 9, 0, 30000⟩
  have hC := tagCrypto_lawful {[97], [98]}
  have hplain : CWallet.new.Plain tagCrypto [] :=
    ⟨rfl, rfl, Std.TreeMap.isEmpty_emptyc, Std.TreeMap.isEmpty_emptyc,
      Directory.of_isEmpty Std.TreeMap.isEmpty_emptyc⟩
  have hpass : [97] ∈ ({[97], [98]} : Set SecureString) := .inl rfl
  have hinj : ∀ other ∈ ([] : List CKey),
      other.keyID tagCrypto = (keyOfByte 1 false).keyID tagCrypto → other = keyOfByte 1 false := by
    simp
  obtain ⟨w₁, hadd, hplain₁⟩ := hplain.addKey hinj
  obtain ⟨w₂, hencrypt, -⟩ := CWallet.encryptWallet_plain hid hC hplain₁ hpass drawn
    [keyOfByte 2 true] (by simp [allKeys]) (by simp [allKeys])
  refine ⟨w₂, (keysKept_of_walletRun hC hid ?_).1⟩
  refine Vault.Run.snoc (WalletCall.encryptWallet [97] drawn [keyOfByte 2 true])
    (Vault.Run.snoc (WalletCall.addKey (keyOfByte 1 false)) Vault.Run.nil ?_ ?_) ?_ hencrypt
  · exact ⟨.inl rfl, trivial⟩
  · exact congrArg Except.ok hadd
  · refine ⟨⟨.inl rfl, ?_⟩, fun _ _ ↦ List.cons_ne_nil _ _⟩
    intro key hkey
    exact .inr (List.mem_singleton.mp hkey)

/-- Encrypted without a key, the wallet is unlocked by another passphrase. -/
theorem not_keysKept_noKeys :
    tagCrypto.Lawful {[97], [98]} ∧ Set.InjOn (CKey.keyID tagCrypto) ∅ ∧
      ∃ w, WalletRun tagCrypto (fun w call ↦ call.Admissible ∅ {[97], [98]} w)
          [(.protect [97] [], true)] w ∧
        w.isLocked = true ∧ (w.unlock tagCrypto [98]).1 = true ∧
        ¬ w.KeysKept tagCrypto {[97], [98]} [(.protect [97] [], true)] := by
  have hC := tagCrypto_lawful {[97], [98]}
  have hid : Set.InjOn (CKey.keyID tagCrypto) ∅ := Set.injOn_empty _
  have hpass : [97] ∈ ({[97], [98]} : Set SecureString) := .inl rfl
  let drawn : CWallet.EncryptionDraw := ⟨fun _ ↦ 7, fun _ ↦ 9, 0, 30000⟩
  have hplain : CWallet.new.Plain tagCrypto [] :=
    ⟨rfl, rfl, Std.TreeMap.isEmpty_emptyc, Std.TreeMap.isEmpty_emptyc,
      Directory.of_isEmpty Std.TreeMap.isEmpty_emptyc⟩
  obtain ⟨w, hencrypt, hsealed, hmaster⟩ := CWallet.encryptWallet_plain hid hC hplain hpass drawn []
    (by simp) (by simp)
  have hlocked : w.isLocked = true := hsealed.isLocked_shut hmaster
  have hpadding : ∀ crypter text, (tagCrypto.decrypt crypter text).isSome = true := by
    intro crypter text
    simp only [tagCrypto]
    split <;> rfl
  have hpass' : [98] ∈ ({[97], [98]} : Set SecureString) := .inr rfl
  obtain ⟨wrong, hunlock⟩ := hsealed.unlock_noKeys hC hmaster hpass hpass' hpadding
  have htrue : (w.unlock tagCrypto [98]).1 = true := by
    rw [hunlock]
  refine ⟨hC, hid, w, ?_, hlocked, htrue, ?_⟩
  · exact Vault.Run.snoc (WalletCall.encryptWallet [97] drawn []) Vault.Run.nil
      ⟨.inl rfl, by simp⟩ hencrypt
  · intro hkept
    have hfalse := (hkept.unlock_other hlocked [97] rfl [98] (.inr rfl) (by decide)).1
    rw [htrue] at hfalse
    cases hfalse

end Electra.Wallet
