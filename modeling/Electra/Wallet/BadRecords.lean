import Electra.Wallet.KeyStoreRun
import Electra.Wallet.LoadRecord

/-!
# Bad records

A record that cannot be loaded leaves the wallet as it was, apart from the labels of the address book,
transactions, and keys for a crypted wallet that is unlocked: these are in the wallet before the last check
of their records.
-/

namespace Electra.Wallet

open Chain Net Foundations.CleanFailure Foundations.ReadOnlyRun Load
open Records (ofString readWalletTx)

/-- The parts of a wallet that a bad record must not change. -/
structure WalletParts where
  mapWallet : Uint256 → Option WalletEntry
  mapAddressBook : CTxDestination → Option (List UInt8)
  mapKeys : CKeyID → Option (CSecret × Bool)
  mapCryptedKeys : CKeyID → Option (CPubKey × List UInt8)
  vMasterKey : CKeyingMaterial
  fUseCrypto : Bool
  mapScripts : CKeyID → Option CScript
  setKeyPool : Finset ℤ
  mapMasterKeys : BitVec 32 → Option CMasterKey
  nMasterKeyMaxID : BitVec 32
  nOrderPosNext : ℤ

def parts (s : LoadState) : WalletParts where
  mapWallet := s.wallet.mapWallet
  mapAddressBook := s.wallet.mapAddressBook
  mapKeys id := s.wallet.keystore.mapKeys[id]?
  mapCryptedKeys id := s.wallet.keystore.mapCryptedKeys[id]?
  vMasterKey := s.wallet.keystore.vMasterKey
  fUseCrypto := s.wallet.keystore.fUseCrypto
  mapScripts := s.wallet.mapScripts
  setKeyPool := s.wallet.setKeyPool
  mapMasterKeys id := s.wallet.keystore.mapMasterKeys[id]?
  nMasterKeyMaxID := s.wallet.keystore.nMasterKeyMaxID
  nOrderPosNext := s.wallet.nOrderPosNext

variable {α : Type} {env : LoadEnv} {s s' : LoadState}

theorem runOn_fromKey (read : Reader α) (s : LoadState) :
    runOn (fromKey read) s = match read.run s.ssKey with
      | .error _ => (.error (), s)
      | .ok (a, ssKey) => (.ok a, { s with ssKey }) := by
  unfold fromKey
  rw [runOn_get_bind]
  cases read.run s.ssKey <;> rfl

theorem runOn_fromValue (read : Reader α) (s : LoadState) :
    runOn (fromValue read) s = match read.run s.ssValue with
      | .error _ => (.error (), s)
      | .ok (a, ssValue) => (.ok a, { s with ssValue }) := by
  unfold fromValue
  rw [runOn_get_bind]
  cases read.run s.ssValue <;> rfl

theorem keeps_fromKey (read : Reader α) : Keeps parts (fromKey read) := by
  intro s
  rw [runOn_fromKey]
  cases read.run s.ssKey <;> rfl

theorem keeps_fromValue (read : Reader α) : Keeps parts (fromValue read) := by
  intro s
  rw [runOn_fromValue]
  cases read.run s.ssValue <;> rfl

/-- A reader that leaves the wallet alone is followed by what comes next. -/
theorem cleanAt_bind_of_runOn {β γ δ : Type} {m : Load α} {f : α → Load β} {r : Except δ (α × γ)}
    {next : α → γ → LoadState} (hkeeps : Keeps parts m)
    (hok : ∀ a rest, r = .ok (a, rest) → runOn m s = (.ok a, next a rest))
    (herror : ∀ e, r = .error e → (runOn m s).1 = .error ()) :
    CleanAt parts (m >>= f) s ↔ ∀ a rest, r = .ok (a, rest) → CleanAt parts (f a) (next a rest) := by
  rw [hkeeps.cleanAt_bind]
  constructor
  · exact fun h a rest hread ↦ h a _ (hok a rest hread)
  · intro h a s' hrun
    cases hread : r with
    | error e =>
      have hfails := herror e hread
      rw [hrun] at hfails
      cases hfails
    | ok p =>
      cases hrun.symm.trans (hok p.1 p.2 hread)
      exact h _ _ hread

theorem cleanAt_fromKey_bind {β : Type} {read : Reader α} {f : α → Load β} :
    CleanAt parts (fromKey read >>= f) s ↔
      ∀ a ssKey, read.run s.ssKey = .ok (a, ssKey) → CleanAt parts (f a) { s with ssKey } :=
  cleanAt_bind_of_runOn (keeps_fromKey read) (fun a ssKey h ↦ by rw [runOn_fromKey, h])
    fun e h ↦ by rw [runOn_fromKey, h]

theorem cleanAt_fromValue_bind {β : Type} {read : Reader α} {f : α → Load β} :
    CleanAt parts (fromValue read >>= f) s ↔
      ∀ a ssValue, read.run s.ssValue = .ok (a, ssValue) → CleanAt parts (f a) { s with ssValue } :=
  cleanAt_bind_of_runOn (keeps_fromValue read) (fun a ssValue h ↦ by rw [runOn_fromValue, h])
    fun e h ↦ by rw [runOn_fromValue, h]

theorem keeps_fail (strErr : String) : Keeps parts (fail strErr : Load α) := fun _ ↦ rfl

theorem keeps_onScan (f : CWalletScanState → CWalletScanState) : Keeps parts (onScan f) :=
  keeps_modify fun _ ↦ rfl

theorem keeps_noteOrderPos (nOrderPos : ℤ) : Keeps parts (noteOrderPos nOrderPos) := by
  unfold noteOrderPos
  split_ifs
  · exact keeps_onScan _
  · exact keeps_pure ()

theorem succeeds_onWallet (f : LoadedWallet → LoadedWallet) : Succeeds (onWallet f) := succeeds_modify _

theorem succeeds_noteOrderPos (nOrderPos : ℤ) : Succeeds (noteOrderPos nOrderPos) := by
  unfold noteOrderPos
  split_ifs
  · exact succeeds_modify _
  · exact succeeds_pure ()

theorem failsCleanly_readAcentry : FailsCleanly parts readAcentry := by
  refine (keeps_fromKey _).bind_failsCleanly fun _ ↦ (keeps_fromKey _).bind_failsCleanly fun nNumber ↦ ?_
  refine Keeps.bind_failsCleanly ?_ fun _ ↦ keeps_get.bind_failsCleanly fun s ↦ ?_
  · exact fun _ ↦ rfl
  split_ifs
  · exact (keeps_pure ()).failsCleanly
  · exact ((keeps_fromValue _).bind fun _ ↦ keeps_noteOrderPos _).failsCleanly

theorem failsCleanly_readMkey : FailsCleanly parts readMkey := by
  refine (keeps_fromKey _).bind_failsCleanly fun nID ↦ (keeps_fromValue _).bind_failsCleanly fun _ ↦ ?_
  refine keeps_get.bind_failsCleanly fun s ↦ ?_
  split_ifs
  · exact (keeps_fail _).failsCleanly
  · exact (succeeds_onWallet _).failsCleanly

theorem failsCleanly_readCkey : FailsCleanly parts (readCkey env) := by
  refine (keeps_onScan _).bind_failsCleanly fun _ ↦ (keeps_fromKey _).bind_failsCleanly fun vchPubKey ↦ ?_
  refine (keeps_fromValue _).bind_failsCleanly fun vchPrivKey ↦ keeps_get.bind_failsCleanly fun s ↦ ?_
  split
  · exact (keeps_fail _).failsCleanly
  · exact ((succeeds_onWallet _).bind fun _ ↦ succeeds_modify _).failsCleanly

theorem failsCleanly_readKeymeta : FailsCleanly parts (readKeymeta env) := by
  refine (keeps_fromKey _).bind_failsCleanly fun vchPubKey ↦ (keeps_fromValue _).bind_failsCleanly fun _ ↦ ?_
  exact (keeps_onScan _).bind_failsCleanly fun _ ↦ (succeeds_onWallet _).failsCleanly

/-- The default key is not among the parts. -/
theorem failsCleanly_readDefaultkey : FailsCleanly parts (readDefaultkey) := by
  refine keeps_get.bind_failsCleanly fun s ↦ ?_
  split
  · refine (Keeps.bind ?_ fun _ ↦ keeps_throw ()).failsCleanly
    exact fun _ ↦ rfl
  · exact ((succeeds_modify _).bind fun _ ↦ succeeds_onWallet _).failsCleanly

theorem failsCleanly_readPool : FailsCleanly parts (readPool env) := by
  refine (keeps_fromKey _).bind_failsCleanly fun nIndex ↦ (keeps_fromValue _).bind_failsCleanly fun _ ↦ ?_
  exact ((succeeds_onWallet _).bind fun _ ↦ succeeds_onWallet _).failsCleanly

theorem failsCleanly_readVersionRecord : FailsCleanly parts readVersionRecord :=
  ((keeps_fromValue _).bind fun _ ↦ keeps_onScan _).failsCleanly

theorem failsCleanly_readCscript : FailsCleanly parts (readCscript env) := by
  refine (keeps_fromKey _).bind_failsCleanly fun _ ↦ (keeps_fromValue _).bind_failsCleanly fun _ ↦ ?_
  exact (succeeds_onWallet _).failsCleanly

theorem failsCleanly_readOrderposnext : FailsCleanly parts readOrderposnext :=
  (keeps_fromValue _).bind_failsCleanly fun _ ↦ (succeeds_onWallet _).failsCleanly

theorem length_resizeString (nSize : ℕ) (str : List UInt8) : (resizeString nSize str).length = nSize := by
  rw [resizeString, List.length_append, List.length_take, List.length_replicate]
  omega

theorem resizeString_eq_self_iff {nSize : ℕ} {str : List UInt8} :
    resizeString nSize str = str ↔ nSize = str.length := by
  constructor
  · intro heq
    rw [← length_resizeString nSize str, heq]
  · rintro rfl
    rw [resizeString, List.take_length, Nat.sub_self, List.replicate_zero, List.append_nil]

/-- A string is read, or is left as its size makes it. -/
theorem readStringInto_cases (str : List UInt8) (is : ReadState) :
    (∃ p, Records.readString.run is = .ok p ∧ readStringInto str is = .ok p) ∨
    (Records.readString.run is).isOk = false ∧
      ((∃ e, readCompactSize.run is = .error e) ∧ readStringInto str is = .error str ∨
        ∃ nSize rest, readCompactSize.run is = .ok (nSize, rest) ∧
          readStringInto str is = .error (resizeString nSize str)) := by
  have hread : Records.readString.run is =
      readCompactSize.run is >>= fun p ↦ (stringData p.1).run p.2 := StateT.run_bind ..
  rw [hread, readStringInto]
  cases hsize : readCompactSize.run is with
  | error e => exact .inr ⟨rfl, .inl ⟨⟨e, rfl⟩, rfl⟩⟩
  | ok p =>
    obtain ⟨nSize, rest⟩ := p
    rw [Foundations.Outcome.ok_bind]
    cases hdata : (stringData nSize).run rest with
    | ok p => exact .inl ⟨p, rfl, by simp only [hdata]⟩
    | error e => exact .inr ⟨rfl, .inr ⟨nSize, rest, rfl, by simp only [hdata]⟩⟩

/-- A label that can be read, or that is there already with the length that the value gives. -/
def NameHarmless (env : LoadEnv) (w : LoadedWallet) (ssKey ssValue : ReadState) : Prop :=
  ∀ strAddress rest, Records.readString.run ssKey = .ok (strAddress, rest) →
    (Records.readString.run ssValue).isOk = false →
    ∃ label, w.mapAddressBook (readAddress env strAddress) = some label ∧
      ∀ nSize rest, readCompactSize.run ssValue = .ok (nSize, rest) → nSize = label.length

theorem parts_mapAddressBook {book : CTxDestination → Option (List UInt8)} :
    parts { s with wallet := { s.wallet with mapAddressBook := book } } = parts s ↔
      book = s.wallet.mapAddressBook := by
  simp [parts]

theorem runOn_readLabel (address : CTxDestination) (s : LoadState) : runOn (readLabel address) s =
    match readStringInto ((s.wallet.mapAddressBook address).getD []) s.ssValue with
    | .error torn => (.error (), { s with wallet := { s.wallet with
        mapAddressBook := Function.update s.wallet.mapAddressBook address (some torn) } })
    | .ok (label, ssValue) => (.ok (), { s with
        ssValue
        wallet := { s.wallet with
          mapAddressBook := Function.update s.wallet.mapAddressBook address (some label) } }) := by
  unfold readLabel
  rw [runOn_get_bind]
  cases readStringInto ((s.wallet.mapAddressBook address).getD []) s.ssValue <;> rfl

theorem cleanAt_readLabel_iff (address : CTxDestination) :
    CleanAt parts (readLabel address) s ↔ ((Records.readString.run s.ssValue).isOk = false →
      ∃ label, s.wallet.mapAddressBook address = some label ∧
        ∀ nSize rest, readCompactSize.run s.ssValue = .ok (nSize, rest) → nSize = label.length) := by
  have hclean : CleanAt parts (readLabel address) s ↔ ∀ torn,
      readStringInto ((s.wallet.mapAddressBook address).getD []) s.ssValue = .error torn →
        s.wallet.mapAddressBook address = some torn := by
    have hrun := runOn_readLabel address s
    cases hread : readStringInto ((s.wallet.mapAddressBook address).getD []) s.ssValue with
    | ok p =>
      rw [hread] at hrun
      exact iff_of_true (cleanAt_of_ok hrun) fun torn htorn ↦ (nomatch htorn)
    | error torn =>
      rw [hread] at hrun
      rw [cleanAt_iff_of_error hrun, parts_mapAddressBook, Function.update_eq_self_iff]
      simp only [Except.error.injEq, forall_eq']
      exact eq_comm
  rw [hclean]
  rcases readStringInto_cases ((s.wallet.mapAddressBook address).getD []) s.ssValue with
    ⟨p, hok, hinto⟩ | ⟨hnot, hleft⟩
  · rw [hinto, hok]
    exact iff_of_true (fun torn htorn ↦ (nomatch htorn)) fun hfalse ↦ (nomatch hfalse)
  · rw [hnot]
    simp only [forall_const]
    rcases hleft with ⟨⟨e, hsize⟩, hinto⟩ | ⟨nSize, rest, hsize, hinto⟩
    · rw [hinto, hsize]
      cases hlabel : s.wallet.mapAddressBook address <;> simp
    · rw [hinto, hsize]
      cases hlabel : s.wallet.mapAddressBook address with
      | none => simp
      | some label =>
        simp only [Option.getD_some, Except.error.injEq, forall_eq', Option.some.injEq, exists_eq_left',
          Except.ok.injEq, Prod.mk.injEq, and_imp]
        rw [eq_comm, resizeString_eq_self_iff]
        constructor
        · rintro heq _ _ rfl -
          exact heq
        · exact fun h ↦ h nSize rest rfl rfl

theorem cleanAt_readName_iff :
    CleanAt parts (readName env) s ↔ NameHarmless env s.wallet s.ssKey s.ssValue := by
  unfold readName
  rw [cleanAt_fromKey_bind]
  exact forall₃_congr fun strAddress rest _ ↦ cleanAt_readLabel_iff (readAddress env strAddress)

def LoadState.withEntry (s : LoadState) (hash : Uint256) (entry : Option WalletEntry) : LoadState :=
  { s with wallet := { s.wallet with mapWallet := Function.update s.wallet.mapWallet hash entry } }

section Entry

variable {hash : Uint256} {entry entry' : Option WalletEntry} {wtx : Records.CWalletTx}

theorem runOn_putEntry_bind {f : Unit → Load α} :
    runOn (putEntry hash entry >>= f) s = runOn (f ()) (s.withEntry hash entry) := rfl

@[simp]
theorem LoadState.withEntry_withEntry :
    (s.withEntry hash entry).withEntry hash entry' = s.withEntry hash entry' := by
  unfold LoadState.withEntry
  rw [Function.update_idem]

theorem parts_withEntry : parts (s.withEntry hash entry) = parts s ↔ s.wallet.mapWallet hash = entry := by
  have hparts : parts (s.withEntry hash entry) = parts s ↔
      Function.update s.wallet.mapWallet hash entry = s.wallet.mapWallet := by
    simp [parts, LoadState.withEntry]
  rw [hparts, Function.update_eq_self_iff, eq_comm]

theorem runOn_keepTx_bad (h : isGoodTx env hash wtx = false) :
    runOn (keepTx env hash wtx) s = (.error (), s.withEntry hash none) := by
  rw [keepTx, if_neg (by rw [h]; exact Bool.false_ne_true)]
  rfl

theorem runOn_keepTx_torn {torn : List UInt8} (h : isGoodTx env hash wtx = true) (hold : isOldTx wtx = true)
    (hrest : s.ssValue.unread ≠ []) (htorn : readUpgrade wtx.strFromAccount s.ssValue = .error torn) :
    runOn (keepTx env hash wtx) s =
      (.error (), s.withEntry hash (some ⟨{ wtx with strFromAccount := torn }, true⟩)) := by
  have hrewrite : runOn (rewriteTx env hash wtx) (s.withEntry hash (some ⟨wtx, true⟩)) =
      (.error (), s.withEntry hash (some ⟨{ wtx with strFromAccount := torn }, true⟩)) := by
    unfold rewriteTx
    rw [runOn_get_bind, if_neg (show (s.withEntry hash _).ssValue.unread ≠ [] from hrest)]
    rw [show readUpgrade wtx.strFromAccount (s.withEntry hash _).ssValue = .error torn from htorn]
    show ((.error (), (s.withEntry hash _).withEntry hash _) : Except Unit Unit × LoadState) = _
    rw [LoadState.withEntry_withEntry]
  rw [keepTx, if_pos h, runOn_putEntry_bind, runOn_bind, upgradeTx, if_pos hold, runOn_bind, hrewrite]

/-- The account behind an old transaction can be read, if there is one. -/
theorem succeeds_keepTx (h : isGoodTx env hash wtx = true)
    (hupgrade : isOldTx wtx = true → s.ssValue.unread ≠ [] →
      ∀ torn, readUpgrade wtx.strFromAccount s.ssValue ≠ .error torn) :
    ∃ a s', runOn (keepTx env hash wtx) s = (.ok a, s') := by
  have hrewrite (hold : isOldTx wtx = true) :
      ∃ s', runOn (rewriteTx env hash wtx) (s.withEntry hash (some ⟨wtx, true⟩)) = (.ok (), s') := by
    unfold rewriteTx
    rw [runOn_get_bind]
    by_cases hrest : s.ssValue.unread = []
    · rw [if_pos (show (s.withEntry hash _).ssValue.unread = [] from hrest)]
      exact ⟨_, rfl⟩
    · rw [if_neg (show (s.withEntry hash _).ssValue.unread ≠ [] from hrest)]
      cases hread : readUpgrade wtx.strFromAccount s.ssValue with
      | error torn => exact absurd hread (hupgrade hold hrest torn)
      | ok p =>
        rw [show readUpgrade wtx.strFromAccount (s.withEntry hash _).ssValue = .ok p from hread]
        exact ⟨_, rfl⟩
  have hafter : ∃ s', runOn (upgradeTx env hash wtx) (s.withEntry hash (some ⟨wtx, true⟩)) = (.ok (), s') := by
    by_cases hold : isOldTx wtx = true
    · obtain ⟨s', hs'⟩ := hrewrite hold
      rw [upgradeTx, if_pos hold, runOn_bind, hs']
      exact ⟨_, rfl⟩
    · rw [upgradeTx, if_neg hold]
      exact ⟨_, rfl⟩
  obtain ⟨s', hs'⟩ := hafter
  obtain ⟨a, s'', hnote⟩ := succeeds_noteOrderPos wtx.nOrderPos s'
  exact ⟨a, s'', by rw [keepTx, if_pos h, runOn_putEntry_bind, runOn_bind, hs']; exact hnote⟩

/-- Where the transaction cannot be read, its entry is not bound and is what a failed read leaves of it.
Where it is wrong, there is no entry.  Where the account behind it cannot be read, the entry holds it. -/
def TxValueHarmless (env : LoadEnv) (w : LoadedWallet) (hash : Uint256) (ssValue : ReadState) : Prop :=
  match (readWalletTx env.sizes).run ssValue with
  | .error _ => ∃ wtx, w.mapWallet hash = some ⟨wtx, false⟩ ∧
      readWalletTxInto env.sizes env.nAdjustedTime wtx ssValue = .error wtx
  | .ok (wtx, rest) =>
      if isGoodTx env hash wtx then
        isOldTx wtx = true → rest.unread ≠ [] → ∀ torn, readUpgrade wtx.strFromAccount rest = .error torn →
          w.mapWallet hash = some ⟨{ wtx with strFromAccount := torn }, true⟩
      else w.mapWallet hash = none

theorem cleanAt_readTxValue_iff :
    CleanAt parts (readTxValue env hash) s ↔ TxValueHarmless env s.wallet hash s.ssValue := by
  let wtx₀ := ((s.wallet.mapWallet hash).map WalletEntry.tx).getD (nullWalletTx env)
  have herror : ∀ torn, readWalletTxInto env.sizes env.nAdjustedTime wtx₀ s.ssValue = .error torn →
      runOn (readTxValue env hash) s = (.error (), s.withEntry hash (some ⟨torn, false⟩)) := by
    intro torn htorn
    unfold readTxValue
    simp only [runOn_get_bind, wtx₀] at htorn ⊢
    rw [htorn]
    rfl
  have hok : ∀ wtx ssValue, readWalletTxInto env.sizes env.nAdjustedTime wtx₀ s.ssValue = .ok (wtx, ssValue) →
      runOn (readTxValue env hash) s =
        runOn (keepTx env hash wtx) (({ s with ssValue } : LoadState).withEntry hash (some ⟨wtx, false⟩)) := by
    intro wtx ssValue hread
    unfold readTxValue
    simp only [runOn_get_bind, wtx₀] at hread ⊢
    rw [hread]
    rfl
  have hfollows := followsAll_readWalletTxInto env.sizes env.nAdjustedTime wtx₀ s.ssValue
  unfold TxValueHarmless
  cases hread : (readWalletTx env.sizes).run s.ssValue with
  | error e =>
    obtain ⟨torn, htorn⟩ := hfollows.eq_error hread
    rw [cleanAt_iff_of_error (herror torn htorn), parts_withEntry]
    cases hentry : s.wallet.mapWallet hash with
    | none => simp
    | some entry =>
      obtain ⟨wtx, fBound⟩ := entry
      simp only [wtx₀, hentry, Option.map_some, Option.getD_some] at htorn
      simp only [Option.some.injEq, WalletEntry.mk.injEq]
      constructor
      · rintro ⟨rfl, rfl⟩
        exact ⟨wtx, ⟨rfl, rfl⟩, htorn⟩
      · rintro ⟨wtx', ⟨rfl, rfl⟩, hsame⟩
        exact ⟨Except.error.inj (hsame.symm.trans htorn), rfl⟩
  | ok p =>
    obtain ⟨wtx, rest⟩ := p
    have hrun := hok wtx rest (hfollows.eq_ok hread)
    simp only
    have hparts {entry : Option WalletEntry} :
        parts (({ s with ssValue := rest } : LoadState).withEntry hash entry) = parts s ↔
          s.wallet.mapWallet hash = entry := parts_withEntry
    split_ifs with hgood
    · by_cases htorn : isOldTx wtx = true ∧ rest.unread ≠ [] ∧
          ∃ torn, readUpgrade wtx.strFromAccount rest = .error torn
      · obtain ⟨hold, hrest, torn, htorn⟩ := htorn
        have hkeep := runOn_keepTx_torn (s := ({ s with ssValue := rest } : LoadState).withEntry hash
          (some ⟨wtx, false⟩)) hgood hold hrest htorn
        rw [hkeep, LoadState.withEntry_withEntry] at hrun
        rw [cleanAt_iff_of_error hrun, hparts, htorn]
        simp [hold, hrest]
      · obtain ⟨a, s', hkeep⟩ := succeeds_keepTx (s := ({ s with ssValue := rest } : LoadState).withEntry hash
          (some ⟨wtx, false⟩)) hgood fun hold hrest torn heq ↦ htorn ⟨hold, hrest, torn, heq⟩
        refine iff_of_true (cleanAt_of_ok (hrun.trans hkeep)) fun hold hrest torn heq ↦ ?_
        exact absurd ⟨hold, hrest, torn, heq⟩ htorn
    · rw [runOn_keepTx_bad (by simpa using hgood), LoadState.withEntry_withEntry] at hrun
      rw [cleanAt_iff_of_error hrun, hparts]

end Entry

def TxHarmless (env : LoadEnv) (w : LoadedWallet) (ssKey ssValue : ReadState) : Prop :=
  ∀ hash rest, readUint256.run ssKey = .ok (hash, rest) → TxValueHarmless env w hash ssValue

theorem cleanAt_readTxRecord_iff :
    CleanAt parts (readTxRecord env) s ↔ TxHarmless env s.wallet s.ssKey s.ssValue := by
  unfold readTxRecord
  rw [cleanAt_fromKey_bind]
  exact forall₃_congr fun hash rest _ ↦ cleanAt_readTxValue_iff

section Keys

variable {key : CKey}

/-- A key that the record of a crypted key cannot be written for is in the key store already. -/
def KeyLoadHarmless (env : LoadEnv) (keystore : CWallet) (key : CKey) : Prop :=
  keystore.isCrypted = true → keystore.isLocked = false → ∀ vchCryptedSecret,
    encryptSecret env.C keystore.vMasterKey key.vchSecret (env.C.getHash (key.getPubKey env.C)) =
      some vchCryptedSecret →
    env.fFileBacked = true → env.writeCryptedKey (key.getPubKey env.C) vchCryptedSecret = false →
      keystore.mapCryptedKeys[env.C.getID (key.getPubKey env.C)]? = some (key.getPubKey env.C, vchCryptedSecret)

theorem lookups_insert_eq_iff {m : Std.TreeMap CKeyID (CPubKey × List UInt8)} {id : CKeyID}
    {value : CPubKey × List UInt8} :
    (fun other : CKeyID ↦ (m.insert id value)[other]?) = (fun other : CKeyID ↦ m[other]?) ↔ m[id]? = some value := by
  constructor
  · intro heq
    have hid := congrFun heq id
    rwa [Std.TreeMap.getElem?_insert_self, eq_comm] at hid
  · intro hid
    funext other
    rw [Std.TreeMap.getElem?_insert]
    split_ifs with hsame
    · rw [← Std.compare_eq_iff_eq.mp hsame, hid]
    · rfl

/-- The state with another key store. -/
def LoadState.withKeystore (s : LoadState) (keystore : CWallet) : LoadState :=
  { s with wallet := { s.wallet with keystore } }

theorem keeps_noteMetadata (id : CKeyID) (metadata : CKeyMetadata) : Keeps parts (noteMetadata id metadata) := by
  intro s
  show parts { s with wallet := if (s.wallet.mapKeyMetadata id).isSome then s.wallet else _ } = parts s
  split_ifs <;> rfl

theorem keeps_writeKey (env : LoadEnv) (vchPubKey : CPubKey) (vchCryptedSecret : List UInt8) :
    Keeps parts (writeKey env vchPubKey vchCryptedSecret) := by
  unfold writeKey
  split_ifs
  · exact (keeps_noteMetadata _ _).bind fun _ ↦ keeps_pure ()
  · exact (keeps_noteMetadata _ _).bind fun _ ↦ keeps_fail _
  · exact keeps_pure ()

theorem runOn_writeKey_isOk_iff (env : LoadEnv) (vchPubKey : CPubKey) (vchCryptedSecret : List UInt8)
    (s : LoadState) :
    (runOn (writeKey env vchPubKey vchCryptedSecret) s).1 = .ok () ↔
      (env.fFileBacked = true → env.writeCryptedKey vchPubKey vchCryptedSecret = true) := by
  unfold writeKey
  by_cases hbacked : env.fFileBacked = true
  · rw [if_pos hbacked]
    by_cases hwrite : env.writeCryptedKey vchPubKey vchCryptedSecret = true
    · rw [if_pos hwrite]
      exact iff_of_true rfl fun _ ↦ hwrite
    · rw [if_neg hwrite]
      refine iff_of_false (fun heq ↦ ?_) fun h ↦ hwrite (h hbacked)
      cases heq
  · rw [if_neg hbacked]
    exact iff_of_true rfl fun h ↦ absurd h hbacked

def withCryptedKey (env : LoadEnv) (keystore : CWallet) (vchPubKey : CPubKey) (vchCryptedSecret : List UInt8) :
    CWallet :=
  { keystore with
    mapCryptedKeys := keystore.mapCryptedKeys.insert (env.C.getID vchPubKey) (vchPubKey, vchCryptedSecret) }

/-- The key is put into the key store before its record is written. -/
theorem cleanAt_addCryptedKey_iff (hcrypted : s.wallet.keystore.isCrypted = true) {vchPubKey : CPubKey}
    {vchCryptedSecret : List UInt8} :
    CleanAt parts (addCryptedKey env vchPubKey vchCryptedSecret) s ↔
      (env.fFileBacked = true → env.writeCryptedKey vchPubKey vchCryptedSecret = false →
        s.wallet.keystore.mapCryptedKeys[env.C.getID vchPubKey]? = some (vchPubKey, vchCryptedSecret)) := by
  have hadd : s.wallet.keystore.addCryptedKey env.C vchPubKey vchCryptedSecret =
      (true, withCryptedKey env s.wallet.keystore vchPubKey vchCryptedSecret) := by
    have huse : s.wallet.keystore.fUseCrypto = true := hcrypted
    rw [CWallet.addCryptedKey, CWallet.setCrypted, if_pos huse]
    rfl
  generalize hafter : s.withKeystore (withCryptedKey env s.wallet.keystore vchPubKey vchCryptedSecret) = after
  have hrun : runOn (addCryptedKey env vchPubKey vchCryptedSecret) s =
      runOn (writeKey env vchPubKey vchCryptedSecret) after := by
    unfold addCryptedKey
    rw [runOn_get_bind, hadd, ← hafter]
    rfl
  have hparts : parts after = parts s ↔ s.wallet.keystore.mapCryptedKeys[env.C.getID vchPubKey]? =
      some (vchPubKey, vchCryptedSecret) := by
    rw [← hafter, ← lookups_insert_eq_iff]
    simp [parts, LoadState.withKeystore, withCryptedKey]
  have hkept := keeps_writeKey env vchPubKey vchCryptedSecret after
  have hok := runOn_writeKey_isOk_iff env vchPubKey vchCryptedSecret after
  cases hwrite : runOn (writeKey env vchPubKey vchCryptedSecret) after with
  | mk result s' =>
    rw [hwrite] at hrun hkept hok
    cases result with
    | ok u =>
      refine iff_of_true (cleanAt_of_ok hrun) fun hbacked hnot ↦ ?_
      rw [hok.mp rfl hbacked] at hnot
      cases hnot
    | error e =>
      rw [cleanAt_iff_of_error hrun, hkept, hparts]
      have hnot : ¬(env.fFileBacked = true → env.writeCryptedKey vchPubKey vchCryptedSecret = true) :=
        fun h ↦ by cases hok.mpr h
      obtain ⟨hbacked, hfails⟩ := Classical.not_imp.mp hnot
      exact ⟨fun h _ _ ↦ h, fun h ↦ h hbacked (by simpa using hfails)⟩

theorem cleanAt_loadKey_iff :
    CleanAt parts (loadKey env key) s ↔ KeyLoadHarmless env s.wallet.keystore key := by
  unfold loadKey KeyLoadHarmless
  rw [cleanAt_get_bind]
  by_cases hcrypted : s.wallet.keystore.isCrypted = true
  · by_cases hlocked : s.wallet.keystore.isLocked = true
    · rw [if_neg (by simp [hcrypted]), if_pos hlocked]
      refine iff_of_true ((keeps_fail _).failsCleanly s) fun _ hunlocked ↦ ?_
      rw [hlocked] at hunlocked
      cases hunlocked
    · rw [if_neg (by simp [hcrypted]), if_neg hlocked]
      cases hsecret : encryptSecret env.C s.wallet.keystore.vMasterKey key.vchSecret
          (env.C.getHash (key.getPubKey env.C)) with
      | none => exact iff_of_true ((keeps_fail _).failsCleanly s) fun _ _ _ heq ↦ (nomatch heq)
      | some vchCryptedSecret =>
        simp only [cleanAt_addCryptedKey_iff hcrypted, hcrypted, Bool.eq_false_iff.mpr hlocked, forall_const,
          Option.some.injEq, forall_eq']
  · rw [if_pos (by simpa using hcrypted)]
    exact iff_of_true ((succeeds_onWallet _).failsCleanly s) fun h ↦ absurd h hcrypted

/-- The record has this key, and passes the checks. -/
structure IsGoodKey (env : LoadEnv) (vchPubKey vchPrivKey : List UInt8) (key : CKey) : Prop where
  setPrivKey : env.setPrivKey vchPubKey vchPrivKey = some key
  getPubKey : key.getPubKey env.C = ⟨vchPubKey⟩
  isValid : env.isValid key = true

theorem keeps_checkKey (texts : KeyTexts) (vchPubKey vchPrivKey : List UInt8) :
    Keeps parts (checkKey env texts vchPubKey vchPrivKey) := by
  unfold checkKey
  split
  · exact keeps_fail _
  · split_ifs
    · exact keeps_fail _
    · exact keeps_fail _
    · exact keeps_pure _

theorem runOn_checkKey_ok_iff {texts : KeyTexts} {vchPubKey vchPrivKey : List UInt8} :
    runOn (checkKey env texts vchPubKey vchPrivKey) s = (.ok key, s') ↔
      IsGoodKey env vchPubKey vchPrivKey key ∧ s' = s := by
  unfold checkKey
  constructor
  · intro hrun
    cases hset : env.setPrivKey vchPubKey vchPrivKey with
    | none =>
      rw [hset] at hrun
      cases hrun
    | some found =>
      rw [hset] at hrun
      simp only at hrun
      split_ifs at hrun with hpub hvalid
      · cases hrun
      · cases hrun
      · cases hrun
        exact ⟨⟨hset, not_not.mp hpub, by simpa using hvalid⟩, rfl⟩
  · rintro ⟨hgood, rfl⟩
    simp only [hgood.setPrivKey, hgood.getPubKey, hgood.isValid]
    rw [if_neg (not_not.mpr rfl), if_neg Bool.noConfusion]
    rfl

/-- Whether the value is that of the type `key` or of the type `wkey`. -/
def KeyHarmless (env : LoadEnv) (read : Reader (List UInt8)) (w : LoadedWallet) (ssKey ssValue : ReadState) :
    Prop :=
  ∀ vchPubKey rest, readBytes.run ssKey = .ok (vchPubKey, rest) →
    ∀ vchPrivKey rest', read.run ssValue = .ok (vchPrivKey, rest') →
      ∀ key, IsGoodKey env vchPubKey vchPrivKey key → KeyLoadHarmless env w.keystore key

theorem cleanAt_checkKey_bind_iff {texts : KeyTexts} {vchPubKey vchPrivKey : List UInt8} :
    CleanAt parts (checkKey env texts vchPubKey vchPrivKey >>= loadKey env) s ↔
      ∀ key, IsGoodKey env vchPubKey vchPrivKey key → KeyLoadHarmless env s.wallet.keystore key := by
  rw [(keeps_checkKey _ _ _).cleanAt_bind]
  constructor
  · intro h key hgood
    exact cleanAt_loadKey_iff.mp (h key s (runOn_checkKey_ok_iff.mpr ⟨hgood, rfl⟩))
  · intro h key s' hrun
    obtain ⟨hgood, rfl⟩ := runOn_checkKey_ok_iff.mp hrun
    exact cleanAt_loadKey_iff.mpr (h key hgood)

theorem cleanAt_readKeyRecord_iff :
    CleanAt parts (readKeyRecord env) s ↔ KeyHarmless env readBytes s.wallet s.ssKey s.ssValue := by
  unfold readKeyRecord
  rw [cleanAt_fromKey_bind]
  refine forall₃_congr fun vchPubKey rest _ ↦ ?_
  have hscan (x : Load Unit) (s : LoadState) (f : CWalletScanState → CWalletScanState) :
      CleanAt parts (onScan f >>= fun _ ↦ x) s ↔ CleanAt parts x { s with wss := f s.wss } := Iff.rfl
  rw [hscan, cleanAt_fromValue_bind]
  exact forall₃_congr fun vchPrivKey rest' _ ↦ cleanAt_checkKey_bind_iff

theorem cleanAt_readWkeyRecord_iff :
    CleanAt parts (readWkeyRecord env) s ↔ KeyHarmless env readWalletKey s.wallet s.ssKey s.ssValue := by
  unfold readWkeyRecord
  rw [cleanAt_fromKey_bind]
  refine forall₃_congr fun vchPubKey rest _ ↦ ?_
  rw [cleanAt_fromValue_bind]
  exact forall₃_congr fun vchPrivKey rest' _ ↦ cleanAt_checkKey_bind_iff

end Keys

/-- The conditions of the types whose records are in the wallet before their last check. -/
structure TypeHarmless (env : LoadEnv) (w : LoadedWallet) (strType : List UInt8) (ssKey ssValue : ReadState) :
    Prop where
  name : strType = ofString "name" → NameHarmless env w ssKey ssValue
  tx : strType = ofString "tx" → TxHarmless env w ssKey ssValue
  key : strType = ofString "key" → KeyHarmless env readBytes w ssKey ssValue
  wkey : strType = ofString "wkey" → KeyHarmless env readWalletKey w ssKey ssValue

theorem typeNames_nodup (env : LoadEnv) : ((recordTypes env).map fun entry ↦ ofString entry.1).Nodup := by
  show (["name", "tx", "acentry", "key", "wkey", "mkey", "ckey", "keymeta", "defaultkey", "pool", "version",
    "cscript", "orderposnext"].map ofString).Nodup
  decide

theorem readTyped_eq {name : String} {read : Load Unit} (h : (name, read) ∈ recordTypes env) :
    readTyped env (ofString name) = read := by
  unfold readTyped
  cases hfind : (recordTypes env).find? fun found ↦ ofString found.1 = ofString name with
  | none =>
    have hnot := List.find?_eq_none.mp hfind (name, read) h
    simp at hnot
  | some found =>
    have hsame : ofString found.1 = ofString name := by simpa using List.find?_some hfind
    have heq : found = (name, read) :=
      List.inj_on_of_nodup_map (typeNames_nodup env) (List.mem_of_find?_eq_some hfind) h hsame
    rw [heq]

/-- The types apart from these four. -/
theorem failsCleanly_of_mem {entry : String × Load Unit} (h : entry ∈ recordTypes env) :
    FailsCleanly parts entry.2 ∨ entry = ("name", readName env) ∨ entry = ("tx", readTxRecord env) ∨
      entry = ("key", readKeyRecord env) ∨ entry = ("wkey", readWkeyRecord env) := by
  simp only [recordTypes, List.mem_cons, List.not_mem_nil, or_false] at h
  rcases h with rfl | rfl | rfl | rfl | rfl | rfl | rfl | rfl | rfl | rfl | rfl | rfl | rfl
  · exact .inr (.inl rfl)
  · exact .inr (.inr (.inl rfl))
  · exact .inl failsCleanly_readAcentry
  · exact .inr (.inr (.inr (.inl rfl)))
  · exact .inr (.inr (.inr (.inr rfl)))
  · exact .inl failsCleanly_readMkey
  · exact .inl failsCleanly_readCkey
  · exact .inl failsCleanly_readKeymeta
  · exact .inl failsCleanly_readDefaultkey
  · exact .inl failsCleanly_readPool
  · exact .inl failsCleanly_readVersionRecord
  · exact .inl failsCleanly_readCscript
  · exact .inl failsCleanly_readOrderposnext

theorem failsCleanly_readTyped {strType : List UInt8} (hname : strType ≠ ofString "name")
    (htx : strType ≠ ofString "tx") (hkey : strType ≠ ofString "key") (hwkey : strType ≠ ofString "wkey") :
    FailsCleanly parts (readTyped env strType) := by
  unfold readTyped
  cases hfind : (recordTypes env).find? fun entry ↦ ofString entry.1 = strType with
  | none => exact (keeps_pure ()).failsCleanly
  | some entry =>
    have htype : ofString entry.1 = strType := by simpa using List.find?_some hfind
    rcases failsCleanly_of_mem (List.mem_of_find?_eq_some hfind) with hclean | rfl | rfl | rfl | rfl
    · exact hclean
    · exact absurd htype.symm hname
    · exact absurd htype.symm htx
    · exact absurd htype.symm hkey
    · exact absurd htype.symm hwkey

theorem cleanAt_readTyped_iff (strType : List UInt8) :
    CleanAt parts (readTyped env strType) s ↔ TypeHarmless env s.wallet strType s.ssKey s.ssValue := by
  have hapart : (["name", "tx", "key", "wkey"].map ofString).Nodup := by decide
  simp only [List.map_cons, List.map_nil, List.nodup_cons, List.mem_cons, List.not_mem_nil, or_false, not_or,
    not_false_eq_true, List.nodup_nil, and_true] at hapart
  obtain ⟨⟨hnametx, hnamekey, hnamewkey⟩, ⟨htxkey, htxwkey⟩, hkeywkey⟩ := hapart
  by_cases hname : strType = ofString "name"
  · subst hname
    have hread : readTyped env (ofString "name") = readName env :=
      readTyped_eq (by simp [recordTypes])
    rw [hread, cleanAt_readName_iff]
    exact ⟨fun h ↦ ⟨fun _ ↦ h, fun heq ↦ absurd heq hnametx, fun heq ↦ absurd heq hnamekey,
      fun heq ↦ absurd heq hnamewkey⟩, fun h ↦ h.name rfl⟩
  by_cases htx : strType = ofString "tx"
  · subst htx
    have hread : readTyped env (ofString "tx") = readTxRecord env :=
      readTyped_eq (by simp [recordTypes])
    rw [hread, cleanAt_readTxRecord_iff]
    exact ⟨fun h ↦ ⟨fun heq ↦ absurd heq hname, fun _ ↦ h, fun heq ↦ absurd heq htxkey,
      fun heq ↦ absurd heq htxwkey⟩, fun h ↦ h.tx rfl⟩
  by_cases hkey : strType = ofString "key"
  · subst hkey
    have hread : readTyped env (ofString "key") = readKeyRecord env :=
      readTyped_eq (by simp [recordTypes])
    rw [hread, cleanAt_readKeyRecord_iff]
    exact ⟨fun h ↦ ⟨fun heq ↦ absurd heq hname, fun heq ↦ absurd heq htx, fun _ ↦ h,
      fun heq ↦ absurd heq hkeywkey⟩, fun h ↦ h.key rfl⟩
  by_cases hwkey : strType = ofString "wkey"
  · subst hwkey
    have hread : readTyped env (ofString "wkey") = readWkeyRecord env :=
      readTyped_eq (by simp [recordTypes])
    rw [hread, cleanAt_readWkeyRecord_iff]
    exact ⟨fun h ↦ ⟨fun heq ↦ absurd heq hname, fun heq ↦ absurd heq htx, fun heq ↦ absurd heq hkey,
      fun _ ↦ h⟩, fun h ↦ h.wkey rfl⟩
  · exact iff_of_true (failsCleanly_readTyped hname htx hkey hwkey s)
      ⟨fun heq ↦ absurd heq hname, fun heq ↦ absurd heq htx, fun heq ↦ absurd heq hkey,
        fun heq ↦ absurd heq hwkey⟩

theorem runOn_readType (s : LoadState) : runOn readType s = match readStringInto s.strType s.ssKey with
    | .error torn => (.error (), { s with strType := torn })
    | .ok (strType, ssKey) => (.ok strType, { s with ssKey, strType }) := by
  unfold readType
  rw [runOn_get_bind]
  cases readStringInto s.strType s.ssKey <;> rfl

theorem keeps_readType : Keeps parts readType := by
  intro s
  rw [runOn_readType]
  cases readStringInto s.strType s.ssKey <;> rfl

/-- The type cannot be read, or its condition holds. -/
def HarmlessRecord (env : LoadEnv) (s : LoadState) : Prop :=
  ∀ strType ssKey, readStringInto s.strType s.ssKey = .ok (strType, ssKey) →
    TypeHarmless env s.wallet strType ssKey s.ssValue

/-- A record that is not loaded leaves the wallet as it was just under the conditions of its type. -/
theorem unchanged_of_failed_iff (env : LoadEnv) (s : LoadState) :
    ((readKeyValue env s).1 = false → parts (readKeyValue env s).2 = parts s) ↔ HarmlessRecord env s := by
  have hclean : ((readKeyValue env s).1 = false → parts (readKeyValue env s).2 = parts s) ↔
      CleanAt parts (readType >>= readTyped env) s := by
    unfold readKeyValue
    cases hrun : runOn (readType >>= readTyped env) s with
    | mk result s' =>
      cases result with
      | ok u => exact iff_of_true (fun h ↦ absurd h.symm Bool.false_ne_true) (cleanAt_of_ok hrun)
      | error e =>
        rw [cleanAt_iff_of_error hrun]
        exact ⟨fun h ↦ h rfl, fun h _ ↦ h⟩
  have htype : CleanAt parts (readType >>= readTyped env) s ↔
      ∀ strType ssKey, readStringInto s.strType s.ssKey = .ok (strType, ssKey) →
        CleanAt parts (readTyped env strType) { s with ssKey, strType } :=
    cleanAt_bind_of_runOn keeps_readType (fun strType ssKey h ↦ by rw [runOn_readType, h])
      fun torn h ↦ by rw [runOn_readType, h]
  rw [hclean, htype]
  exact forall₃_congr fun strType _ _ ↦ cleanAt_readTyped_iff strType

namespace BadRecordExample

def loadEnv : LoadEnv where
  P := Builders.network true
  fTestNet := true
  hash _ := 0
  C := tagCrypto
  setPrivKey _ _ := none
  isValid _ := true
  scriptID _ := 0
  hashToString _ := ""
  fFileBacked := true
  writeCryptedKey _ _ := true
  nAdjustedTime := 1500000000
  sizes := Records.recordSizes64

def emptyWallet : LoadedWallet where
  mapWallet _ := none
  mapAddressBook _ := none
  keystore := CWallet.new
  mapScripts _ := none
  setKeyPool := ∅
  mapKeyMetadata _ := none
  nTimeFirstKey := 0
  vchDefaultKey := []
  nOrderPosNext := 0

/-- The key names a transaction, and the value is empty. -/
def emptyTxRecord : LoadState where
  wallet := emptyWallet
  nAccountingEntryNumber := 0
  ssKey := ⟨CDataStream.ofBytes (2 :: ofString "tx" ++ List.replicate 32 0), []⟩
  ssValue := ⟨CDataStream.empty, []⟩
  wss := CWalletScanState.empty
  strType := []
  strErr := ""

end BadRecordExample

/-- The lookup of the hash has put a fresh transaction into the wallet. -/
theorem not_unchanged_of_failed :
    ¬ ∀ (env : LoadEnv) (s : LoadState),
      (readKeyValue env s).1 = false → parts (readKeyValue env s).2 = parts s := by
  intro hall
  let failed := readKeyValue BadRecordExample.loadEnv BadRecordExample.emptyTxRecord
  have hfailed : failed.1 = false ∧ (failed.2.wallet.mapWallet 0).isSome = true := by
    decide
  have hsame : failed.2.wallet.mapWallet 0 = none :=
    congrArg (fun p ↦ p.mapWallet 0) (hall BadRecordExample.loadEnv BadRecordExample.emptyTxRecord hfailed.1)
  rw [hsame] at hfailed
  cases hfailed.2

end Electra.Wallet
