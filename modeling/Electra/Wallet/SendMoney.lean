import Electra.Text.Money
import Electra.Wallet.CachedAmounts
import Electra.Wallet.KeyTopUp

/-!
# Sending money

`SendMoney` creates a transaction, asks for the fee, and commits: the change key is kept, the transaction
is added to the wallet and its inputs are marked as spent before the memory pool is asked.  What throws
ends the call, and so does a signed overflow, which is undefined.
-/

namespace Electra.Wallet

open Chain Text

section Leaves

variable (P : ChainParams) (env : SpendEnv) (view : SpendView) (coinControl : Option CCoinControl)
  (vecSend : List (CScript × ℤ)) (wtxNew : CTransaction)

/-- The reserved key after the outputs are filled, also if this throws. -/
def outputsReserve (choices : RoundChoices) (reserve : KeyReserve) (nChange : ℤ) : KeyReserve :=
  if nChange > 0 then
    match coinControl.map CCoinControl.destChange with
    | some (.keyID _) | some (.scriptID _) => reserve
    | some .noDestination | none =>
        let (_, holder, wallet) := reserve.holder.getReservedKey env.newKey choices.keyPool reserve.wallet
        ⟨holder, wallet⟩
  else ⟨.empty, reserve.returned⟩

/-- The fee and the reserved key after a round, also if it ends the call. -/
def roundLeaves (choices : RoundChoices) (nValue nFeeRet : ℤ) (reserve : KeyReserve) : ℤ × KeyReserve :=
  match checked (nValue + nFeeRet) with
  | .error _ => (nFeeRet, reserve)
  | .ok nTotalValue =>
      let (fSelected, selected) := selectCoins view coinControl choices.selection nTotalValue wtxNew.nTime
      if !fSelected then (nFeeRet, reserve)
      else
        match checked (selected.nValueRet - nValue - nFeeRet) with
        | .error _ => (nFeeRet, reserve)
        | .ok nChange =>
            let nMoveToFee := moveToFee nFeeRet nChange
            (nFeeRet + nMoveToFee, outputsReserve env coinControl choices reserve (nChange - nMoveToFee))

def loopLeaves (choices : ℕ → RoundChoices) (nValue : ℤ) : ℕ → ℕ → ℤ → KeyReserve → ℤ × KeyReserve
  | 0, _, nFeeRet, reserve => (nFeeRet, reserve)
  | fuel + 1, nRound, nFeeRet, reserve =>
      match createRound P env view coinControl vecSend wtxNew (choices nRound) nValue nFeeRet reserve with
      | .ok (.inl (nFeeRet, reserve)) => loopLeaves choices nValue fuel (nRound + 1) nFeeRet reserve
      | _ => roundLeaves env view coinControl wtxNew (choices nRound) nValue nFeeRet reserve

/-- The fee and the reserved key after `CreateTransaction`, with what is in the fee before. -/
def createLeaves (choices : ℕ → RoundChoices) (fuel : ℕ) (nFeeRet : ℤ) (reserve : KeyReserve) :
    ℤ × KeyReserve :=
  match totalValue vecSend with
  | .error _ => (nFeeRet, reserve)
  | .ok nValue =>
      loopLeaves P env view coinControl vecSend wtxNew choices nValue fuel 0 env.nTransactionFee reserve

end Leaves

structure PayEnv extends SpendEnv where
  P : ChainParams
  getScriptID : CScript → CKeyID

def PayEnv.owner (env : PayEnv) : OwnerEnv := ⟨env.P, env.getID, env.getScriptID⟩

structure PayingState where
  keyPool : KeyWallet
  book : CachingWallet
  mempool : CTxMemPool

/-- A state with the coins that a call sees in it. -/
structure PayingWallet (env : PayEnv) extends PayingState where
  view : SpendView
  stored : ∀ entry ∈ view.mapWallet,
    (book.mapWallet entry.1).map CachingTx.toCWalletTx = some (view.wtx entry.2)
  listed : ∀ hash, (book.mapWallet hash).isSome = true → hash ∈ view.mapWallet.map Prod.fst
  hashed : ∀ entry ∈ view.mapWallet, env.P.hashTx (view.wtx entry.2).toCTransaction = entry.1
  isMine : ∀ scriptPubKey, view.isMine scriptPubKey = book.keystore.isMine env.owner scriptPubKey
  vchDefaultKey : book.vchDefaultKey = env.getID keyPool.vchDefaultKey.vchPubKey
  positive : keyPool.Positive

/-- What a call of `SendMoney` meets outside the wallet: the locks, the answer of the user, the balance,
the choices of `CreateTransaction`, the databases, and the fee variable, which has no value yet. -/
structure PayAnswers where
  fLocked : Bool
  fWalletUnlockStakingOnly : Bool
  fShutdown : Bool
  nFeeRequired : ℤ
  nBalance : ℤ
  threadSafeAskFee : ℤ → Bool
  choices : ℕ → RoundChoices
  keepKey : KeyPoolEnv
  defaultKey : ℕ → KeyPoolEnv
  fWritten : Bool
  nBlocksToMaturity : CWalletTx → ℤ
  files : BlockFiles
  txdb : CTxDB
  pindexBest : PIndex

structure Payment where
  scriptPubKey : CScript
  nValue : ℤ
  wtxNew : CWalletTx
  fAskFee : Bool

variable (env : PayEnv) (answers : PayAnswers)

/-- The keys that the wallet generated from one count to another. -/
def generatedKeys (nFrom nTo : ℕ) : List CKeyID :=
  (List.range' nFrom (nTo - nFrom)).map fun n ↦ env.getID (env.newKey n).vchPubKey

/-- The outputs that pay to the default key. -/
def defaultOutputs (book : CachingWallet) (wtx : CWalletTx) : List ℕ :=
  (wtx.vout.zipIdx.filter fun output ↦
    decide (output.1.scriptPubKey = scriptFor (.keyID book.vchDefaultKey))).map Prod.snd

/-- Take a key from the pool for each of these outputs. -/
def takeDefaultKeys : List ℕ → KeyWallet → Except String ((ℕ → PoolKey) × KeyWallet)
  | [], w => .ok (fun _ ↦ ⟨[], none⟩, w)
  | i :: is, w =>
      match w.getKeyFromPool env.newKey (answers.defaultKey i) false with
      | (.error text, _) => .error text
      | (.ok newDefaultKey, w') =>
          let poolKey : PoolKey := ⟨generatedKeys env w.nGenerated w'.nGenerated,
            newDefaultKey.map fun pubkey ↦ env.getID pubkey.vchPubKey⟩
          let w' := { w' with vchDefaultKey := newDefaultKey.getD w'.vchDefaultKey }
          match takeDefaultKeys is w' with
          | .error text => .error text
          | .ok (poolKeys, w) => .ok (Function.update poolKeys i poolKey, w)

/-- `AddToWallet`, which throws when the pool does or a credit is out of range. -/
def PayingState.addToWallet (st : PayingState) (wtxIn : CachingTx) : Except String PayingState :=
  let bound := st.book.insertTx env.owner wtxIn
  if st.book.isChanged env.owner wtxIn && !answers.fWritten then .ok { st with book := bound }
  else
    let wtx := (st.book.inserted env.owner wtxIn).toCWalletTx
    match takeDefaultKeys env answers (defaultOutputs bound wtx) st.keyPool with
    | .error text => .error text
    | .ok (poolKey, keyPool) =>
        let replaced := (bound.defaultKeyEvents wtx poolKey).foldl
          (CachingWallet.changeOwner env.owner) bound
        let updated := (wtx.vin.map CTxIn.prevout).foldl
          (CachingWallet.updateSpentInput env.owner answers.nBlocksToMaturity) (replaced, false)
        if updated.2 then .error "CWallet::GetCredit() : value out of range"
        else .ok { st with
          keyPool
          book := st.book.addToWallet env.owner wtxIn
            ⟨answers.fWritten, poolKey, answers.nBlocksToMaturity⟩ }

/-- Mark the coin of an input as spent.  A transaction that the wallet does not have has no outputs. -/
def markInput (book : CachingWallet) (prevout : COutPoint) : Except String CachingWallet :=
  match book.mapWallet prevout.hash with
  | none => .error "CWalletTx::MarkSpent() : nOut out of range"
  | some coin =>
      if prevout.n < coin.vout.length then
        .ok (book.update prevout.hash (coin.markDirty.markSpent prevout.n))
      else .error "CWalletTx::MarkSpent() : nOut out of range"

/-- What `CommitTransaction` does before it asks the memory pool. -/
def recordTransaction (st : PayingState) (wtxNew : CachingTx) (reserve : KeyReserve) :
    Except String PayingState :=
  let keyPool := (reserve.holder.keepKey answers.keepKey reserve.wallet).2
  match PayingState.addToWallet env answers { st with keyPool } wtxNew with
  | .error text => .error text
  | .ok st =>
      match (wtxNew.vin.map CTxIn.prevout).foldlM markInput st.book with
      | .error text => .error text
      | .ok book => .ok { st with book }

def commitTransaction (st : PayingState) (wtxNew : CachingTx) (reserve : KeyReserve) :
    Except String (Bool × PayingState) :=
  match recordTransaction env answers st wtxNew reserve with
  | .error text => .error text
  | .ok st =>
      match st.mempool.accept env.P answers.files answers.txdb answers.pindexBest wtxNew.toCTransaction
          true with
      | .error _ => .ok (false, st)
      | .ok mempool => .ok (true, { st with mempool })

inductive SendOutcome
  | returned (strError : String) (st : PayingState)
  | thrown (text : String)
  | overflow

def feeText (nFeeRequired : ℤ) : String :=
  "Error: This transaction requires a transaction fee of at least " ++
    String.ofList (formatMoney nFeeRequired false) ++
    " because of its amount, complexity, or use of recently received funds  "

def rejectedText : String :=
  "Error: The transaction was rejected.  This might happen if some of the coins in your wallet were " ++
    "already spent, such as if you used a copy of wallet.dat and coins were spent in the copy but not " ++
    "marked as spent here."

/-- The state with a key pool, and the keys that were generated for it. -/
def PayingState.withKeyPool (st : PayingState) (keyPool : KeyWallet) : PayingState :=
  { st with
    keyPool
    book := (generatedKeys env st.keyPool.nGenerated keyPool.nGenerated).foldl
      (fun book keyID ↦ book.changeOwner env.owner (.addKey false keyID)) st.book }

/-- The transaction that was created, in the wallet transaction of the caller. -/
def Payment.created (payment : Payment) (tx : CTransaction) : CachingTx :=
  ⟨{ payment.wtxNew with toCTransaction := tx, fFromMe := true }, none, none, none, none⟩

variable {env} (wallet : PayingWallet env) (payment : Payment) (fuel : ℕ)

def createPayment : Option (Except CreateStop CreatedTx) :=
  createTransaction env.P env.toSpendEnv wallet.view none [(payment.scriptPubKey, payment.nValue)]
    payment.wtxNew.toCTransaction answers.choices fuel ⟨.empty, wallet.keyPool⟩

def paymentLeaves : ℤ × KeyReserve :=
  createLeaves env.P env.toSpendEnv wallet.view none [(payment.scriptPubKey, payment.nValue)]
    payment.wtxNew.toCTransaction answers.choices fuel answers.nFeeRequired ⟨.empty, wallet.keyPool⟩

def sendMoney : Option SendOutcome :=
  let st := wallet.toPayingState
  if answers.fLocked then
    some (.returned "Error: Wallet locked, unable to create transaction  " st)
  else if answers.fWalletUnlockStakingOnly then
    some (.returned "Error: Wallet unlocked for staking only, unable to create transaction." st)
  else
    let (nFeeRequired, reserve) := paymentLeaves answers wallet payment fuel
    let released := st.withKeyPool env (reserve.released answers.fShutdown)
    match createPayment answers wallet payment fuel with
    | none => none
    | some (.error .overflow) => some .overflow
    | some (.error (.thrown text)) => some (.thrown text)
    | some (.error .returnsFalse) =>
        match checked (payment.nValue + nFeeRequired) with
        | .error _ => some .overflow
        | .ok nTotal =>
            if nTotal > answers.nBalance then some (.returned (feeText nFeeRequired) released)
            else some (.returned "Error: Transaction creation failed  " released)
    | some (.ok created) =>
        if payment.fAskFee && !answers.threadSafeAskFee created.nFeeRet then
          some (.returned "ABORTED" released)
        else
          match commitTransaction env answers (st.withKeyPool env created.reserve.wallet)
              (payment.created created.wtxNew) created.reserve with
          | .error text => some (.thrown text)
          | .ok (false, st) =>
              some (.returned rejectedText st)
          | .ok (true, st) => some (.returned "" st)

end Electra.Wallet
