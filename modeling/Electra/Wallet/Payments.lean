import Electra.Wallet.CoinSelection
import Electra.Wallet.JoinGroupings
import Mathlib.Data.Prod.Lex

/-!
# Payments

`CreateTransaction` selects coins for the payees and a fee, pays the change to the wallet, signs, and
starts again with a larger fee as long as the fee is too small for the size.  Signed overflow is
undefined, so a call that overflows has an outcome of its own.
-/

namespace Electra.Wallet

open Chain Foundations.Codec Foundations.MachineInt

structure CCoinControl where
  destChange : CTxDestination
  setSelected : Finset COutPoint

def CCoinControl.hasSelected (coinControl : CCoinControl) : Bool :=
  decide (0 < coinControl.setSelected.card)

def CCoinControl.isSelected (coinControl : CCoinControl) (hash : Uint256) (n : ℕ) : Bool :=
  decide ((⟨hash, n⟩ : COutPoint) ∈ coinControl.setSelected)

/-- `coinControl && coinControl->HasSelected()`. -/
def hasSelected (coinControl : Option CCoinControl) : Bool := coinControl.any CCoinControl.hasSelected

/-- `CScript::SetDestination`. -/
def scriptFor : CTxDestination → CScript
  | .noDestination => []
  | .keyID id => [0x76, 0xa9, 0x14] ++ leBytes 20 id.toNat ++ [0x88, 0xac]
  | .scriptID id => [0xa9, 0x14] ++ leBytes 20 id.toNat ++ [0x87]

/-- The transactions of a wallet in the order of their hashes, with the pointers to them, and what the
wallet finds out about each of them.  The values of their outputs are amounts of money. -/
structure SpendView extends WalletView where
  mapWallet : List (Uint256 × ℕ)
  pointers_nodup : (mapWallet.map Prod.snd).Nodup
  moneyRange : ∀ entry ∈ mapWallet, ∀ txout ∈ (wtx entry.2).vout, moneyRange txout.nValue = true
  isFinal : ℕ → Bool
  isTrusted : ℕ → Bool
  nBlocksToMaturity : ℕ → ℤ
  nDepthInMainChain : ℕ → ℤ
  isMine : CScript → Bool
  nMinimumInputValue : ℤ

section Select

variable (view : SpendView) (coinControl : Option CCoinControl)

/-- The test of `AvailableCoins` on an output. -/
def isAvailable (hash : Uint256) (wtx : CWalletTx) (i : ℕ) : Bool :=
  match wtx.vout[i]? with
  | none => false
  | some txout =>
      !wtx.isSpent i && view.isMine txout.scriptPubKey &&
        decide (txout.nValue ≥ view.nMinimumInputValue) &&
        (!hasSelected coinControl || coinControl.any fun control ↦ control.isSelected hash i)

/-- The test of `AvailableCoins` on a transaction. -/
def skipsTransaction (fOnlyConfirmed : Bool) (pcoin : ℕ) : Bool :=
  !view.isFinal pcoin || (fOnlyConfirmed && !view.isTrusted pcoin) ||
    ((view.wtx pcoin).isCoinBase && decide (view.nBlocksToMaturity pcoin > 0)) ||
    ((view.wtx pcoin).isCoinStake && decide (view.nBlocksToMaturity pcoin > 0)) ||
    decide (view.nDepthInMainChain pcoin < 0)

def availableOutputs (fOnlyConfirmed : Bool) (entry : Uint256 × ℕ) : List COutput :=
  let wtx := view.wtx entry.2
  if skipsTransaction view fOnlyConfirmed entry.2 then []
  else ((List.range wtx.vout.length).filter (isAvailable view coinControl entry.1 wtx)).map fun i ↦
    ⟨entry.2, i, view.nDepthInMainChain entry.2⟩

def availableCoins (fOnlyConfirmed : Bool) : List COutput :=
  view.mapWallet.flatMap (availableOutputs view coinControl fOnlyConfirmed)

/-- Selected coins all go into the transaction; others are looked for at three depths. -/
def selectCoins (choices : ℕ → SelectionChoices) (nTargetValue : ℤ) (nSpendTime : ℕ) :
    Bool × SelectedCoins :=
  let vCoins := availableCoins view coinControl true
  if hasSelected coinControl then
    let selected := vCoins.foldl (fun selected out ↦ selected.add (view.nValue out.ref, out.ref)) .none
    (decide (selected.nValueRet ≥ nTargetValue), selected)
  else
    let first := selectCoinsMinConf view.toWalletView (choices 0) nTargetValue nSpendTime 1 6 vCoins
    if first.1 then first
    else
      let second := selectCoinsMinConf view.toWalletView (choices 1) nTargetValue nSpendTime 1 1 vCoins
      if second.1 then second
      else selectCoinsMinConf view.toWalletView (choices 2) nTargetValue nSpendTime 0 1 vCoins

end Select

/-- How a call ends without a transaction. -/
inductive CreateStop
  | returnsFalse
  | thrown (text : String)
  | overflow
deriving DecidableEq

/-- A sum of `int64_t` numbers. -/
def checked (n : ℤ) : Except CreateStop ℤ := if InInt64 n then .ok n else .error .overflow

/-- What a round leaves open: the choices of the selections, the position of the change, and what a
reservation of a key meets. -/
structure RoundChoices where
  selection : ℕ → SelectionChoices
  getRandInt : ℕ → ℕ
  getRandInt_lt : ∀ nMax, 0 < nMax → getRandInt nMax < nMax
  keyPool : KeyPoolEnv

/-- The wallet apart from its coins: the hash of public keys, new keys, and the script with which an
input that spends an output of a transaction is signed. -/
structure SpendEnv where
  getID : List UInt8 → CKeyID
  newKey : ℕ → CPubKey
  signSignature : CWalletTx → CTransaction → ℕ → Option CScript
  nTransactionFee : ℤ

/-- The reserved key of the call, and the wallet that it is reserved from. -/
structure KeyReserve where
  holder : CReserveKey
  wallet : KeyWallet

/-- What a call that returns true leaves. -/
structure CreatedTx where
  wtxNew : CTransaction
  nFeeRet : ℤ
  reserve : KeyReserve

variable (P : ChainParams) (env : SpendEnv) (view : SpendView) (coinControl : Option CCoinControl)
  (vecSend : List (CScript × ℤ)) (wtxNew : CTransaction)

/-- The sum of the payees, which is tested before each of them and at the end. -/
def totalValue : Except CreateStop ℤ := do
  let nValue ← vecSend.foldlM (fun nValue s ↦
    if nValue < 0 then .error .returnsFalse else checked (nValue + s.2)) 0
  if vecSend.isEmpty || decide (nValue < 0) then .error .returnsFalse else return nValue

/-- The part of sub-cent change that goes into the fee. -/
def moveToFee (nFeeRet nChange : ℤ) : ℤ :=
  if nFeeRet < MIN_TX_FEE ∧ nChange > 0 ∧ nChange < CENT then min nChange (MIN_TX_FEE - nFeeRet) else 0

/-- The script that the change is paid to. -/
def changeScript (choices : RoundChoices) (reserve : KeyReserve) :
    Except CreateStop (CScript × KeyReserve) :=
  match coinControl.map CCoinControl.destChange with
  | some (.keyID id) => .ok (scriptFor (.keyID id), reserve)
  | some (.scriptID id) => .ok (scriptFor (.scriptID id), reserve)
  | some .noDestination | none =>
      match reserve.holder.getReservedKey env.newKey choices.keyPool reserve.wallet with
      | (.error text, _, _) => .error (.thrown text)
      | (.ok vchPubKey, holder, wallet) =>
          .ok (scriptFor (.keyID (env.getID vchPubKey.vchPubKey)), ⟨holder, wallet⟩)

def payees : List CTxOut := vecSend.map fun s ↦ ⟨s.2, s.1⟩

/-- The outputs: the payees, and the change at a random position. -/
def fillOutputs (choices : RoundChoices) (reserve : KeyReserve) (nChange : ℤ) :
    Except CreateStop (List CTxOut × KeyReserve) :=
  let vout := payees vecSend
  if nChange > 0 then do
    let (scriptChange, reserve) ← changeScript env coinControl choices reserve
    return (vout.insertIdx (choices.getRandInt vout.length) ⟨nChange, scriptChange⟩, reserve)
  else
    let (holder, wallet) := reserve.holder.returnKey reserve.wallet
    return (vout, ⟨holder, wallet⟩)

/-- The coins in the order of the set: by pointer and output. -/
def coinOrder (setCoins : Finset CoinRef) : List CoinRef :=
  (setCoins.map toLex.toEmbedding).sort.map ofLex

def coinInput (coin : CoinRef) : CTxIn :=
  ⟨⟨P.hashTx (view.wtx coin.1).toCTransaction, coin.2⟩, [], uintMax⟩

/-- Sign one input. -/
def signInput (tx : CTransaction) (coin : CoinRef × ℕ) : Except CreateStop CTransaction :=
  match env.signSignature (view.wtx coin.1.1) tx coin.2 with
  | none => .error .returnsFalse
  | some scriptSig => .ok { tx with vin := tx.vin.modify coin.2 fun txin ↦ { txin with scriptSig } }

/-- The fee that a size asks for. -/
def requiredFee (tx : CTransaction) (nBytes : ℕ) : Except CreateStop ℤ := do
  let nPayFee ← checked (env.nTransactionFee * (1 + (nBytes : ℤ) / 1000))
  return max nPayFee (tx.getMinFee 1 .gmfSend nBytes)

/-- One round: a larger fee for the next one, or the transaction. -/
def createRound (choices : RoundChoices) (nValue nFeeRet : ℤ) (reserve : KeyReserve) :
    Except CreateStop ((ℤ × KeyReserve) ⊕ CreatedTx) := do
  let nTotalValue ← checked (nValue + nFeeRet)
  let (fSelected, selected) := selectCoins view coinControl choices.selection nTotalValue wtxNew.nTime
  if !fSelected then .error .returnsFalse
  else
    let nChange ← checked (selected.nValueRet - nValue - nFeeRet)
    let nMoveToFee := moveToFee nFeeRet nChange
    let nFeeRet := nFeeRet + nMoveToFee
    let (vout, reserve) ← fillOutputs env coinControl vecSend choices reserve (nChange - nMoveToFee)
    let coins := coinOrder selected.setCoinsRet
    let tx ← coins.zipIdx.foldlM (signInput env view)
      { wtxNew with vin := coins.map (coinInput P view), vout }
    let nBytes := tx.getSerializeSize
    if nBytes ≥ MAX_BLOCK_SIZE_GEN / 5 then .error .returnsFalse
    else
      let nRequired ← requiredFee env tx nBytes
      if nFeeRet < nRequired then return .inl (nRequired, reserve)
      else return .inr ⟨tx, nFeeRet, reserve⟩

/-- The rounds of the loop, as many as there is fuel for. -/
def feeLoop (choices : ℕ → RoundChoices) (nValue : ℤ) :
    ℕ → ℕ → ℤ → KeyReserve → Option (Except CreateStop CreatedTx)
  | 0, _, _, _ => none
  | fuel + 1, nRound, nFeeRet, reserve =>
      match createRound P env view coinControl vecSend wtxNew (choices nRound) nValue nFeeRet reserve with
      | .error stop => some (.error stop)
      | .ok (.inl (nFeeRet, reserve)) => feeLoop choices nValue fuel (nRound + 1) nFeeRet reserve
      | .ok (.inr created) => some (.ok created)

def createTransaction (choices : ℕ → RoundChoices) (fuel : ℕ) (reserve : KeyReserve) :
    Option (Except CreateStop CreatedTx) :=
  match totalValue vecSend with
  | .error stop => some (.error stop)
  | .ok nValue =>
      feeLoop P env view coinControl vecSend wtxNew choices nValue fuel 0 env.nTransactionFee reserve

end Electra.Wallet
