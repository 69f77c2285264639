import Mathlib.Data.Finset.Max

/-!
# The key pool

Keys that a wallet generates in advance.  An index of the pool is in `setKeyPool` until a key is
reserved; its holder keeps the key, which erases the record, or returns the index.  Calls that throw
keep what they changed before.
-/

namespace Electra.Wallet

structure CPubKey where
  vchPubKey : List UInt8
deriving DecidableEq

def CPubKey.isValid (pubkey : CPubKey) : Bool :=
  pubkey.vchPubKey.length == 33 || pubkey.vchPubKey.length == 65

structure CKeyPool where
  nTime : ℤ
  vchPubKey : CPubKey
deriving DecidableEq

/-- What one call meets outside the pool: the lock of the wallet, the clock, the argument `-keypool`,
the keys that can be added to the key store and those it has, and the records of the database that can
be written, read and erased. -/
structure KeyPoolEnv where
  fLocked : Bool
  nTime : ℤ
  nKeyPool : ℤ
  addKey : CPubKey → Bool
  haveKey : CPubKey → Bool
  fWritten : ℤ → Bool
  fRead : ℤ → Bool
  fErased : ℤ → Bool

/-- The part of a wallet that the key pool is, with the number of keys it has generated. -/
structure KeyWallet where
  fFileBacked : Bool
  setKeyPool : Finset ℤ
  pool : ℤ → Option CKeyPool
  vchDefaultKey : CPubKey
  nGenerated : ℕ

/-- What a reservation leaves in its two reference arguments, and the exception it ended with. -/
structure Reservation where
  nIndex : ℤ
  keypool : CKeyPool
  thrown : Option String
  wallet : KeyWallet

namespace KeyWallet

variable (newKey : ℕ → CPubKey) (env : KeyPoolEnv)

def writePool (w : KeyWallet) (nPool : ℤ) (keypool : CKeyPool) : Bool × KeyWallet :=
  if w.fFileBacked && env.fWritten nPool then
    (true, { w with pool := Function.update w.pool nPool (some keypool) })
  else (false, w)

def readPool (w : KeyWallet) (nPool : ℤ) : Option CKeyPool :=
  if w.fFileBacked && env.fRead nPool then w.pool nPool else none

def erasePool (w : KeyWallet) (nPool : ℤ) : KeyWallet :=
  if w.fFileBacked && env.fErased nPool then { w with pool := Function.update w.pool nPool none }
  else w

/-- Erase the record of every index in the pool. -/
def eraseAll (w : KeyWallet) : KeyWallet :=
  { w with pool := fun nIndex ↦
      if nIndex ∈ w.setKeyPool ∧ (w.fFileBacked && env.fErased nIndex) = true then none
      else w.pool nIndex }

def generateNewKey (w : KeyWallet) : Except String CPubKey × KeyWallet :=
  let pubkey := newKey w.nGenerated
  let w := { w with nGenerated := w.nGenerated + 1 }
  if env.addKey pubkey then (.ok pubkey, w)
  else (.error "CWallet::GenerateNewKey() : AddKey failed", w)

def addIndex (w : KeyWallet) (nIndex : ℤ) : KeyWallet :=
  { w with setKeyPool := insert nIndex w.setKeyPool }

/-- The loop of `NewKeyPool`, which does not look at what `WritePool` returns. -/
def writeNewKeys : List ℕ → KeyWallet → Except String Unit × KeyWallet
  | [], w => (.ok (), w)
  | i :: is, w =>
      match w.generateNewKey newKey env with
      | (.error text, w) => (.error text, w)
      | (.ok pubkey, w) =>
          let nIndex : ℤ := i + 1
          writeNewKeys is ((w.writePool env nIndex ⟨env.nTime, pubkey⟩).2.addIndex nIndex)

def newKeyPool (w : KeyWallet) : Except String Bool × KeyWallet :=
  let w := { w.eraseAll env with setKeyPool := ∅ }
  if env.fLocked then (.ok false, w)
  else
    match writeNewKeys newKey env (List.range (max env.nKeyPool 0).toNat) w with
    | (.error text, w) => (.error text, w)
    | (.ok _, w) => (.ok true, w)

/-- One past the largest index, or 1. -/
def nextIndex (w : KeyWallet) : ℤ :=
  if h : w.setKeyPool.Nonempty then w.setKeyPool.max' h + 1 else 1

def topUpLoop : ℕ → KeyWallet → Except String Unit × KeyWallet
  | 0, w => (.ok (), w)
  | nKeys + 1, w =>
      let nEnd := w.nextIndex
      match w.generateNewKey newKey env with
      | (.error text, w) => (.error text, w)
      | (.ok pubkey, w) =>
          match w.writePool env nEnd ⟨env.nTime, pubkey⟩ with
          | (false, w) => (.error "TopUpKeyPool() : writing generated key failed", w)
          | (true, w) => topUpLoop nKeys (w.addIndex nEnd)

/-- The size that the loop of `TopUpKeyPool` reaches, an unsigned 32-bit number. -/
def topUpSize (nSize : ℕ) : ℕ :=
  let nTargetSize := if 0 < nSize then nSize else (max env.nKeyPool 0).toNat
  (nTargetSize + 1) % 2 ^ 32

def topUpKeyPool (nSize : ℕ) (w : KeyWallet) : Except String Bool × KeyWallet :=
  if env.fLocked then (.ok false, w)
  else
    match topUpLoop newKey env (topUpSize env nSize - w.setKeyPool.card) w with
    | (.error text, w) => (.error text, w)
    | (.ok _, w) => (.ok true, w)

/-- The second part of `ReserveKeyFromKeyPool`, after topping up. -/
def reserveOldest (w : KeyWallet) : Reservation :=
  let keypool : CKeyPool := ⟨env.nTime, ⟨[]⟩⟩
  if h : w.setKeyPool.Nonempty then
    let nIndex := w.setKeyPool.min' h
    let w := { w with setKeyPool := w.setKeyPool.erase nIndex }
    match w.readPool env nIndex with
    | none => ⟨nIndex, keypool, some "ReserveKeyFromKeyPool() : read failed", w⟩
    | some keypool =>
        if !env.haveKey keypool.vchPubKey then
          ⟨nIndex, keypool, some "ReserveKeyFromKeyPool() : unknown key in key pool", w⟩
        else if !keypool.vchPubKey.isValid then
          ⟨nIndex, keypool, some "keypool.vchPubKey.IsValid()", w⟩
        else ⟨nIndex, keypool, none, w⟩
  else ⟨-1, keypool, none, w⟩

def reserveKeyFromKeyPool (w : KeyWallet) : Reservation :=
  if env.fLocked then w.reserveOldest env
  else
    match w.topUpKeyPool newKey env 0 with
    | (.error text, w) => ⟨-1, ⟨env.nTime, ⟨[]⟩⟩, some text, w⟩
    | (.ok _, w) => w.reserveOldest env

def keepKey (w : KeyWallet) (nIndex : ℤ) : KeyWallet :=
  if w.fFileBacked then w.erasePool env nIndex else w

def returnKey (w : KeyWallet) (nIndex : ℤ) : KeyWallet := w.addIndex nIndex

def getKeyFromPool (fAllowReuse : Bool) (w : KeyWallet) :
    Except String (Option CPubKey) × KeyWallet :=
  let reserved := w.reserveKeyFromKeyPool newKey env
  let w := reserved.wallet
  match reserved.thrown with
  | some text => (.error text, w)
  | none =>
      if reserved.nIndex = -1 then
        if fAllowReuse && w.vchDefaultKey.isValid then (.ok (some w.vchDefaultKey), w)
        else if env.fLocked then (.ok none, w)
        else
          match w.generateNewKey newKey env with
          | (.error text, w) => (.error text, w)
          | (.ok pubkey, w) => (.ok (some pubkey), w)
      else (.ok (some reserved.keypool.vchPubKey), w.keepKey env reserved.nIndex)

end KeyWallet

/-- The public key of a reservation that succeeded. -/
def Reservation.pubkey (reserved : Reservation) : Option CPubKey :=
  match reserved.thrown with
  | some _ => none
  | none => if reserved.nIndex = -1 then none else some reserved.keypool.vchPubKey

structure CReserveKey where
  nIndex : ℤ
  vchPubKey : CPubKey
deriving DecidableEq

namespace CReserveKey

variable (newKey : ℕ → CPubKey) (env : KeyPoolEnv)

def empty : CReserveKey := ⟨-1, ⟨[]⟩⟩

/-- The index is a reference argument of the reservation, so it stays when that throws. -/
def getReservedKey (holder : CReserveKey) (w : KeyWallet) :
    Except String CPubKey × CReserveKey × KeyWallet :=
  if holder.nIndex = -1 then
    let reserved := w.reserveKeyFromKeyPool newKey env
    match reserved.thrown with
    | some text => (.error text, { holder with nIndex := reserved.nIndex }, reserved.wallet)
    | none =>
        let vchPubKey :=
          if reserved.nIndex = -1 then w.vchDefaultKey else reserved.keypool.vchPubKey
        (if vchPubKey.isValid then .ok vchPubKey else .error "vchPubKey.IsValid()",
          ⟨reserved.nIndex, vchPubKey⟩, reserved.wallet)
  else
    (if holder.vchPubKey.isValid then .ok holder.vchPubKey else .error "vchPubKey.IsValid()",
      holder, w)

def keepKey (holder : CReserveKey) (w : KeyWallet) : CReserveKey × KeyWallet :=
  (empty, if holder.nIndex = -1 then w else w.keepKey env holder.nIndex)

def returnKey (holder : CReserveKey) (w : KeyWallet) : CReserveKey × KeyWallet :=
  (empty, if holder.nIndex = -1 then w else w.returnKey holder.nIndex)

end CReserveKey

/-- A wallet with the holders of reservations.  `reserved` is the key that a holder's reservation
gave it, and `keptKeys` are the keys of the pool that were kept, in their order. -/
structure KeyPoolState (H : Type) where
  wallet : KeyWallet
  holders : H → CReserveKey
  reserved : H → Option CPubKey
  keptKeys : List CPubKey

inductive KeyPoolCall (H : Type)
  | newKeyPool
  | topUpKeyPool (nSize : ℕ)
  | getReservedKey (h : H)
  | keepKey (h : H)
  | returnKey (h : H)
  | getKeyFromPool (fAllowReuse : Bool)

variable {H : Type} [DecidableEq H] (newKey : ℕ → CPubKey)

namespace KeyPoolState

def setHolder (st : KeyPoolState H) (h : H) (holder : CReserveKey) (pubkey : Option CPubKey) :
    KeyPoolState H :=
  { st with
    holders := Function.update st.holders h holder
    reserved := Function.update st.reserved h pubkey }

def step (st : KeyPoolState H) (env : KeyPoolEnv) : KeyPoolCall H → KeyPoolState H
  | .newKeyPool => { st with wallet := (st.wallet.newKeyPool newKey env).2 }
  | .topUpKeyPool nSize => { st with wallet := (st.wallet.topUpKeyPool newKey env nSize).2 }
  | .getReservedKey h =>
      let holder := st.holders h
      let (_, holder', w) := holder.getReservedKey newKey env st.wallet
      let pubkey :=
        if holder.nIndex = -1 then (st.wallet.reserveKeyFromKeyPool newKey env).pubkey
        else st.reserved h
      { st.setHolder h holder' pubkey with wallet := w }
  | .keepKey h =>
      let (holder', w) := (st.holders h).keepKey env st.wallet
      { st.setHolder h holder' none with
        wallet := w
        keptKeys := st.keptKeys ++ (st.reserved h).toList }
  | .returnKey h =>
      let (holder', w) := (st.holders h).returnKey st.wallet
      { st.setHolder h holder' none with wallet := w }
  | .getKeyFromPool fAllowReuse =>
      { st with
        wallet := (st.wallet.getKeyFromPool newKey env fAllowReuse).2
        keptKeys := st.keptKeys ++ (st.wallet.reserveKeyFromKeyPool newKey env).pubkey.toList }

def run (st : KeyPoolState H) (calls : List (KeyPoolEnv × KeyPoolCall H)) : KeyPoolState H :=
  calls.foldl (fun st call ↦ st.step newKey call.1 call.2) st

/-- No indices are held and nothing is kept yet; the keys in the pool come from the generator. -/
structure Start (st : KeyPoolState H) : Prop where
  positive : ∀ nIndex ∈ st.wallet.setKeyPool, 0 < nIndex
  stored : ∀ nIndex ∈ st.wallet.setKeyPool, ∃ keypool, st.wallet.pool nIndex = some keypool ∧
    ∃ n < st.wallet.nGenerated, keypool.vchPubKey = newKey n
  distinct : ∀ i ∈ st.wallet.setKeyPool, ∀ j ∈ st.wallet.setKeyPool,
    (st.wallet.pool i).map CKeyPool.vchPubKey = (st.wallet.pool j).map CKeyPool.vchPubKey → i = j
  holders : ∀ h, st.holders h = .empty
  reserved : ∀ h, st.reserved h = none
  keptKeys : st.keptKeys = []

/-- The pool is part of the stored indices and apart from the outstanding ones, every outstanding
index has one holder, and no key was kept twice. -/
structure Consistent (st : KeyPoolState H) : Prop where
  stored : ∀ nIndex ∈ st.wallet.setKeyPool, (st.wallet.pool nIndex).isSome
  apart : ∀ h, (st.holders h).nIndex ≠ -1 → (st.holders h).nIndex ∉ st.wallet.setKeyPool
  once : ∀ h h', (st.holders h).nIndex ≠ -1 → (st.holders h).nIndex = (st.holders h').nIndex → h = h'
  nodup : st.keptKeys.Nodup

end KeyPoolState

end Electra.Wallet
