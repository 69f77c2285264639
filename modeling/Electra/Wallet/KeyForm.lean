import Electra.Foundations.Codec
import Electra.Wallet.KeyStore

/-!
# The form of a key

A key object has the form of its public key twice: as a flag, and in the key of the library behind it.  The
copy constructor and the assignment leave out the flag, and what reads a key from bytes may set the form alone.
-/

namespace Electra.Wallet.KeyForm

open Foundations.Codec

/-- `point_conversion_form_t`, or zero, which is left by the point at infinity. -/
inductive ConversionForm
  | infinity
  | compressed
  | uncompressed
  | hybrid
deriving DecidableEq

/-- The form of a public key that was read, from its first byte without the last bit. -/
def formOfByte (byte : UInt8) : ConversionForm :=
  let form := byte.toNat / 2 * 2
  if form = 0 then .infinity else if form = 2 then .compressed else if form = 4 then .uncompressed else .hybrid

/-- `EC_KEY`. -/
structure ECKey (Group Point : Type) where
  group : Group
  priv_key : Option ℕ
  pub_key : Option Point
  conv_form : ConversionForm

/-- What a key object takes from its library. -/
structure OpenSSL where
  Group : Type
  Point : Type
  secp256k1 : Group
  order : Group → ℕ
  infinity : Group → Point
  /-- `EC_POINT_mul` with the generator. -/
  mul : Group → ℕ → Point
  /-- The private key that `EC_KEY_generate_key` draws. -/
  generate : Group → ℕ → ℕ
  point2oct : Group → ConversionForm → Point → List UInt8
  oct2point : Group → List UInt8 → Option Point
  /-- `d2i_ECPrivateKey` reads into a key that is there. -/
  d2i : ECKey Group Point → List UInt8 → Option (ECKey Group Point)
  checkKey : ECKey Group Point → Bool
  /-- `ECDSA_SIG_recover_key_GFp`, which sets the public key. -/
  recover : Group → ℕ → ℕ → List UInt8 → ℕ → Option Point
  /-- `EC_KEY_copy` of a key to itself, which frees its group. -/
  selfCopy : ECKey Group Point → ECKey Group Point

/-- What the library is known for. -/
structure OpenSSL.Documented (ssl : OpenSSL) : Prop where
  order_lt : ssl.order ssl.secp256k1 < 2 ^ 256
  mul_ne_infinity : ∀ n, 0 < n → n < ssl.order ssl.secp256k1 →
    ssl.mul ssl.secp256k1 n ≠ ssl.infinity ssl.secp256k1
  generate_pos : ∀ group seed, 0 < ssl.generate group seed
  generate_lt : ∀ group seed, ssl.generate group seed < ssl.order group
  length_compressed : ∀ p, p ≠ ssl.infinity ssl.secp256k1 →
    (ssl.point2oct ssl.secp256k1 .compressed p).length = 33
  length_uncompressed : ∀ p, p ≠ ssl.infinity ssl.secp256k1 →
    (ssl.point2oct ssl.secp256k1 .uncompressed p).length = 65
  length_infinity : (ssl.point2oct ssl.secp256k1 .uncompressed (ssl.infinity ssl.secp256k1)).length = 1
  oct2point_ne_infinity : ∀ vch p, vch.length = 33 → ssl.oct2point ssl.secp256k1 vch = some p →
    p ≠ ssl.infinity ssl.secp256k1
  checkKey_pair : ∀ pkey n, ssl.checkKey pkey = true → pkey.priv_key = some n →
    0 < n ∧ n < ssl.order pkey.group ∧ pkey.pub_key = some (ssl.mul pkey.group n)

variable (ssl : OpenSSL)

abbrev OpenSSL.Key := ECKey ssl.Group ssl.Point

def OpenSSL.newKey : ssl.Key := ⟨ssl.secp256k1, none, none, .uncompressed⟩

/-- `EC_KEY_copy`: what the source does not have stays in the destination. -/
def ECKey.copy {Group Point : Type} (dest src : ECKey Group Point) : ECKey Group Point :=
  ⟨src.group, src.priv_key.or dest.priv_key, src.pub_key.or dest.pub_key, src.conv_form⟩

structure CKey where
  pkey : ssl.Key
  fSet : Bool
  fCompressedPubKey : Bool

/-- The number in a secret, the high byte first. -/
def ofSecret (vchSecret : List UInt8) : ℕ := ofLeBytes vchSecret.reverse

namespace CKey

variable {ssl} (key : CKey ssl)

/-- `Reset`. -/
def new : CKey ssl := ⟨ssl.newKey, false, false⟩

def setCompressedPubKey : CKey ssl :=
  { key with pkey := { key.pkey with conv_form := .compressed }, fCompressedPubKey := true }

def makeNewKey (fCompressed : Bool) (seed : ℕ) : CKey ssl :=
  let n := ssl.generate key.pkey.group seed
  let key := { key with
    pkey := { key.pkey with priv_key := some n, pub_key := some (ssl.mul key.pkey.group n) }, fSet := true }
  if fCompressed then key.setCompressedPubKey else key

/-- The result, and what becomes of the object. -/
def setPrivKey (vchPrivKey : List UInt8) : Bool × CKey ssl :=
  match ssl.d2i key.pkey vchPrivKey with
  | none => (false, new)
  | some pkey => if ssl.checkKey pkey then (true, { key with pkey, fSet := true }) else (false, new)

/-- A secret of another length throws, which is `false`, when the old key is gone. -/
def setSecret (vchSecret : List UInt8) (fCompressed : Bool) : Bool × CKey ssl :=
  if vchSecret.length ≠ 32 then (false, { key with pkey := ssl.newKey })
  else
    let n := ofSecret vchSecret
    let pkey := { ssl.newKey with priv_key := some n, pub_key := some (ssl.mul ssl.secp256k1 n) }
    let keySet : CKey ssl := { key with pkey, fSet := true }
    (true, if fCompressed || key.fCompressedPubKey then keySet.setCompressedPubKey else keySet)

/-- Throws where there is no private key. -/
def getSecret : Option (List UInt8 × Bool) :=
  key.pkey.priv_key.map fun n ↦ ((leBytes 32 n).reverse, key.fCompressedPubKey)

def setPubKey (vchPubKey : List UInt8) : Bool × CKey ssl :=
  match ssl.oct2point key.pkey.group vchPubKey with
  | none => (false, new)
  | some p =>
      let keySet : CKey ssl := { key with
        pkey := { key.pkey with pub_key := some p, conv_form := formOfByte (vchPubKey.headD 0) }, fSet := true }
      (true, if vchPubKey.length = 33 then keySet.setCompressedPubKey else keySet)

/-- Throws where there is no public key, or where it has no encoding. -/
def getPubKey : Option (List UInt8) :=
  (key.pkey.pub_key.map (ssl.point2oct key.pkey.group key.pkey.conv_form)).filter fun vchPubKey ↦
    !vchPubKey.isEmpty

def setCompactSignature (hash vchSig : List UInt8) : Bool × CKey ssl :=
  if vchSig.length ≠ 65 then (false, key)
  else
    let nV := (vchSig.headD 0).toNat
    if nV < 27 ∨ nV ≥ 35 then (false, key)
    else
      let key : CKey ssl := { key with pkey := ssl.newKey }
      let key := if nV ≥ 31 then key.setCompressedPubKey else key
      let nV := if nV ≥ 31 then nV - 4 else nV
      match ssl.recover key.pkey.group (ofSecret ((vchSig.drop 1).take 32)) (ofSecret (vchSig.drop 33)) hash
          (nV - 27) with
      | some p => (true, { key with pkey := { key.pkey with pub_key := some p }, fSet := true })
      | none => (false, key)

/-- The copy constructor leaves `fCompressedPubKey` as the memory has it. -/
def copyConstruct (b : CKey ssl) (fUninitialised : Bool) : CKey ssl := ⟨b.pkey, b.fSet, fUninitialised⟩

/-- The assignment keeps its own `fCompressedPubKey`. -/
def assign (b : CKey ssl) : CKey ssl := ⟨key.pkey.copy b.pkey, b.fSet, key.fCompressedPubKey⟩

end CKey

abbrev MapKeys := CKeyID → Option (List UInt8 × Bool)

def addKey {ssl : OpenSSL} (getID : List UInt8 → CKeyID) (mapKeys : MapKeys) (key : CKey ssl) :
    Option MapKeys := do
  let secret ← key.getSecret
  let vchPubKey ← key.getPubKey
  some (Function.update mapKeys (getID vchPubKey) (some secret))

/-- `GetKey` into an object, which is reset. -/
def getKey (mapKeys : MapKeys) (address : CKeyID) : Option (CKey ssl) :=
  (mapKeys address).map fun secret ↦ (CKey.new.setSecret secret.1 secret.2).2

/-- The objects of a program, by name. -/
abbrev Objects := ℕ → Option (CKey ssl)

inductive KeyEvent
  | construct (i : ℕ)
  | copyConstruct (i j : ℕ) (fUninitialised : Bool)
  | assign (i j : ℕ)
  | reset (i : ℕ)
  | makeNewKey (i : ℕ) (fCompressed : Bool) (seed : ℕ)
  | setPrivKey (i : ℕ) (vchPrivKey : List UInt8)
  | setSecret (i : ℕ) (vchSecret : List UInt8) (fCompressed : Bool)
  | setPubKey (i : ℕ) (vchPubKey : List UInt8)
  | setCompactSignature (i : ℕ) (hash vchSig : List UInt8)
  | setCompressedPubKey (i : ℕ)

variable {ssl}

def change (objects : Objects ssl) (i : ℕ) (f : CKey ssl → CKey ssl) : Objects ssl :=
  Function.update objects i ((objects i).map f)

def step (objects : Objects ssl) : KeyEvent → Objects ssl
  | .construct i => Function.update objects i (some .new)
  | .copyConstruct i j fUninitialised =>
      Function.update objects i ((objects j).map fun b ↦ b.copyConstruct fUninitialised)
  | .assign i j =>
      match objects j with
      | none => objects
      | some b => change objects i fun key ↦
          if i = j then { key with pkey := ssl.selfCopy key.pkey } else key.assign b
  | .reset i => change objects i fun _ ↦ .new
  | .makeNewKey i fCompressed seed => change objects i fun key ↦ key.makeNewKey fCompressed seed
  | .setPrivKey i vchPrivKey => change objects i fun key ↦ (key.setPrivKey vchPrivKey).2
  | .setSecret i vchSecret fCompressed =>
      change objects i fun key ↦ (key.setSecret vchSecret fCompressed).2
  | .setPubKey i vchPubKey => change objects i fun key ↦ (key.setPubKey vchPubKey).2
  | .setCompactSignature i hash vchSig =>
      change objects i fun key ↦ (key.setCompactSignature hash vchSig).2
  | .setCompressedPubKey i => change objects i CKey.setCompressedPubKey

def run (objects : Objects ssl) (events : List KeyEvent) : Objects ssl := events.foldl step objects

/-- A key object reports the form of its public key, and the key store gives back a key with its id. -/
def KnowsForm (getID : List UInt8 → CKeyID) (key : CKey ssl) : Prop :=
  (∀ secret vchPubKey, key.getSecret = some secret → key.getPubKey = some vchPubKey →
    (secret.2 = true ↔ vchPubKey.length = 33)) ∧
  ∀ mapKeys mapKeys' vchPubKey, addKey getID mapKeys key = some mapKeys' → key.getPubKey = some vchPubKey →
    ∃ key' vchPubKey', getKey ssl mapKeys' (getID vchPubKey) = some key' ∧
      key'.getPubKey = some vchPubKey' ∧ getID vchPubKey' = getID vchPubKey

def formOf (fCompressed : Bool) : ConversionForm := if fCompressed then .compressed else .uncompressed

/-- A call that leaves the flag and the form in agreement.  The flag that a copy does not take is the one of
the source; a key or a signature that is read has the form that the flag says, unless it sets the flag; a public
key is read to the private key that belongs to it.  The point at infinity, the public key of a private key that
the order divides, has no compressed form. -/
def Agrees (objects : Objects ssl) : KeyEvent → Prop
  | .copyConstruct _ j fUninitialised => ∀ b, objects j = some b → fUninitialised = b.fCompressedPubKey
  | .assign i j => i ≠ j ∧ ∀ key b, objects i = some key → objects j = some b →
      key.fCompressedPubKey = b.fCompressedPubKey ∧
      (b.pkey.priv_key = none → ∀ n p, key.pkey.priv_key = some n → b.pkey.pub_key = some p →
        p = ssl.mul ssl.secp256k1 n)
  | .setPrivKey i vchPrivKey => ∀ key pkey, objects i = some key →
      ssl.d2i key.pkey vchPrivKey = some pkey → ssl.checkKey pkey = true →
        pkey.group = ssl.secp256k1 ∧ pkey.conv_form = formOf key.fCompressedPubKey
  | .setSecret i vchSecret fCompressed => ∀ key, objects i = some key →
      if vchSecret.length = 32 then (fCompressed || key.fCompressedPubKey) = true →
        ssl.mul ssl.secp256k1 (ofSecret vchSecret) ≠ ssl.infinity ssl.secp256k1
      else key.fCompressedPubKey = false
  | .setPubKey i vchPubKey => ∀ key p, objects i = some key →
      ssl.oct2point key.pkey.group vchPubKey = some p →
      (vchPubKey.length ≠ 33 →
        key.fCompressedPubKey = false ∧ formOfByte (vchPubKey.headD 0) = .uncompressed) ∧
      ∀ n, key.pkey.priv_key = some n → p = ssl.mul ssl.secp256k1 n
  | .setCompactSignature i _ vchSig => ∀ key, objects i = some key → vchSig.length = 65 →
      27 ≤ (vchSig.headD 0).toNat → (vchSig.headD 0).toNat < 31 → key.fCompressedPubKey = false
  | .setCompressedPubKey i => ∀ key n, objects i = some key → key.pkey.priv_key = some n →
      ssl.mul ssl.secp256k1 n ≠ ssl.infinity ssl.secp256k1
  | _ => True

def RunAgrees : Objects ssl → List KeyEvent → Prop
  | _, [] => True
  | objects, event :: events => Agrees objects event ∧ RunAgrees (step objects event) events

/-- The form is the one of the flag, and a private key has its public key, which has this form. -/
structure Consistent (key : CKey ssl) : Prop where
  group : key.pkey.group = ssl.secp256k1
  form : key.pkey.conv_form = formOf key.fCompressedPubKey
  pair : ∀ n, key.pkey.priv_key = some n → n < 2 ^ 256 ∧
    key.pkey.pub_key = some (ssl.mul ssl.secp256k1 n)
  finite : ∀ n, key.pkey.priv_key = some n → key.fCompressedPubKey = true →
    ssl.mul ssl.secp256k1 n ≠ ssl.infinity ssl.secp256k1

variable {key b : CKey ssl} {objects : Objects ssl} {getID : List UInt8 → CKeyID}

theorem ofSecret_leBytes {n : ℕ} (h : n < 2 ^ 256) : ofSecret (leBytes 32 n).reverse = n := by
  rw [ofSecret, List.reverse_reverse]
  exact ofLeBytes_leBytes h

theorem ofSecret_lt {vchSecret : List UInt8} (h : vchSecret.length = 32) : ofSecret vchSecret < 2 ^ 256 := by
  have hlt := ofLeBytes_lt vchSecret.reverse
  rw [List.length_reverse, h] at hlt
  exact hlt

namespace Consistent

theorem new : Consistent (CKey.new : CKey ssl) := ⟨rfl, rfl, nofun, nofun⟩

theorem setCompressedPubKey (h : Consistent key) (hfinite : ∀ n, key.pkey.priv_key = some n →
      ssl.mul ssl.secp256k1 n ≠ ssl.infinity ssl.secp256k1) : Consistent key.setCompressedPubKey :=
  ⟨h.group, rfl, h.pair, fun n hn _ ↦ hfinite n hn⟩

theorem makeNewKey (hssl : ssl.Documented) (h : Consistent key) (fCompressed : Bool) (seed : ℕ) :
    Consistent (key.makeNewKey fCompressed seed) := by
  have hlt := hssl.generate_lt ssl.secp256k1 seed
  let generated : CKey ssl := { key with
    pkey := { key.pkey with
      priv_key := some (ssl.generate key.pkey.group seed)
      pub_key := some (ssl.mul key.pkey.group (ssl.generate key.pkey.group seed)) }
    fSet := true }
  have hfinite : ∀ n, generated.pkey.priv_key = some n →
      ssl.mul ssl.secp256k1 n ≠ ssl.infinity ssl.secp256k1 := by
    intro n hn
    obtain rfl := Option.some.inj hn
    rw [h.group]
    exact hssl.mul_ne_infinity _ (hssl.generate_pos _ _) hlt
  have hset : Consistent generated := by
    refine ⟨h.group, h.form, fun n hn ↦ ?_, fun n hn _ ↦ hfinite n hn⟩
    obtain rfl := Option.some.inj hn
    have hgroup : generated.pkey.pub_key = some (ssl.mul key.pkey.group _) := rfl
    rw [hgroup, h.group]
    exact ⟨hlt.trans hssl.order_lt, rfl⟩
  cases fCompressed
  · exact hset
  · exact hset.setCompressedPubKey hfinite

theorem setPrivKey (hssl : ssl.Documented) {vchPrivKey : List UInt8}
    (hread : ∀ pkey, ssl.d2i key.pkey vchPrivKey = some pkey → ssl.checkKey pkey = true →
      pkey.group = ssl.secp256k1 ∧ pkey.conv_form = formOf key.fCompressedPubKey) :
    Consistent (key.setPrivKey vchPrivKey).2 := by
  unfold CKey.setPrivKey
  split
  · exact new
  · next pkey hpkey =>
    split
    · next hcheck =>
      obtain ⟨hgroup, hform⟩ := hread pkey hpkey hcheck
      have hpair := fun n hn ↦ hssl.checkKey_pair pkey n hcheck hn
      rw [hgroup] at hpair
      refine ⟨hgroup, hform, fun n hn ↦ ?_, fun n hn _ ↦ ?_⟩
      · obtain ⟨-, hlt, hpub⟩ := hpair n hn
        exact ⟨hlt.trans hssl.order_lt, hpub⟩
      · obtain ⟨hpos, hlt, -⟩ := hpair n hn
        exact hssl.mul_ne_infinity n hpos hlt
    · exact new

theorem setSecret {vchSecret : List UInt8} (fCompressed : Bool)
    (hsecret : if vchSecret.length = 32 then (fCompressed || key.fCompressedPubKey) = true →
        ssl.mul ssl.secp256k1 (ofSecret vchSecret) ≠ ssl.infinity ssl.secp256k1
      else key.fCompressedPubKey = false) :
    Consistent (key.setSecret vchSecret fCompressed).2 := by
  unfold CKey.setSecret
  by_cases hsize : vchSecret.length = 32
  · rw [if_pos hsize] at hsecret
    rw [if_neg (not_not.mpr hsize)]
    have hpair : ∀ n, some (ofSecret vchSecret) = some n → n < 2 ^ 256 ∧
        some (ssl.mul ssl.secp256k1 (ofSecret vchSecret)) = some (ssl.mul ssl.secp256k1 n) := by
      intro n hn
      obtain rfl := Option.some.inj hn
      exact ⟨ofSecret_lt hsize, rfl⟩
    dsimp only
    split
    · next hflag =>
      refine ⟨rfl, rfl, hpair, fun n hn _ ↦ ?_⟩
      obtain rfl := Option.some.inj hn
      exact hsecret hflag
    · next hflag =>
      have hfalse : key.fCompressedPubKey = false := by
        cases hkey : key.fCompressedPubKey
        · rfl
        · exact absurd (by rw [hkey, Bool.or_true]) hflag
      refine ⟨rfl, by rw [hfalse]; rfl, hpair, fun n hn htrue ↦ ?_⟩
      exact absurd (hfalse.symm.trans htrue) Bool.false_ne_true
  · rw [if_neg hsize] at hsecret
    rw [if_pos hsize]
    exact ⟨rfl, by rw [hsecret]; rfl, nofun, nofun⟩

theorem setPubKey (hssl : ssl.Documented) (h : Consistent key) {vchPubKey : List UInt8}
    (hread : ∀ p, ssl.oct2point key.pkey.group vchPubKey = some p →
      (vchPubKey.length ≠ 33 →
        key.fCompressedPubKey = false ∧ formOfByte (vchPubKey.headD 0) = .uncompressed) ∧
      ∀ n, key.pkey.priv_key = some n → p = ssl.mul ssl.secp256k1 n) :
    Consistent (key.setPubKey vchPubKey).2 := by
  unfold CKey.setPubKey
  split
  · exact new
  · next p hp =>
    obtain ⟨hform, hsame⟩ := hread p hp
    have hpair : ∀ n, key.pkey.priv_key = some n → n < 2 ^ 256 ∧
        some p = some (ssl.mul ssl.secp256k1 n) := by
      intro n hn
      exact ⟨(h.pair n hn).1, congrArg some (hsame n hn)⟩
    dsimp only
    split
    · next hsize =>
      refine ⟨h.group, rfl, hpair, fun n hn _ ↦ ?_⟩
      rw [h.group] at hp
      exact hsame n hn ▸ hssl.oct2point_ne_infinity vchPubKey p hsize hp
    · next hsize =>
      obtain ⟨hflag, hbyte⟩ := hform hsize
      exact ⟨h.group, by rw [hflag]; exact hbyte, hpair, h.finite⟩

theorem setCompactSignature (h : Consistent key) (hash : List UInt8) {vchSig : List UInt8}
    (hbyte : vchSig.length = 65 → 27 ≤ (vchSig.headD 0).toNat → (vchSig.headD 0).toNat < 31 →
      key.fCompressedPubKey = false) :
    Consistent (key.setCompactSignature hash vchSig).2 := by
  unfold CKey.setCompactSignature
  split
  · exact h
  · next hsize =>
    dsimp only
    split
    · exact h
    · next hrange =>
      by_cases hlarge : (vchSig.headD 0).toNat ≥ 31
      · rw [if_pos hlarge]
        split <;> exact ⟨rfl, rfl, nofun, nofun⟩
      · have hflag := hbyte (not_not.mp hsize) (by omega) (by omega)
        rw [if_neg hlarge]
        split <;> exact ⟨rfl, by rw [hflag]; rfl, nofun, nofun⟩

theorem copyConstruct (hb : Consistent b) : Consistent (b.copyConstruct b.fCompressedPubKey) :=
  ⟨hb.group, hb.form, hb.pair, hb.finite⟩

theorem assign (h : Consistent key) (hb : Consistent b)
    (hflag : key.fCompressedPubKey = b.fCompressedPubKey)
    (hpub : b.pkey.priv_key = none → ∀ n p, key.pkey.priv_key = some n → b.pkey.pub_key = some p →
      p = ssl.mul ssl.secp256k1 n) :
    Consistent (key.assign b) := by
  have hown : ∀ n, (key.assign b).pkey.priv_key = some n → b.pkey.priv_key = some n ∨
      b.pkey.priv_key = none ∧ key.pkey.priv_key = some n := by
    intro n hn
    change b.pkey.priv_key.or key.pkey.priv_key = some n at hn
    cases hpriv : b.pkey.priv_key with
    | some m => exact .inl (by rw [hpriv] at hn; exact hn)
    | none => exact .inr ⟨rfl, by rw [hpriv] at hn; exact hn⟩
  refine ⟨hb.group, hb.form.trans (by rw [← hflag]; rfl), fun n hn ↦ ?_, fun n hn htrue ↦ ?_⟩
  · change _ ∧ b.pkey.pub_key.or key.pkey.pub_key = _
    rcases hown n hn with hpriv | ⟨hnone, hpriv⟩
    · obtain ⟨hlt, hpair⟩ := hb.pair n hpriv
      exact ⟨hlt, by rw [hpair]; rfl⟩
    · obtain ⟨hlt, hpair⟩ := h.pair n hpriv
      cases hother : b.pkey.pub_key with
      | none => exact ⟨hlt, hpair⟩
      | some p => exact ⟨hlt, congrArg some (hpub hnone n p hpriv hother)⟩
  · rcases hown n hn with hpriv | ⟨-, hpriv⟩
    · exact hb.finite n hpriv (hflag ▸ htrue)
    · exact h.finite n hpriv htrue

/-- The public key of a key with a secret, in the form of the flag. -/
theorem getPubKey (hssl : ssl.Documented) (h : Consistent key) {n : ℕ}
    (hn : key.pkey.priv_key = some n) :
    key.getPubKey = some
        (ssl.point2oct ssl.secp256k1 (formOf key.fCompressedPubKey) (ssl.mul ssl.secp256k1 n)) ∧
      (key.fCompressedPubKey = true ↔ (ssl.point2oct ssl.secp256k1 (formOf key.fCompressedPubKey)
        (ssl.mul ssl.secp256k1 n)).length = 33) := by
  have hlength : (key.fCompressedPubKey = true ↔ (ssl.point2oct ssl.secp256k1
      (formOf key.fCompressedPubKey) (ssl.mul ssl.secp256k1 n)).length = 33) ∧
      0 < (ssl.point2oct ssl.secp256k1 (formOf key.fCompressedPubKey)
        (ssl.mul ssl.secp256k1 n)).length := by
    cases hflag : key.fCompressedPubKey with
    | true =>
      have hsize : (ssl.point2oct ssl.secp256k1 (formOf true) (ssl.mul ssl.secp256k1 n)).length = 33 :=
        hssl.length_compressed _ (h.finite n hn hflag)
      simp [hsize]
    | false =>
      by_cases hinfinity : ssl.mul ssl.secp256k1 n = ssl.infinity ssl.secp256k1
      · have hsize : (ssl.point2oct ssl.secp256k1 (formOf false) (ssl.mul ssl.secp256k1 n)).length = 1 :=
          hinfinity ▸ hssl.length_infinity
        simp [hsize]
      · have hsize : (ssl.point2oct ssl.secp256k1 (formOf false)
            (ssl.mul ssl.secp256k1 n)).length = 65 := hssl.length_uncompressed _ hinfinity
        simp [hsize]
  refine ⟨?_, hlength.1⟩
  rw [CKey.getPubKey, (h.pair n hn).2, h.group, h.form, Option.map_some, Option.filter_some, if_pos]
  rw [Bool.not_eq_true', List.isEmpty_eq_false_iff, ← List.length_pos_iff]
  exact hlength.2

theorem knowsForm (hssl : ssl.Documented) (h : Consistent key) (getID : List UInt8 → CKeyID) :
    KnowsForm getID key := by
  constructor
  · intro secret vchPubKey hsecret hpub
    obtain ⟨n, hn, rfl⟩ := Option.map_eq_some_iff.mp hsecret
    obtain ⟨hget, hlength⟩ := h.getPubKey hssl hn
    obtain rfl := Option.some.inj (hget.symm.trans hpub)
    exact hlength
  · intro mapKeys mapKeys' vchPubKey hadd hpub
    obtain ⟨secret, hsecret, hrest⟩ := Option.bind_eq_some_iff.mp hadd
    obtain ⟨vchOwn, hown, hmap⟩ := Option.bind_eq_some_iff.mp hrest
    obtain rfl := Option.some.inj hmap
    obtain rfl := Option.some.inj (hown.symm.trans hpub)
    obtain ⟨n, hn, rfl⟩ := Option.map_eq_some_iff.mp hsecret
    have hlt := (h.pair n hn).1
    have hsize : (leBytes 32 n).reverse.length = 32 := by rw [List.length_reverse, length_leBytes]
    -- What is stored gives a key with the same private key and the same flag.
    let key' : CKey ssl := (CKey.new.setSecret (leBytes 32 n).reverse key.fCompressedPubKey).2
    have hkey' : Consistent key' := by
      apply setSecret
      rw [if_pos hsize, ofSecret_leBytes hlt]
      intro hflag
      exact h.finite n hn ((Bool.or_false _).symm.trans hflag)
    have hfields : key'.pkey.priv_key = some n ∧ key'.fCompressedPubKey = key.fCompressedPubKey := by
      change (CKey.new.setSecret (leBytes 32 n).reverse key.fCompressedPubKey).2.pkey.priv_key = _ ∧
        (CKey.new.setSecret (leBytes 32 n).reverse key.fCompressedPubKey).2.fCompressedPubKey = _
      rw [CKey.setSecret, if_neg (not_not.mpr hsize), ofSecret_leBytes hlt]
      cases key.fCompressedPubKey <;> exact ⟨rfl, rfl⟩
    refine ⟨key', vchOwn, ?_, ?_, rfl⟩
    · rw [getKey, Function.update_self]
      rfl
    · rw [(hkey'.getPubKey hssl hfields.1).1, hfields.2, ← (h.getPubKey hssl hn).1, hown]

end Consistent

def AllConsistent (objects : Objects ssl) : Prop := ∀ i key, objects i = some key → Consistent key

namespace AllConsistent

theorem update (h : AllConsistent objects) (i : ℕ) {entry : Option (CKey ssl)}
    (hentry : ∀ key, entry = some key → Consistent key) :
    AllConsistent (Function.update objects i entry) := by
  intro k key hkey
  by_cases hk : k = i
  · rw [hk, Function.update_self] at hkey
    exact hentry key hkey
  · rw [Function.update_of_ne hk] at hkey
    exact h k key hkey

theorem change (h : AllConsistent objects) (i : ℕ) {f : CKey ssl → CKey ssl}
    (hf : ∀ key, objects i = some key → Consistent key → Consistent (f key)) :
    AllConsistent (change objects i f) := by
  apply h.update
  intro key' hkey'
  obtain ⟨key, hkey, rfl⟩ := Option.map_eq_some_iff.mp hkey'
  exact hf key hkey (h i key hkey)

theorem step (hssl : ssl.Documented) (h : AllConsistent objects) {event : KeyEvent}
    (hagrees : Agrees objects event) : AllConsistent (step objects event) := by
  cases event with
  | construct i =>
    apply h.update
    intro key hkey
    obtain rfl := Option.some.inj hkey
    exact .new
  | copyConstruct i j fUninitialised =>
    apply h.update
    intro key hkey
    obtain ⟨b, hb, rfl⟩ := Option.map_eq_some_iff.mp hkey
    rw [hagrees b hb]
    exact (h j b hb).copyConstruct
  | assign i j =>
    obtain ⟨hne, hsame⟩ := hagrees
    dsimp only [KeyForm.step]
    split
    · exact h
    · next b hb =>
      apply h.change
      intro key hkey hconsistent
      rw [if_neg hne]
      obtain ⟨hflag, hpub⟩ := hsame key b hkey hb
      exact hconsistent.assign (h j b hb) hflag hpub
  | reset i => exact h.change i fun key _ _ ↦ .new
  | makeNewKey i fCompressed seed => exact h.change i fun key _ hkey ↦ hkey.makeNewKey hssl fCompressed seed
  | setPrivKey i vchPrivKey =>
    exact h.change i fun key hkey _ ↦ .setPrivKey hssl fun pkey ↦ hagrees key pkey hkey
  | setSecret i vchSecret fCompressed =>
    exact h.change i fun key hkey _ ↦ .setSecret fCompressed (hagrees key hkey)
  | setPubKey i vchPubKey =>
    exact h.change i fun key hkey hconsistent ↦ hconsistent.setPubKey hssl fun p ↦ hagrees key p hkey
  | setCompactSignature i hash vchSig =>
    exact h.change i fun key hkey hconsistent ↦ hconsistent.setCompactSignature hash (hagrees key hkey)
  | setCompressedPubKey i =>
    exact h.change i fun key hkey hconsistent ↦ hconsistent.setCompressedPubKey fun n ↦ hagrees key n hkey

theorem run (hssl : ssl.Documented) (h : AllConsistent objects) {events : List KeyEvent}
    (hagrees : RunAgrees objects events) : AllConsistent (run objects events) := by
  induction events generalizing objects with
  | nil => exact h
  | cons event events ih => exact ih (h.step hssl hagrees.1) hagrees.2

end AllConsistent

/-- In a run of calls that leave the flag and the form in agreement, every key object knows its form. -/
theorem knowsForm_of_runAgrees (hssl : ssl.Documented) (getID : List UInt8 → CKeyID)
    {events : List KeyEvent} (hagrees : RunAgrees (fun _ ↦ none : Objects ssl) events) {i : ℕ}
    (hkey : run (fun _ ↦ none) events i = some key) : KnowsForm getID key := by
  have hnone : AllConsistent (fun _ ↦ none : Objects ssl) := fun _ _ h ↦ by cases h
  exact (hnone.run hssl hagrees i key hkey).knowsForm hssl getID

namespace GeneratorExample

def order : ℕ := 0xFFFFFFFFFFFFFFFFFFFFFFFFFFFFFFFEBAAEDCE6AF48A03BBFD25E8CD0364141

def generator : ℕ × ℕ := (0x79BE667EF9DCBBAC55A06295CE870B07029BFCDB2DCE28D959F2815B16F81798,
  0x483ADA7726A3C4655DA4FBFC0E1108A8FD17B448A68554199C47D08FFB10D4B8)

def encode : ConversionForm → Option (ℕ × ℕ) → List UInt8
  | .infinity, _ => []
  | _, none => [0]
  | .compressed, some (x, y) => UInt8.ofNat (2 + y % 2) :: (leBytes 32 x).reverse
  | .uncompressed, some (x, y) => 4 :: ((leBytes 32 x).reverse ++ (leBytes 32 y).reverse)
  | .hybrid, some (x, y) => UInt8.ofNat (6 + y % 2) :: ((leBytes 32 x).reverse ++ (leBytes 32 y).reverse)

/-- The library with one key, whose private key is 1. -/
def oneKey : OpenSSL where
  Group := Unit
  Point := Option (ℕ × ℕ)
  secp256k1 := ()
  order _ := order
  infinity _ := none
  mul _ n := if n % order = 0 then none else some generator
  generate _ _ := 1
  point2oct _ := encode
  oct2point _ vch :=
    if vch = encode .compressed (some generator) ∨ vch = encode .uncompressed (some generator) then
      some (some generator)
    else none
  d2i _ _ := none
  checkKey pkey := pkey.priv_key = some 1 && pkey.pub_key = some (some generator)
  recover _ _ _ _ _ := none
  selfCopy pkey := pkey

theorem documented : oneKey.Documented where
  order_lt := by decide
  mul_ne_infinity n hpos hlt := by
    change n < order at hlt
    change (if n % order = 0 then none else some generator) ≠ none
    rw [Nat.mod_eq_of_lt hlt, if_neg hpos.ne']
    exact Option.some_ne_none _
  generate_pos _ _ := Nat.one_pos
  generate_lt _ _ := by
    change 1 < order
    decide
  length_compressed p hp := by
    cases p with
    | none => exact absurd rfl hp
    | some p =>
      change (_ :: (leBytes 32 _).reverse).length = 33
      rw [List.length_cons, List.length_reverse, length_leBytes]
  length_uncompressed p hp := by
    cases p with
    | none => exact absurd rfl hp
    | some p =>
      change (_ :: ((leBytes 32 _).reverse ++ (leBytes 32 _).reverse)).length = 65
      rw [List.length_cons, List.length_append, List.length_reverse, List.length_reverse, length_leBytes,
        length_leBytes]
  length_infinity := rfl
  oct2point_ne_infinity vch p hsize hp := by
    change (if vch = encode .compressed (some generator) ∨ vch = encode .uncompressed (some generator) then
      some (some generator) else none) = some p at hp
    split at hp
    · rw [← Option.some.inj hp]
      exact Option.some_ne_none _
    · cases hp
  checkKey_pair (pkey : ECKey Unit (Option (ℕ × ℕ))) n hcheck hn := by
    obtain ⟨hpriv, hpub⟩ := (Bool.and_eq_true _ _).mp hcheck
    obtain rfl := Option.some.inj (hn.symm.trans (of_decide_eq_true hpriv))
    have hone : oneKey.mul pkey.group 1 = some generator := by
      change (if 1 % order = 0 then none else some generator) = _
      rw [if_neg (by decide)]
    have hgenerator : pkey.pub_key = some (some generator) := of_decide_eq_true hpub
    have hlt : 1 < order := by decide
    rw [hone]
    exact ⟨Nat.one_pos, hlt, hgenerator⟩

def hashed (vchPubKey : List UInt8) : CKeyID := BitVec.ofNat 160 (ofLeBytes vchPubKey)

/-- A new compressed key. -/
def fresh : CKey oneKey := CKey.new.makeNewKey true 0

/-- A copy for which the memory happens to have the flag of the key. -/
def copied : List KeyEvent := [.construct 0, .makeNewKey 0 true 0, .copyConstruct 1 0 true]

theorem runAgrees_copied : RunAgrees (fun _ ↦ none : Objects oneKey) copied := by
  refine ⟨trivial, trivial, fun b hb ↦ ?_, trivial⟩
  obtain rfl : fresh = b := Option.some.inj hb
  rfl

theorem knowsForm_copied : KnowsForm hashed (fresh.copyConstruct true) :=
  knowsForm_of_runAgrees documented hashed runAgrees_copied (i := 1) rfl

/-- A key that is assigned to a new object, which keeps its own flag. -/
def assigned : List KeyEvent := [.construct 0, .makeNewKey 0 true 0, .construct 1, .assign 1 0]

theorem not_knowsForm : ¬∀ (ssl : OpenSSL), ssl.Documented → ∀ (getID : List UInt8 → CKeyID)
    (events : List KeyEvent) (i : ℕ) (key : CKey ssl),
      run (fun _ ↦ none) events i = some key → KnowsForm getID key := by
  intro h
  have hknows := (h oneKey documented hashed assigned 1 (CKey.new.assign fresh) rfl).1
  have hpub : (CKey.new.assign fresh).getPubKey = some (encode .compressed (some generator)) := rfl
  have hsame := hknows _ _ rfl hpub
  have hlength := documented.length_compressed (some generator) (Option.some_ne_none _)
  cases hsame.mpr hlength

end GeneratorExample

end Electra.Wallet.KeyForm
