import Electra.Net.Serialize
import Mathlib.Tactic.NormNum
import Mathlib.Tactic.Zify

/-!
# The wire format

Every reader reads back what its writer wrote, and takes off nothing but that where the compact sizes
are in shortest form.  A counter counts the bytes that are written, modulo 2^32.

Transactions and blocks come back from what is written for them, their 32-bit sizes are right below
2^32 bytes, and what is read in shortest form is what is written again.
-/

namespace Electra.Net

open Chain Foundations.Codec

section

structure TxInTyped (txin : CTxIn) : Prop where
  prevout : txin.prevout.n < 2 ^ 32
  scriptSig : txin.scriptSig.length ≤ MAX_SIZE
  nSequence : txin.nSequence < 2 ^ 32

structure TxOutTyped (txout : CTxOut) : Prop where
  nValue : -2 ^ 63 ≤ txout.nValue ∧ txout.nValue < 2 ^ 63
  scriptPubKey : txout.scriptPubKey.length ≤ MAX_SIZE

/-- The numbers have the ranges of their types, and vectors and scripts at most `MAX_SIZE` elements. -/
structure TxTyped (tx : CTransaction) : Prop where
  nVersion : -2 ^ 31 ≤ tx.nVersion ∧ tx.nVersion < 2 ^ 31
  nTime : tx.nTime < 2 ^ 32
  vin : (∀ txin ∈ tx.vin, TxInTyped txin) ∧ tx.vin.length ≤ MAX_SIZE
  vout : (∀ txout ∈ tx.vout, TxOutTyped txout) ∧ tx.vout.length ≤ MAX_SIZE
  nLockTime : tx.nLockTime < 2 ^ 32

structure HeaderTyped (header : CBlockHeader) : Prop where
  nVersion : -2 ^ 31 ≤ header.nVersion ∧ header.nVersion < 2 ^ 31
  nTime : header.nTime < 2 ^ 32
  nBits : header.nBits < 2 ^ 32
  nNonce : header.nNonce < 2 ^ 32

structure BlockTyped (block : CBlock) : Prop where
  header : HeaderTyped block.toCBlockHeader
  vtx : (∀ tx ∈ block.vtx, TxTyped tx) ∧ block.vtx.length ≤ MAX_SIZE
  vchBlockSig : block.vchBlockSig.length ≤ MAX_SIZE

def Canonical (st : ReadState) : Prop := ∀ c ∈ st.sizes, c.IsShortest

/-- A reader of typed values that takes off what the writer writes for them. -/
def Reads {α : Type} (read : Reader α) (Typed : α → Prop) (write : α → List UInt8) : Prop :=
  (∀ a, Typed a → ReadsBack ReadState.unread read (write a) a) ∧
    Faithful ReadState.unread Canonical read fun a data ↦ Typed a ∧ data = write a

theorem readsBack_readData (data : List UInt8) :
    ReadsBack ReadState.unread (readData data.length) data data := by
  intro st rest hst
  refine ⟨{ st with stream := st.stream.advance data.length }, ?_, ?_⟩
  · have hread : st.stream.read data.length = .ok (data, st.stream.advance data.length) := by
      have hunread : st.stream.unread = data ++ rest := hst
      rw [CDataStream.read_eq, hunread, if_neg (by rw [List.length_append]; omega),
        List.take_left]
    simp only [readData, StateT.run, hread]
  · have hunread : st.stream.unread = data ++ rest := hst
    rw [ReadState.unread, CDataStream.unread_advance, hunread, List.drop_left]

theorem faithful_readData (n : ℕ) :
    Faithful ReadState.unread Canonical (readData n) fun bytes data ↦ bytes.length = n ∧ data = bytes := by
  intro st bytes st' hrun hcanonical
  simp only [readData, StateT.run, CDataStream.read_eq] at hrun
  by_cases hlt : st.stream.unread.length < n
  · rw [if_pos hlt] at hrun
    cases hrun
  · rw [if_neg hlt] at hrun
    cases hrun
    refine ⟨hcanonical, st.stream.unread.take n, ?_, ?_, rfl⟩
    · rw [ReadState.unread, ReadState.unread, CDataStream.unread_advance, List.take_append_drop]
    · rw [List.length_take, Nat.min_eq_left (Nat.le_of_not_lt hlt)]

theorem reads_readUInt (w : ℕ) : Reads (readUInt w) (fun n ↦ n < 256 ^ w) (writeUInt w) := by
  constructor
  · intro n hn
    have hdata := readsBack_readData (leBytes w n)
    rw [length_leBytes] at hdata
    have hnumber : ReadsBack ReadState.unread (readUInt w) (leBytes w n) (ofLeBytes (leBytes w n)) :=
      hdata.bind_pure
    rwa [ofLeBytes_leBytes hn] at hnumber
  · apply (faithful_readData w).bind_pure.imp
    rintro n data ⟨bytes, rfl, hlength, rfl⟩
    refine ⟨hlength ▸ ofLeBytes_lt data, ?_⟩
    rw [writeUInt, ← hlength, leBytes_ofLeBytes]

/-- Two's complement numbers modulo `m`. -/
theorem emod_signed {n m : ℤ} (hlow : -m ≤ 2 * n) (hhigh : 2 * n < m) :
    (if 2 * (n % m) < m then n % m else n % m - m) = n := by
  by_cases hn : 0 ≤ n
  · rw [Int.emod_eq_of_lt hn (by omega), if_pos hhigh]
  · have hmod : n % m = n + m := by
      rw [← Int.add_emod_right]
      exact Int.emod_eq_of_lt (by omega) (by omega)
    rw [hmod, if_neg (by omega)]
    omega

theorem reads_readInt (w : ℕ) : Reads (readInt w)
    (fun n ↦ -256 ^ w ≤ 2 * n ∧ 2 * n < 256 ^ w) (writeInt w) := by
  have hpos : (0 : ℤ) < 256 ^ w := by positivity
  constructor
  · rintro n ⟨hlow, hhigh⟩
    have hnonneg := Int.emod_nonneg n hpos.ne'
    have hlt : (n % 256 ^ w).toNat < 256 ^ w := by
      have := Int.emod_lt_of_pos n hpos
      zify
      rwa [Int.toNat_of_nonneg hnonneg]
    have hnumber : ReadsBack ReadState.unread (readInt w) (writeInt w n)
        (if 2 * (n % 256 ^ w).toNat < 256 ^ w then (((n % 256 ^ w).toNat : ℕ) : ℤ)
          else (((n % 256 ^ w).toNat : ℕ) : ℤ) - 256 ^ w) :=
      ((reads_readUInt w).1 _ hlt).bind_pure
    have hiff : 2 * (n % 256 ^ w).toNat < 256 ^ w ↔ 2 * (n % 256 ^ w) < 256 ^ w := by
      zify
      rw [Int.toNat_of_nonneg hnonneg]
    simp only [hiff, Int.toNat_of_nonneg hnonneg, emod_signed hlow hhigh] at hnumber
    exact hnumber
  · apply (reads_readUInt w).2.bind_pure.imp
    rintro n data ⟨k, rfl, hk, rfl⟩
    have hk' : (k : ℤ) < 256 ^ w := by exact_mod_cast hk
    have hiff : 2 * k < 256 ^ w ↔ 2 * (k : ℤ) < 256 ^ w := by
      zify
    simp only [hiff]
    by_cases hhalf : 2 * (k : ℤ) < 256 ^ w
    · rw [if_pos hhalf]
      refine ⟨⟨by omega, hhalf⟩, ?_⟩
      rw [writeInt, Int.emod_eq_of_lt (by omega) hk', Int.toNat_natCast]
      rfl
    · rw [if_neg hhalf]
      refine ⟨⟨by omega, by omega⟩, ?_⟩
      have hmod : ((k : ℤ) - 256 ^ w) % 256 ^ w = k := by
        rw [Int.sub_emod_right]
        exact Int.emod_eq_of_lt (by omega) hk'
      rw [writeInt, hmod, Int.toNat_natCast]
      rfl

theorem reads_readUint256 : Reads readUint256 (fun _ ↦ True) writeUint256 := by
  have hpow : (256 : ℕ) ^ 32 = 2 ^ 256 := by norm_num
  constructor
  · intro hash _
    have hnumber : ReadsBack ReadState.unread readUint256 (writeUInt 32 hash.toNat)
        (BitVec.ofNat 256 hash.toNat) :=
      ((reads_readUInt 32).1 _ (hpow ▸ hash.isLt)).bind_pure
    rwa [BitVec.ofNat_toNat, BitVec.setWidth_eq] at hnumber
  · apply (reads_readUInt 32).2.bind_pure.imp
    rintro hash data ⟨n, rfl, hn, rfl⟩
    refine ⟨trivial, ?_⟩
    rw [writeUint256, BitVec.toNat_ofNat, Nat.mod_eq_of_lt (hpow ▸ hn)]
    rfl

/-- What follows the first byte of a compact size. -/
def IsSizeAfter (chSize : ℕ) (c : CompactSize) (data : List UInt8) : Prop :=
  chSize < 253 ∧ c = ⟨1, chSize⟩ ∧ data = [] ∨
  chSize = 253 ∧ c.nBytes = 3 ∧ c.nSize < 256 ^ 2 ∧ data = writeUInt 2 c.nSize ∨
  chSize = 254 ∧ c.nBytes = 5 ∧ c.nSize < 256 ^ 4 ∧ data = writeUInt 4 c.nSize ∨
  254 < chSize ∧ c.nBytes = 9 ∧ c.nSize < 256 ^ 8 ∧ data = writeUInt 8 c.nSize

theorem faithful_readSizeAfter (chSize : ℕ) :
    Faithful ReadState.unread Canonical (readSizeAfter chSize) (IsSizeAfter chSize) := by
  unfold readSizeAfter
  by_cases h₁ : chSize < 253
  · rw [if_pos h₁]
    apply Faithful.pure.imp
    rintro c data ⟨rfl, rfl⟩
    exact .inl ⟨h₁, rfl, rfl⟩
  rw [if_neg h₁]
  by_cases h₂ : chSize = 253
  · rw [if_pos h₂]
    apply (reads_readUInt 2).2.bind_pure.imp
    rintro c data ⟨n, rfl, hn, rfl⟩
    exact .inr (.inl ⟨h₂, rfl, hn, rfl⟩)
  rw [if_neg h₂]
  by_cases h₃ : chSize = 254
  · rw [if_pos h₃]
    apply (reads_readUInt 4).2.bind_pure.imp
    rintro c data ⟨n, rfl, hn, rfl⟩
    exact .inr (.inr (.inl ⟨h₃, rfl, hn, rfl⟩))
  · rw [if_neg h₃]
    apply (reads_readUInt 8).2.bind_pure.imp
    rintro c data ⟨n, rfl, hn, rfl⟩
    exact .inr (.inr (.inr ⟨by omega, rfl, hn, rfl⟩))

/-- In shortest form, the bytes are those that are written. -/
theorem writeCompactSize_of_isSizeAfter {chSize : ℕ} {c : CompactSize} {data : List UInt8}
    (hch : chSize < 256) (h : IsSizeAfter chSize c data) (hshort : c.IsShortest) :
    writeUInt 1 chSize ++ data = writeCompactSize c.nSize := by
  unfold CompactSize.IsShortest getSizeOfCompactSize at hshort
  unfold writeCompactSize
  obtain ⟨hlt, rfl, rfl⟩ | ⟨rfl, hbytes, hn, rfl⟩ | ⟨rfl, hbytes, hn, rfl⟩ | ⟨hgt, hbytes, hn, rfl⟩ := h
  · rw [if_pos hlt, List.append_nil]
  · rw [hbytes] at hshort
    split at hshort
    · cases hshort
    · next h₁ => rw [if_neg h₁, if_pos (by omega)]
  · rw [hbytes] at hshort
    split at hshort
    · cases hshort
    split at hshort
    · cases hshort
    · next h₁ h₂ => rw [if_neg h₁, if_neg h₂, if_pos (by omega)]
  · rw [hbytes] at hshort
    obtain rfl : chSize = 255 := by omega
    split at hshort
    · cases hshort
    split at hshort
    · cases hshort
    split at hshort
    · cases hshort
    · next h₁ h₂ h₃ => rw [if_neg h₁, if_neg h₂, if_neg h₃]

theorem faithful_logSize (c : CompactSize) :
    Faithful ReadState.unread Canonical (logSize c) fun _ data ↦ data = [] ∧ c.IsShortest := by
  intro st _ st' hrun hcanonical
  cases hrun
  refine ⟨fun c' hc' ↦ hcanonical c' (List.mem_append_left _ hc'), [], rfl, rfl, ?_⟩
  exact hcanonical c (List.mem_append_right _ List.mem_cons_self)

theorem readsBack_logSize (c : CompactSize) : ReadsBack ReadState.unread (logSize c) [] () :=
  fun st _ hst ↦ ⟨{ st with sizes := st.sizes ++ [c] }, rfl, hst⟩

/-- What is written after the first byte is read back. -/
theorem exists_readsBack_readSizeAfter {n : ℕ} (hn : n < 256 ^ 8) :
    ∃ chSize data, chSize < 256 ∧ writeCompactSize n = writeUInt 1 chSize ++ data ∧
      ∃ c, c.nSize = n ∧ ReadsBack ReadState.unread (readSizeAfter chSize) data c := by
  unfold writeCompactSize
  by_cases h₁ : n < 253
  · refine ⟨n, [], by omega, by rw [if_pos h₁, List.append_nil], ⟨1, n⟩, rfl, ?_⟩
    rw [readSizeAfter, if_pos h₁]
    exact .pure
  rw [if_neg h₁]
  by_cases h₂ : n ≤ 0xffff
  · exact ⟨253, writeUInt 2 n, by omega, if_pos h₂, ⟨3, n⟩, rfl,
      ((reads_readUInt 2).1 n (by omega)).bind_pure⟩
  rw [if_neg h₂]
  by_cases h₃ : n ≤ 0xffffffff
  · exact ⟨254, writeUInt 4 n, by omega, if_pos h₃, ⟨5, n⟩, rfl,
      ((reads_readUInt 4).1 n (by omega)).bind_pure⟩
  · exact ⟨255, writeUInt 8 n, by omega, if_neg h₃, ⟨9, n⟩, rfl,
      ((reads_readUInt 8).1 n hn).bind_pure⟩

theorem reads_readCompactSize :
    Reads readCompactSize (fun n ↦ n ≤ MAX_SIZE) writeCompactSize := by
  constructor
  · intro n hn
    have hlt : n < 256 ^ 8 := by
      unfold MAX_SIZE at hn
      omega
    obtain ⟨chSize, data, hch, hwrite, c, rfl, hread⟩ := exists_readsBack_readSizeAfter hlt
    have hcheck : ReadsBack ReadState.unread (if c.nSize > MAX_SIZE then
        failure "ReadCompactSize() : size too large" else pure c.nSize) [] c.nSize := by
      rw [if_neg (Nat.not_lt.mpr hn)]
      exact .pure
    have hall : ReadsBack ReadState.unread readCompactSize (writeUInt 1 chSize ++ (data ++ ([] ++ [])))
        c.nSize :=
      ((reads_readUInt 1).1 chSize hch).bind (hread.bind ((readsBack_logSize c).bind hcheck))
    rw [List.append_nil, List.append_nil, ← hwrite] at hall
    exact hall
  · have hcheck : ∀ c : CompactSize, Faithful ReadState.unread Canonical
        (if c.nSize > MAX_SIZE then failure "ReadCompactSize() : size too large" else pure c.nSize)
        fun n data ↦ n = c.nSize ∧ n ≤ MAX_SIZE ∧ data = [] := by
      intro c
      by_cases hlarge : c.nSize > MAX_SIZE
      · rw [if_pos hlarge]
        intro st n st' hrun
        cases hrun
      · rw [if_neg hlarge]
        apply Faithful.pure.imp
        rintro n data ⟨rfl, rfl⟩
        exact ⟨rfl, Nat.not_lt.mp hlarge, rfl⟩
    have hall := (reads_readUInt 1).2.bind fun chSize ↦ (faithful_readSizeAfter chSize).bind
      fun c ↦ (faithful_logSize c).bind fun _ ↦ hcheck c
    apply hall.imp
    rintro n _ ⟨chSize, _, _, rfl, ⟨hch, rfl⟩, c, data, _, rfl, hafter, u, _, _, rfl,
      ⟨rfl, hshort⟩, rfl, hle, rfl⟩
    refine ⟨hle, ?_⟩
    rw [List.append_nil, List.append_nil]
    exact writeCompactSize_of_isSizeAfter hch hafter hshort

theorem refuses_readCompactSize {n : ℕ} (h : MAX_SIZE < n) (hn : n < 256 ^ 8) :
    Refuses ReadState.unread readCompactSize (writeCompactSize n)
      "ReadCompactSize() : size too large" := by
  obtain ⟨chSize, data, hch, hwrite, c, rfl, hread⟩ := exists_readsBack_readSizeAfter hn
  have hcheck : Refuses ReadState.unread (if c.nSize > MAX_SIZE then
      failure "ReadCompactSize() : size too large" else pure c.nSize) []
      "ReadCompactSize() : size too large" := by
    rw [if_pos h]
    exact fun _ _ _ ↦ rfl
  have hall : Refuses ReadState.unread readCompactSize (writeUInt 1 chSize ++ (data ++ ([] ++ [])))
      "ReadCompactSize() : size too large" :=
    ((reads_readUInt 1).1 chSize hch).bind_refuses
      (hread.bind_refuses ((readsBack_logSize c).bind_refuses hcheck))
  rwa [List.append_nil, List.append_nil, ← hwrite] at hall

theorem readsBack_readVector {α : Type} {read : Reader α} {Typed : α → Prop} {write : α → List UInt8}
    {nElement : ℕ} (hpos : 0 < 5000000 / nElement)
    (h : ∀ a, Typed a → ReadsBack ReadState.unread read (write a) a) {v : List α}
    (htyped : ∀ a ∈ v, Typed a) (hlength : v.length ≤ MAX_SIZE) :
    ReadsBack ReadState.unread (readVector read nElement) (writeVector write v) v :=
  (reads_readCompactSize.1 v.length hlength).bind
    (readsBack_readBatches hpos (readsBack_readItems h) v.length v htyped le_rfl)

theorem reads_readVector {α : Type} {read : Reader α} {Typed : α → Prop} {write : α → List UInt8}
    {nElement : ℕ} (hpos : 0 < 5000000 / nElement) (h : Reads read Typed write) :
    Reads (readVector read nElement) (fun v ↦ (∀ a ∈ v, Typed a) ∧ v.length ≤ MAX_SIZE)
      (writeVector write) := by
  constructor
  · rintro v ⟨htyped, hlength⟩
    exact readsBack_readVector hpos h.1 htyped hlength
  · have hall := reads_readCompactSize.2.bind fun n ↦
      faithful_readBatches hpos (faithful_readItems h.2) n n le_rfl
    apply hall.imp
    rintro v _ ⟨_, _, _, rfl, ⟨hle, rfl⟩, rfl, htyped, rfl⟩
    exact ⟨⟨htyped, hle⟩, rfl⟩

theorem flatMap_singleton (data : List UInt8) : data.flatMap (fun b ↦ [b]) = data := by
  induction data with
  | nil => rfl
  | cons b data ih => rw [List.flatMap_cons, ih, List.singleton_append]

theorem reads_readBytes : Reads readBytes (fun v ↦ v.length ≤ MAX_SIZE) writeBytes := by
  have hback : ∀ data : List UInt8, (∀ b ∈ data, True) →
      ReadsBack ReadState.unread (readData data.length) (data.flatMap fun b ↦ [b]) data := by
    intro data _
    rw [flatMap_singleton]
    exact readsBack_readData data
  have hfaithful : ∀ n, Faithful ReadState.unread Canonical (readData n)
      (IsListData (fun b ↦ [b]) (fun _ ↦ True) n) := by
    intro n
    apply (faithful_readData n).imp
    rintro bytes data ⟨hlength, rfl⟩
    exact ⟨hlength, fun _ _ ↦ trivial, (flatMap_singleton _).symm⟩
  constructor
  · intro v hv
    have hbatches := readsBack_readBatches (Nat.succ_pos 4999999) hback v.length v
      (fun _ _ ↦ trivial) le_rfl
    rw [flatMap_singleton, Nat.succ_eq_one_add] at hbatches
    exact (reads_readCompactSize.1 v.length hv).bind hbatches
  · have hall := reads_readCompactSize.2.bind fun n ↦
      faithful_readBatches (Nat.succ_pos 4999999) hfaithful n n le_rfl
    apply hall.imp
    rintro v _ ⟨_, _, _, rfl, ⟨hle, rfl⟩, rfl, -, rfl⟩
    rw [flatMap_singleton]
    exact ⟨hle, rfl⟩

theorem reads_readOutPoint : Reads readOutPoint (fun prevout ↦ prevout.n < 2 ^ 32) writeOutPoint := by
  constructor
  · intro prevout hn
    exact (reads_readUint256.1 prevout.hash trivial).bind
      ((reads_readUInt 4).1 prevout.n (by omega)).bind_pure
  · have hall := reads_readUint256.2.bind fun hash ↦
      Faithful.bind_pure (f := fun n ↦ (⟨hash, n⟩ : COutPoint)) (reads_readUInt 4).2
    apply hall.imp
    rintro _ _ ⟨hash, _, _, rfl, ⟨-, rfl⟩, n, rfl, hn, rfl⟩
    exact ⟨by simpa using hn, rfl⟩

theorem reads_readTxIn : Reads readTxIn TxInTyped writeTxIn := by
  constructor
  · rintro txin ⟨hprevout, hscript, hsequence⟩
    exact (reads_readOutPoint.1 txin.prevout hprevout).bind
      ((reads_readBytes.1 txin.scriptSig hscript).bind
        ((reads_readUInt 4).1 txin.nSequence (by omega)).bind_pure)
  · have hall := reads_readOutPoint.2.bind fun prevout ↦ reads_readBytes.2.bind fun scriptSig ↦
      Faithful.bind_pure (f := fun n ↦ (⟨prevout, scriptSig, n⟩ : CTxIn)) (reads_readUInt 4).2
    apply hall.imp
    rintro _ _ ⟨prevout, _, _, rfl, ⟨hprevout, rfl⟩, scriptSig, _, _, rfl, ⟨hscript, rfl⟩, n, rfl,
      hn, rfl⟩
    exact ⟨⟨hprevout, hscript, by simpa using hn⟩, rfl⟩

theorem reads_readTxOut : Reads readTxOut TxOutTyped writeTxOut := by
  constructor
  · rintro txout ⟨hvalue, hscript⟩
    exact ((reads_readInt 8).1 txout.nValue (by omega)).bind
      (reads_readBytes.1 txout.scriptPubKey hscript).bind_pure
  · have hall := (reads_readInt 8).2.bind fun nValue ↦
      Faithful.bind_pure (f := fun script ↦ (⟨nValue, script⟩ : CTxOut)) reads_readBytes.2
    apply hall.imp
    rintro _ _ ⟨nValue, _, _, rfl, ⟨hvalue, rfl⟩, script, rfl, hscript, rfl⟩
    exact ⟨⟨(by omega : -2 ^ 63 ≤ nValue ∧ nValue < 2 ^ 63), hscript⟩, rfl⟩

variable (sizes : ElementSizes)

theorem reads_readTx : Reads (readTx sizes) TxTyped writeTx := by
  have hvin := reads_readVector sizes.cTxIn_pos reads_readTxIn
  have hvout := reads_readVector sizes.cTxOut_pos reads_readTxOut
  constructor
  · intro tx htx
    have hversion := htx.nVersion
    have htime := htx.nTime
    have hlock := htx.nLockTime
    exact ((reads_readInt 4).1 tx.nVersion (by omega)).bind
      (((reads_readUInt 4).1 tx.nTime (by omega)).bind ((hvin.1 tx.vin htx.vin).bind
        ((hvout.1 tx.vout htx.vout).bind
          ((reads_readUInt 4).1 tx.nLockTime (by omega)).bind_pure)))
  · have hall := (reads_readInt 4).2.bind fun nVersion ↦ (reads_readUInt 4).2.bind fun nTime ↦
      hvin.2.bind fun vin ↦ hvout.2.bind fun vout ↦
        Faithful.bind_pure (f := fun n ↦ (⟨nVersion, nTime, vin, vout, n⟩ : CTransaction))
          (reads_readUInt 4).2
    apply hall.imp
    rintro _ _ ⟨nVersion, _, _, rfl, ⟨hversion, rfl⟩, nTime, _, _, rfl, ⟨htime, rfl⟩, vin, _, _, rfl,
      ⟨hin, rfl⟩, vout, _, _, rfl, ⟨hout, rfl⟩, n, rfl, hn, rfl⟩
    exact ⟨⟨(by omega : -2 ^ 31 ≤ nVersion ∧ nVersion < 2 ^ 31), by simpa using htime, hin, hout,
      by simpa using hn⟩, rfl⟩

theorem reads_readHeader : Reads readHeader HeaderTyped writeHeader := by
  constructor
  · rintro header ⟨hversion, htime, hbits, hnonce⟩
    exact ((reads_readInt 4).1 header.nVersion (by omega)).bind
      ((reads_readUint256.1 header.hashPrevBlock trivial).bind
        ((reads_readUint256.1 header.hashMerkleRoot trivial).bind
          (((reads_readUInt 4).1 header.nTime (by omega)).bind
            (((reads_readUInt 4).1 header.nBits (by omega)).bind
              ((reads_readUInt 4).1 header.nNonce (by omega)).bind_pure))))
  · have hall := (reads_readInt 4).2.bind fun nVersion ↦ reads_readUint256.2.bind fun hashPrev ↦
      reads_readUint256.2.bind fun hashRoot ↦ (reads_readUInt 4).2.bind fun nTime ↦
        (reads_readUInt 4).2.bind fun nBits ↦ Faithful.bind_pure
          (f := fun n ↦ (⟨nVersion, hashPrev, hashRoot, nTime, nBits, n⟩ : CBlockHeader))
          (reads_readUInt 4).2
    apply hall.imp
    rintro _ _ ⟨nVersion, _, _, rfl, ⟨hversion, rfl⟩, hashPrev, _, _, rfl, ⟨-, rfl⟩, hashRoot, _, _, rfl,
      ⟨-, rfl⟩, nTime, _, _, rfl, ⟨htime, rfl⟩, nBits, _, _, rfl, ⟨hbits, rfl⟩, n, rfl, hn, rfl⟩
    exact ⟨⟨(by omega : -2 ^ 31 ≤ nVersion ∧ nVersion < 2 ^ 31), by simpa using htime,
      by simpa using hbits, by simpa using hn⟩, rfl⟩

/-- A block is read back without the parts that its kind of serialization leaves out. -/
theorem readsBack_readBlock {nType : ℕ} {block : CBlock} (hblock : BlockTyped block) :
    ReadsBack ReadState.unread (readBlock sizes nType) (writeBlock nType block) (stored nType block) := by
  have hvtx := reads_readVector sizes.cTransaction_pos (reads_readTx sizes)
  have hheader := reads_readHeader.1 block.toCBlockHeader hblock.header
  unfold readBlock writeBlock stored
  cases headerOnly nType with
  | true => exact hheader.bind .pure
  | false =>
    exact hheader.bind ((hvtx.1 block.vtx hblock.vtx).bind
      (reads_readBytes.1 block.vchBlockSig hblock.vchBlockSig).bind_pure)

theorem faithful_readBlock (nType : ℕ) : Faithful ReadState.unread Canonical (readBlock sizes nType)
    fun block data ↦ BlockTyped block ∧ data = writeBlock nType block := by
  have hvtx := reads_readVector sizes.cTransaction_pos (reads_readTx sizes)
  unfold readBlock writeBlock
  cases headerOnly nType with
  | true =>
    have hall := reads_readHeader.2.bind_pure (f := fun header ↦ (⟨header, [], []⟩ : CBlock))
    apply hall.imp
    rintro _ _ ⟨header, rfl, hheader, rfl⟩
    refine ⟨⟨hheader, ⟨fun _ hmem ↦ absurd hmem List.not_mem_nil, Nat.zero_le _⟩, Nat.zero_le _⟩, ?_⟩
    exact (List.append_nil _).symm
  | false =>
    have hall := reads_readHeader.2.bind fun header ↦ hvtx.2.bind fun vtx ↦
      Faithful.bind_pure (f := fun sig ↦ (⟨header, vtx, sig⟩ : CBlock)) reads_readBytes.2
    apply hall.imp
    rintro _ _ ⟨header, _, _, rfl, ⟨hheader, rfl⟩, vtx, _, _, rfl, ⟨htxs, rfl⟩, sig, rfl, hsig, rfl⟩
    exact ⟨⟨hheader, htxs, hsig⟩, rfl⟩

end

theorem length_writeCompactSize (n : ℕ) : (writeCompactSize n).length = getSizeOfCompactSize n := by
  unfold writeCompactSize getSizeOfCompactSize
  split
  · exact length_leBytes 1 n
  split
  · rw [List.length_append, writeUInt, writeUInt, length_leBytes, length_leBytes]
  split
  · rw [List.length_append, writeUInt, writeUInt, length_leBytes, length_leBytes]
  · rw [List.length_append, writeUInt, writeUInt, length_leBytes, length_leBytes]

theorem bytesSize_eq (v : List UInt8) : bytesSize v = UInt32.ofNat (writeBytes v).length := by
  rw [bytesSize, writeBytes, List.length_append, length_writeCompactSize, UInt32.ofNat_add]

theorem vectorSize_eq {α : Type} {itemSize : α → UInt32} {write : α → List UInt8}
    (h : ∀ item, itemSize item = UInt32.ofNat (write item).length) (v : List α) :
    vectorSize itemSize v = UInt32.ofNat (writeVector write v).length := by
  have hloop : ∀ (items : List α) (n : ℕ),
      items.foldl (fun nSize item ↦ nSize + itemSize item) (UInt32.ofNat n) =
        UInt32.ofNat (n + (items.flatMap write).length) := by
    intro items
    induction items with
    | nil => intro n; rfl
    | cons item items ih =>
      intro n
      rw [List.foldl_cons, h, ← UInt32.ofNat_add, ih, List.flatMap_cons, List.length_append, Nat.add_assoc]
  rw [vectorSize, hloop, writeVector, List.length_append, length_writeCompactSize]

theorem length_writeTxIn (txin : CTxIn) :
    (writeTxIn txin).length = 36 + (writeBytes txin.scriptSig).length + 4 := by
  simp only [writeTxIn, writeOutPoint, writeUint256, writeUInt, List.length_append, length_leBytes]
  omega

theorem txInSize_eq (txin : CTxIn) : txInSize txin = UInt32.ofNat (writeTxIn txin).length := by
  rw [length_writeTxIn, UInt32.ofNat_add, UInt32.ofNat_add, txInSize, bytesSize_eq]
  rfl

theorem length_writeTxOut (txout : CTxOut) :
    (writeTxOut txout).length = 8 + (writeBytes txout.scriptPubKey).length := by
  rw [writeTxOut, List.length_append, writeInt, length_leBytes]

theorem txOutSize_eq (txout : CTxOut) : txOutSize txout = UInt32.ofNat (writeTxOut txout).length := by
  rw [length_writeTxOut, UInt32.ofNat_add, txOutSize, bytesSize_eq]
  rfl

theorem length_writeTx (tx : CTransaction) : (writeTx tx).length =
    8 + (writeVector writeTxIn tx.vin).length + (writeVector writeTxOut tx.vout).length + 4 := by
  simp only [writeTx, writeInt, writeUInt, List.length_append, length_leBytes]
  omega

/-- The size counter of transactions counts the bytes modulo 2^32. -/
theorem txSize_eq (tx : CTransaction) : txSize tx = UInt32.ofNat (writeTx tx).length := by
  rw [length_writeTx, UInt32.ofNat_add, UInt32.ofNat_add, UInt32.ofNat_add, txSize,
    vectorSize_eq txInSize_eq, vectorSize_eq txOutSize_eq]
  rfl

theorem length_writeHeader (header : CBlockHeader) : (writeHeader header).length = 80 := by
  simp only [writeHeader, writeInt, writeUInt, writeUint256, List.length_append, length_leBytes]

/-- The size counter of blocks counts the bytes modulo 2^32. -/
theorem blockSize_eq (nType : ℕ) (block : CBlock) :
    blockSize nType block = UInt32.ofNat (writeBlock nType block).length := by
  unfold blockSize writeBlock
  cases headerOnly nType with
  | true =>
    rw [if_pos rfl, if_pos rfl, List.append_nil, length_writeHeader]
    rfl
  | false =>
    rw [if_neg Bool.false_ne_true, if_neg Bool.false_ne_true, List.length_append, List.length_append,
      length_writeHeader, ← Nat.add_assoc, UInt32.ofNat_add, UInt32.ofNat_add,
      vectorSize_eq txSize_eq, bytesSize_eq]
    rfl

theorem length_writeVector {α : Type} {write : α → List UInt8} (v : List α) :
    (writeVector write v).length =
      getSizeOfCompactSize v.length + (v.map fun item ↦ (write item).length).sum := by
  rw [writeVector, List.length_append, length_writeCompactSize, List.length_flatMap]

/-- The unbounded size of the transaction model is the number of bytes. -/
theorem getSerializeSize_tx (tx : CTransaction) : tx.getSerializeSize = (writeTx tx).length := by
  have hin : ∀ txin : CTxIn, txin.getSerializeSize = (writeTxIn txin).length := by
    intro txin
    rw [length_writeTxIn, writeBytes, List.length_append, length_writeCompactSize]
    rfl
  have hout : ∀ txout : CTxOut, txout.getSerializeSize = (writeTxOut txout).length := by
    intro txout
    rw [length_writeTxOut, writeBytes, List.length_append, length_writeCompactSize]
    rfl
  rw [length_writeTx, length_writeVector, length_writeVector]
  simp only [CTransaction.getSerializeSize, funext hin, funext hout]

/-- An object comes back from its bytes, whatever follows them below 2^32 bytes, and its size is their
number. -/
def ComesBack {α : Type} (read : Reader α) (data : List UInt8) (a : α) (size : UInt32) : Prop :=
  ∀ (stream : CDataStream) (rest : List UInt8), stream.unread = data ++ rest →
    (data ++ rest).length < 2 ^ 32 →
    (∃ st, read.run ⟨stream, []⟩ = .ok (a, st) ∧ st.stream.unread = rest) ∧ size.toNat = data.length

/-- What is read is written again as the same bytes, if all compact sizes are in shortest form. -/
def WritesAgain {α : Type} (read : Reader α) (write : α → List UInt8) : Prop :=
  ∀ (stream : CDataStream) (a : α) (st : ReadState), read.run ⟨stream, []⟩ = .ok (a, st) →
    (∀ c ∈ st.sizes, c.IsShortest) → stream.unread = write a ++ st.stream.unread

variable {α : Type} {read : Reader α} {write : α → List UInt8} {Typed : α → Prop} {data : List UInt8}
  {a : α}

theorem comesBack_of_readsBack (h : ReadsBack ReadState.unread read data a) :
    ComesBack read data a (UInt32.ofNat data.length) := by
  intro stream rest hstream hlength
  refine ⟨h ⟨stream, []⟩ rest hstream, ?_⟩
  rw [List.length_append] at hlength
  exact Nat.mod_eq_of_lt (by omega)

theorem writesAgain_of_faithful (h : Faithful ReadState.unread Canonical read fun a data ↦
    Typed a ∧ data = write a) : WritesAgain read write := by
  intro stream a st hrun hshortest
  obtain ⟨-, data, hdata, -, rfl⟩ := h ⟨stream, []⟩ a st hrun hshortest
  exact hdata

/-- The header comes first in every variant of a block, and the variants without transactions end with
it. -/
theorem writeBlock_isPrefix {nType nType' : ℕ} (h : headerOnly nType = true) (block : CBlock) :
    writeBlock nType block <+: writeBlock nType' block := by
  rw [writeBlock, h, if_pos rfl, List.append_nil]
  exact List.prefix_append _ _

/-- Transactions and blocks below 2^32 bytes come back from what is written for them. -/
theorem wire_roundTrip (sizes : ElementSizes) :
    (∀ tx, TxTyped tx → ComesBack (readTx sizes) (writeTx tx) tx (txSize tx)) ∧
    (∀ nType block, BlockTyped block →
      ComesBack (readBlock sizes nType) (writeBlock nType block) (stored nType block)
        (blockSize nType block)) ∧
    (∀ block, writeBlock (SER_NETWORK ||| SER_BLOCKHEADERONLY) block <+:
      writeBlock SER_NETWORK block) ∧
    WritesAgain (readTx sizes) writeTx ∧
    ∀ nType, WritesAgain (readBlock sizes nType) (writeBlock nType) := by
  refine ⟨fun tx htx ↦ ?_, fun nType block hblock ↦ ?_, fun block ↦ writeBlock_isPrefix rfl block,
    writesAgain_of_faithful (reads_readTx sizes).2,
    fun nType ↦ writesAgain_of_faithful (faithful_readBlock sizes nType)⟩
  · rw [txSize_eq]
    exact comesBack_of_readsBack ((reads_readTx sizes).1 tx htx)
  · rw [blockSize_eq]
    exact comesBack_of_readsBack (readsBack_readBlock sizes hblock)

/-- Element sizes of a 64-bit platform. -/
def elementSizes64 : ElementSizes := ⟨72, 40, 72, by decide, by decide, by decide⟩

/-- A transaction with one input and one output. -/
def paymentTx : CTransaction where
  nVersion := 1
  nTime := 1500000000
  vin := [⟨⟨7, 1⟩, [0x51], 0⟩]
  vout := [⟨500, [0x51, 0x52]⟩]
  nLockTime := 0

theorem txTyped_paymentTx : TxTyped paymentTx where
  nVersion := by decide
  nTime := by decide
  vin := by
    refine ⟨fun txin htxin ↦ ?_, by decide⟩
    obtain rfl := List.mem_singleton.mp htxin
    exact ⟨by decide, by decide, by decide⟩
  vout := by
    refine ⟨fun txout htxout ↦ ?_, by decide⟩
    obtain rfl := List.mem_singleton.mp htxout
    exact ⟨by decide, by decide⟩
  nLockTime := by decide

theorem comesBack_paymentTx :
    ComesBack (readTx elementSizes64) (writeTx paymentTx) paymentTx (txSize paymentTx) :=
  (wire_roundTrip elementSizes64).1 paymentTx txTyped_paymentTx

def largeInput : CTxIn := ⟨⟨0, 0⟩, List.replicate MAX_SIZE 0, 0⟩

/-- 128 inputs with scripts of the largest size. -/
def largeTx : CTransaction where
  nVersion := 1
  nTime := 0
  vin := List.replicate 128 largeInput
  vout := []
  nLockTime := 0

theorem length_largeScript : largeInput.scriptSig.length = MAX_SIZE := List.length_replicate ..

theorem txTyped_largeTx : TxTyped largeTx where
  nVersion := by decide
  nTime := by decide
  vin := by
    refine ⟨fun txin htxin ↦ ?_, ?_⟩
    · rw [List.eq_of_mem_replicate htxin]
      exact ⟨by decide, length_largeScript.le, by decide⟩
    · rw [largeTx, List.length_replicate]
      decide
  vout := ⟨fun txout htxout ↦ absurd htxout List.not_mem_nil, Nat.zero_le _⟩
  nLockTime := by decide

theorem getSerializeSize_largeInput {txin : CTxIn} (h : txin.scriptSig.length = MAX_SIZE) :
    txin.getSerializeSize = 33554477 := by
  rw [CTxIn.getSerializeSize, scriptSize, h]
  norm_num [getSizeOfCompactSize, MAX_SIZE]

theorem getSerializeSize_largeTx {tx : CTransaction} {txin : CTxIn} (hin : tx.vin = List.replicate 128 txin)
    (hout : tx.vout = []) (h : txin.scriptSig.length = MAX_SIZE) :
    tx.getSerializeSize = 4294973070 := by
  rw [CTransaction.getSerializeSize, hin, hout, List.map_replicate, List.sum_replicate,
    getSerializeSize_largeInput h, List.length_replicate]
  norm_num [getSizeOfCompactSize]

/-- Its size is not the number of its bytes. -/
theorem txSize_largeTx : TxTyped largeTx ∧ (txSize largeTx).toNat ≠ (writeTx largeTx).length := by
  have hlength : (writeTx largeTx).length = 4294973070 := by
    rw [← getSerializeSize_tx]
    exact getSerializeSize_largeTx rfl rfl length_largeScript
  refine ⟨txTyped_largeTx, ?_⟩
  rw [txSize_eq, hlength, UInt32.toNat_ofNat']
  norm_num

end Electra.Net
