import Electra.Net.WireFormat
import Electra.Wallet.Records

/-!
# Wallet records come back

A record that was written is read into an object that is equal to the one written, which is left as it
was.  What is too large for a compact size is refused by the reader, and a spent flag comes back as
0 or 1.
-/

namespace Electra.Wallet.Records

open Chain Net Text Foundations.Codec Foundations.MachineInt Foundations.Numeral
open Std (ExtTreeMap)

variable {text : List Char}

/-- Characters that have a byte of their own and do not end a string. -/
def IsBytes (text : List Char) : Prop := ∀ c ∈ text, 0 < c.toNat ∧ c.toNat < 256

theorem cStr_ofText (h : IsBytes text) : cStr (ofText text) = text := by
  induction text with
  | nil => rfl
  | cons c text ih =>
    obtain ⟨hpos, hlt⟩ := h c List.mem_cons_self
    have hbyte : (UInt8.ofNat c.toNat).toNat = c.toNat := by
      rw [UInt8.toNat_ofNat', Nat.mod_eq_of_lt hlt]
    have hzero : UInt8.ofNat c.toNat ≠ 0 := by
      intro heq
      rw [heq, UInt8.toNat_zero] at hbyte
      omega
    have htail : cStr (ofText text) = text := ih fun d hd ↦ h d (List.mem_cons_of_mem c hd)
    calc
      cStr (ofText (c :: text)) = Char.ofNat (UInt8.ofNat c.toNat).toNat :: cStr (ofText text) := by
        simp [cStr, ofText, hzero]
      _ = c :: text := by rw [hbyte, Char.ofNat_toNat, htail]

theorem IsDigits.isBytes (h : IsDigits text) : IsBytes text := by
  intro c hc
  have hdigit := h c hc
  rw [Char.isDigit, Bool.and_eq_true, decide_eq_true_eq, decide_eq_true_eq] at hdigit
  have hlow : 48 ≤ c.toNat := UInt32.le_iff_toNat_le.mp hdigit.1
  have hhigh : c.toNat ≤ 57 := UInt32.le_iff_toNat_le.mp hdigit.2
  omega

theorem isBytes_i64tostr (n : ℤ) : IsBytes (i64tostr n) := by
  have hdigits : IsBytes (Nat.toDigits 10 n.natAbs) := IsDigits.isBytes (isDigits_toDigits n.natAbs)
  unfold i64tostr
  split
  · intro c hc
    cases hc with
    | head => decide
    | tail _ hc => exact hdigits c hc
  · exact hdigits

variable {s : List UInt8} {m : MapValue}

theorem readsBack_readString (h : s.length ≤ MAX_SIZE) :
    ReadsBack ReadState.unread readString (writeBytes s) s := by
  apply (reads_readCompactSize.1 s.length h).bind
  by_cases hzero : s.length = 0
  · rw [if_neg (not_not.mpr hzero), List.length_eq_zero_iff.mp hzero]
    exact .pure
  · rw [if_pos hzero]
    exact readsBack_readData s

def ItemTyped (item : List UInt8 × List UInt8) : Prop :=
  item.1.length ≤ MAX_SIZE ∧ item.2.length ≤ MAX_SIZE

theorem readsBack_readPair (item : List UInt8 × List UInt8) (h : ItemTyped item) :
    ReadsBack ReadState.unread readPair (writePair item) item :=
  (readsBack_readString h.1).bind (readsBack_readString h.2).bind_pure

structure MapTyped (m : MapValue) : Prop where
  size : m.size ≤ MAX_SIZE
  items : ∀ item ∈ m.toList, ItemTyped item

/-- Items with different keys end up in the map. -/
theorem mem_insertItems {items : List (List UInt8 × List UInt8)} (hdistinct : (items.map Prod.fst).Nodup)
    (hnew : ∀ item ∈ items, m[item.1]? = none) (key value : List UInt8) :
    (items.foldl insertItem m)[key]? = some value ↔ (key, value) ∈ items ∨ m[key]? = some value := by
  induction items generalizing m with
  | nil => simp
  | cons item items ih =>
    rw [List.map_cons, List.nodup_cons] at hdistinct
    have hitem := hnew item List.mem_cons_self
    have hread : ∀ k : List UInt8, (insertItem m item)[k]? = if item.1 = k then some item.2 else m[k]? := by
      intro k
      rw [insertItem, ExtTreeMap.getElem?_insertIfNew]
      by_cases heq : item.1 = k
      · rw [if_pos heq, if_pos]
        exact ⟨Std.compare_eq_iff_eq.mpr heq, by rw [ExtTreeMap.mem_iff_isSome_getElem?, hitem]; simp⟩
      · rw [if_neg heq, if_neg]
        rintro ⟨hcompare, -⟩
        exact heq (Std.compare_eq_iff_eq.mp hcompare)
    have hlater : ∀ later ∈ items, (insertItem m item)[later.1]? = none := by
      intro later hlater
      rw [hread, if_neg]
      · exact hnew later (List.mem_cons_of_mem item hlater)
      · intro heq
        exact hdistinct.1 (heq ▸ List.mem_map_of_mem hlater)
    rw [List.foldl_cons, ih hdistinct.2 hlater, hread, List.mem_cons, or_assoc, or_left_comm]
    apply or_congr_right
    by_cases heq : item.1 = key
    · subst heq
      rw [if_pos rfl, hitem]
      simp [Prod.ext_iff, eq_comm]
    · have hne : (key, value) ≠ item := by
        rintro rfl
        exact heq rfl
      rw [if_neg heq]
      simp [hne]

theorem insertItems_toList (m : MapValue) : m.toList.foldl insertItem ∅ = m := by
  have hkeys : (m.toList.map Prod.fst).Nodup := by
    have hdistinct := m.distinct_keys_toList
    rw [List.Nodup, List.pairwise_map]
    apply hdistinct.imp
    intro a b hab heq
    exact hab (Std.compare_eq_iff_eq.mpr heq)
  apply ExtTreeMap.ext_getElem?
  intro key
  apply Option.ext
  intro value
  rw [mem_insertItems hkeys (fun item _ ↦ rfl)]
  simp

theorem readsBack_readMap (h : MapTyped m) : ReadsBack ReadState.unread readMap (writeMap m) m := by
  have hitems : ReadsBack ReadState.unread (readItems readPair m.size) (m.toList.flatMap writePair)
      m.toList := by
    rw [← ExtTreeMap.length_toList]
    exact readsBack_readItems readsBack_readPair m.toList h.items
  have hall : ReadsBack ReadState.unread readMap (writeMap m) (m.toList.foldl insertItem ∅) :=
    (reads_readCompactSize.1 m.size h.size).bind hitems.bind_pure
  rwa [insertItems_toList] at hall

variable {key : List UInt8}

theorem getElem?_erase (m : MapValue) (k key : List UInt8) :
    (m.erase k)[key]? = if k = key then none else m[key]? := by
  simp only [ExtTreeMap.getElem?_erase, Std.compare_eq_iff_eq]

theorem getElem?_insert (m : MapValue) (k key value : List UInt8) :
    (m.insert k value)[key]? = if k = key then some value else m[key]? := by
  simp only [ExtTreeMap.getElem?_insert, Std.compare_eq_iff_eq]

theorem getElem?_eraseKeys (keys : List (List UInt8)) :
    (keys.foldl (fun m key ↦ m.erase key) m)[key]? = if key ∈ keys then none else m[key]? := by
  induction keys generalizing m with
  | nil => rfl
  | cons k keys ih =>
    rw [List.foldl_cons, ih, getElem?_erase]
    by_cases hlater : key ∈ keys
    · rw [if_pos hlater, if_pos (List.mem_cons_of_mem k hlater)]
    · rw [if_neg hlater]
      apply if_congr _ rfl rfl
      rw [List.mem_cons, or_iff_left hlater, eq_comm]

theorem getElem?_writeOrderPos (nOrderPos : ℤ) (m : MapValue) (key : List UInt8) :
    (writeOrderPos nOrderPos m)[key]? =
      if nOrderPos ≠ -1 ∧ ofString "n" = key then some (ofText (i64tostr nOrderPos)) else m[key]? := by
  unfold writeOrderPos
  by_cases hnone : nOrderPos = -1
  · rw [if_pos hnone, if_neg fun h ↦ h.1 hnone]
  · rw [if_neg hnone, getElem?_insert]
    simp only [ne_eq, hnone, not_false_eq_true, true_and]

/-- A position that is written is read. -/
theorem readOrderPos_writeOrderPos {nOrderPos : ℤ} (hint : InInt64 nOrderPos)
    (hnone : m[ofString "n"]? = none) : readOrderPos (writeOrderPos nOrderPos m) = nOrderPos := by
  rw [readOrderPos, getElem?_writeOrderPos]
  by_cases hpos : nOrderPos = -1
  · rw [if_neg fun h ↦ h.1 hpos, hnone, hpos]
  · rw [if_pos ⟨hpos, rfl⟩]
    exact (congrArg atoi64 (cStr_ofText (isBytes_i64tostr nOrderPos))).trans (atoi64_i64tostr hint)

theorem erase_writeOrderPos (nOrderPos : ℤ) (hnone : m[ofString "n"]? = none) :
    (writeOrderPos nOrderPos m).erase (ofString "n") = m := by
  apply ExtTreeMap.ext_getElem?
  intro key
  rw [getElem?_erase, getElem?_writeOrderPos]
  by_cases heq : ofString "n" = key
  · rw [if_pos heq, ← heq, hnone]
  · rw [if_neg heq, if_neg fun h ↦ heq h.2]

variable {wtx : CWalletTx}

/-- No key of the map is one that the record uses. -/
def NoReserved (m : MapValue) : Prop := ∀ key ∈ reservedKeys, m[key]? = none

theorem getElem?_putReserved (wtx : CWalletTx) (key : List UInt8) : wtx.putReserved[key]? =
    if wtx.nTimeSmart ≠ 0 ∧ ofString "timesmart" = key then
      some (ofText (Nat.toDigits 10 wtx.nTimeSmart))
    else if wtx.nOrderPos ≠ -1 ∧ ofString "n" = key then some (ofText (i64tostr wtx.nOrderPos))
    else if ofString "spent" = key then some (spentText wtx.vfSpent)
    else if ofString "fromaccount" = key then some wtx.strFromAccount
    else wtx.mapValue[key]? := by
  have hput : ∀ mapValue : MapValue, (if wtx.nTimeSmart ≠ 0 then
      mapValue.insert (ofString "timesmart") (ofText (Nat.toDigits 10 wtx.nTimeSmart))
        else mapValue)[key]? =
      if wtx.nTimeSmart ≠ 0 ∧ ofString "timesmart" = key then
        some (ofText (Nat.toDigits 10 wtx.nTimeSmart))
      else mapValue[key]? := by
    intro mapValue
    by_cases hsmart : wtx.nTimeSmart ≠ 0
    · rw [if_pos hsmart, getElem?_insert]
      exact if_congr (and_iff_right hsmart).symm rfl rfl
    · rw [if_neg hsmart, if_neg fun h ↦ hsmart h.1]
  rw [CWalletTx.putReserved, hput, getElem?_writeOrderPos, getElem?_insert, getElem?_insert]

/-- What is put in is taken out. -/
theorem eraseReserved_putReserved (h : NoReserved wtx.mapValue) :
    eraseReserved wtx.putReserved = wtx.mapValue := by
  apply ExtTreeMap.ext_getElem?
  intro key
  rw [eraseReserved, getElem?_eraseKeys]
  by_cases hkey : key ∈ reservedKeys
  · rw [if_pos hkey, h key hkey]
  · have hne : ∀ name ∈ ["fromaccount", "version", "spent", "n", "timesmart"], ofString name ≠ key := by
      rintro name hname rfl
      exact hkey (List.mem_map_of_mem hname)
    rw [if_neg hkey, getElem?_putReserved, if_neg fun h ↦ hne "timesmart" (by decide) h.2,
      if_neg fun h ↦ hne "n" (by decide) h.2, if_neg (hne "spent" (by decide)),
      if_neg (hne "fromaccount" (by decide))]

theorem getElem?_putReserved_fromaccount (wtx : CWalletTx) :
    wtx.putReserved[ofString "fromaccount"]? = some wtx.strFromAccount := by
  rw [getElem?_putReserved, if_neg fun h ↦ absurd h.2 (by decide), if_neg fun h ↦ absurd h.2 (by decide),
    if_neg (by decide), if_pos rfl]

theorem getElem?_putReserved_spent (wtx : CWalletTx) :
    wtx.putReserved[ofString "spent"]? = some (spentText wtx.vfSpent) := by
  rw [getElem?_putReserved, if_neg fun h ↦ absurd h.2 (by decide), if_neg fun h ↦ absurd h.2 (by decide),
    if_pos rfl]

theorem readOrderPos_putReserved (h : NoReserved wtx.mapValue) (hint : InInt64 wtx.nOrderPos) :
    readOrderPos wtx.putReserved = wtx.nOrderPos := by
  have hnone := h (ofString "n") (by decide)
  have hsame : wtx.putReserved[ofString "n"]? =
      (writeOrderPos wtx.nOrderPos wtx.mapValue)[ofString "n"]? := by
    rw [getElem?_putReserved, getElem?_writeOrderPos, if_neg fun h ↦ absurd h.2 (by decide),
      if_neg (by decide : ofString "spent" ≠ ofString "n"),
      if_neg (by decide : ofString "fromaccount" ≠ ofString "n")]
  calc
    readOrderPos wtx.putReserved = readOrderPos (writeOrderPos wtx.nOrderPos wtx.mapValue) := by
      rw [readOrderPos, hsame, readOrderPos]
    _ = wtx.nOrderPos := readOrderPos_writeOrderPos hint hnone

theorem getElem?_putReserved_timesmart (h : NoReserved wtx.mapValue) :
    wtx.putReserved[ofString "timesmart"]? =
      if wtx.nTimeSmart ≠ 0 then some (ofText (Nat.toDigits 10 wtx.nTimeSmart)) else none := by
  have hnone := h (ofString "timesmart") (by decide)
  rw [getElem?_putReserved]
  apply if_congr (and_iff_left rfl) rfl
  rw [if_neg fun h ↦ absurd h.2 (by decide), if_neg (by decide), if_neg (by decide), hnone]

/-- A flag is 0 or 1. -/
def IsFlag (f : UInt8) : Prop := f = 0 ∨ f = 1

theorem spentFlags_spentText {vfSpent : List UInt8} (h : ∀ f ∈ vfSpent, IsFlag f) :
    spentFlags (spentText vfSpent) = vfSpent := by
  induction vfSpent with
  | nil => rfl
  | cons f vfSpent ih =>
    have htail := ih fun g hg ↦ h g (List.mem_cons_of_mem f hg)
    unfold spentFlags spentText at htail ⊢
    rw [List.map_cons, List.map_cons, htail]
    obtain rfl | rfl := h f List.mem_cons_self
    · rfl
    · rfl

theorem atoi64_toDigits {n : ℕ} (h : n < 2 ^ 32) :
    (atoi64 (cStr (ofText (Nat.toDigits 10 n))) % 2 ^ 32).toNat = n := by
  have hdigits := isDigits_toDigits n
  rw [cStr_ofText (IsDigits.isBytes hdigits), atoi64_digits hdigits, ofDigits_toDigits]
  omega

structure MerkleTyped (tx : CMerkleTx) : Prop where
  transaction : TxTyped tx.toCTransaction
  vMerkleBranch : tx.vMerkleBranch.length ≤ MAX_SIZE
  nIndex : -2 ^ 31 ≤ tx.nIndex ∧ tx.nIndex < 2 ^ 31

/-- Numbers have the ranges of their types, and what is written with a compact size has at most
`MAX_SIZE` elements. -/
structure WalletTxTyped (wtx : CWalletTx) : Prop where
  merkleTx : MerkleTyped wtx.toCMerkleTx
  vtxPrev : (∀ tx ∈ wtx.vtxPrev, MerkleTyped tx) ∧ wtx.vtxPrev.length ≤ MAX_SIZE
  mapValue : MapTyped wtx.putReserved
  vOrderForm : (∀ item ∈ wtx.vOrderForm, ItemTyped item) ∧ wtx.vOrderForm.length ≤ MAX_SIZE
  fTimeReceivedIsTxTime : wtx.fTimeReceivedIsTxTime < 2 ^ 32
  nTimeReceived : wtx.nTimeReceived < 2 ^ 32
  nTimeSmart : wtx.nTimeSmart < 2 ^ 32
  nOrderPos : InInt64 wtx.nOrderPos

variable (sizes : RecordSizes)

theorem readsBack_readMerkleTx (tx : CMerkleTx) (h : MerkleTyped tx) :
    ReadsBack ReadState.unread (readMerkleTx sizes) (writeMerkleTx tx) tx := by
  have hbranch := readsBack_readVector (by decide : 0 < 5000000 / 32) reads_readUint256.1
    (fun _ _ ↦ trivial) h.vMerkleBranch
  have hindex := h.nIndex
  exact ((reads_readTx sizes.toElementSizes).1 tx.toCTransaction h.transaction).bind
    ((reads_readUint256.1 tx.hashBlock trivial).bind
      (hbranch.bind ((reads_readInt 4).1 tx.nIndex (by omega)).bind_pure))

theorem readsBack_readChar (c : UInt8) :
    ReadsBack ReadState.unread readChar (writeUInt 1 c.toNat) c := by
  have hnumber : ReadsBack ReadState.unread readChar (writeUInt 1 c.toNat) (UInt8.ofNat c.toNat) :=
    ((reads_readUInt 1).1 c.toNat (by simpa using c.toNat_lt)).bind_pure
  rwa [UInt8.ofNat_toNat] at hnumber

theorem readTimeSmart_putReserved (h : NoReserved wtx.mapValue) (hlt : wtx.nTimeSmart < 2 ^ 32) :
    readTimeSmart wtx.putReserved = wtx.nTimeSmart := by
  rw [readTimeSmart, getElem?_putReserved_timesmart h]
  by_cases hzero : wtx.nTimeSmart = 0
  · rw [if_neg (not_not.mpr hzero), hzero]
  · rw [if_pos hzero]
    exact atoi64_toDigits hlt

/-- What was put into the map is taken from it. -/
theorem takeReserved_putReserved (h : NoReserved wtx.mapValue) (htyped : WalletTxTyped wtx)
    (hflags : ∀ f ∈ wtx.vfSpent, IsFlag f) (fSpent : UInt8) :
    takeReserved wtx.toCMerkleTx wtx.vtxPrev wtx.putReserved wtx.vOrderForm wtx.fTimeReceivedIsTxTime
      wtx.nTimeReceived wtx.fFromMe fSpent = wtx := by
  have hspent : readSpent wtx.putReserved wtx.vout.length fSpent = wtx.vfSpent := by
    rw [readSpent, getElem?_putReserved_spent]
    exact spentFlags_spentText hflags
  rw [takeReserved, hspent, readTimeSmart_putReserved h htyped.nTimeSmart,
    getElem?_putReserved_fromaccount, Option.getD_some, eraseReserved_putReserved h,
    readOrderPos_putReserved h htyped.nOrderPos]

/-- What is read back, whatever was put into the map. -/
theorem readsBack_takeReserved (htyped : WalletTxTyped wtx) :
    ReadsBack ReadState.unread (readWalletTx sizes) (writeWalletTx wtx).1
      (takeReserved wtx.toCMerkleTx wtx.vtxPrev wtx.putReserved wtx.vOrderForm
        wtx.fTimeReceivedIsTxTime wtx.nTimeReceived wtx.fFromMe
        (if wtx.vfSpent.any (· ≠ 0) then 1 else 0)) := by
  have hprev := readsBack_readVector sizes.cMerkleTx_pos (readsBack_readMerkleTx sizes)
    htyped.vtxPrev.1 htyped.vtxPrev.2
  have hform := readsBack_readVector sizes.pair_pos readsBack_readPair htyped.vOrderForm.1
    htyped.vOrderForm.2
  have htime := htyped.fTimeReceivedIsTxTime
  have hreceived := htyped.nTimeReceived
  exact (readsBack_readMerkleTx sizes wtx.toCMerkleTx htyped.merkleTx).bind (hprev.bind
    ((readsBack_readMap htyped.mapValue).bind (hform.bind
      (((reads_readUInt 4).1 wtx.fTimeReceivedIsTxTime (by omega)).bind
        (((reads_readUInt 4).1 wtx.nTimeReceived (by omega)).bind
          ((readsBack_readChar wtx.fFromMe).bind (readsBack_readChar _).bind_pure))))))

theorem readsBack_readWalletTx (h : NoReserved wtx.mapValue) (htyped : WalletTxTyped wtx)
    (hflags : ∀ f ∈ wtx.vfSpent, IsFlag f) :
    ReadsBack ReadState.unread (readWalletTx sizes) (writeWalletTx wtx).1 wtx := by
  have hread := readsBack_takeReserved sizes htyped
  rwa [takeReserved_putReserved h htyped hflags] at hread

theorem writeWalletTx_snd (h : NoReserved wtx.mapValue) : (writeWalletTx wtx).2 = wtx := by
  simp only [writeWalletTx, eraseReserved_putReserved h]

variable {entry : CAccountingEntry} {nType : ℕ} {nVersion : ℤ}

/-- Numbers have the ranges of their types, and strings, with what is embedded in them, at most
`MAX_SIZE` bytes. -/
structure EntryTyped (entry : CAccountingEntry) : Prop where
  nCreditDebit : InInt64 entry.nCreditDebit
  nTime : InInt64 entry.nTime
  strOtherAccount : entry.strOtherAccount.length ≤ MAX_SIZE
  strComment : entry.writtenComment.length ≤ MAX_SIZE
  nOrderPos : InInt64 entry.nOrderPos

/-- A map is no larger than the bytes it is written as. -/
theorem mapTyped_of_length_writeMap (h : (writeMap m).length ≤ MAX_SIZE) : MapTyped m := by
  have hitem : ∀ item : List UInt8 × List UInt8,
      item.1.length + item.2.length + 1 ≤ (writePair item).length := by
    intro item
    have hpos : 0 < (writeCompactSize item.1.length).length := by
      unfold writeCompactSize
      split_ifs <;> simp [writeUInt]
    rw [writePair, writeBytes, writeBytes, List.length_append, List.length_append, List.length_append]
    omega
  have hitems : ∀ items : List (List UInt8 × List UInt8), items.length ≤ (items.flatMap writePair).length ∧
      ∀ item ∈ items, (writePair item).length ≤ (items.flatMap writePair).length := by
    intro items
    induction items with
    | nil => exact ⟨le_rfl, fun item hmem ↦ absurd hmem List.not_mem_nil⟩
    | cons item items ih =>
      have hone := hitem item
      rw [List.flatMap_cons, List.length_append, List.length_cons]
      refine ⟨by omega, fun later hlater ↦ ?_⟩
      cases hlater with
      | head => omega
      | tail _ hmem =>
        have hle := ih.2 later hmem
        omega
  obtain ⟨hsize, hmem⟩ := hitems m.toList
  rw [writeMap, List.length_append] at h
  rw [ExtTreeMap.length_toList] at hsize
  refine ⟨by omega, fun item hin ↦ ?_⟩
  have hle := hmem item hin
  have hone := hitem item
  exact ⟨by omega, by omega⟩

/-- Nothing is embedded, or the map and the extra bytes are. -/
theorem writtenComment_cases (entry : CAccountingEntry) :
    (writeOrderPos entry.nOrderPos entry.mapValue = ∅ ∧ entry.ssExtra = [] ∧
      entry.writtenComment = entry.strComment) ∨
    entry.writtenComment = entry.strComment ++
      0 :: (writeMap (writeOrderPos entry.nOrderPos entry.mapValue) ++ entry.ssExtra) := by
  by_cases hempty : ((writeOrderPos entry.nOrderPos entry.mapValue).isEmpty && entry.ssExtra.isEmpty) = true
  · left
    have hboth := Bool.and_eq_true_iff.mp hempty
    exact ⟨ExtTreeMap.isEmpty_iff.mp hboth.1, List.isEmpty_iff.mp hboth.2, if_pos hempty⟩
  · right
    exact if_neg hempty

theorem forall_ne_zero (h : 0 ∉ entry.strComment) :
    ∀ b ∈ entry.strComment, decide (b ≠ 0) = true := by
  intro b hb
  apply decide_eq_true
  rintro rfl
  exact h hb

theorem takeWhile_writtenComment (h : 0 ∉ entry.strComment) :
    entry.writtenComment.takeWhile (· ≠ 0) = entry.strComment := by
  obtain ⟨-, -, hwritten⟩ | hwritten := writtenComment_cases entry
  · rw [hwritten]
    exact List.takeWhile_eq_self_iff.mpr (forall_ne_zero h)
  · rw [hwritten, List.takeWhile_append_of_pos (forall_ne_zero h)]
    exact List.append_nil _

/-- The embedded part comes back; an object without extra bytes gets none where nothing is embedded. -/
theorem readEmbedded_writtenComment (h : 0 ∉ entry.strComment)
    (hlength : entry.writtenComment.length ≤ MAX_SIZE) :
    ∃ embedded, readEmbedded entry.writtenComment = .ok embedded ∧
      embedded.getD (∅, []) = (writeOrderPos entry.nOrderPos entry.mapValue, entry.ssExtra) := by
  obtain ⟨hmap, hextra, hwritten⟩ | hwritten := writtenComment_cases entry
  · refine ⟨none, ?_, ?_⟩
    · rw [hwritten, readEmbedded, List.dropWhile_eq_nil_iff.mpr (forall_ne_zero h)]
    · rw [hmap, hextra]
      rfl
  · rw [hwritten, List.length_append, List.length_cons, List.length_append] at hlength
    have htyped := @mapTyped_of_length_writeMap (writeOrderPos entry.nOrderPos entry.mapValue) (by omega)
    obtain ⟨ss, hrun, hunread⟩ := readsBack_readMap htyped ⟨.ofBytes _, []⟩ entry.ssExtra rfl
    refine ⟨some (writeOrderPos entry.nOrderPos entry.mapValue, entry.ssExtra), ?_, rfl⟩
    rw [hwritten, readEmbedded, List.dropWhile_append_of_pos (forall_ne_zero h),
      List.dropWhile_cons_of_neg (by simp)]
    dsimp only
    rw [hrun]
    exact congrArg (fun unread ↦ Except.ok (some (_, unread))) hunread

theorem readsBack_readVersion (hversion : -2 ^ 31 ≤ nVersion ∧ nVersion < 2 ^ 31) :
    ReadsBack ReadState.unread (readVersion nType)
      (if hasVersion nType then writeInt 4 nVersion else []) () := by
  unfold readVersion
  split
  · exact ((reads_readInt 4).1 nVersion (by omega)).bind_pure
  · exact .pure

theorem readsBack_readAccountingEntry (hversion : -2 ^ 31 ≤ nVersion ∧ nVersion < 2 ^ 31)
    (hzero : 0 ∉ entry.strComment) (hn : entry.mapValue[ofString "n"]? = none)
    (htyped : EntryTyped entry) :
    ReadsBack ReadState.unread (readAccountingEntry nType .null)
      (writeAccountingEntry nType nVersion entry).1 entry := by
  obtain ⟨embedded, hread, hembedded⟩ := readEmbedded_writtenComment hzero htyped.strComment
  have hcredit := htyped.nCreditDebit
  have htime := htyped.nTime
  apply (readsBack_readVersion hversion).bind
  apply ((reads_readInt 8).1 entry.nCreditDebit (by unfold InInt64 at hcredit; omega)).bind
  apply ((reads_readInt 8).1 entry.nTime (by unfold InInt64 at htime; omega)).bind
  apply (readsBack_readString htyped.strOtherAccount).bind
  rw [← List.append_nil (writeBytes entry.writtenComment)]
  apply (readsBack_readString htyped.strComment).bind
  rw [hread]
  have hfields : embedded.getD (∅, CAccountingEntry.null.ssExtra) =
      (writeOrderPos entry.nOrderPos entry.mapValue, entry.ssExtra) := hembedded
  simp only [hfields, takeWhile_writtenComment hzero, erase_writeOrderPos entry.nOrderPos hn,
    readOrderPos_writeOrderPos htyped.nOrderPos hn]
  exact .pure

theorem writeAccountingEntry_snd (hzero : 0 ∉ entry.strComment)
    (hn : entry.mapValue[ofString "n"]? = none) :
    (writeAccountingEntry nType nVersion entry).2 = entry := by
  simp only [writeAccountingEntry, takeWhile_writtenComment hzero, erase_writeOrderPos entry.nOrderPos hn]

/-- Writing leaves a record as it was, and what is written is read back into a fresh object, if nothing
is too large for a compact size and spent flags are 0 or 1. -/
theorem records_comeBack (nType : ℕ) (nVersion : ℤ) (hversion : -2 ^ 31 ≤ nVersion ∧ nVersion < 2 ^ 31) :
    (∀ entry : CAccountingEntry, 0 ∉ entry.strComment → entry.mapValue[ofString "n"]? = none →
      (writeAccountingEntry nType nVersion entry).2 = entry ∧
      (EntryTyped entry → ReadsBack ReadState.unread (readAccountingEntry nType .null)
        (writeAccountingEntry nType nVersion entry).1 entry)) ∧
    ∀ wtx : CWalletTx, NoReserved wtx.mapValue →
      (writeWalletTx wtx).2 = wtx ∧
      (WalletTxTyped wtx → (∀ f ∈ wtx.vfSpent, IsFlag f) →
        ReadsBack ReadState.unread (readWalletTx sizes) (writeWalletTx wtx).1 wtx) := by
  constructor
  · intro entry hzero hn
    exact ⟨writeAccountingEntry_snd hzero hn, readsBack_readAccountingEntry hversion hzero hn⟩
  · intro wtx h
    exact ⟨writeWalletTx_snd h, readsBack_readWalletTx sizes h⟩

def recordSizes64 : RecordSizes := ⟨elementSizes64, 192, 64, by decide, by decide⟩

/-- An entry with a position, a zero byte among its extra bytes and one in its map. -/
def transferEntry : CAccountingEntry where
  nCreditDebit := -5
  nTime := 1500000000
  strOtherAccount := ofString "savings"
  strComment := ofString "rent"
  mapValue := (∅ : MapValue).insert (ofString "to") [0, 255]
  nOrderPos := 7
  ssExtra := [0, 1, 2]

/-- A transaction with two outputs, one of them spent. -/
def receivedTx : CWalletTx where
  nVersion := 1
  nTime := 1500000000
  vin := [⟨⟨1, 0⟩, [], 0⟩]
  vout := [⟨10, []⟩, ⟨20, []⟩]
  nLockTime := 0
  hashBlock := 3
  vMerkleBranch := [4]
  nIndex := 1
  vtxPrev := []
  mapValue := (∅ : MapValue).insert (ofString "comment") (ofString "rent")
  vOrderForm := [(ofString "message", [0])]
  fTimeReceivedIsTxTime := 1
  nTimeReceived := 1500000001
  nTimeSmart := 1500000002
  fFromMe := 0
  strFromAccount := ofString "savings"
  vfSpent := [1, 0]
  nOrderPos := -1

theorem entryTyped_transferEntry : EntryTyped transferEntry where
  nCreditDebit := by decide
  nTime := by decide
  strOtherAccount := by decide
  strComment := by decide
  nOrderPos := by decide

theorem walletTxTyped_receivedTx : WalletTxTyped receivedTx where
  merkleTx := by
    refine ⟨⟨by decide, by decide, ⟨?_, by decide⟩, ⟨?_, by decide⟩, by decide⟩, by decide, by decide⟩
    · intro txin hin
      rw [List.mem_singleton.mp hin]
      exact ⟨by decide, by decide, by decide⟩
    · intro txout hout
      have hvalue : ∀ txout ∈ receivedTx.vout, (-2 ^ 63 ≤ txout.nValue ∧ txout.nValue < 2 ^ 63) ∧
          txout.scriptPubKey.length ≤ MAX_SIZE := by decide
      exact ⟨(hvalue txout hout).1, (hvalue txout hout).2⟩
  vtxPrev := ⟨fun tx htx ↦ absurd htx List.not_mem_nil, by decide⟩
  mapValue := by
    refine ⟨by decide, ?_⟩
    have hitems : ∀ item ∈ receivedTx.putReserved.toList,
        item.1.length ≤ MAX_SIZE ∧ item.2.length ≤ MAX_SIZE := by decide
    exact hitems
  vOrderForm := by
    refine ⟨fun item hitem ↦ ?_, by decide⟩
    rw [List.mem_singleton.mp hitem]
    exact ⟨by decide, by decide⟩
  fTimeReceivedIsTxTime := by decide
  nTimeReceived := by decide
  nTimeSmart := by decide
  nOrderPos := by decide

theorem records_comeBack_example :
    ReadsBack ReadState.unread (readAccountingEntry SER_DISK .null)
      (writeAccountingEntry SER_DISK 1 transferEntry).1 transferEntry ∧
    ReadsBack ReadState.unread (readWalletTx recordSizes64) (writeWalletTx receivedTx).1 receivedTx := by
  have hboth := records_comeBack recordSizes64 SER_DISK 1 (by decide)
  have hreserved : NoReserved receivedTx.mapValue := by
    unfold NoReserved
    decide
  have hflags : ∀ f ∈ receivedTx.vfSpent, IsFlag f :=
    List.forall_mem_cons.mpr ⟨.inr rfl, List.forall_mem_singleton.mpr (.inl rfl)⟩
  have hn : transferEntry.mapValue[ofString "n"]? = none := by
    rw [transferEntry, getElem?_insert, if_neg (by decide)]
    rfl
  exact ⟨(hboth.1 transferEntry (by decide) hn).2 entryTyped_transferEntry,
    (hboth.2 receivedTx hreserved).2 walletTxTyped_receivedTx hflags⟩

/-- An entry with a comment of one byte too many. -/
def longEntry : CAccountingEntry :=
  { CAccountingEntry.null with strComment := List.replicate (MAX_SIZE + 1) 65 }

theorem writtenComment_longEntry : longEntry.writtenComment = List.replicate (MAX_SIZE + 1) 65 := rfl

theorem refuses_longEntry : Refuses ReadState.unread (readAccountingEntry SER_DISK .null)
    (writeAccountingEntry SER_DISK 1 longEntry).1 "ReadCompactSize() : size too large" := by
  have hstring : Refuses ReadState.unread readString (writeBytes longEntry.writtenComment)
      "ReadCompactSize() : size too large" := by
    rw [writtenComment_longEntry, writeBytes, List.length_replicate]
    exact (refuses_readCompactSize (Nat.lt_succ_self _) (by decide)).bind
  apply (readsBack_readVersion (by decide)).bind_refuses
  apply ((reads_readInt 8).1 longEntry.nCreditDebit (by decide)).bind_refuses
  apply ((reads_readInt 8).1 longEntry.nTime (by decide)).bind_refuses
  apply (readsBack_readString (by decide)).bind_refuses
  rw [← List.append_nil (writeBytes longEntry.writtenComment)]
  exact hstring.bind

/-- A transaction whose only output has the flag 2. -/
def flaggedTx : CWalletTx := { receivedTx with vfSpent := [2, 0] }

theorem walletTxTyped_flaggedTx : WalletTxTyped flaggedTx where
  merkleTx := walletTxTyped_receivedTx.merkleTx
  vtxPrev := walletTxTyped_receivedTx.vtxPrev
  mapValue := walletTxTyped_receivedTx.mapValue
  vOrderForm := walletTxTyped_receivedTx.vOrderForm
  fTimeReceivedIsTxTime := walletTxTyped_receivedTx.fTimeReceivedIsTxTime
  nTimeReceived := walletTxTyped_receivedTx.nTimeReceived
  nTimeSmart := walletTxTyped_receivedTx.nTimeSmart
  nOrderPos := walletTxTyped_receivedTx.nOrderPos

/-- A comment that is too long is refused, and a flag comes back as 1. -/
theorem records_lost :
    (0 ∉ longEntry.strComment ∧ longEntry.mapValue[ofString "n"]? = none ∧
      ¬ ReadsBack ReadState.unread (readAccountingEntry SER_DISK .null)
        (writeAccountingEntry SER_DISK 1 longEntry).1 longEntry) ∧
    NoReserved flaggedTx.mapValue ∧
      ¬ ReadsBack ReadState.unread (readWalletTx recordSizes64) (writeWalletTx flaggedTx).1 flaggedTx := by
  refine ⟨⟨?_, rfl, ?_⟩, ?_, ?_⟩
  · intro hmem
    exact absurd (List.eq_of_mem_replicate hmem) (by decide)
  · exact refuses_longEntry.not_readsBack (s := ⟨.ofBytes _, []⟩) rfl
  · unfold NoReserved
    decide
  · intro hback
    have hread := readsBack_takeReserved recordSizes64 walletTxTyped_flaggedTx
    have hsame := hback.unique hread (s := ⟨.ofBytes _, []⟩) rfl
    have hflags := congrArg CWalletTx.vfSpent hsame
    revert hflags
    decide

end Electra.Wallet.Records
