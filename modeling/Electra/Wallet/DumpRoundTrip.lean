import Electra.Wallet.DumpFile

/-!
# Reading a dump back

A line of a dump is split into the tokens that were joined, since no token has white space in it, and a
label never looks like another mark.  So every key comes back with its label.
-/

namespace Electra.Wallet

open Chain Foundations Text Node
open Records (ofText ofString cStr IsBytes)

variable {env : DumpEnv} {wallet : DumpWallet env} {key : SecretKey} {keyid : CKeyID}

/-- A token can stand in a line. -/
def IsToken (token : List UInt8) : Prop := 32 ∉ token ∧ 10 ∉ token

theorem isToken_of_visible {token : List UInt8} (h : ∀ b ∈ token, 32 < b) : IsToken token :=
  ⟨fun hmem ↦ absurd (h 32 hmem) (by decide), fun hmem ↦ absurd (h 10 hmem) (by decide)⟩

theorem IsToken.append {token token' : List UInt8} (h : IsToken token) (h' : IsToken token') :
    IsToken (token ++ token') :=
  ⟨fun hmem ↦ (List.mem_append.mp hmem).elim h.1 h'.1, fun hmem ↦ (List.mem_append.mp hmem).elim h.2 h'.2⟩

theorem visible_base58Symbol : ∀ i < 58, 32 < (base58Symbol i).toNat ∧ (base58Symbol i).toNat < 128 := by
  decide

/-- The characters of Base58 are visible. -/
theorem visible_toString (hash : List UInt8 → Uint256) (data : CElectraAddress) :
    ∀ c ∈ CElectraAddress.toString hash data, 32 < c.toNat ∧ c.toNat < 128 := by
  intro c hc
  rw [CElectraAddress.toString, encodeBase58Check, encodeBase58_eq] at hc
  obtain ⟨i, hi, rfl⟩ := List.mem_map.mp hc
  exact visible_base58Symbol i (Rebase.lt_of_mem_rebase (by decide) i hi)

theorem isToken_toString (hash : List UInt8 → Uint256) (data : CElectraAddress) :
    IsToken (ofText (CElectraAddress.toString hash data)) := by
  apply isToken_of_visible
  intro b hb
  obtain ⟨c, hc, rfl⟩ := List.mem_map.mp hb
  obtain ⟨hvisible, hascii⟩ := visible_toString hash data c hc
  rw [UInt8.lt_iff_toNat_lt, UInt8.toNat_ofNat', Nat.mod_eq_of_lt (hascii.trans (by decide))]
  exact hvisible

theorem length_toData (fTestNet : Bool) (key : SecretKey) :
    (key.toData fTestNet).vchData.length = if key.fCompressed then 33 else 32 := by
  rw [SecretKey.toData, List.length_append, key.length_vchSecret]
  cases key.fCompressed with
  | true => rfl
  | false => rfl

theorem isSecret_toData (fTestNet : Bool) (key : SecretKey) : isSecret fTestNet (key.toData fTestNet) = true := by
  have hlength := length_toData fTestNet key
  have hversion : (key.toData fTestNet).nVersion = secretVersion fTestNet := rfl
  cases hcompressed : key.fCompressed with
  | true =>
    have hlast : (key.toData fTestNet).vchData.getD 32 0 = 1 := by
      rw [SecretKey.toData, List.getD_append_right _ _ _ _ key.length_vchSecret.le, key.length_vchSecret,
        hcompressed]
      rfl
    rw [hcompressed, if_pos rfl] at hlength
    rw [isSecret, hversion, hlength, hlast, decide_eq_true rfl]
    rfl
  | false =>
    rw [hcompressed, if_neg Bool.false_ne_true] at hlength
    simp [isSecret, hversion, hlength]

/-- A secret is read back. -/
theorem secretOfText_toText (fTestNet : Bool) (hash : List UInt8 → Uint256) (key : SecretKey) :
    secretOfText fTestNet hash (key.toText fTestNet hash) = some key := by
  have hbytes : IsBytes (CElectraAddress.toString hash (key.toData fTestNet)) := fun c hc ↦ by
    have hvisible := visible_toString hash _ c hc
    exact ⟨by omega, by omega⟩
  have htake : (key.toData fTestNet).vchData.take 32 = key.vchSecret :=
    List.take_left' key.length_vchSecret
  have hcompressed : decide ((key.toData fTestNet).vchData.length = 33) = key.fCompressed := by
    rw [length_toData]
    cases key.fCompressed with
    | true => rfl
    | false => rfl
  have hset : CElectraAddress.setString hash (cStr (key.toText fTestNet hash)) =
      (true, key.toData fTestNet) := by
    rw [SecretKey.toText, Records.cStr_ofText hbytes, CElectraAddress.setString_toString]
  unfold secretOfText
  simp only [hset, htake, hcompressed, isSecret_toData, and_self, dite_true]

/-- The label of a key as it comes back: there is none for reserve and change keys. -/
def labelOf (wallet : DumpWallet env) (keyid : CKeyID) : List UInt8 × Bool :=
  match wallet.mapAddressBook (.keyID keyid) with
  | some label => (label, true)
  | none => ([], false)

theorem isToken_dumpMark (setKeyPool : List CKeyID) (keyid : CKeyID) :
    IsToken (dumpMark wallet setKeyPool keyid) := by
  unfold dumpMark
  split
  · next label _ =>
    exact IsToken.append (show IsToken (ofString "label=") by unfold IsToken; decide)
      (isToken_of_visible (lt_of_mem_encodeDumpString label))
  · split
    · exact show IsToken (ofString "reserve=1") by unfold IsToken; decide
    · exact show IsToken (ofString "change=1") by unfold IsToken; decide

/-- The mark of a key says what its label is. -/
theorem readMarks_dumpMark (setKeyPool : List CKeyID) (keyid : CKeyID) (addr : List UInt8) :
    readMarks [dumpMark wallet setKeyPool keyid, ofString "#", addr] ([], true) = labelOf wallet keyid := by
  unfold dumpMark labelOf
  cases wallet.mapAddressBook (.keyID keyid) with
  | none =>
    dsimp only
    split
    · rfl
    · rfl
  | some label =>
    have hdrop : (ofString "label=" ++ encodeDumpString label).drop 6 = encodeDumpString label :=
      List.drop_left' rfl
    have hlabel : (ofString "label=").isPrefixOf (ofString "label=" ++ encodeDumpString label) = true :=
      List.isPrefixOf_iff_prefix.mpr (List.prefix_append _ _)
    have hnote : (ofString "#").isPrefixOf (ofString "label=" ++ encodeDumpString label) = false := rfl
    simp only [readMarks, hnote, hlabel, hdrop, decodeDumpString_encodeDumpString]
    rfl

theorem isToken_dumpAddress (keyid : CKeyID) : IsToken (ofString "addr=" ++ @dumpAddress env keyid) :=
  IsToken.append (show IsToken (ofString "addr=") by unfold IsToken; decide) (isToken_toString env.hash _)

/-- The tokens of a line. -/
theorem splitOn_dumpLine (htime : ∀ nTime, IsToken (env.encodeDumpTime nTime)) (setKeyPool : List CKeyID)
    (nTime : ℤ) (keyid : CKeyID) (key : SecretKey) :
    (dumpLine wallet setKeyPool nTime keyid key).splitOn 32 = [key.toText env.fTestNet env.hash,
      env.encodeDumpTime nTime, dumpMark wallet setKeyPool keyid, ofString "#",
      ofString "addr=" ++ @dumpAddress env keyid] := by
  refine List.splitOn_intercalate 32 ?_ (List.cons_ne_nil _ _)
  simp only [List.forall_mem_cons]
  exact ⟨(isToken_toString _ _).1, (htime nTime).1, (isToken_dumpMark setKeyPool keyid).1, by decide,
    (isToken_dumpAddress keyid).1, List.forall_mem_nil _⟩

section Lines

variable {addKeyResult : CKeyID → AddKeyResult} {s : ImportState env} {lines : List (List UInt8)}

theorem splitOn_flatMap_endl (h : ∀ line ∈ lines, 10 ∉ line) :
    (lines.flatMap endl).splitOn 10 = lines ++ [[]] := by
  induction lines with
  | nil => rfl
  | cons line lines ih =>
    rw [List.flatMap_cons, endl, List.append_assoc, List.singleton_append,
      List.splitOn_append_cons_self_of_not_mem (h line List.mem_cons_self),
      ih fun line' hline ↦ h line' (List.mem_cons_of_mem line hline), List.cons_append]

theorem IsToken.notMem_intercalate {tokens : List (List UInt8)} (h : ∀ token ∈ tokens, IsToken token) :
    10 ∉ [(32 : UInt8)].intercalate tokens := by
  induction tokens with
  | nil => exact List.not_mem_nil
  | cons token tokens ih =>
    have htoken := (h token List.mem_cons_self).2
    have hrest := ih fun token' htoken' ↦ h token' (List.mem_cons_of_mem token htoken')
    cases tokens with
    | nil => simpa using htoken
    | cons token' tokens =>
      rw [List.intercalate_cons_cons, List.mem_append, List.mem_append, not_or, not_or]
      exact ⟨⟨htoken, by decide⟩, hrest⟩

/-- Lines without a key are skipped. -/
theorem importLine_of_skipped {line : List UInt8} (h : line.isEmpty = true ∨ line.head? = some 35) :
    importLine addKeyResult s line = some s := by
  rw [importLine, if_pos]
  rwa [Bool.or_eq_true, decide_eq_true_iff]

theorem foldlM_of_skipped (h : ∀ line ∈ lines, line.isEmpty = true ∨ line.head? = some 35) :
    lines.foldlM (importLine addKeyResult) s = some s := by
  induction lines with
  | nil => rfl
  | cons line lines ih =>
    rw [List.foldlM_cons, importLine_of_skipped (h line List.mem_cons_self)]
    exact ih fun line' hline ↦ h line' (List.mem_cons_of_mem line hline)

theorem base58Symbol_ne_comment : ∀ i < 58, UInt8.ofNat (base58Symbol i).toNat ≠ 35 := by decide

/-- The line of a key is no comment, and not empty. -/
theorem dumpLine_not_skipped (setKeyPool : List CKeyID) (nTime : ℤ) (keyid : CKeyID) (key : SecretKey) :
    ¬ ((dumpLine wallet setKeyPool nTime keyid key).isEmpty = true ∨
      (dumpLine wallet setKeyPool nTime keyid key).head? = some 35) := by
  have hsecret : ∀ b ∈ key.toText env.fTestNet env.hash, b ≠ 35 := by
    intro b hb
    obtain ⟨c, hc, rfl⟩ := List.mem_map.mp hb
    rw [CElectraAddress.toString, encodeBase58Check, encodeBase58_eq] at hc
    obtain ⟨i, hi, rfl⟩ := List.mem_map.mp hc
    exact base58Symbol_ne_comment i (Rebase.lt_of_mem_rebase (by decide) i hi)
  rw [dumpLine, List.intercalate_cons_cons]
  cases htext : key.toText env.fTestNet env.hash with
  | nil => exact fun h ↦ h.elim Bool.false_ne_true fun h ↦ absurd (Option.some.inj h) (by decide)
  | cons b text =>
    refine fun h ↦ h.elim Bool.false_ne_true fun h ↦ ?_
    exact hsecret b (htext ▸ List.mem_cons_self) (Option.some.inj h)

/-- What a line of a key does. -/
theorem importLine_dumpLine (htime : ∀ nTime, IsToken (env.encodeDumpTime nTime)) (setKeyPool : List CKeyID)
    (nTime : ℤ) (h : env.keyID key = some keyid) :
    importLine addKeyResult s (dumpLine wallet setKeyPool nTime keyid key) =
      some (importKey addKeyResult s keyid key h (env.decodeDumpTime (env.encodeDumpTime nTime))
        (labelOf wallet keyid)) := by
  rw [importLine, if_neg fun hskip ↦ dumpLine_not_skipped setKeyPool nTime keyid key (by simpa using hskip)]
  simp only [splitOn_dumpLine htime, secretOfText_toText, readMarks_dumpMark]
  split
  · next hnone =>
    rw [h] at hnone
    cases hnone
  · next keyid' hsome =>
    obtain rfl : keyid = keyid' := Option.some.inj (h.symm.trans hsome)
    rfl

/-- The import of what a birth time stands for. -/
def importBirth (addKeyResult : CKeyID → AddKeyResult) (wallet : DumpWallet env) (s : ImportState env)
    (birth : ℤ × CKeyID) : ImportState env :=
  match h : wallet.mapKeys.lookup birth.2 with
  | none => s
  | some key => importKey addKeyResult s birth.2 key (wallet.keyID_mapKeys birth.2 key h)
      (env.decodeDumpTime (env.encodeDumpTime birth.1)) (labelOf wallet birth.2)

theorem importBirth_of_none {birth : ℤ × CKeyID} (h : wallet.mapKeys.lookup birth.2 = none) :
    importBirth addKeyResult wallet s birth = s := by
  unfold importBirth
  split
  · rfl
  · next key hsome =>
    rw [h] at hsome
    cases hsome

theorem importBirth_of_some {birth : ℤ × CKeyID} (h : wallet.mapKeys.lookup birth.2 = some key) :
    importBirth addKeyResult wallet s birth =
      importKey addKeyResult s birth.2 key (wallet.keyID_mapKeys birth.2 key h)
        (env.decodeDumpTime (env.encodeDumpTime birth.1)) (labelOf wallet birth.2) := by
  unfold importBirth
  split
  · next hnone =>
    rw [h] at hnone
    cases hnone
  · next key' hsome =>
    obtain rfl : key = key' := Option.some.inj (h.symm.trans hsome)
    rfl

theorem foldlM_keyLines (htime : ∀ nTime, IsToken (env.encodeDumpTime nTime)) (setKeyPool : List CKeyID)
    (vKeyBirth : List (ℤ × CKeyID)) :
    (keyLines wallet setKeyPool vKeyBirth).foldlM (importLine addKeyResult) s =
      some (vKeyBirth.foldl (importBirth addKeyResult wallet) s) := by
  induction vKeyBirth generalizing s with
  | nil => rfl
  | cons birth vKeyBirth ih =>
    rw [keyLines, List.filterMap_cons, List.foldl_cons]
    rw [keyLines] at ih
    cases hkey : wallet.mapKeys.lookup birth.2 with
    | none =>
      rw [importBirth_of_none hkey]
      exact ih
    | some key =>
      simp only [Option.map_some, List.foldlM_cons, importBirth_of_some hkey,
        importLine_dumpLine htime setKeyPool birth.1 (wallet.keyID_mapKeys birth.2 key hkey)]
      exact ih

theorem notMem_keyLines (htime : ∀ nTime, IsToken (env.encodeDumpTime nTime)) (setKeyPool : List CKeyID)
    (vKeyBirth : List (ℤ × CKeyID)) : ∀ line ∈ keyLines wallet setKeyPool vKeyBirth, 10 ∉ line := by
  intro line hline
  obtain ⟨birth, -, hbirth⟩ := List.mem_filterMap.mp hline
  obtain ⟨key, -, rfl⟩ := Option.map_eq_some_iff.mp hbirth
  apply IsToken.notMem_intercalate
  simp only [List.forall_mem_cons]
  exact ⟨isToken_toString _ _, htime _, isToken_dumpMark _ _, by unfold IsToken; decide,
    isToken_dumpAddress _, List.forall_mem_nil _⟩

/-- Reading the file is the import of the births one after the other. -/
theorem foldlM_dumpwallet {header : List CommentLine} {st : NodeState} {last : Option PIndex}
    {file : List UInt8} (htime : ∀ nTime, IsToken (env.encodeDumpTime nTime))
    (hdump : dumpwallet wallet header st last = .ok file) :
    ∃ mapKeyBirth, wallet.birthTimes st last = some mapKeyBirth ∧
      (file.splitOn 10).foldlM (importLine addKeyResult) s =
        some ((sortBirths mapKeyBirth).foldl (importBirth addKeyResult wallet) s) := by
  obtain ⟨mapKeyBirth, hbirths, hrest⟩ := Outcome.bind_eq_ok.mp hdump
  obtain ⟨setKeyPool, -, hfile⟩ := Outcome.bind_eq_ok.mp hrest
  refine ⟨mapKeyBirth, Outcome.require_eq_ok.mp hbirths, ?_⟩
  have hhead : ∀ line ∈ header.map CommentLine.text ++ [[]],
      line.isEmpty = true ∨ line.head? = some 35 := by
    intro line hline
    rcases List.mem_append.mp hline with hcomment | hblank
    · obtain ⟨comment, -, rfl⟩ := List.mem_map.mp hcomment
      exact .inr comment.head?_text
    · obtain rfl := List.mem_singleton.mp hblank
      exact .inl rfl
  have hend : ∀ line ∈ [[], ofString "# End of dump"], line.isEmpty = true ∨ line.head? = some 35 := by
    decide
  have hlines : ∀ line ∈ header.map CommentLine.text ++ [[]] ++
      keyLines wallet setKeyPool (sortBirths mapKeyBirth) ++ [[], ofString "# End of dump"], 10 ∉ line := by
    intro line hline
    simp only [List.mem_append, List.mem_map, List.mem_singleton] at hline
    obtain ((⟨comment, -, rfl⟩ | rfl) | hkey) | hlast := hline
    · exact comment.notMem_text
    · exact List.not_mem_nil
    · exact notMem_keyLines htime setKeyPool _ line hkey
    · have hplain : ∀ line ∈ [[], ofString "# End of dump"], 10 ∉ line := by decide
      exact hplain line hlast
  have hempty : ∀ line ∈ [([] : List UInt8)], line.isEmpty = true ∨ line.head? = some 35 := by decide
  rw [← Except.ok.inj hfile, splitOn_flatMap_endl hlines]
  simp only [List.foldlM_append, Option.bind_eq_bind, Option.bind_some, foldlM_of_skipped hend,
    foldlM_of_skipped hempty, foldlM_keyLines htime, foldlM_of_skipped hhead]

end Lines

section Run

variable (addKeyResult : CKeyID → AddKeyResult) (wallet : DumpWallet env)

/-- What stands in the new wallet after some births: if all went well, exactly the keys that were read,
with their labels, and no later time. -/
structure ReadBack (births : List (ℤ × CKeyID)) (s : ImportState env) : Prop where
  fGood_iff : s.fGood = true ↔ ∀ birth ∈ births, wallet.haveKey birth.2 = true →
    addKeyResult birth.2 = .added
  mapKeys : s.fGood = true → ∀ keyid, s.wallet.mapKeys.lookup keyid =
    if keyid ∈ births.map Prod.snd then wallet.mapKeys.lookup keyid else none
  mapAddressBook : s.fGood = true → ∀ keyid, s.wallet.mapAddressBook (.keyID keyid) =
    if keyid ∈ births.map Prod.snd ∧ wallet.haveKey keyid = true then wallet.mapAddressBook (.keyID keyid)
    else none
  nTimeBegin : s.fGood = true → ∀ birth ∈ births, wallet.haveKey birth.2 = true →
    s.nTimeBegin ≤ env.decodeDumpTime (env.encodeDumpTime birth.1)

variable {addKeyResult wallet} {births : List (ℤ × CKeyID)} {s : ImportState env} {birth : ℤ × CKeyID}

theorem haveKey_eq_false_iff {wallet : DumpWallet env} :
    wallet.haveKey keyid = false ↔ wallet.mapKeys.lookup keyid = none := by
  rw [DumpWallet.haveKey, Option.isSome_eq_false_iff, Option.isNone_iff_eq_none]

theorem fGood_importBirth (h : (importBirth addKeyResult wallet s birth).fGood = true) : s.fGood = true := by
  cases hkey : wallet.mapKeys.lookup birth.2 with
  | none => rwa [importBirth_of_none hkey] at h
  | some key =>
    rw [importBirth_of_some hkey, importKey] at h
    split at h
    · exact h
    · split at h
      · cases h
      · cases h
      · exact h

theorem mem_map_append_singleton :
    keyid ∈ (births ++ [birth]).map Prod.snd ↔ keyid ∈ births.map Prod.snd ∨ keyid = birth.2 := by
  rw [List.map_append, List.mem_append, List.map_singleton, List.mem_singleton]

theorem forall_mem_append_singleton {p : ℤ × CKeyID → Prop} :
    (∀ birth' ∈ births ++ [birth], p birth') ↔ (∀ birth' ∈ births, p birth') ∧ p birth := by
  simp only [List.mem_append, List.mem_singleton, or_imp, forall_and, forall_eq]

/-- A birth without a key changes nothing. -/
theorem ReadBack.step_none (h : ReadBack addKeyResult wallet births s)
    (hkey : wallet.mapKeys.lookup birth.2 = none) : ReadBack addKeyResult wallet (births ++ [birth]) s := by
  have hnot : wallet.haveKey birth.2 ≠ true := by rw [haveKey_eq_false_iff.mpr hkey]; decide
  refine ⟨?_, fun hgood keyid ↦ ?_, fun hgood keyid ↦ ?_, fun hgood ↦ ?_⟩
  · rw [h.fGood_iff, forall_mem_append_singleton]
    exact (and_iff_left fun hhave ↦ absurd hhave hnot).symm
  · rw [h.mapKeys hgood]
    by_cases heq : keyid = birth.2
    · rw [heq, hkey, ite_self, ite_self]
    · simp only [mem_map_append_singleton, heq, or_false]
  · rw [h.mapAddressBook hgood]
    by_cases heq : keyid = birth.2
    · rw [heq, if_neg fun hand ↦ hnot hand.2, if_neg fun hand ↦ hnot hand.2]
    · simp only [mem_map_append_singleton, heq, or_false]
  · exact forall_mem_append_singleton.mpr ⟨h.nTimeBegin hgood, fun hhave ↦ absurd hhave hnot⟩

/-- What went wrong once stays so. -/
theorem ReadBack.of_not_good {s' : ImportState env} (hgood : s'.fGood = false)
    (hbad : ∃ birth ∈ births, wallet.haveKey birth.2 = true ∧ addKeyResult birth.2 ≠ .added) :
    ReadBack addKeyResult wallet births s' := by
  have hnot : s'.fGood ≠ true := by rw [hgood]; decide
  refine ⟨iff_of_false hnot fun hall ↦ ?_, fun h ↦ absurd h hnot, fun h ↦ absurd h hnot, fun h ↦ absurd h hnot⟩
  obtain ⟨birth, hmem, hhave, hresult⟩ := hbad
  exact hresult (hall birth hmem hhave)

/-- The label of a new key. -/
theorem labelled_eq {book : CTxDestination → Option (List UInt8)} (h : book (.keyID keyid) = none) :
    (if (labelOf wallet keyid).2 then Function.update book (.keyID keyid) (some (labelOf wallet keyid).1)
      else book) (.keyID keyid) = wallet.mapAddressBook (.keyID keyid) := by
  cases hlabel : wallet.mapAddressBook (.keyID keyid) with
  | none =>
    have hnone : labelOf wallet keyid = ([], false) := by rw [labelOf, hlabel]
    rw [hnone]
    exact h
  | some label =>
    have hsome : labelOf wallet keyid = (label, true) := by rw [labelOf, hlabel]
    rw [hsome]
    exact Function.update_self _ _ _

/-- A key that is added takes its place. -/
theorem ReadBack.step_added (h : ReadBack addKeyResult wallet births s) (hgood : s.fGood = true)
    (hkey : wallet.mapKeys.lookup birth.2 = some key) (hadded : addKeyResult birth.2 = .added)
    (hnew : birth.2 ∉ births.map Prod.snd) :
    ReadBack addKeyResult wallet (births ++ [birth]) (s.keyAdded
      (s.wallet.addKey birth.2 key (wallet.keyID_mapKeys birth.2 key hkey)) birth.2
      (env.decodeDumpTime (env.encodeDumpTime birth.1)) (labelOf wallet birth.2)) := by
  have hhave : wallet.haveKey birth.2 = true := by rw [DumpWallet.haveKey, hkey]; rfl
  refine ⟨iff_of_true hgood ?_, fun _ keyid ↦ ?_, fun _ keyid ↦ ?_, fun _ ↦ ?_⟩
  · exact forall_mem_append_singleton.mpr ⟨h.fGood_iff.mp hgood, fun _ ↦ hadded⟩
  · change (s.wallet.mapKeys.insert birth.2 key).lookup keyid = _
    by_cases heq : keyid = birth.2
    · rw [heq, AList.lookup_insert, if_pos (mem_map_append_singleton.mpr (.inr rfl)), hkey]
    · rw [AList.lookup_insert_ne heq, h.mapKeys hgood]
      simp only [mem_map_append_singleton, heq, or_false]
  · have hold := h.mapAddressBook hgood keyid
    change (if (labelOf wallet birth.2).2 then Function.update s.wallet.mapAddressBook (.keyID birth.2)
      (some (labelOf wallet birth.2).1) else s.wallet.mapAddressBook) (.keyID keyid) = _
    by_cases heq : keyid = birth.2
    · subst heq
      rw [if_neg fun hand ↦ hnew hand.1] at hold
      have hin : birth.2 ∈ (births ++ [birth]).map Prod.snd ∧ wallet.haveKey birth.2 = true :=
        ⟨mem_map_append_singleton.mpr (.inr rfl), hhave⟩
      exact (labelled_eq hold).trans (if_pos hin).symm
    · have hother : (CTxDestination.keyID keyid) ≠ .keyID birth.2 := fun h ↦ heq (CTxDestination.keyID.inj h)
      simp only [mem_map_append_singleton, heq, or_false, ← hold]
      split
      · exact Function.update_of_ne hother _ _
      · rfl
  · refine forall_mem_append_singleton.mpr ⟨fun birth' hmem hhave' ↦ ?_, fun _ ↦ min_le_right _ _⟩
    exact (min_le_left _ _).trans (h.nTimeBegin hgood birth' hmem hhave')

theorem ReadBack.step (h : ReadBack addKeyResult wallet births s) (hnew : birth.2 ∉ births.map Prod.snd) :
    ReadBack addKeyResult wallet (births ++ [birth]) (importBirth addKeyResult wallet s birth) := by
  cases hkey : wallet.mapKeys.lookup birth.2 with
  | none =>
    rw [importBirth_of_none hkey]
    exact h.step_none hkey
  | some key =>
    have hhave : wallet.haveKey birth.2 = true := by rw [DumpWallet.haveKey, hkey]; rfl
    cases hgood : s.fGood with
    | false =>
      have hbad : ¬ ∀ birth ∈ births, wallet.haveKey birth.2 = true → addKeyResult birth.2 = .added := by
        rw [← h.fGood_iff, hgood]
        exact Bool.false_ne_true
      push Not at hbad
      obtain ⟨birth', hmem, hresult⟩ := hbad
      refine .of_not_good ?_ ⟨birth', List.mem_append_left _ hmem, hresult⟩
      rw [← Bool.not_eq_true]
      exact fun h ↦ absurd (fGood_importBirth h) (by rw [hgood]; decide)
    | true =>
      have hfresh : s.wallet.haveKey birth.2 = false := by
        rw [haveKey_eq_false_iff, h.mapKeys hgood, if_neg hnew]
      have hlast : birth ∈ births ++ [birth] := List.mem_append_right _ List.mem_cons_self
      rw [importBirth_of_some hkey, importKey, hfresh, if_neg Bool.false_ne_true]
      cases hresult : addKeyResult birth.2 with
      | refused => exact .of_not_good rfl ⟨birth, hlast, hhave, by rw [hresult]; decide⟩
      | unwritten => exact .of_not_good rfl ⟨birth, hlast, hhave, by rw [hresult]; decide⟩
      | added => exact h.step_added hgood hkey hresult hnew

theorem ReadBack.run {done : List (ℤ × CKeyID)} (h : ReadBack addKeyResult wallet done s)
    (hnodup : ((done ++ births).map Prod.snd).Nodup) :
    ReadBack addKeyResult wallet (done ++ births) (births.foldl (importBirth addKeyResult wallet) s) := by
  induction births generalizing done s with
  | nil => rwa [List.append_nil]
  | cons birth births ih =>
    have hnew : birth.2 ∉ done.map Prod.snd := by
      rw [List.map_append, List.map_cons] at hnodup
      exact fun hmem ↦ (List.disjoint_of_nodup_append hnodup) hmem List.mem_cons_self
    rw [← List.singleton_append, ← List.append_assoc] at hnodup ⊢
    exact ih (h.step hnew) hnodup

end Run

theorem nodup_sortBirths {mapKeyBirth : List (CKeyID × ℤ)} (h : (mapKeyBirth.map Prod.fst).Nodup) :
    ((sortBirths mapKeyBirth).map Prod.snd).Nodup := by
  have hperm := (List.mergeSort_perm (mapKeyBirth.map fun birth ↦ (birth.2, birth.1)) fun birth birth' ↦
    decide (birth.1 < birth'.1 ∨ birth.1 = birth'.1 ∧ birth.2 ≤ birth'.2)).map Prod.snd
  rw [List.map_map] at hperm
  exact hperm.nodup_iff.mpr h

theorem mem_sortBirths {mapKeyBirth : List (CKeyID × ℤ)} {birth : ℤ × CKeyID} :
    birth ∈ sortBirths mapKeyBirth ↔ (birth.2, birth.1) ∈ mapKeyBirth := by
  rw [sortBirths, List.mem_mergeSort, List.mem_map]
  constructor
  · rintro ⟨birth', hmem, rfl⟩
    exact hmem
  · exact fun hmem ↦ ⟨_, hmem, rfl⟩

theorem DumpWallet.nodup_creationTimes (wallet : DumpWallet env) : (wallet.creationTimes.map Prod.fst).Nodup := by
  rw [DumpWallet.creationTimes, List.map_map]
  exact wallet.mapKeyMetadata.nodupKeys

/-- No keys, and no labels. -/
structure DumpWallet.IsEmpty (wallet : DumpWallet env) : Prop where
  mapKeys : ∀ keyid, wallet.mapKeys.lookup keyid = none
  mapAddressBook : ∀ dest, wallet.mapAddressBook dest = none

variable {target : DumpWallet env} {header : List CommentLine} {st st' : NodeState} {last : Option PIndex}
  {file : List UInt8} {addKeyResult : CKeyID → AddKeyResult} {mapKeyBirth : List (CKeyID × ℤ)}

theorem nTimeFirstKey_importBirth {s : ImportState env} {birth : ℤ × CKeyID} :
    (importBirth addKeyResult wallet s birth).wallet.nTimeFirstKey = s.wallet.nTimeFirstKey := by
  cases hkey : wallet.mapKeys.lookup birth.2 with
  | none => rw [importBirth_of_none hkey]
  | some key =>
    rw [importBirth_of_some hkey, importKey]
    split
    · rfl
    · split <;> rfl

theorem nTimeFirstKey_foldl {births : List (ℤ × CKeyID)} {s : ImportState env} :
    (births.foldl (importBirth addKeyResult wallet) s).wallet.nTimeFirstKey = s.wallet.nTimeFirstKey := by
  induction births generalizing s with
  | nil => rfl
  | cons birth births ih => exact ih.trans nTimeFirstKey_importBirth

/-- What is read from a dump into an empty wallet. -/
theorem readBack_dumpwallet (addKeyResult : CKeyID → AddKeyResult) (st' : NodeState)
    (htime : ∀ nTime, IsToken (env.encodeDumpTime nTime))
    (hdump : dumpwallet wallet header st last = .ok file) (hempty : target.IsEmpty) :
    ∃ mapKeyBirth s, wallet.birthTimes st last = some mapKeyBirth ∧
      (file.splitOn 10).foldlM (importLine addKeyResult) ⟨target, st'.pindexBest.nTime, true⟩ = some s ∧
      ReadBack addKeyResult wallet (sortBirths mapKeyBirth) s ∧ s.wallet.nTimeFirstKey = target.nTimeFirstKey := by
  let s₀ : ImportState env := ⟨target, st'.pindexBest.nTime, true⟩
  obtain ⟨mapKeyBirth, hbirths, hread⟩ : ∃ mapKeyBirth, wallet.birthTimes st last = some mapKeyBirth ∧
      (file.splitOn 10).foldlM (importLine addKeyResult) s₀ =
        some ((sortBirths mapKeyBirth).foldl (importBirth addKeyResult wallet) s₀) :=
    foldlM_dumpwallet htime hdump
  have hstart : ReadBack addKeyResult wallet [] ⟨target, st'.pindexBest.nTime, true⟩ := by
    refine ⟨iff_of_true rfl fun _ h ↦ absurd h List.not_mem_nil, fun _ keyid ↦ ?_, fun _ keyid ↦ ?_, fun _ _ h ↦
      absurd h List.not_mem_nil⟩
    · exact hempty.mapKeys keyid
    · exact (hempty.mapAddressBook _).trans (if_neg fun hand ↦ List.not_mem_nil hand.1).symm
  have hnodup := nodup_sortBirths (nodup_getKeyBirthTimes hbirths wallet.nodup_creationTimes
    wallet.mapKeys.nodupKeys)
  exact ⟨mapKeyBirth, _, hbirths, hread, hstart.run hnodup, nTimeFirstKey_foldl⟩

/-- Every key of the wallet is among the births. -/
theorem mem_births (hbirths : wallet.birthTimes st last = some mapKeyBirth)
    (hhave : wallet.haveKey keyid = true) : keyid ∈ (sortBirths mapKeyBirth).map Prod.snd := by
  have hmem : keyid ∈ wallet.mapKeys.keys := AList.mem_keys.mp (AList.lookup_isSome.mp hhave)
  obtain ⟨nTime, hbirth⟩ := mem_getKeyBirthTimes hbirths hmem
  exact List.mem_map.mpr ⟨(nTime, keyid), mem_sortBirths.mpr hbirth, rfl⟩

/-- A string comes back from its dump.  A dump that is read into an empty wallet is read to its end, and the
call succeeds if and only if every key can be added.  Then the wallet has the same keys, and the same
labels for the keys in the address book and no labels for the others. -/
theorem importwallet_dumpwallet (htime : ∀ nTime, IsToken (env.encodeDumpTime nTime))
    (hdump : dumpwallet wallet header st last = .ok file) (hempty : target.IsEmpty) :
    (∀ str, decodeDumpString (encodeDumpString str) = str) ∧
    ∃ imported, importwallet addKeyResult st' target file = some imported ∧
      (imported.fGood = true ↔ ∀ keyid, wallet.haveKey keyid = true → addKeyResult keyid = .added) ∧
      (imported.fGood = true →
        (∀ keyid, imported.wallet.mapKeys.lookup keyid = wallet.mapKeys.lookup keyid) ∧
        ∀ keyid, imported.wallet.mapAddressBook (.keyID keyid) =
          if wallet.haveKey keyid = true then wallet.mapAddressBook (.keyID keyid) else none) := by
  obtain ⟨mapKeyBirth, s, hbirths, hread, hback, -⟩ := readBack_dumpwallet addKeyResult st' htime hdump hempty
  refine ⟨decodeDumpString_encodeDumpString, _, by rw [importwallet, hread]; rfl, ?_, fun hgood ↦ ⟨?_, ?_⟩⟩
  · rw [hback.fGood_iff]
    constructor
    · intro hall keyid hhave
      obtain ⟨birth, hmem, rfl⟩ := List.mem_map.mp (mem_births hbirths hhave)
      exact hall birth hmem hhave
    · exact fun hall birth _ hhave ↦ hall birth.2 hhave
  · intro keyid
    refine (hback.mapKeys hgood keyid).trans ?_
    cases hhave : wallet.haveKey keyid with
    | true => exact if_pos (mem_births hbirths hhave)
    | false => rw [haveKey_eq_false_iff.mp hhave, ite_self]
  · intro keyid
    refine (hback.mapAddressBook hgood keyid).trans ?_
    cases hhave : wallet.haveKey keyid with
    | true => rw [if_pos ⟨mem_births hbirths hhave, rfl⟩, if_pos rfl]
    | false => rw [if_neg fun hand ↦ Bool.false_ne_true hand.2, if_neg Bool.false_ne_true]

namespace DumpExample

open Builders

/-- A key is named by its first byte, and all times have one text. -/
def dumpEnv : DumpEnv where
  owner := ⟨network true, fun _ ↦ 0, fun _ ↦ 0⟩
  fTestNet := true
  hash := fun _ ↦ 0
  keyID := fun key ↦ some (BitVec.ofNat 160 (key.vchSecret.headD 0).toNat)
  encodeDumpTime := fun _ ↦ ofString "2018-01-01T00:00:00Z"
  decodeDumpTime := fun _ ↦ 1514764800

def oneKey : SecretKey := ⟨List.replicate 32 1, true, List.length_replicate⟩

def reserveKey : SecretKey := ⟨List.replicate 32 2, true, List.length_replicate⟩

def changeKey : SecretKey := ⟨List.replicate 32 3, false, List.length_replicate⟩

/-- A label with a blank, a percent sign, a comment mark and the mark of a reserve key. -/
def label : List UInt8 := ofString "100% mine # reserve=1"

def emptyWallet : DumpWallet dumpEnv where
  mapKeys := ∅
  keyID_mapKeys := fun _ _ h ↦ nomatch h
  mapScripts := ∅
  mapKeyMetadata := ∅
  mapWallet := []
  mapAddressBook := fun _ ↦ none
  setKeyPool := []
  nTimeFirstKey := 0

/-- One key is in the address book, one in the key pool and one in neither. -/
def labelledWallet : DumpWallet dumpEnv :=
  { ((emptyWallet.addKey 1 oneKey rfl).addKey 2 reserveKey rfl).addKey 3 changeKey rfl with
    mapKeyMetadata := ((AList.singleton 1 1514764800).insert 2 1514764800).insert 3 1514764800
    mapAddressBook := fun dest ↦ if dest = .keyID 1 then some label else none
    setKeyPool := [some 2] }

def node : NodeState := nodeAt (quietIndex (network true) 2) (txdbOf [])

theorem isToken_encodeDumpTime (nTime : ℤ) : IsToken (dumpEnv.encodeDumpTime nTime) := by
  change IsToken (ofString "2018-01-01T00:00:00Z")
  unfold IsToken
  decide

theorem exists_file : ∃ file, dumpwallet labelledWallet [] node none = .ok file := ⟨_, rfl⟩

/-- All keys come back, and the label does. -/
theorem import_labelled : ∃ file imported, dumpwallet labelledWallet [] node none = .ok file ∧
    importwallet (fun _ ↦ .added) node emptyWallet file = some imported ∧
    imported.wallet.mapKeys.lookup 1 = some oneKey ∧ imported.wallet.mapKeys.lookup 2 = some reserveKey ∧
    imported.wallet.mapKeys.lookup 3 = some changeKey ∧
    imported.wallet.mapAddressBook (.keyID 1) = some label ∧
    imported.wallet.mapAddressBook (.keyID 2) = none ∧ imported.wallet.mapAddressBook (.keyID 3) = none := by
  obtain ⟨file, hfile⟩ := exists_file
  obtain ⟨-, imported, himport, hgood, hsame⟩ := @importwallet_dumpwallet _ _ emptyWallet _ _ node _ _
    (fun _ ↦ .added) isToken_encodeDumpTime hfile ⟨fun _ ↦ rfl, fun _ ↦ rfl⟩
  obtain ⟨hkeys, hlabels⟩ := hsame (hgood.mpr fun _ _ ↦ rfl)
  exact ⟨file, imported, hfile, himport, hkeys 1, hkeys 2, hkeys 3, hlabels 1, hlabels 2, hlabels 3⟩

end DumpExample

end Electra.Wallet
