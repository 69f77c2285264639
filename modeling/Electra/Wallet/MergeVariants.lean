import Electra.Wallet.SignRawTransaction

/-!
# Merging the versions of a transaction

The loop over the inputs of the first version reads every version at the index of an input whose previous
output is known.  A version with fewer inputs is read past its end.
-/

namespace Electra.Wallet

open Chain Net Script Text Foundations.Outcome

/-- A transaction apart from the scripts of its inputs. -/
def withoutScripts (tx : CTransaction) : CTransaction :=
  { tx with vin := tx.vin.map fun txin ↦ { txin with scriptSig := [] } }

theorem withoutScripts_setScriptSig (tx : CTransaction) (nIn : ℕ) (scriptSig : CScript) :
    withoutScripts (setScriptSig tx nIn scriptSig) = withoutScripts tx := by
  have hvin : (tx.vin.modify nIn fun txin ↦ { txin with scriptSig }).map
      (fun txin ↦ { txin with scriptSig := [] }) = tx.vin.map fun txin ↦ { txin with scriptSig := [] } := by
    apply List.ext_getElem?
    intro i
    rw [List.getElem?_map, List.getElem?_map, List.getElem?_modify]
    cases tx.vin[i]? with
    | none => rfl
    | some txin => split_ifs <;> rfl
  unfold withoutScripts setScriptSig
  simp only [hvin]

theorem length_of_withoutScripts {tx tx' : CTransaction} (h : withoutScripts tx = withoutScripts tx') :
    tx.vin.length = tx'.vin.length := by
  have hvin := congrArg (List.length ∘ CTransaction.vin) h
  simpa [withoutScripts] using hvin

theorem prevout_of_withoutScripts {tx tx' : CTransaction} (h : withoutScripts tx = withoutScripts tx')
    {i : ℕ} {txin txin' : CTxIn} (hi : tx.vin[i]? = some txin) (hi' : tx'.vin[i]? = some txin') :
    txin.prevout = txin'.prevout := by
  have hvin := congrArg (fun t : CTransaction ↦ t.vin[i]?.map CTxIn.prevout) h
  simpa [withoutScripts, hi, hi'] using hvin

variable {Key : Type} {env : RawEnv Key} {wallet : RpcWallet Key} {call : RawCall Key} {params : List Value}

/-- Signing an input changes its script only, and takes an index in range. -/
theorem signSignature_spec {keystore : SigningStore Key} {fromPubKey : CScript} {txTo : CTransaction}
    {nIn : ℕ} {nHashType : BitVec 32} :
    (nIn < txTo.vin.length → ∃ signed, keystore.signSignature env.toSignEnv fromPubKey txTo nIn nHashType =
      some signed) ∧
    ∀ signed, keystore.signSignature env.toSignEnv fromPubKey txTo nIn nHashType = some signed →
      withoutScripts signed.2 = withoutScripts txTo := by
  unfold SigningStore.signSignature
  by_cases hnIn : txTo.vin.length ≤ nIn
  · rw [if_pos hnIn]
    exact ⟨fun h ↦ absurd hnIn (not_le.mpr h), nofun⟩
  · rw [if_neg hnIn]
    simp only
    split_ifs
    all_goals
      refine ⟨fun _ ↦ ⟨_, rfl⟩, fun signed hsigned ↦ ?_⟩
      obtain rfl := Option.some.inj hsigned
      simp only [withoutScripts_setScriptSig]

/-- Every version has an input at the index. -/
def Reaches (call : RawCall Key) (i : ℕ) : Prop := ∀ txv ∈ call.txVariants, i < txv.vin.length

theorem foldlM_mergeVariant {prevPubKey : CScript} {i : ℕ} {txVariants : List CTransaction}
    {mergedTx : CTransaction} (hi : i < mergedTx.vin.length) :
    ((∀ txv ∈ txVariants, i < txv.vin.length) → ∃ merged,
      txVariants.foldlM (mergeVariant env prevPubKey i) mergedTx = .ok merged ∧
        withoutScripts merged = withoutScripts mergedTx) ∧
    ((∃ txv ∈ txVariants, txv.vin.length ≤ i) →
      txVariants.foldlM (mergeVariant env prevPubKey i) mergedTx = .error .outOfRange) := by
  induction txVariants generalizing mergedTx with
  | nil => exact ⟨fun _ ↦ ⟨mergedTx, rfl, rfl⟩, fun ⟨_, hmem, _⟩ ↦ absurd hmem List.not_mem_nil⟩
  | cons txv txVariants ih =>
    have htxin : mergedTx.vin[i]? = some mergedTx.vin[i] := List.getElem?_eq_getElem hi
    rw [List.foldlM_cons]
    by_cases hshort : txv.vin.length ≤ i
    · have hnone : txv.vin[i]? = none := List.getElem?_eq_none hshort
      have hturn : mergeVariant env prevPubKey i mergedTx txv = .error .outOfRange := by
        rw [mergeVariant, htxin, hnone]
        rfl
      rw [hturn]
      exact ⟨fun hall ↦ absurd (hall txv List.mem_cons_self) (not_lt.mpr hshort), fun _ ↦ rfl⟩
    · have htheirs : txv.vin[i]? = some txv.vin[i] := List.getElem?_eq_getElem (not_le.mp hshort)
      obtain ⟨scriptSig, hturn⟩ : ∃ scriptSig, mergeVariant env prevPubKey i mergedTx txv =
          .ok (setScriptSig mergedTx i scriptSig) := by
        rw [mergeVariant, htxin, htheirs]
        exact ⟨_, rfl⟩
      have hsame := withoutScripts_setScriptSig mergedTx i scriptSig
      obtain ⟨hok, herror⟩ := ih (length_of_withoutScripts hsame ▸ hi)
      rw [hturn]
      constructor
      · intro hall
        obtain ⟨merged, hmerged, hkeeps⟩ := hok fun t ht ↦ hall t (List.mem_cons_of_mem _ ht)
        exact ⟨merged, hmerged, hkeeps.trans hsame⟩
      · rintro ⟨t, hmem, ht⟩
        rcases List.mem_cons.mp hmem with rfl | hrest
        · exact absurd ht hshort
        · exact herror ⟨t, hrest, ht⟩

theorem signWhere_spec {prevPubKey : CScript} {mergedTx : CTransaction} {i : ℕ}
    (hi : i < mergedTx.vin.length) : ∃ signed, signWhere env call prevPubKey mergedTx i = .ok signed ∧
      withoutScripts signed = withoutScripts mergedTx := by
  unfold signWhere
  split_ifs
  · obtain ⟨hsome, hsame⟩ := @signSignature_spec _ env call.keystore prevPubKey mergedTx i call.nHashType
    obtain ⟨signed, hsigned⟩ := hsome hi
    rw [hsigned]
    exact ⟨signed.2, rfl, hsame signed hsigned⟩
  · exact ⟨mergedTx, rfl, rfl⟩

/-- A turn of the loop succeeds unless it has to read a version past its end. -/
theorem signRawInput_spec {s : CTransaction × Bool} (hs : withoutScripts s.1 = withoutScripts call.first)
    {i : ℕ} {txin : CTxIn} (htxin : call.first.vin[i]? = some txin) :
    (((call.mapPrevOut txin.prevout).isSome → Reaches call i) → ∃ s',
      signRawInput env call s i = .ok s' ∧ withoutScripts s'.1 = withoutScripts call.first) ∧
    (¬ ((call.mapPrevOut txin.prevout).isSome → Reaches call i) →
      signRawInput env call s i = .error .outOfRange) := by
  have hi : i < s.1.vin.length := by
    rw [length_of_withoutScripts hs]
    exact (List.getElem?_eq_some_iff.mp htxin).1
  have hmine : s.1.vin[i]? = some s.1.vin[i] := List.getElem?_eq_getElem hi
  have hprevout := prevout_of_withoutScripts hs hmine htxin
  have hfirst : require s.1.vin[i]? RpcFailure.outOfRange = .ok s.1.vin[i] := by
    rw [hmine]
    rfl
  rw [signRawInput, hfirst, ok_bind, hprevout]
  cases hknown : call.mapPrevOut txin.prevout with
  | none =>
    refine ⟨fun _ ↦ ⟨(s.1, false), rfl, hs⟩, fun hnot ↦ absurd (fun h ↦ ?_) hnot⟩
    cases h
  | some prevPubKey =>
    have hcleared := withoutScripts_setScriptSig s.1 i []
    obtain ⟨signed, hsigned, hsame⟩ := @signWhere_spec _ env call prevPubKey _ i
      (length_of_withoutScripts hcleared ▸ hi)
    have hlength := length_of_withoutScripts (hsame.trans hcleared)
    obtain ⟨hok, herror⟩ := @foldlM_mergeVariant _ env prevPubKey i call.txVariants signed (hlength ▸ hi)
    simp only [hsigned]
    constructor
    · intro hreaches
      obtain ⟨merged, hmerged, hkeeps⟩ := hok (hreaches rfl)
      have hlast : i < merged.vin.length := by
        rw [length_of_withoutScripts hkeeps, hlength]
        exact hi
      refine ⟨(merged, s.2 && env.verifyScript merged.vin[i].scriptSig prevPubKey merged i 0), ?_,
        hkeeps.trans (hsame.trans (hcleared.trans hs))⟩
      show (call.txVariants.foldlM (mergeVariant env prevPubKey i) signed >>= _) = _
      rw [hmerged]
      show (require merged.vin[i]? RpcFailure.outOfRange >>= _) = _
      rw [List.getElem?_eq_getElem hlast]
      rfl
    · intro hnot
      have hshort : ∃ txv ∈ call.txVariants, txv.vin.length ≤ i := by
        by_contra hnone
        exact hnot fun _ txv hmem ↦ not_le.mp fun hle ↦ hnone ⟨txv, hmem, hle⟩
      show (call.txVariants.foldlM (mergeVariant env prevPubKey i) signed >>= _) = _
      rw [herror hshort]
      rfl

/-- Where a previous output is known, every version has an input at the index. -/
def AllReached (call : RawCall Key) : Prop :=
  ∀ i txin, call.first.vin[i]? = some txin → (call.mapPrevOut txin.prevout).isSome → Reaches call i

theorem signCall_spec :
    (AllReached call → ∃ s, signCall env call = .ok s ∧ withoutScripts s.1 = withoutScripts call.first) ∧
    (¬ AllReached call → signCall env call = .error .outOfRange) := by
  let nIn := call.first.vin.length
  -- the turns that are over, and what is left of the first version
  let Inv (pre : List ℕ) (s : CTransaction × Bool) : Prop :=
    withoutScripts s.1 = withoutScripts call.first ∧ ∀ i ∈ pre, ∀ txin, call.first.vin[i]? = some txin →
      (call.mapPrevOut txin.prevout).isSome → Reaches call i
  have hat {i : ℕ} (hi : i < nIn) : call.first.vin[i]? = some call.first.vin[i] := List.getElem?_eq_getElem hi
  have hstep : ∀ pre i post s s', List.range nIn = pre ++ i :: post → Inv pre s →
      signRawInput env call s i = .ok s' → Inv (pre ++ [i]) s' := by
    intro pre i post s s' hrange hinv hturn
    have hi : i < nIn := List.mem_range.mp (hrange ▸ List.mem_append_right pre List.mem_cons_self)
    obtain ⟨hok, herror⟩ := @signRawInput_spec _ env call _ hinv.1 i _ (hat hi)
    by_cases hreaches : (call.mapPrevOut call.first.vin[i].prevout).isSome → Reaches call i
    · obtain ⟨t, ht, hsame⟩ := hok hreaches
      obtain rfl := Except.ok.inj (ht.symm.trans hturn)
      refine ⟨hsame, fun j hj txin htxin ↦ ?_⟩
      rcases List.mem_append.mp hj with hpre | hlast
      · exact hinv.2 j hpre txin htxin
      · obtain rfl := List.mem_singleton.mp hlast
        obtain rfl := Option.some.inj ((hat hi).symm.trans htxin)
        exact hreaches
    · rw [herror hreaches] at hturn
      cases hturn
  have hinit : Inv [] (call.first, true) := ⟨rfl, fun _ h ↦ absurd h List.not_mem_nil⟩
  have hall {s : CTransaction × Bool} (hrun : signCall env call = .ok s) : Inv (List.range nIn) s :=
    foldlM_processed Inv hstep hinit hrun
  have hreached {s : CTransaction × Bool} (hrun : signCall env call = .ok s) : AllReached call :=
    fun i txin htxin ↦
      (hall hrun).2 i (List.mem_range.mpr (List.getElem?_eq_some_iff.mp htxin).1) txin htxin
  cases hrun : signCall env call with
  | ok s => exact ⟨fun _ ↦ ⟨s, rfl, (hall hrun).1⟩, fun hnot ↦ absurd (hreached hrun) hnot⟩
  | error reason =>
    obtain ⟨pre, i, post, t, hrange, hpre, hturn⟩ := foldlM_eq_error hrun
    have hi : i < nIn := List.mem_range.mp (hrange ▸ List.mem_append_right pre List.mem_cons_self)
    have hinv : Inv pre t := by
      apply foldlM_processed Inv _ hinit hpre
      intro pre' j post' s s' hsplit hinv' hturn'
      exact hstep pre' j (post' ++ i :: post) s s' (by rw [hrange, hsplit]; simp) hinv' hturn'
    obtain ⟨hok, herror⟩ := @signRawInput_spec _ env call _ hinv.1 i _ (hat hi)
    by_cases hreaches : (call.mapPrevOut call.first.vin[i].prevout).isSome → Reaches call i
    · obtain ⟨t', ht', _⟩ := hok hreaches
      rw [ht'] at hturn
      cases hturn
    · rw [herror hreaches] at hturn
      obtain rfl := Except.error.inj hturn
      exact ⟨fun hyes ↦ absurd (hyes i _ (hat hi)) hreaches, fun _ ↦ rfl⟩

/-- The previous output is in the chain or the memory pool, or is given in the call. -/
def Known (env : RawEnv Key) (params : List Value) (prevout : COutPoint) : Prop :=
  (fetchPrevOut env prevout).isSome ∨ ∃ values, prevTxs params = .ok values ∧
    ∃ p ∈ values, ∃ scriptPubKey, parsePrevOut p = .ok (prevout, scriptPubKey)

variable {mapPrevOut : MapPrevOut}

theorem isSome_addFetched {txin : CTxIn} {prevout : COutPoint} :
    (addFetched env mapPrevOut txin prevout).isSome ↔
      (mapPrevOut prevout).isSome ∨ txin.prevout = prevout ∧ (fetchPrevOut env prevout).isSome := by
  unfold addFetched
  by_cases hsame : txin.prevout = prevout
  · subst hsame
    cases fetchPrevOut env txin.prevout with
    | none => simp
    | some scriptPubKey => simp
  · cases fetchPrevOut env txin.prevout with
    | none => simp [hsame]
    | some scriptPubKey => simp [hsame, Function.update_of_ne (Ne.symm hsame)]

theorem isSome_fetchPrevOuts {vin : List CTxIn} {prevout : COutPoint} :
    (fetchPrevOuts env vin prevout).isSome ↔
      ∃ txin ∈ vin, txin.prevout = prevout ∧ (fetchPrevOut env prevout).isSome := by
  unfold fetchPrevOuts
  induction vin using List.reverseRecOn with
  | nil => simp
  | append_singleton vin txin ih =>
    rw [List.foldl_concat, isSome_addFetched, ih]
    simp [or_and_right, exists_or]

theorem isSome_addPrevOut {mapPrevOut' : MapPrevOut} {p : Value}
    (h : addPrevOut env mapPrevOut p = .ok mapPrevOut') (prevout : COutPoint) :
    (mapPrevOut' prevout).isSome ↔
      (mapPrevOut prevout).isSome ∨ ∃ scriptPubKey, parsePrevOut p = .ok (prevout, scriptPubKey) := by
  obtain ⟨⟨outpoint, scriptPubKey⟩, hparse, hadd⟩ := bind_eq_ok.mp h
  have hgiven : (∃ script, parsePrevOut p = .ok (prevout, script)) ↔ prevout = outpoint := by
    rw [hparse]
    exact ⟨fun ⟨_, heq⟩ ↦ (Prod.mk.inj (Except.ok.inj heq)).1.symm, fun heq ↦ ⟨scriptPubKey, heq ▸ rfl⟩⟩
  rw [hgiven]
  simp only at hadd
  cases hknown : mapPrevOut outpoint with
  | none =>
    rw [hknown] at hadd
    obtain rfl := Except.ok.inj hadd
    by_cases hsame : prevout = outpoint
    · subst hsame
      simp
    · rw [Function.update_of_ne hsame]
      simp [hsame]
  | some known =>
    rw [hknown] at hadd
    obtain ⟨_, _, hadd⟩ := bind_eq_ok.mp hadd
    obtain rfl := Except.ok.inj hadd
    by_cases hsame : prevout = outpoint
    · subst hsame
      simp [hknown]
    · simp [hsame]

theorem isSome_foldlM_addPrevOut {values : List Value} {mapPrevOut' : MapPrevOut}
    (h : values.foldlM (addPrevOut env) mapPrevOut = .ok mapPrevOut') (prevout : COutPoint) :
    (mapPrevOut' prevout).isSome ↔ (mapPrevOut prevout).isSome ∨
      ∃ p ∈ values, ∃ scriptPubKey, parsePrevOut p = .ok (prevout, scriptPubKey) := by
  apply foldlM_processed (fun pre m ↦ (m prevout).isSome ↔ (mapPrevOut prevout).isSome ∨
    ∃ p ∈ pre, ∃ scriptPubKey, parsePrevOut p = .ok (prevout, scriptPubKey)) _ _ h
  · intro pre p post m m' _ hinv hadd
    rw [isSome_addPrevOut hadd, hinv]
    simp [or_and_right, exists_or, or_assoc]
  · simp

/-- What is known of a call that is prepared. -/
structure Prepared (env : RawEnv Key) (params : List Value) (call : RawCall Key) : Prop where
  decoded : ∃ str, params.head? = some (.str str) ∧
    decodeVariants env.sizes (parseHex str) = some call.txVariants
  known : ∀ txin ∈ call.first.vin, (call.mapPrevOut txin.prevout).isSome ↔ Known env params txin.prevout

theorem prepared_of_prepare (h : prepare env wallet params = .ok call) : Prepared env params call := by
  obtain ⟨_, hcount, h⟩ := bind_eq_ok.mp h
  obtain ⟨_, _, h⟩ := bind_eq_ok.mp h
  obtain ⟨str, hstr, h⟩ := bind_eq_ok.mp h
  obtain ⟨txVariants, hdecode, h⟩ := bind_eq_ok.mp h
  cases txVariants with
  | nil => cases h
  | cons first others =>
    obtain ⟨values, hvalues, h⟩ := bind_eq_ok.mp h
    obtain ⟨mapPrevOut, hfold, h⟩ := bind_eq_ok.mp h
    obtain ⟨keystore, _, h⟩ := bind_eq_ok.mp h
    obtain ⟨nHashType, _, h⟩ := bind_eq_ok.mp h
    obtain rfl := Except.ok.inj h
    constructor
    · refine ⟨str, ?_, require_eq_ok.mp hdecode⟩
      cases params with
      | nil => exact absurd (rejectIf_eq_ok.mp hcount) (by simp)
      | cons v params =>
        cases v
        all_goals
          first
          | (obtain rfl := Except.ok.inj hstr; rfl)
          | cases hstr
    · intro txin hmem
      rw [isSome_foldlM_addPrevOut hfold, isSome_fetchPrevOuts]
      unfold Known
      simp only [hvalues, Except.ok.injEq, exists_eq_left']
      exact or_congr_left ⟨fun ⟨_, _, _, h⟩ ↦ h, fun h ↦ ⟨txin, hmem, rfl, h⟩⟩

theorem inRange_parsePrevOut (p : Value) : InRange (parsePrevOut p) := by
  cases p with
  | obj prevOut =>
    refine (inRange_typeCheckFields _ _ _).bind fun _ ↦ ?_
    refine (inRange_getStr _).bind fun _ ↦ (inRange_rejectIf _ _ _).bind fun _ ↦ ?_
    refine (inRange_getInt _).bind fun _ ↦ (inRange_rejectIf _ _ _).bind fun _ ↦ ?_
    exact (inRange_getStr _).bind fun _ ↦ (inRange_rejectIf _ _ _).bind fun _ ↦ .ok _
  | array | str | bool | int | real | null => exact .jsonRpc _ _

theorem inRange_addPrevOut (mapPrevOut : MapPrevOut) (p : Value) : InRange (addPrevOut env mapPrevOut p) := by
  refine (inRange_parsePrevOut p).bind fun (outpoint, scriptPubKey) ↦ ?_
  simp only
  cases mapPrevOut outpoint with
  | none => exact .ok _
  | some known => exact (inRange_rejectIf _ _ _).bind fun _ ↦ .ok _

theorem inRange_prevTxs (params : List Value) : InRange (prevTxs params) := by
  unfold prevTxs
  cases optionalParam params 1 with
  | none => exact .ok []
  | some v => exact inRange_getArray v

theorem inRange_chooseKeystore (params : List Value) : InRange (chooseKeystore env wallet params) := by
  unfold chooseKeystore
  cases optionalParam params 2 with
  | none => exact (inRange_rejectIf _ _ _).bind fun _ ↦ (inRange_rejectIf _ _ _).bind fun _ ↦ .ok _
  | some v =>
    have hkey (k : Value) : InRange (parseKey env k) :=
      (inRange_getStr k).bind fun _ ↦ inRange_require _ _ _
    exact (inRange_getArray v).bind fun values ↦ (inRange_mapM hkey values).bind fun _ ↦ .ok _

theorem inRange_chooseHashType (params : List Value) : InRange (chooseHashType params) := by
  unfold chooseHashType
  cases optionalParam params 3 with
  | none => exact .ok _
  | some v => exact (inRange_getStr v).bind fun _ ↦ (inRange_require _ _ _).bind fun _ ↦ .ok _

theorem inRange_prepare : InRange (prepare env wallet params) := by
  have hcount : InRange (rejectIf (params.length < 1 ∨ params.length > 4)
      (.runtimeError "signrawtransaction")) := rejectIf_ne_error nofun
  refine hcount.bind fun _ ↦ (inRange_typeCheck _ _ _).bind fun _ ↦ ?_
  refine (inRange_getStr _).bind fun _ ↦ (inRange_require _ _ _).bind fun txVariants ↦ ?_
  cases txVariants with
  | nil => exact .jsonRpc _ _
  | cons first others =>
    refine (inRange_prevTxs params).bind fun values ↦ ?_
    have hfold : InRange (values.foldlM (addPrevOut env) (fetchPrevOuts env first.vin)) :=
      foldlM_ne_error fun p _ mapPrevOut ↦ inRange_addPrevOut mapPrevOut p
    refine hfold.bind fun _ ↦ (inRange_chooseKeystore params).bind fun _ ↦ ?_
    exact (inRange_chooseHashType params).bind fun _ ↦ .ok _

/-- No version and no previous transaction is read past its end, and a call that succeeds returns the first
version with other scripts, if and only if every version has an input wherever the first one has an
input whose previous output is known. -/
theorem signrawtransaction_iff (env : RawEnv Key) (wallet : RpcWallet Key) (params : List Value) :
    (signrawtransaction env wallet params ≠ .error .outOfRange ∧
      ∀ hex fComplete, signrawtransaction env wallet params = .ok (hex, fComplete) →
        ∃ str first others tx, params.head? = some (.str str) ∧
          decodeVariants env.sizes (parseHex str) = some (first :: others) ∧
          parseHex hex = writeTx tx ∧ withoutScripts tx = withoutScripts first) ↔
    ∀ call, prepare env wallet params = .ok call → ∀ i txin, call.first.vin[i]? = some txin →
      Known env params txin.prevout → ∀ txv ∈ call.others, i < txv.vin.length := by
  have hreached {call : RawCall Key} (hprepare : prepare env wallet params = .ok call) :
      AllReached call ↔ ∀ i txin, call.first.vin[i]? = some txin → Known env params txin.prevout →
        ∀ txv ∈ call.others, i < txv.vin.length := by
    have hprepared := prepared_of_prepare hprepare
    constructor
    · intro hall i txin htxin hknown txv hmem
      exact hall i txin htxin ((hprepared.known txin (List.mem_of_getElem? htxin)).mpr hknown) txv
        (List.mem_cons_of_mem _ hmem)
    · intro hall i txin htxin hsome txv hmem
      have hknown := (hprepared.known txin (List.mem_of_getElem? htxin)).mp hsome
      rcases List.mem_cons.mp hmem with rfl | hother
      · exact (List.getElem?_eq_some_iff.mp htxin).1
      · exact hall i txin htxin hknown txv hother
  unfold signrawtransaction
  cases hprepare : prepare env wallet params with
  | error reason =>
    rw [error_bind]
    refine iff_of_true ⟨fun hbad ↦ ?_, fun _ _ hok ↦ by cases hok⟩ fun _ hok ↦ by cases hok
    exact inRange_prepare (hprepare.trans (congrArg Except.error (Except.error.inj hbad)))
  | ok call =>
    rw [ok_bind]
    obtain ⟨hok, herror⟩ := @signCall_spec _ env call
    have hcall : (∀ call', (Except.ok call : Except RpcFailure (RawCall Key)) = .ok call' → ∀ i txin,
        call'.first.vin[i]? = some txin → Known env params txin.prevout →
          ∀ txv ∈ call'.others, i < txv.vin.length) ↔ AllReached call := by
      rw [hreached hprepare]
      exact ⟨fun hall ↦ hall call rfl, fun hall call' hsame ↦ Except.ok.inj hsame ▸ hall⟩
    rw [hcall]
    constructor
    · intro hsafe
      by_contra hnot
      apply hsafe.1
      show (signCall env call >>= _) = _
      rw [herror hnot]
      rfl
    · intro hall
      obtain ⟨⟨merged, fComplete⟩, hsigned, hsame⟩ := hok hall
      rw [hsigned, ok_bind]
      refine ⟨fun hbad ↦ ?_, fun hex fComplete' hgot ↦ ?_⟩
      · cases hbad
      · obtain ⟨rfl, -⟩ := Prod.mk.inj (Except.ok.inj hgot)
        obtain ⟨str, hstr, hdecoded⟩ := (prepared_of_prepare hprepare).decoded
        exact ⟨str, call.first, call.others, merged, hstr, hdecoded, parseHex_hexStr _, hsame⟩

namespace VariantsExample

open Builders

/-- An output that anyone can spend, in the memory pool. -/
def funding : CTransaction := ⟨5, 0, [], [⟨1, [OP_1]⟩], 0⟩

def rawEnv : RawEnv Unit where
  P := network true
  digests := oneKey
  signHash _ := 0
  getPubKey _ := theKey
  sign _ _ := none
  verify _ _ _ := false
  sizes := Net.elementSizes64
  files := filesOf []
  node := { nodeAt [] (txdbOf []) with mempool := CTxMemPool.empty.addUnchecked 5 funding }
  keyOfSecret _ := none
  scriptToString _ := ""
  eval := LeftStack.ofEval _

def rawWallet : RpcWallet Unit where
  keystore := ⟨⟨∅, ∅⟩, fun _ ↦ none, fun _ ↦ none⟩
  isLocked := false
  fWalletUnlockStakingOnly := false

/-- A version that spends the output, and one without inputs. -/
def twoVersions : List UInt8 :=
  hexStr (writeTx ⟨1, 0, [⟨⟨5, 0⟩, [], 0⟩], [], 0⟩ ++ writeTx ⟨1, 0, [], [], 0⟩)

theorem signrawtransaction_twoVersions :
    (match signrawtransaction rawEnv rawWallet [.str twoVersions] with
      | .error reason => decide (reason = .outOfRange)
      | .ok _ => false) = true := by
  decide +kernel

/-- The second version is read at an index that it does not have. -/
theorem not_inRange : ¬ ∀ (Key : Type) (env : RawEnv Key) (wallet : RpcWallet Key) (params : List Value),
    signrawtransaction env wallet params ≠ .error .outOfRange := by
  intro hall
  have hresult := signrawtransaction_twoVersions
  have hsafe := hall Unit rawEnv rawWallet [.str twoVersions]
  split at hresult
  · next reason heq => exact hsafe (heq.trans (congrArg Except.error (of_decide_eq_true hresult)))
  · cases hresult

end VariantsExample

end Electra.Wallet
