import Electra.Script.MergeSignatures

/-!
# A combined script is valid

For a type with one signature the merge keeps one of the two stacks whole, and it keeps the valid one
exactly if its rule prefers that.  A multisignature script gets enough of the signatures of both.
Pay-to-script-hash merges below the redeem script of the first stack.
-/

namespace Electra.Script

open Chain Foundations.StackMachine

variable {C : Crypto}

variable {script scriptPubKey : CScript} {parts : List Valtype} {rest sigs1 sigs2 valid : Stack}

theorem solver_multisig (h : solver script .nonstandard [] = (true, .multisig, parts)) :
    ∃ m keys n, MultisigShape script m keys n ∧ GoodCounts m keys n ∧
      parts = multisigParts m keys n := by
  unfold solver at h
  split_ifs at h with hp2sh
  · cases h
  · simp only [mTemplates, scanTemplates] at h
    split at h
    · cases h
    · split at h
      · cases h
      · split at h
        next out hmatch =>
          obtain ⟨m, keys, n, hshape, rfl⟩ := matchFrom_multisig_template_iff.mp hmatch
          rw [badCounts_multisigParts hshape.m_le hshape.n_le] at h
          refine ⟨m, keys, n, hshape, ?_, ?_⟩
          · simpa using congrArg Prod.fst h
          · exact (Prod.mk.inj (Prod.mk.inj h).2).2.symm
        · cases h

theorem solver_isPayToScriptHash (h : isPayToScriptHash script = true) :
    (solver script .nonstandard []).2.1 = .scripthash := by
  rw [solver, if_pos h]

/-- When the merge of two stacks for a script keeps what is valid about one of them.  What it yields
is pushed together with `suffix`. -/
inductive Mergeable (C : Crypto) (script : CScript) (sigs1 sigs2 valid : Stack)
    (suffix : List Valtype) : Prop
  | nonstandard {solved : Bool} {parts : List Valtype}
      (htype : solver script .nonstandard [] = (solved, .nonstandard, parts))
      (hkept : valid = if sigs1.length ≥ sigs2.length then sigs1 else sigs2)
      (hfits : (pushAll (valid.reverse ++ suffix)).length ≤ 10000)
  | single {solved : Bool} {txType : TxnOutType} {parts : List Valtype}
      (htype : solver script .nonstandard [] = (solved, txType, parts))
      (hsingle : txType = .pubkey ∨ txType = .pubkeyhash)
      (hkept : valid = if sigs1.getLastD [] = [] then sigs2 else sigs1)
      (hfits : (pushAll (valid.reverse ++ suffix)).length ≤ 10000)
  | multisig {parts : List Valtype}
      (htype : solver script .nonstandard [] = (true, .multisig, parts))
      (hgenuine : AllGenuine C script parts.tail.dropLast sigs1 sigs2)

/-- What the merge of two stacks yields, to be pushed together with `suffix`. -/
structure Merged (C : Crypto) (script result : CScript) (valid : Stack) (suffix : List Valtype)
    (values : List Valtype) : Prop where
  result_eq : result = pushAll values
  pushable : Pushable (values ++ suffix)
  length_le : values.length ≤ valid.length
  accepts : Accepts C values.reverse script

section Merge

variable {script : CScript} {sigs1 sigs2 valid : Stack} {suffix : List Valtype}

/-- A stack that is kept whole. -/
theorem merged_reverse (haccepts : Accepts C valid script) (hshort : AllShort valid)
    (hsuffix : AllShort suffix) (hcount : valid.length + suffix.length ≤ 1000)
    (hfits : (pushAll (valid.reverse ++ suffix)).length ≤ 10000) :
    Merged C script (pushAll valid.reverse) valid suffix valid.reverse where
  result_eq := rfl
  pushable := by
    refine ⟨?_, ?_, hfits⟩
    · exact List.forall_mem_append.mpr ⟨fun v hv ↦ hshort v (List.mem_reverse.mp hv), hsuffix⟩
    · rw [List.length_append, List.length_reverse]
      exact hcount
  length_le := List.length_reverse.le
  accepts := by
    rw [List.reverse_reverse]
    exact haccepts

theorem merged_multisig {m n : ℕ} {keys : List Instruction} (h : MultisigShape script m keys n)
    (hcounts : GoodCounts m keys n) (haccepts : Accepts C valid script)
    (hvalid : valid ⊆ sigs1 ++ sigs2) (hsuffix : AllShort suffix) (hone : suffix.length ≤ 1)
    (hgenuine : AllGenuine C script (keys.map Instruction.vch) sigs1 sigs2) :
    Merged C script (combineMultisig C script (multisigParts m keys n) sigs1 sigs2) valid suffix
      ([] :: mergedSigs C script (keys.map Instruction.vch) sigs1 sigs2 m) := by
  have hm := length_mergedSigs h hcounts haccepts hvalid hgenuine
  have hmatch := multisigMatch_mergedSigs h (haccepts.length_le) hgenuine
  obtain ⟨sigs, extra, rest, hstack, hsigs, _⟩ := accepts_multisig h hcounts haccepts
  have hsize : ∀ sig ∈ mergedSigs C script (keys.map Instruction.vch) sigs1 sigs2 m,
      sig.length ≤ 73 := by
    intro sig hsig
    obtain ⟨key, hkey, hsome⟩ := List.mem_filterMap.mp (List.mem_of_mem_take hsig)
    have hcanonical := (validSignature_iff.mp (sigOf_valid hgenuine hkey hsome).1).1
    exact (length_of_isCanonicalSignature hcanonical).2
  have hm_le := h.m_le
  have hequal : combineMultisig C script (multisigParts m keys n) sigs1 sigs2 = pushAll
      ([] :: mergedSigs C script (keys.map Instruction.vch) sigs1 sigs2 m) := combineMultisig_eq h hm
  generalize mergedSigs C script (keys.map Instruction.vch) sigs1 sigs2 m = merged
    at hm hmatch hsize hequal
  have hmerged : ∀ v ∈ [] :: merged, Short v ∧ v.length ≤ 73 := by
    rw [List.forall_mem_cons]
    exact ⟨⟨Nat.zero_le _, Nat.zero_le _⟩, fun v hv ↦ ⟨(hsize v hv).trans (by decide), hsize v hv⟩⟩
  have hlast : (pushAll suffix).length ≤ suffix.length * (520 + 3) :=
    length_pushAll_le fun v hv ↦ ⟨hsuffix v hv, hsuffix v hv⟩
  have hfirst : (pushAll ([] :: merged)).length ≤ ([] :: merged).length * (73 + 3) :=
    length_pushAll_le hmerged
  rw [List.length_cons, hm] at hfirst
  refine ⟨hequal, ⟨?_, ?_, ?_⟩, ?_, ?_⟩
  · exact List.forall_mem_append.mpr ⟨fun v hv ↦ (hmerged v hv).1, hsuffix⟩
  · rw [List.length_append, List.length_cons, hm]
    omega
  · rw [pushAll_append, List.length_append]
    omega
  · rw [hstack, List.length_append, List.length_cons, List.length_cons, hm, hsigs]
    omega
  · have hroom : (merged.reverse ++ [] :: []).length + (n + 2) ≤ 1000 := by
      have hn_le := h.n_le
      rw [List.length_append, List.length_reverse, hm, List.length_cons, List.length_nil]
      omega
    have heval : (evalScript C (merged.reverse ++ [] :: []) script).result = _ :=
      evalScript_multisig h hcounts haccepts.length_le (List.length_reverse.trans hm) hroom
    rw [List.reverse_cons]
    exact ⟨_, _, heval, (castToBool_ofBool _).trans hmatch⟩

theorem pubkeys_multisigParts (m n : ℕ) (keys : List Instruction) :
    (multisigParts m keys n).tail.dropLast = keys.map Instruction.vch := by
  rw [multisigParts, List.tail_cons, List.dropLast_concat]

/-- For the types other than pay-to-script-hash. -/
theorem merged_of_mergeable (hmerge : Mergeable C script sigs1 sigs2 valid suffix)
    (haccepts : Accepts C valid script) (hvalid : valid ⊆ sigs1 ++ sigs2) (hshort : AllShort valid)
    (hsuffix : AllShort suffix) (hone : suffix.length ≤ 1)
    (hcount : valid.length + suffix.length ≤ 1000) :
    ∃ values, Merged C script (combineStacks C script (solver script .nonstandard []).2.1
      (solver script .nonstandard []).2.2 sigs1 sigs2) valid suffix values := by
  cases hmerge with
  | nonstandard htype hkept hfits =>
    refine ⟨valid.reverse, ?_⟩
    have hresult : combineStacks C script (solver script .nonstandard []).2.1
        (solver script .nonstandard []).2.2 sigs1 sigs2 = pushAll valid.reverse := by
      rw [htype, hkept]
      unfold combineStacks
      split_ifs <;> rfl
    rw [hresult]
    exact merged_reverse haccepts hshort hsuffix hcount hfits
  | single htype hsingle hkept hfits =>
    refine ⟨valid.reverse, ?_⟩
    have hresult : combineStacks C script (solver script .nonstandard []).2.1
        (solver script .nonstandard []).2.2 sigs1 sigs2 = pushAll valid.reverse := by
      rw [htype, hkept]
      rcases hsingle with rfl | rfl
      all_goals
        unfold combineStacks
        simp only [List.isEmpty_iff]
        split_ifs <;> rfl
    rw [hresult]
    exact merged_reverse haccepts hshort hsuffix hcount hfits
  | multisig htype hgenuine =>
    obtain ⟨m, keys, n, hshape, hcounts, rfl⟩ := solver_multisig htype
    rw [pubkeys_multisigParts] at hgenuine
    have hresult : combineStacks C script (solver script .nonstandard []).2.1
        (solver script .nonstandard []).2.2 sigs1 sigs2 =
        combineMultisig C script (multisigParts m keys n) sigs1 sigs2 := by
      rw [htype]
      unfold combineStacks
      rfl
    rw [hresult]
    exact ⟨_, merged_multisig hshape hcounts haccepts hvalid hsuffix hone hgenuine⟩

end Merge

theorem accepts_scripthash_iff {hash vch : Valtype} (hhash : hash.length = 20) :
    Accepts C (vch :: rest) (OP_HASH160 :: 0x14 :: (hash ++ [OP_EQUAL])) ↔
      rest.length + 2 ≤ 1000 ∧ (C.hash160 vch).toList = hash := by
  unfold Accepts
  constructor
  · rintro ⟨top, below, heval, htrue⟩
    obtain ⟨hroom, hout⟩ := (evalScript_scripthash_iff hhash).mp heval
    rw [(List.cons.inj hout).1, castToBool_ofBool] at htrue
    exact ⟨hroom, beq_iff_eq.mp htrue⟩
  · rintro ⟨hroom, hsame⟩
    refine ⟨_, rest, (evalScript_scripthash_iff hhash).mpr ⟨hroom, rfl⟩, ?_⟩
    rw [castToBool_ofBool, hsame, beq_self_eq_true]

/-- When combining two scripts keeps the validity of the one that leaves `valid`. -/
inductive Combinable (C : Crypto) (scriptPubKey : CScript) (sigs1 sigs2 valid : Stack) : Prop
  | plain (hmerge : Mergeable C scriptPubKey sigs1 sigs2 valid [])
  | scripthash {redeem : Valtype} {rest : Stack}
      (hp2sh : isPayToScriptHash scriptPubKey = true)
      (hvalid : valid = redeem :: rest) (hredeem : redeem ≠ [])
      (hkept : sigs1.headD [] = [] ∨ sigs2.headD [] = [] → (pushAll valid.reverse).length ≤ 10000)
      (hinner : sigs1.headD [] ≠ [] → sigs2.headD [] ≠ [] →
        sigs1.headD [] = redeem ∧ Mergeable C redeem sigs1.tail sigs2.tail rest [redeem])

/-- Of two stacks one of which is valid, the one with the redeem script is kept where the other has
none. -/
theorem combineStacks_of_headD_eq_nil {redeem : Valtype} (hvalid : valid = redeem :: rest)
    (hredeem : redeem ≠ []) (hside : valid = sigs1 ∨ valid = sigs2)
    (hempty : sigs1.headD [] = [] ∨ sigs2.headD [] = []) :
    combineStacks C script .scripthash parts sigs1 sigs2 = pushAll valid.reverse := by
  have hhead : valid.headD [] ≠ [] := by
    rw [hvalid]
    exact hredeem
  cases sigs1 with
  | nil =>
    have hsecond : valid = sigs2 := hside.resolve_left fun h ↦ hhead (h ▸ rfl)
    unfold combineStacks
    rw [hsecond]
  | cons spk sigs1 =>
    unfold combineStacks
    simp only [List.isEmpty_iff]
    by_cases hspk : spk = []
    · have hsecond : valid = sigs2 := hside.resolve_left fun h ↦ hhead (by rw [h]; exact hspk)
      rw [if_pos hspk, hsecond]
    · have hother : sigs2.headD [] = [] := hempty.resolve_left hspk
      have hfirst : valid = spk :: sigs1 := hside.resolve_right fun h ↦ hhead (h ▸ hother)
      rw [if_neg hspk, if_pos hother, hfirst]

theorem combineStacks_of_headD_ne_nil (hfirst : sigs1.headD [] ≠ []) (hsecond : sigs2.headD [] ≠ []) :
    combineStacks C script .scripthash parts sigs1 sigs2 =
      pushBytes (combineStacks C (sigs1.headD []) (solver (sigs1.headD []) .nonstandard []).2.1
        (solver (sigs1.headD []) .nonstandard []).2.2 sigs1.tail sigs2.tail) (sigs1.headD []) := by
  cases sigs1 with
  | nil => exact absurd rfl hfirst
  | cons spk sigs1 =>
    conv_lhs => unfold combineStacks
    simp only [List.isEmpty_iff]
    rw [if_neg (show spk ≠ [] from hfirst), if_neg hsecond]
    rfl

theorem verifyScript_pushAll {values : List Valtype} (hpushable : Pushable values)
    (haccepts : Accepts C values.reverse scriptPubKey)
    (hredeem : isPayToScriptHash scriptPubKey = true →
      ∃ redeem rest, values.reverse = redeem :: rest ∧ Accepts C rest redeem) :
    (verifyScript C (pushAll values) scriptPubKey).result = .ok () :=
  verifyScript_eq_ok_iff.mpr ⟨_, hpushable.evalScript, haccepts,
    fun hp2sh ↦ ⟨hpushable.isPushOnly, hredeem hp2sh⟩⟩

theorem Mergeable.not_isPayToScriptHash {suffix : List Valtype}
    (h : Mergeable C script sigs1 sigs2 valid suffix) :
    ¬ isPayToScriptHash script = true := by
  intro hp2sh
  have hsolver := solver_isPayToScriptHash hp2sh
  cases h with
  | nonstandard htype _ _ =>
    rw [htype] at hsolver
    cases hsolver
  | single htype hsingle _ _ =>
    rw [htype] at hsolver
    obtain rfl := hsolver
    cases hsingle with
    | inl h => cases h
    | inr h => cases h
  | multisig htype _ =>
    rw [htype] at hsolver
    cases hsolver

theorem subset_append_of_side (h : valid = sigs1 ∨ valid = sigs2) :
    valid ⊆ sigs1 ++ sigs2 := by
  cases h with
  | inl hfirst => exact hfirst ▸ List.subset_append_left sigs1 sigs2
  | inr hsecond => exact hsecond ▸ List.subset_append_right sigs1 sigs2

/-- The merge below a redeem script. -/
theorem verifyScript_redeem {redeem : Valtype} (hp2sh : isPayToScriptHash scriptPubKey = true)
    (haccepts : Accepts C (redeem :: rest) scriptPubKey) (hredeem : Accepts C rest redeem)
    (hshort : AllShort (redeem :: rest)) (hsub : rest ⊆ sigs1 ++ sigs2)
    (hmerge : Mergeable C redeem sigs1 sigs2 rest [redeem]) :
    (verifyScript C (pushBytes (combineStacks C redeem (solver redeem .nonstandard []).2.1
      (solver redeem .nonstandard []).2.2 sigs1 sigs2) redeem) scriptPubKey).result = .ok () := by
  obtain ⟨hash, hhash, rfl⟩ := shape_of_isPayToScriptHash hp2sh
  obtain ⟨hroom, hsame⟩ := (accepts_scripthash_iff hhash).mp haccepts
  have hsuffix : AllShort [redeem] := List.forall_mem_singleton.mpr (hshort redeem List.mem_cons_self)
  obtain ⟨values, hmerged⟩ := merged_of_mergeable hmerge hredeem hsub
    (fun v hv ↦ hshort v (List.mem_cons_of_mem _ hv)) hsuffix le_rfl
    (by rw [List.length_singleton]; omega)
  have hreverse : (values ++ [redeem]).reverse = redeem :: values.reverse := by
    rw [List.reverse_append]
    rfl
  rw [hmerged.result_eq, pushBytes_pushAll]
  apply verifyScript_pushAll hmerged.pushable
  · rw [hreverse, accepts_scripthash_iff hhash, List.length_reverse]
    have hlength := hmerged.length_le
    exact ⟨by omega, hsame⟩
  · exact fun _ ↦ ⟨redeem, values.reverse, hreverse, hmerged.accepts⟩

theorem verifyScript_combineStacks (haccepts : Accepts C valid scriptPubKey)
    (hredeem : isPayToScriptHash scriptPubKey = true →
      ∃ redeem rest, valid = redeem :: rest ∧ Accepts C rest redeem) (hshort : AllShort valid)
    (hcount : valid.length ≤ 1000) (hside : valid = sigs1 ∨ valid = sigs2)
    (hcombinable : Combinable C scriptPubKey sigs1 sigs2 valid) :
    (verifyScript C (combineStacks C scriptPubKey (solver scriptPubKey .nonstandard []).2.1
      (solver scriptPubKey .nonstandard []).2.2 sigs1 sigs2) scriptPubKey).result = .ok () := by
  cases hcombinable with
  | plain hmerge =>
    obtain ⟨values, hmerged⟩ := merged_of_mergeable hmerge haccepts (subset_append_of_side hside)
      hshort (List.forall_mem_nil _) (Nat.zero_le 1) hcount
    have hpushable := hmerged.pushable
    rw [List.append_nil] at hpushable
    rw [hmerged.result_eq]
    exact verifyScript_pushAll hpushable hmerged.accepts fun hp2sh ↦
      absurd hp2sh hmerge.not_isPayToScriptHash
  | @scripthash redeem rest hp2sh hvalid hne hkept hinner =>
    rw [solver_isPayToScriptHash hp2sh]
    by_cases hempty : sigs1.headD [] = [] ∨ sigs2.headD [] = []
    · rw [combineStacks_of_headD_eq_nil hvalid hne hside hempty]
      apply verifyScript_pushAll
      · refine ⟨fun v hv ↦ hshort v (List.mem_reverse.mp hv), ?_, hkept hempty⟩
        rw [List.length_reverse]
        exact hcount
      · rw [List.reverse_reverse]
        exact haccepts
      · rw [List.reverse_reverse]
        exact hredeem
    · obtain ⟨hfirst, hsecond⟩ := not_or.mp hempty
      obtain ⟨hhead, hmerge⟩ := hinner hfirst hsecond
      obtain ⟨redeem', rest', hvalid', hrest⟩ := hredeem hp2sh
      obtain ⟨rfl, rfl⟩ := List.cons.inj (hvalid.symm.trans hvalid')
      rw [combineStacks_of_headD_ne_nil hfirst hsecond, hhead]
      subst hvalid
      apply verifyScript_redeem hp2sh haccepts hrest hshort _ hmerge
      apply subset_append_of_side
      exact hside.imp (fun h ↦ by rw [← h, List.tail_cons]) fun h ↦ by rw [← h, List.tail_cons]

/-- A combined script is valid if one of the two is a valid script of pushes and the merge keeps what
is valid about it. -/
theorem verifyScript_combineSignatures (C : Crypto) {empty : Crypto} (eval : LeftStack empty)
    {scriptPubKey scriptSig1 scriptSig2 scriptSig : CScript}
    (hside : scriptSig = scriptSig1 ∨ scriptSig = scriptSig2)
    (hpush : isPushOnly scriptSig = true)
    (hvalid : (verifyScript C scriptSig scriptPubKey).result = .ok ())
    (hcombinable : Combinable C scriptPubKey (eval.left scriptSig1) (eval.left scriptSig2)
      (eval.left scriptSig)) :
    (verifyScript C (combineSignatures C eval scriptPubKey scriptSig1 scriptSig2)
      scriptPubKey).result = .ok () := by
  obtain ⟨stack, heval, haccepts, hredeem⟩ := verifyScript_eq_ok_iff.mp hvalid
  have hnil : ([] : Stack).length ≤ 1000 := Nat.zero_le 1000
  have hlimits := (evalScript_meets C scriptSig hnil (List.forall_mem_nil _)).of_ok stack heval
  have hleft : eval.left scriptSig = stack := by
    apply eval.left_eq
    rw [evalScript_eq_of_isPushOnly empty C hpush]
    exact heval
  rw [hleft] at hcombinable
  unfold combineSignatures
  apply verifyScript_combineStacks haccepts (fun hp2sh ↦ (hredeem hp2sh).2) hlimits.2 hlimits.1 _
    hcombinable
  rw [← hleft]
  exact hside.imp (congrArg eval.left) (congrArg eval.left)

/-- An evaluation that leaves nothing where it fails. -/
def LeftStack.ofEval (C : Crypto) : LeftStack C where
  left script := match (evalScript C [] script).result with
    | .ok stack => stack
    | .error _ => []
  left_eq h := by rw [h]

def theKey : Valtype := 0x02 :: List.replicate 32 0

def theSig : Valtype := [0x30, 0x06, 0x02, 0x01, 0x01, 0x02, 0x01, 0x01, 0x01]

/-- Signatures of one key, one of them not canonical. -/
def oneKey : Crypto where
  ripemd160 _ := .replicate 20 0
  sha1 _ := .replicate 20 0
  sha256 _ := .replicate 32 0
  hash160 _ := .replicate 20 0
  hash256 _ := .replicate 32 0
  checkSig vchSig vchPubKey _ := (vchSig == theSig || vchSig == [0x05]) && vchPubKey == theKey

def payToKey : CScript := pushBytes [] theKey ++ [OP_CHECKSIG]

def payToOneOfOne : CScript := OP_1 :: (pushBytes [] theKey ++ [OP_1, OP_CHECKMULTISIG])

/-- A placeholder below the first signature loses it, anything in the first script loses the second
signature, and a signature that is not canonical takes the place of one that is. -/
theorem not_combineSignatures_valid :
    ((solver payToKey .nonstandard []).1 = true ∧
      ∃ scriptSig1 scriptSig2, isPushOnly scriptSig1 = true ∧
      (verifyScript oneKey scriptSig1 payToKey).result = .ok () ∧
      (verifyScript oneKey (combineSignatures oneKey (LeftStack.ofEval oneKey) payToKey scriptSig1
        scriptSig2) payToKey).result ≠ .ok ()) ∧
    (∃ scriptSig1 scriptSig2, isPushOnly scriptSig2 = true ∧
      (verifyScript oneKey scriptSig2 payToKey).result = .ok () ∧
      (verifyScript oneKey (combineSignatures oneKey (LeftStack.ofEval oneKey) payToKey scriptSig1
        scriptSig2) payToKey).result ≠ .ok ()) ∧
    (solver payToOneOfOne .nonstandard []).1 = true ∧
      ∃ scriptSig1 scriptSig2, isPushOnly scriptSig1 = true ∧
      (verifyScript oneKey scriptSig1 payToOneOfOne).result = .ok () ∧
      (verifyScript oneKey (combineSignatures oneKey (LeftStack.ofEval oneKey) payToOneOfOne
        scriptSig1 scriptSig2) payToOneOfOne).result ≠ .ok () := by
  refine ⟨⟨?_, OP_0 :: pushBytes [] theSig, [], ?_⟩, ⟨[OP_1], pushBytes [] theSig, ?_⟩,
    ?_, OP_0 :: pushBytes [] theSig, [0x01, 0x05], ?_⟩
  all_goals decide

/-- A signature for one key of one, combined with a placeholder. -/
theorem verifyScript_combineSignatures_oneOfOne :
    (verifyScript oneKey (combineSignatures oneKey (LeftStack.ofEval oneKey) payToOneOfOne
      [OP_0, OP_0] (OP_0 :: pushBytes [] theSig)) payToOneOfOne).result = .ok () := by
  have hparts : solver payToOneOfOne .nonstandard [] = (true, .multisig, [[1], theKey, [1]]) := by
    decide
  have hleft : (LeftStack.ofEval oneKey).left [OP_0, OP_0] ++
      (LeftStack.ofEval oneKey).left (OP_0 :: pushBytes [] theSig) = [[], [], theSig, []] := by
    decide
  have hpush : isPushOnly (OP_0 :: pushBytes [] theSig) = true := by decide
  refine verifyScript_combineSignatures oneKey (LeftStack.ofEval oneKey) (.inr rfl) hpush
    (by decide) (.plain (.multisig hparts ?_))
  intro sig hsig hne
  rw [hleft] at hsig
  have hsame : sig = theSig := by simpa [hne] using hsig
  subst hsame
  refine ⟨?_, ?_, ?_⟩
  · decide
  · intro key hkey key' hkey' _ _
    exact (List.mem_singleton.mp hkey').trans (List.mem_singleton.mp hkey).symm
  · decide

end Electra.Script
