import Electra.Script.StandardRuns

/-!
# Merging signatures

The merge for a multisignature script assigns every signature the first key left over that it passes
for.  If what passes for a key passes for that key alone and would pass in the interpreter, every key
of a valid script gets a signature, and the merged signatures can be matched with the keys.
-/

namespace Electra.Script

open Chain Foundations.StackMachine Foundations.GreedyMatch

variable {C : Crypto}

/-! ## Signatures that the script does not push -/

variable {sig : Valtype} {pc : CScript}

theorem length_of_isCanonicalSignature (h : isCanonicalSignature sig = true) :
    9 ≤ sig.length ∧ sig.length ≤ 73 := by
  by_contra hlength
  rw [isCanonicalSignature, if_pos (by omega)] at h
  cases h

theorem take_append_of_getOp {rest : CScript} {instr : Instruction}
    (hop : getOp pc = some (instr, rest)) : pc.take (pc.length - rest.length) ++ rest = pc := by
  obtain ⟨size, hpc⟩ := of_getOp hop
  have hsplit : pc = (instr.opcode :: (size ++ instr.vch)) ++ rest := hpc
  have hlength : pc.length - rest.length = (instr.opcode :: (size ++ instr.vch)).length := by
    rw [hsplit, List.length_append]
    omega
  rw [hlength, hsplit, List.take_left]

section Deletion

variable {sig : Valtype} (hsig : isCanonicalSignature sig = true)
include hsig

theorem pushBytes_of_isCanonicalSignature :
    pushBytes [] sig = UInt8.ofNat sig.length :: sig ∧
      UInt8.ofNat sig.length < OP_PUSHDATA1 ∧ (UInt8.ofNat sig.length).toNat = sig.length := by
  have hlength := length_of_isCanonicalSignature hsig
  have hsize : (UInt8.ofNat sig.length).toNat = sig.length := by
    rw [UInt8.toNat_ofNat', Nat.mod_eq_of_lt (by omega)]
  refine ⟨?_, ?_, hsize⟩
  · rw [pushBytes, if_pos (by omega)]
    rfl
  · rw [UInt8.lt_iff_toNat_lt, hsize]
    exact Nat.lt_of_le_of_lt hlength.2 (by decide)

/-- Where the push of a signature starts a script, it is the first instruction. -/
theorem vch_eq_of_isPrefixOf {rest : CScript} {instr : Instruction}
    (hop : getOp pc = some (instr, rest)) (hpc : pc.length < 2 ^ 32)
    (hstart : (pushBytes [] sig).isPrefixOf pc = true) : instr.vch = sig := by
  obtain ⟨hpush, hdirect, hsize⟩ := pushBytes_of_isCanonicalSignature hsig
  obtain ⟨post, rfl⟩ := List.isPrefixOf_iff_prefix.mp hstart
  rw [hpush, List.cons_append] at hop hpc
  rw [List.length_cons] at hpc
  rw [getOp_direct hdirect hsize.symm (Nat.lt_of_succ_lt hpc)] at hop
  exact congrArg Instruction.vch (Prod.mk.inj (Option.some.inj hop)).1.symm

theorem findAndDeleteFrom_fst {stop : CScript} {instrs : List Instruction}
    (hreads : ReadsTo pc instrs stop) (hstop : stop = []) (hpc : pc.length < 2 ^ 32)
    (hnot : ∀ instr ∈ instrs, instr.vch ≠ sig) (fuel : ℕ) :
    (findAndDeleteFrom (pushBytes [] sig) fuel pc).1 = pc := by
  obtain ⟨hpush, _⟩ := pushBytes_of_isCanonicalSignature hsig
  induction hreads generalizing fuel with
  | nil =>
    subst hstop
    cases fuel with
    | zero => rfl
    | succ fuel =>
      rw [findAndDeleteFrom, hpush]
      rfl
  | @cons pc rest stop instr instrs hop _ ih =>
    cases fuel with
    | zero => rfl
    | succ fuel =>
      have hkeep : ¬ (pushBytes [] sig).isPrefixOf pc = true := fun hstart ↦
        hnot instr List.mem_cons_self (vch_eq_of_isPrefixOf hsig hop hpc hstart)
      have hrest := ih hstop ((length_lt_of_getOp hop).trans hpc)
        (fun instr hmem ↦ hnot instr (List.mem_cons_of_mem _ hmem)) fuel
      rw [findAndDeleteFrom, if_neg hkeep]
      simp only [hop, hrest]
      exact take_append_of_getOp hop

theorem dropSignature_eq {script : CScript} {instrs : List Instruction}
    (hreads : Reads script instrs) (hlength : script.length ≤ 10000)
    (hnot : ∀ instr ∈ instrs, instr.vch ≠ sig) : dropSignature script sig = script := by
  unfold dropSignature findAndDelete
  split_ifs
  · rfl
  · exact findAndDeleteFrom_fst hsig hreads rfl (hlength.trans_lt (by decide)) hnot _

end Deletion

/-- Signatures that are not among the keys of a multisignature script are signed for. -/
theorem foldl_dropSignature_eq {script : CScript} {m n : ℕ} {keys : List Instruction}
    (h : MultisigShape script m keys n) (hlength : script.length ≤ 10000) {sigs : List Valtype}
    (hsigs : ∀ sig ∈ sigs, isCanonicalSignature sig = true ∧ sig ∉ keys.map Instruction.vch) :
    sigs.foldl dropSignature script = script := by
  induction sigs with
  | nil => rfl
  | cons sig sigs ih =>
    have hsig := hsigs sig List.mem_cons_self
    have hne : sig ≠ [] := by
      rintro rfl
      cases hsig.1
    rw [List.foldl_cons, dropSignature_eq hsig.1 h.reads hlength]
    · exact ih fun sig hmem ↦ hsigs sig (List.mem_cons_of_mem _ hmem)
    · intro instr hmem heq
      rw [List.mem_cons, List.mem_append, List.mem_cons, List.mem_singleton] at hmem
      rcases hmem with rfl | hkey | rfl | rfl
      · exact hne heq.symm
      · exact hsig.2 (List.mem_map.mpr ⟨instr, hkey, heq⟩)
      · exact hne heq.symm
      · exact hne heq.symm

/-! ## Merging the signatures of several keys -/

/-- What passes the check for a key passes for that key alone and would pass in the interpreter, and
no signature is itself one of the keys. -/
structure Genuine (C : Crypto) (script : CScript) (keys : List Valtype) (sig : Valtype) : Prop where
  canonical : ∀ key ∈ keys, C.checkSig sig key script = true →
    isCanonicalSignature sig = true ∧ isCanonicalPubKey key = true
  oneKey : ∀ key ∈ keys, ∀ key' ∈ keys, C.checkSig sig key script = true →
    C.checkSig sig key' script = true → key' = key
  notKey : isCanonicalSignature sig = true → sig ∉ keys

theorem validSignature_iff {script : CScript} {key : Valtype} :
    validSignature C script sig key = true ↔ isCanonicalSignature sig = true ∧
      isCanonicalPubKey key = true ∧ C.checkSig sig key script = true := by
  rw [validSignature, Bool.and_eq_true, Bool.and_eq_true, and_assoc]

theorem mem_allsigs {sigs1 sigs2 : Stack} :
    sig ∈ allsigs sigs1 sigs2 ↔ sig ∈ sigs1 ++ sigs2 ∧ sig ≠ [] := by
  unfold allsigs
  rw [(List.perm_insertionSort _ _).mem_iff, List.mem_eraseDups, List.mem_filter]
  simp

section MergeSigs

variable {script : CScript} {m n : ℕ} {keys : List Instruction} {sigs1 sigs2 : Stack}

theorem accepts_multisig {stack : Stack} (h : MultisigShape script m keys n)
    (hcounts : GoodCounts m keys n) (haccepts : Accepts C stack script) :
    ∃ sigs extra rest, stack = sigs ++ extra :: rest ∧ sigs.length = m ∧
      multisigMatch C script keys sigs = true := by
  obtain ⟨top, below, heval, htrue⟩ := haccepts
  obtain ⟨sigs, extra, rest, hstack, hsigs, hout⟩ := of_evalScript_multisig h hcounts.2.2 heval
  obtain ⟨htop, _⟩ := List.cons.inj hout
  rw [htop, castToBool_ofBool] at htrue
  exact ⟨sigs, extra, rest, hstack, hsigs, htrue⟩

/-- The map from keys to signatures that the merge builds. -/
def sigOf (C : Crypto) (script : CScript) (pubkeys : List Valtype) (sigs1 sigs2 : Stack)
    (pubkey : Valtype) : Option Valtype :=
  ((allsigs sigs1 sigs2).foldl (assign (fun sig pubkey ↦ C.checkSig sig pubkey script) pubkeys)
    []).lookup pubkey

/-- What the merge pushes after the first `OP_0`, where it has enough. -/
def mergedSigs (C : Crypto) (script : CScript) (pubkeys : List Valtype) (sigs1 sigs2 : Stack)
    (nSigsRequired : ℕ) : List Valtype :=
  (pubkeys.filterMap (sigOf C script pubkeys sigs1 sigs2)).take nSigsRequired

variable {pubkeys : List Valtype} {pubkey : Valtype}

theorem of_sigOf (h : sigOf C script pubkeys sigs1 sigs2 pubkey = some sig) :
    (sig ∈ sigs1 ++ sigs2 ∧ sig ≠ []) ∧ C.checkSig sig pubkey script = true := by
  unfold sigOf at h
  cases of_lookup_foldl_assign h with
  | inl hnone => cases hnone
  | inr hsome => exact ⟨mem_allsigs.mp hsome.1, hsome.2⟩

/-- The conditions on all elements of the two stacks. -/
abbrev AllGenuine (C : Crypto) (script : CScript) (pubkeys : List Valtype) (sigs1 sigs2 : Stack) :
    Prop :=
  ∀ sig ∈ sigs1 ++ sigs2, sig ≠ [] → Genuine C script pubkeys sig

theorem sigOf_valid (hgenuine : AllGenuine C script pubkeys sigs1 sigs2) (hkey : pubkey ∈ pubkeys)
    (h : sigOf C script pubkeys sigs1 sigs2 pubkey = some sig) :
    validSignature C script sig pubkey = true ∧ sig ∉ pubkeys := by
  obtain ⟨hmem, hcheck⟩ := of_sigOf h
  have hsig := hgenuine sig hmem.1 hmem.2
  obtain ⟨hcanonical, hcanonicalKey⟩ := hsig.canonical pubkey hkey hcheck
  exact ⟨validSignature_iff.mpr ⟨hcanonical, hcanonicalKey, hcheck⟩, hsig.notKey hcanonical⟩

/-- Every key with a valid signature on one of the stacks gets one. -/
theorem isSome_sigOf (hgenuine : AllGenuine C script pubkeys sigs1 sigs2) (hkey : pubkey ∈ pubkeys)
    (hmem : sig ∈ sigs1 ++ sigs2) (hne : sig ≠ []) (hcheck : C.checkSig sig pubkey script = true) :
    (sigOf C script pubkeys sigs1 sigs2 pubkey).isSome = true := by
  unfold sigOf
  apply isSome_lookup_foldl_assign (mem_allsigs.mpr ⟨hmem, hne⟩) hkey hcheck
  exact fun key' hkey' hcheck' ↦
    (hgenuine sig hmem hne).oneKey pubkey hkey key' hkey' hcheck hcheck'

variable {valid : Stack}

/-- There are as many signatures as the script requires. -/
theorem length_mergedSigs (h : MultisigShape script m keys n) (hcounts : GoodCounts m keys n)
    (haccepts : Accepts C valid script) (hvalid : valid ⊆ sigs1 ++ sigs2)
    (hgenuine : AllGenuine C script (keys.map Instruction.vch) sigs1 sigs2) :
    (mergedSigs C script (keys.map Instruction.vch) sigs1 sigs2 m).length = m := by
  obtain ⟨sigs, extra, rest, hstack, hsigs, hmatch⟩ := accepts_multisig h hcounts haccepts
  have hlength := haccepts.length_le
  have hpairs := (greedyMatch_iff_sublistForall₂ _ _).mp hmatch
  have hmem : ∀ sig ∈ sigs, sig ∈ sigs1 ++ sigs2 := by
    intro sig hsig
    apply hvalid
    rw [hstack]
    exact List.mem_append_left _ hsig
  have hgood : ∀ sig ∈ sigs, isCanonicalSignature sig = true ∧ sig ≠ [] := by
    intro sig hsig
    obtain ⟨key, _, hkey⟩ := exists_of_mem_sublistForall₂ hpairs hsig
    have hcanonical := (validSignature_iff.mp hkey).1
    have hsize := length_of_isCanonicalSignature hcanonical
    exact ⟨hcanonical, List.ne_nil_of_length_pos (by omega)⟩
  have hdrop : sigs.foldl dropSignature script = script := by
    apply foldl_dropSignature_eq h hlength
    intro sig hsig
    obtain ⟨hcanonical, hne⟩ := hgood sig hsig
    exact ⟨hcanonical, (hgenuine sig (hmem sig hsig) hne).notKey hcanonical⟩
  rw [hdrop] at hpairs
  have hreverse := sublistForall₂_reverse hpairs
  rw [stackedKeys, List.reverse_reverse] at hreverse
  have henough : m ≤ ((keys.map Instruction.vch).filterMap
      (sigOf C script (keys.map Instruction.vch) sigs1 sigs2)).length := by
    rw [← hsigs, ← List.length_reverse]
    apply length_le_length_filterMap hreverse
    intro sig hsig key hkey hcheck
    rw [List.mem_reverse] at hsig
    exact isSome_sigOf hgenuine hkey (hmem sig hsig) (hgood sig hsig).2
      (validSignature_iff.mp hcheck).2.2
  rw [mergedSigs, List.length_take]
  exact min_eq_left henough

/-- They can be matched with the keys. -/
theorem multisigMatch_mergedSigs (h : MultisigShape script m keys n)
    (hlength : script.length ≤ 10000)
    (hgenuine : AllGenuine C script (keys.map Instruction.vch) sigs1 sigs2) :
    multisigMatch C script keys
      (mergedSigs C script (keys.map Instruction.vch) sigs1 sigs2 m).reverse = true := by
  have hdrop : (mergedSigs C script (keys.map Instruction.vch) sigs1 sigs2 m).reverse.foldl
      dropSignature script = script := by
    apply foldl_dropSignature_eq h hlength
    intro sig hsig
    have hsig := List.mem_of_mem_take (List.mem_reverse.mp hsig)
    obtain ⟨key, hkey, hsome⟩ := List.mem_filterMap.mp hsig
    have hvalid := sigOf_valid hgenuine hkey hsome
    exact ⟨(validSignature_iff.mp hvalid.1).1, hvalid.2⟩
  rw [multisigMatch, hdrop]
  apply (greedyMatch_iff_sublistForall₂ _ _).mpr
  apply sublistForall₂_reverse
  apply sublistForall₂_take
  apply sublistForall₂_filterMap
  exact fun key hkey sig hsome ↦ (sigOf_valid hgenuine hkey hsome).1

theorem combineMultisig_eq (h : MultisigShape script m keys n)
    (hlength : (mergedSigs C script (keys.map Instruction.vch) sigs1 sigs2 m).length = m) :
    combineMultisig C script (multisigParts m keys n) sigs1 sigs2 =
      pushAll ([] :: mergedSigs C script (keys.map Instruction.vch) sigs1 sigs2 m) := by
  have hrequired : (((multisigParts m keys n).headD []).headD 0).toNat = m := by
    have hm := h.m_le
    show (UInt8.ofNat m).toNat = m
    rw [UInt8.toNat_ofNat', Nat.mod_eq_of_lt (by omega)]
  have hkeys : ((multisigParts m keys n).drop 1).take ((multisigParts m keys n).length - 2) =
      keys.map Instruction.vch := by
    rw [multisigParts, List.drop_one, List.tail_cons]
    apply List.take_left'
    simp
  unfold combineMultisig
  simp only [hrequired, hkeys]
  show List.foldl pushBytes [OP_0]
      (mergedSigs C script (keys.map Instruction.vch) sigs1 sigs2 m) ++
    List.replicate (m - (mergedSigs C script (keys.map Instruction.vch) sigs1 sigs2 m).length) OP_0 = _
  rw [hlength, Nat.sub_self, List.replicate_zero, List.append_nil]
  rfl

end MergeSigs

end Electra.Script
