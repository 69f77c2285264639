import Electra.Foundations.Codec
import Electra.Foundations.LinkedSets
import Electra.Foundations.ReadOnlyRun
import Electra.Script.Solver
import Electra.Wallet.KeyStore
import Mathlib.Data.Finset.Sort

/-!
# Joining address groupings

`GetAddressGroupings` collects sets of addresses that have one owner: the addresses of the inputs of an
own transaction with its change, and each own address by itself.  Then it joins sets that meet.

The parent of every input is looked up once the first input is the wallet's own.  The lookup inserts,
and indexes without a range test, so it only reads if the wallet has all those outputs.

The second part of `GetAddressGroupings`.  The groups are objects on the heap: a new grouping becomes an
object that takes over all groups it meets, these are deleted, and the address map is rewritten for the
members.  Every state on the way holds the linked sets of what was joined, and no pointer to a deleted
group.
-/

namespace Electra.Wallet

open Chain Foundations Script
open Std (TreeMap)

section

inductive CTxDestination
  | noDestination
  | keyID (id : CKeyID)
  | scriptID (id : CKeyID)
deriving DecidableEq

/-- `uint160` of a vector. -/
def uint160 (vch : Valtype) : CKeyID := if vch.length = 20 then BitVec.ofNat 160 (Codec.ofLeBytes vch) else 0

/-- The address that a script pays to, with the hash of public keys. -/
def extractDestination (getID : Valtype → CKeyID) (scriptPubKey : CScript) : Option CTxDestination :=
  let (fSolved, whichType, vSolutions) := solver scriptPubKey .nonstandard []
  if !fSolved then none
  else
    match whichType with
    | .pubkey => some (.keyID (getID (vSolutions.headD [])))
    | .pubkeyhash => some (.keyID (uint160 (vSolutions.headD [])))
    | .scripthash => some (.scriptID (uint160 (vSolutions.headD [])))
    -- Multisig txns have more than one address
    | .multisig | .nonstandard => none

abbrev MapWallet := TreeMap Uint256 CWalletTx

/-- An output that is read where there is none: of a transaction that is not in the wallet, or behind
the last one of a transaction that is. -/
inductive BadRead
  | missing (prevout : COutPoint)
  | outOfRange (prevout : COutPoint)
deriving DecidableEq

/-- Code that reads and changes `mapWallet`, up to a bad read. -/
abbrev Lookup := ExceptT BadRead (StateM MapWallet)

/-- What the groupings depend on: the keys, the address book, and the clock, which stamps a new
transaction object. -/
structure GroupingEnv where
  isMine : CScript → Bool
  isMineAddress : CTxDestination → Bool
  getID : Valtype → CKeyID
  mapAddressBook : CTxDestination → Bool
  nAdjustedTime : ℕ

/-- `CWalletTx()`. -/
def newWalletTx (nAdjustedTime : ℕ) : CWalletTx where
  nVersion := 1
  nTime := nAdjustedTime
  vin := []
  vout := []
  nLockTime := 0
  hashBlock := 0
  vMerkleBranch := []
  nIndex := -1
  fFromMe := false
  vfSpent := []

variable (env : GroupingEnv)

/-- `mapWallet[hash]`, which enters a new transaction where there is none. -/
def walletTx (hash : Uint256) : Lookup CWalletTx := do
  let mapWallet ← get
  match mapWallet[hash]? with
  | some wtx => return wtx
  | none => do
      set (mapWallet.insert hash (newWalletTx env.nAdjustedTime))
      return newWalletTx env.nAdjustedTime

/-- `mapWallet[prevout.hash].vout[prevout.n]`. -/
def prevOutput (prevout : COutPoint) : Lookup CTxOut := do
  let fKnown := (← get).contains prevout.hash
  let wtx ← walletTx env prevout.hash
  match wtx.vout[prevout.n]? with
  | some txout => return txout
  | none => throw (if fKnown then .outOfRange prevout else .missing prevout)

/-- `IsMine` of an input. -/
def inputIsMine (mapWallet : MapWallet) (txin : CTxIn) : Bool :=
  match mapWallet[txin.prevout.hash]? with
  | none => false
  | some prev =>
      match prev.vout[txin.prevout.n]? with
      | none => false
      | some txout => env.isMine txout.scriptPubKey

def isChange (txout : CTxOut) : Bool :=
  match extractDestination env.getID txout.scriptPubKey with
  | none => false
  | some address => env.isMineAddress address && !env.mapAddressBook address

/-- Enter the address of a script into a grouping, if it has one. -/
def insertAddress (scriptPubKey : CScript) (grouping : Finset CTxDestination) : Finset CTxDestination :=
  match extractDestination env.getID scriptPubKey with
  | none => grouping
  | some address => insert address grouping

def groupInput (grouping : Finset CTxDestination) (txin : CTxIn) : Lookup (Finset CTxDestination) := do
  let txout ← prevOutput env txin.prevout
  return insertAddress env txout.scriptPubKey grouping

def groupChange (txin0 : CTxIn) (grouping : Finset CTxDestination) (txout : CTxOut) :
    Lookup (Finset CTxDestination) := do
  if isChange env txout then
    let _tx ← walletTx env txin0.prevout.hash
    return insertAddress env txout.scriptPubKey grouping
  else return grouping

/-- The grouping of a transaction whose first input is the wallet's. -/
def groupInputs (wtx : CWalletTx) (txin0 : CTxIn) : Lookup (Finset CTxDestination) := do
  -- group all input addresses with each other
  let grouping ← wtx.vin.foldlM (groupInput env) ∅
  -- group change with input addresses
  wtx.vout.foldlM (groupChange env txin0) grouping

/-- Own addresses by themselves. -/
def groupLone (groupings : List (Finset CTxDestination)) (txout : CTxOut) :
    List (Finset CTxDestination) :=
  if env.isMine txout.scriptPubKey then
    match extractDestination env.getID txout.scriptPubKey with
    | none => groupings
    | some address => groupings.insert {address}
  else groupings

def groupTx (groupings : List (Finset CTxDestination)) (wtx : CWalletTx) :
    Lookup (List (Finset CTxDestination)) := do
  let mapWallet ← get
  match wtx.vin.head? with
  | none => return wtx.vout.foldl (groupLone env) groupings
  | some txin0 =>
      if inputIsMine env mapWallet txin0 then do
        let grouping ← groupInputs env wtx txin0
        return wtx.vout.foldl (groupLone env) (groupings.insert grouping)
      else return wtx.vout.foldl (groupLone env) groupings

/-- The first part of `GetAddressGroupings`.  The set of sets is kept as a list; a transaction that a bad
read enters into the map is not reached any more. -/
def collectGroupings : Lookup (List (Finset CTxDestination)) := do
  let mapWallet ← get
  mapWallet.toList.foldlM (fun groupings walletEntry ↦ groupTx env groupings walletEntry.2) []

end

open Foundations.ReadOnlyRun

section

/-- The wallet has the output that an outpoint names. -/
def OutputExists (mapWallet : MapWallet) (prevout : COutPoint) : Prop :=
  ∃ prev, mapWallet[prevout.hash]? = some prev ∧ prevout.n < prev.vout.length

/-- The parents of all inputs are there if the first input is the wallet's. -/
def ParentsExist (env : GroupingEnv) (mapWallet : MapWallet) (wtx : CWalletTx) : Prop :=
  ∀ txin0, wtx.vin.head? = some txin0 → inputIsMine env mapWallet txin0 = true →
    ∀ txin ∈ wtx.vin, OutputExists mapWallet txin.prevout

variable {env : GroupingEnv} {mapWallet : MapWallet}

theorem OutputExists.of_inputIsMine {txin : CTxIn} (h : inputIsMine env mapWallet txin = true) :
    OutputExists mapWallet txin.prevout := by
  unfold inputIsMine at h
  cases hprev : mapWallet[txin.prevout.hash]? with
  | none => simp [hprev] at h
  | some prev =>
    simp only [hprev] at h
    cases htxout : prev.vout[txin.prevout.n]? with
    | none => simp [htxout] at h
    | some txout =>
      obtain ⟨hn, -⟩ := List.getElem?_eq_some_iff.mp htxout
      exact ⟨prev, hprev, hn⟩

theorem runOn_walletTx {hash : Uint256} {wtx : CWalletTx} (h : mapWallet[hash]? = some wtx) :
    runOn (walletTx env hash) mapWallet = (.ok wtx, mapWallet) := by
  unfold walletTx
  rw [runOn_get_bind]
  simp only [h]
  rfl

theorem walletTx_decided {prevout : COutPoint} (h : OutputExists mapWallet prevout) :
    DecidedBy (walletTx env prevout.hash) mapWallet True where
  ok _ := by
    obtain ⟨prev, hprev, -⟩ := h
    exact ⟨prev, runOn_walletTx hprev⟩
  error hfalse := absurd trivial hfalse

theorem runOn_walletTx_none {hash : Uint256} (h : mapWallet[hash]? = none) :
    runOn (walletTx env hash) mapWallet = (.ok (newWalletTx env.nAdjustedTime),
      mapWallet.insert hash (newWalletTx env.nAdjustedTime)) := by
  unfold walletTx
  rw [runOn_get_bind]
  simp only [h]
  rfl

theorem prevOutput_decided {prevout : COutPoint} :
    DecidedBy (prevOutput env prevout) mapWallet (OutputExists mapWallet prevout) where
  ok h := by
    obtain ⟨prev, hprev, hn⟩ := h
    refine ⟨prev.vout[prevout.n], ?_⟩
    unfold prevOutput
    rw [runOn_get_bind, runOn_bind, runOn_walletTx hprev]
    simp only [List.getElem?_eq_getElem hn]
    rfl
  error h := by
    unfold prevOutput
    rw [runOn_get_bind, runOn_bind]
    cases hprev : mapWallet[prevout.hash]? with
    | none =>
      rw [runOn_walletTx_none hprev]
      exact ⟨_, _, rfl⟩
    | some prev =>
      rw [runOn_walletTx hprev]
      have hn : prev.vout[prevout.n]? = none := by
        apply List.getElem?_eq_none
        by_contra hlt
        exact h ⟨prev, hprev, Nat.lt_of_not_le hlt⟩
      simp only [hn]
      exact ⟨_, _, rfl⟩

theorem groupInput_decided {grouping : Finset CTxDestination} {txin : CTxIn} :
    DecidedBy (groupInput env grouping txin) mapWallet (OutputExists mapWallet txin.prevout) :=
  prevOutput_decided.bind_pure

theorem groupChange_decided {txin0 : CTxIn} (h : OutputExists mapWallet txin0.prevout)
    {grouping : Finset CTxDestination} {txout : CTxOut} :
    DecidedBy (groupChange env txin0 grouping txout) mapWallet True := by
  unfold groupChange
  split
  · exact (walletTx_decided h).bind_pure
  · exact decidedBy_pure

theorem groupInputs_decided {wtx : CWalletTx} {txin0 : CTxIn}
    (h : OutputExists mapWallet txin0.prevout) :
    DecidedBy (groupInputs env wtx txin0) mapWallet
      (∀ txin ∈ wtx.vin, OutputExists mapWallet txin.prevout) := by
  have hinputs : DecidedBy (wtx.vin.foldlM (groupInput env) ∅) mapWallet
      (∀ txin ∈ wtx.vin, OutputExists mapWallet txin.prevout) :=
    decidedBy_foldlM (fun txin : CTxIn ↦ OutputExists mapWallet txin.prevout)
      (fun _ _ _ ↦ groupInput_decided) ∅
  have hchange : ∀ grouping, DecidedBy (wtx.vout.foldlM (groupChange env txin0) grouping) mapWallet
      (∀ txout ∈ wtx.vout, True) := fun grouping ↦
    decidedBy_foldlM (fun _ ↦ True) (fun _ _ _ ↦ groupChange_decided h) grouping
  apply (hinputs.bind fun grouping _ ↦ hchange grouping).congr
  simp

theorem groupTx_decided {groupings : List (Finset CTxDestination)} {wtx : CWalletTx} :
    DecidedBy (groupTx env groupings wtx) mapWallet (ParentsExist env mapWallet wtx) := by
  unfold groupTx
  apply DecidedBy.get_bind
  unfold ParentsExist
  cases hfirst : wtx.vin.head? with
  | none => exact decidedBy_pure.congr (by simp)
  | some txin0 =>
    by_cases hmine : inputIsMine env mapWallet txin0 = true
    · simp only [hmine, if_true]
      apply ((groupInputs_decided (OutputExists.of_inputIsMine hmine)).bind_pure).congr
      simp [hmine]
    · simp only [hmine]
      exact decidedBy_pure.congr (by simp [hmine])

theorem collectGroupings_decided : DecidedBy (collectGroupings env) mapWallet
    (∀ (hash : Uint256) wtx, mapWallet[hash]? = some wtx → ParentsExist env mapWallet wtx) := by
  unfold collectGroupings
  apply DecidedBy.get_bind
  apply (decidedBy_foldlM (fun walletEntry : Uint256 × CWalletTx ↦
    ParentsExist env mapWallet walletEntry.2) (fun _ _ _ ↦ groupTx_decided) []).congr
  constructor
  · intro h hash wtx hwtx
    exact h (hash, wtx) (TreeMap.mem_toList_iff_getElem?_eq_some.mpr hwtx)
  · intro h walletEntry hentry
    exact h walletEntry.1 walletEntry.2 (TreeMap.mem_toList_iff_getElem?_eq_some.mp hentry)

/-- Collecting reads only outputs that exist, and leaves the wallet as it is, just if the wallet has the
outputs that its transactions with an own first input spend. -/
theorem collectGroupings_reads_iff (env : GroupingEnv) (mapWallet : MapWallet) :
    (∃ groupings, runOn (collectGroupings env) mapWallet = (.ok groupings, mapWallet)) ↔
      ∀ (hash : Uint256) wtx, mapWallet[hash]? = some wtx → ParentsExist env mapWallet wtx :=
  collectGroupings_decided.iff

/-- Keys that own every script, and no addresses. -/
def ownAll : GroupingEnv where
  isMine _ := true
  isMineAddress _ := false
  getID _ := 0
  mapAddressBook _ := false
  nAdjustedTime := 0

/-- A wallet that has paid together with somebody else, whose transaction it does not have. -/
def jointWallet : MapWallet :=
  let coin : CWalletTx := { newWalletTx 0 with vout := [⟨1, []⟩] }
  let joint : CWalletTx := { newWalletTx 0 with vin := [⟨⟨1, 0⟩, [], 0⟩, ⟨⟨3, 0⟩, [], 0⟩] }
  (TreeMap.empty.insert 1 coin).insert 2 joint

theorem collectGroupings_jointWallet :
    jointWallet.contains 3 = false ∧
      (runOn (collectGroupings ownAll) jointWallet).1.toOption = none ∧
      (runOn (collectGroupings ownAll) jointWallet).2.contains 3 = true := by
  decide

end

open Foundations.LinkedSets

/-- The order of the variant: the kind, then the hash. -/
def CTxDestination.rank : CTxDestination → ℕ
  | .noDestination => 0
  | .keyID id => 1 + id.toNat
  | .scriptID id => 1 + 2 ^ 160 + id.toNat

theorem CTxDestination.rank_injective : Function.Injective CTxDestination.rank := by
  intro a b hab
  cases a with
  | noDestination => cases b <;> simp only [rank] at hab <;> first | rfl | omega
  | keyID id =>
    have hid := id.isLt
    cases b with
    | noDestination => simp only [rank] at hab; omega
    | keyID id' => rw [BitVec.eq_of_toNat_eq (Nat.add_left_cancel hab)]
    | scriptID id' => simp only [rank] at hab; omega
  | scriptID id =>
    cases b with
    | noDestination => simp only [rank] at hab; omega
    | keyID id' => have hid := id'.isLt; simp only [rank] at hab; omega
    | scriptID id' => rw [BitVec.eq_of_toNat_eq (Nat.add_left_cancel hab)]

instance : LinearOrder CTxDestination :=
  LinearOrder.lift' CTxDestination.rank CTxDestination.rank_injective

abbrev Ptr := ℕ

/-- The groups that are not deleted. -/
abbrev Heap := TreeMap Ptr (Finset CTxDestination)

/-- `new` gives a pointer that is not in use; it may have been in use before. -/
structure Allocator where
  new : Heap → Ptr
  new_notMem : ∀ heap, new heap ∉ heap

structure JoinState where
  heap : Heap
  uniqueGroupings : Finset Ptr
  setmap : CTxDestination → Option Ptr

def JoinState.initial : JoinState where
  heap := ∅
  uniqueGroupings := ∅
  setmap _ := none

/-- All the groups hit by a new group. -/
def groupsHit (setmap : CTxDestination → Option Ptr) (grouping : Finset CTxDestination) : Finset Ptr :=
  grouping.sort.foldl (fun hits address ↦
    match setmap address with
    | none => hits
    | some it => insert it hits) ∅

/-- Merge a hit group into the new one and delete it.  No result stands for a pointer to a deleted
group. -/
def mergeHit (merged : Ptr) (st : Heap × Finset Ptr) (hit : Ptr) : Option (Heap × Finset Ptr) := do
  let group ← st.1[merged]?
  let old ← st.1[hit]?
  return ((st.1.insert merged (group ∪ old)).erase hit, st.2.erase hit)

/-- Update `setmap`. -/
def pointTo (merged : Ptr) (setmap : CTxDestination → Option Ptr) (element : CTxDestination) :
    CTxDestination → Option Ptr := Function.update setmap element (some merged)

def joinGrouping (alloc : Allocator) (st : JoinState) (grouping : Finset CTxDestination) :
    Option JoinState := do
  let hits := groupsHit st.setmap grouping
  let merged := alloc.new st.heap
  let (heap, uniqueGroupings) ← hits.sort.foldlM (mergeHit merged)
    (st.heap.insert merged grouping, st.uniqueGroupings)
  let group ← heap[merged]?
  return ⟨heap, insert merged uniqueGroupings, group.sort.foldl (pointTo merged) st.setmap⟩

def returnGroup (st : Heap × Finset (Finset CTxDestination)) (uniqueGrouping : Ptr) :
    Option (Heap × Finset (Finset CTxDestination)) := do
  let group ← st.1[uniqueGrouping]?
  return (st.1.erase uniqueGrouping, insert group st.2)

/-- The second part of `GetAddressGroupings`: the groups, and what is left on the heap. -/
def joinGroupings (alloc : Allocator) (groupings : List (Finset CTxDestination)) :
    Option (Heap × Finset (Finset CTxDestination)) := do
  let st ← groupings.foldlM (joinGrouping alloc) .initial
  st.uniqueGroupings.sort.foldlM returnGroup (st.heap, ∅)

variable {setmap : CTxDestination → Option Ptr} {grouping : Finset CTxDestination} {heap : Heap}
  {uniqueGroupings : Finset Ptr} {merged p : Ptr}

theorem mem_groupsHit : p ∈ groupsHit setmap grouping ↔ ∃ a ∈ grouping, setmap a = some p := by
  have hloop : ∀ (l : List CTxDestination) (hits : Finset Ptr),
      p ∈ l.foldl (fun hits address ↦ match setmap address with
        | none => hits
        | some it => insert it hits) hits ↔ p ∈ hits ∨ ∃ a ∈ l, setmap a = some p := by
    intro l
    induction l with
    | nil => simp
    | cons a l ih =>
      intro hits
      rw [List.foldl_cons, ih]
      cases ha : setmap a with
      | none => simp [ha]
      | some it =>
        simp only [Finset.mem_insert, List.exists_mem_cons_iff, ha, Option.some.injEq]
        rw [eq_comm, or_comm (a := it = p), or_assoc]
  rw [groupsHit, hloop]
  simp

theorem pointTo_loop {group : Finset CTxDestination} {a : CTxDestination} :
    group.sort.foldl (pointTo merged) setmap a = if a ∈ group then some merged else setmap a := by
  have hloop : ∀ (l : List CTxDestination) (setmap : CTxDestination → Option Ptr),
      l.foldl (pointTo merged) setmap a = if a ∈ l then some merged else setmap a := by
    intro l
    induction l with
    | nil => simp
    | cons b l ih =>
      intro setmap
      rw [List.foldl_cons, ih]
      by_cases hab : a = b
      · simp [pointTo, hab]
      · simp [pointTo, hab]
  rw [hloop]
  simp

/-- The new group after the hit ones are merged into it. -/
theorem mergeHits_spec (uniqueGroupings : Finset Ptr) {hits : List Ptr} {group : Finset CTxDestination}
    (hnodup : hits.Nodup) (hmerged : merged ∉ hits) (hgroup : heap[merged]? = some group)
    (hlive : ∀ p ∈ hits, ∃ old, heap[p]? = some old) :
    ∃ heap' all, hits.foldlM (mergeHit merged) (heap, uniqueGroupings) =
        some (heap', uniqueGroupings \ hits.toFinset) ∧
      heap'[merged]? = some all ∧
      (∀ a, a ∈ all ↔ a ∈ group ∨ ∃ p ∈ hits, ∃ s, heap[p]? = some s ∧ a ∈ s) ∧
      ∀ p ≠ merged, heap'[p]? = if p ∈ hits then none else heap[p]? := by
  induction hits generalizing heap uniqueGroupings group with
  | nil => exact ⟨heap, group, by simp, hgroup, by simp, by simp⟩
  | cons hit hits ih =>
    rw [List.nodup_cons] at hnodup
    rw [List.mem_cons, not_or] at hmerged
    obtain ⟨old, hold⟩ := hlive hit List.mem_cons_self
    have hread : ∀ p, ((heap.insert merged (group ∪ old)).erase hit)[p]? =
        if hit = p then none else if merged = p then some (group ∪ old) else heap[p]? := by
      intro p
      simp only [TreeMap.getElem?_erase, TreeMap.getElem?_insert, compare_eq_iff_eq]
    have hlater : ∀ p ∈ hits, hit ≠ p ∧ merged ≠ p := by
      intro p hp
      constructor
      · rintro rfl
        exact hnodup.1 hp
      · rintro rfl
        exact hmerged.2 hp
    have hkept : ∀ p ∈ hits, ((heap.insert merged (group ∪ old)).erase hit)[p]? = heap[p]? := by
      intro p hp
      rw [hread, if_neg (hlater p hp).1, if_neg (hlater p hp).2]
    obtain ⟨heap', all, hrun, hall, hmem, hrest⟩ := ih (uniqueGroupings.erase hit)
      hnodup.2 hmerged.2 (by rw [hread, if_neg (Ne.symm hmerged.1), if_pos rfl])
      (fun p hp ↦ by rw [hkept p hp]; exact hlive p (List.mem_cons_of_mem _ hp))
    refine ⟨heap', all, ?_, hall, fun a ↦ ?_, fun p hp ↦ ?_⟩
    · rw [List.foldlM_cons, mergeHit, hgroup, hold]
      show hits.foldlM (mergeHit merged) _ = _
      rw [hrun]
      congr 2
      ext q
      simp only [Finset.mem_sdiff, Finset.mem_erase, List.toFinset_cons, Finset.mem_insert]
      tauto
    · rw [hmem, Finset.mem_union, or_assoc, List.exists_mem_cons_iff]
      apply or_congr_right
      apply or_congr
      · simp [hold]
      · apply exists_congr
        intro p
        apply and_congr_right
        intro hp
        rw [hkept p hp]
    · rw [hrest p hp, hread, if_neg (Ne.symm hp)]
      by_cases heq : hit = p
      · simp [heq]
      · simp [heq, Ne.symm heq]

/-- The pointers in use are those of groups that are not deleted; an address is mapped to the group that
it is in; and the groups are the components of what was joined. -/
structure JoinState.Sound (st : JoinState) (family : List (Finset CTxDestination)) : Prop where
  live : ∀ p, p ∈ st.uniqueGroupings ↔ ∃ group, st.heap[p]? = some group
  mapped : ∀ a p, st.setmap a = some p ↔ ∃ group, st.heap[p]? = some group ∧ a ∈ group
  components : IsComponents {group | ∃ p : Ptr, st.heap[p]? = some group} family

theorem JoinState.initial_sound : JoinState.initial.Sound [] where
  live p := by simp [JoinState.initial]
  mapped a p := by simp [JoinState.initial]
  components := by
    convert isComponents_nil (α := CTxDestination)
    simp [JoinState.initial]

variable {alloc : Allocator} {st : JoinState} {family : List (Finset CTxDestination)}

/-- A group is hit if it shares an address with the new one. -/
theorem JoinState.Sound.mem_groupsHit (h : st.Sound family) :
    p ∈ groupsHit st.setmap grouping ↔
      ∃ group, st.heap[p]? = some group ∧ ∃ a ∈ grouping, a ∈ group := by
  rw [Wallet.mem_groupsHit]
  constructor
  · intro hhit
    obtain ⟨a, ha, hp⟩ := hhit
    obtain ⟨group, hgroup, hag⟩ := (h.mapped a p).mp hp
    exact ⟨group, hgroup, a, ha, hag⟩
  · intro hhit
    obtain ⟨group, hgroup, a, ha, hag⟩ := hhit
    exact ⟨a, ha, (h.mapped a p).mpr ⟨group, hgroup, hag⟩⟩

/-- What joining one more grouping does: a new group takes over the groups that share an address with
it. -/
structure JoinState.Joins (st st' : JoinState) (grouping all : Finset CTxDestination) (merged : Ptr) :
    Prop where
  new : st.heap[merged]? = none
  members : ∀ a, a ∈ all ↔
    a ∈ grouping ∨ ∃ (p : Ptr) (group : _), st.heap[p]? = some group ∧ (∃ c ∈ grouping, c ∈ group) ∧ a ∈ group
  heap : ∀ (p : Ptr) group, st'.heap[p]? = some group ↔
    p = merged ∧ group = all ∨ st.heap[p]? = some group ∧ ¬ ∃ c ∈ grouping, c ∈ group
  uniqueGroupings : ∀ p, p ∈ st'.uniqueGroupings ↔
    p = merged ∨ ∃ group, st.heap[p]? = some group ∧ ¬ ∃ c ∈ grouping, c ∈ group
  setmap : ∀ a, st'.setmap a = if a ∈ all then some merged else st.setmap a

theorem JoinState.Sound.exists_joins (h : st.Sound family) (alloc : Allocator)
    (grouping : Finset CTxDestination) :
    ∃ st' all merged, joinGrouping alloc st grouping = some st' ∧ st.Joins st' grouping all merged := by
  let hits := (groupsHit st.setmap grouping).sort
  have hhit : ∀ p, p ∈ hits ↔ ∃ group, st.heap[p]? = some group ∧ ∃ a ∈ grouping, a ∈ group := by
    intro p
    rw [← h.mem_groupsHit]
    exact Finset.mem_sort _
  have hnew : st.heap[alloc.new st.heap]? = none :=
    TreeMap.getElem?_eq_none (alloc.new_notMem st.heap)
  have hapart : ∀ p ∈ hits, alloc.new st.heap ≠ p := by
    intro p hp heq
    obtain ⟨group, hgroup, -⟩ := (hhit p).mp hp
    rw [← heq, hnew] at hgroup
    cases hgroup
  have hkept : ∀ p, alloc.new st.heap ≠ p →
      (st.heap.insert (alloc.new st.heap) grouping)[p]? = st.heap[p]? := by
    intro p hp
    rw [TreeMap.getElem?_insert, if_neg (mt compare_eq_iff_eq.mp hp)]
  have hlive : ∀ p ∈ hits, ∃ old, (st.heap.insert (alloc.new st.heap) grouping)[p]? = some old := by
    intro p hp
    obtain ⟨group, hgroup, -⟩ := (hhit p).mp hp
    exact ⟨group, by rw [hkept p (hapart p hp), hgroup]⟩
  obtain ⟨heap', all, hrun, hall, hmem, hrest⟩ := mergeHits_spec st.uniqueGroupings
    (Finset.sort_nodup (groupsHit st.setmap grouping) _) (fun hp ↦ hapart _ hp rfl)
    TreeMap.getElem?_insert_self hlive
  refine ⟨⟨heap', insert (alloc.new st.heap) (st.uniqueGroupings \ hits.toFinset),
    all.sort.foldl (pointTo (alloc.new st.heap)) st.setmap⟩, all, alloc.new st.heap, ?_, hnew,
    fun a ↦ ?_, fun p group ↦ ?_, fun p ↦ ?_, fun a ↦ pointTo_loop⟩
  · simp only [joinGrouping]
    rw [hrun]
    show (heap'[alloc.new st.heap]? >>= _) = _
    rw [hall]
    rfl
  · rw [hmem]
    apply or_congr_right
    apply exists_congr
    intro p
    constructor
    · intro hp
      obtain ⟨hp, group, hgroup, ha⟩ := hp
      rw [hkept p (hapart p hp)] at hgroup
      obtain ⟨group', hgroup', hmeets⟩ := (hhit p).mp hp
      rw [hgroup] at hgroup'
      cases hgroup'
      exact ⟨group, hgroup, hmeets, ha⟩
    · intro hp
      obtain ⟨group, hgroup, hmeets, ha⟩ := hp
      have hp : p ∈ hits := (hhit p).mpr ⟨group, hgroup, hmeets⟩
      exact ⟨hp, group, by rw [hkept p (hapart p hp), hgroup], ha⟩
  · by_cases hp : p = alloc.new st.heap
    · rw [hp, hall, hnew]
      simp [eq_comm]
    · rw [hrest p hp, hkept p (Ne.symm hp)]
      simp only [hp, false_and, false_or]
      constructor
      · intro hgroup
        split at hgroup
        · cases hgroup
        · next hnot => exact ⟨hgroup, fun hmeets ↦ hnot ((hhit p).mpr ⟨group, hgroup, hmeets⟩)⟩
      · intro hgroup
        rw [if_neg, hgroup.1]
        intro hp
        obtain ⟨group', hgroup', hmeets⟩ := (hhit p).mp hp
        rw [hgroup.1] at hgroup'
        cases hgroup'
        exact hgroup.2 hmeets
  · rw [Finset.mem_insert, Finset.mem_sdiff, List.mem_toFinset, h.live]
    apply or_congr_right
    constructor
    · intro hp
      obtain ⟨⟨group, hgroup⟩, hnot⟩ := hp
      exact ⟨group, hgroup, fun hmeets ↦ hnot ((hhit p).mpr ⟨group, hgroup, hmeets⟩)⟩
    · intro hp
      obtain ⟨group, hgroup, hapart⟩ := hp
      refine ⟨⟨group, hgroup⟩, fun hp ↦ ?_⟩
      obtain ⟨group', hgroup', hmeets⟩ := (hhit p).mp hp
      rw [hgroup] at hgroup'
      cases hgroup'
      exact hapart hmeets

theorem JoinState.Sound.of_joins {st' : JoinState} {all : Finset CTxDestination}
    (h : st.Sound family) (hjoin : st.Joins st' grouping all merged) :
    st'.Sound (family ++ [grouping]) where
  live p := by
    rw [hjoin.uniqueGroupings]
    constructor
    · intro hp
      obtain rfl | ⟨group, hgroup⟩ := hp
      · exact ⟨all, (hjoin.heap p all).mpr (.inl ⟨rfl, rfl⟩)⟩
      · exact ⟨group, (hjoin.heap p group).mpr (.inr hgroup)⟩
    · intro hp
      obtain ⟨group, hgroup⟩ := hp
      obtain ⟨rfl, -⟩ | hgroup := (hjoin.heap p group).mp hgroup
      · exact .inl rfl
      · exact .inr ⟨group, hgroup⟩
  mapped a p := by
    rw [hjoin.setmap]
    constructor
    · intro hp
      split at hp
      · next ha =>
        cases hp
        exact ⟨all, (hjoin.heap merged all).mpr (.inl ⟨rfl, rfl⟩), ha⟩
      · next ha =>
        obtain ⟨group, hgroup, hag⟩ := (h.mapped a p).mp hp
        have hapart : ¬ ∃ c ∈ grouping, c ∈ group := fun hmeets ↦
          ha ((hjoin.members a).mpr (.inr ⟨p, group, hgroup, hmeets, hag⟩))
        exact ⟨group, (hjoin.heap p group).mpr (.inr ⟨hgroup, hapart⟩), hag⟩
    · intro hp
      obtain ⟨group, hgroup, hag⟩ := hp
      obtain ⟨rfl, rfl⟩ | ⟨hgroup, hapart⟩ := (hjoin.heap p group).mp hgroup
      · rw [if_pos hag]
      · have hmap := (h.mapped a p).mpr ⟨group, hgroup, hag⟩
        rw [if_neg, hmap]
        -- an address of the new group is in the grouping or in a group that was hit
        intro ha
        obtain ha | ⟨q, group', hgroup', hmeets, hag'⟩ := (hjoin.members a).mp ha
        · exact hapart ⟨a, ha, hag⟩
        · have hq := (h.mapped a q).mpr ⟨group', hgroup', hag'⟩
          rw [hmap] at hq
          cases hq
          rw [hgroup] at hgroup'
          cases hgroup'
          exact hapart hmeets
  components := by
    have hblocks : {group | ∃ p : Ptr, st'.heap[p]? = some group} = {group | group = all ∨
        group ∈ {group | ∃ p : Ptr, st.heap[p]? = some group} ∧ ¬ ∃ c ∈ grouping, c ∈ group} := by
      ext group
      constructor
      · intro hgroup
        obtain ⟨p, hp⟩ := hgroup
        obtain ⟨-, hall⟩ | ⟨hp, hapart⟩ := (hjoin.heap p group).mp hp
        · exact .inl hall
        · exact .inr ⟨⟨p, hp⟩, hapart⟩
      · intro hgroup
        obtain rfl | ⟨⟨p, hp⟩, hapart⟩ := hgroup
        · exact ⟨merged, (hjoin.heap merged group).mpr (.inl ⟨rfl, rfl⟩)⟩
        · exact ⟨p, (hjoin.heap p group).mpr (.inr ⟨hp, hapart⟩)⟩
    rw [hblocks]
    apply h.components.append
    intro a
    rw [hjoin.members]
    apply or_congr_right
    constructor
    · intro hmem
      obtain ⟨p, group, hp, hmeets, ha⟩ := hmem
      exact ⟨group, ⟨p, hp⟩, hmeets, ha⟩
    · intro hmem
      obtain ⟨group, ⟨p, hp⟩, hmeets, ha⟩ := hmem
      exact ⟨p, group, hp, hmeets, ha⟩

/-- The loop goes through, and leaves a sound state, after every number of groupings. -/
theorem joinGroupings_sound (alloc : Allocator) (family : List (Finset CTxDestination)) :
    ∃ st, family.foldlM (joinGrouping alloc) .initial = some st ∧ st.Sound family := by
  induction family using List.reverseRecOn with
  | nil => exact ⟨.initial, rfl, JoinState.initial_sound⟩
  | append_singleton family grouping ih =>
    obtain ⟨st, hst, hsound⟩ := ih
    obtain ⟨st', all, merged, hst', hjoin⟩ := hsound.exists_joins alloc grouping
    refine ⟨st', ?_, hsound.of_joins hjoin⟩
    rw [List.foldlM_append, hst]
    show [grouping].foldlM (joinGrouping alloc) st = some st'
    rw [List.foldlM_cons, hst']
    rfl

theorem returnGroups_spec (heap : Heap) {pointers : List Ptr} (ret : Finset (Finset CTxDestination))
    (hnodup : pointers.Nodup) (hlive : ∀ p ∈ pointers, ∃ group, heap[p]? = some group) :
    ∃ heap' ret', pointers.foldlM returnGroup (heap, ret) = some (heap', ret') ∧
      (∀ p : Ptr, heap'[p]? = if p ∈ pointers then none else heap[p]?) ∧
      ∀ group, group ∈ ret' ↔ group ∈ ret ∨ ∃ p ∈ pointers, heap[p]? = some group := by
  induction pointers generalizing heap ret with
  | nil => exact ⟨heap, ret, rfl, by simp, by simp⟩
  | cons p pointers ih =>
    rw [List.nodup_cons] at hnodup
    obtain ⟨group, hgroup⟩ := hlive p List.mem_cons_self
    have hread : ∀ q : Ptr, (heap.erase p)[q]? = if p = q then none else heap[q]? := by
      intro q
      simp only [TreeMap.getElem?_erase, compare_eq_iff_eq]
    have hkept : ∀ q ∈ pointers, (heap.erase p)[q]? = heap[q]? := by
      intro q hq
      rw [hread, if_neg]
      rintro rfl
      exact hnodup.1 hq
    obtain ⟨heap', ret', hrun, hheap, hret⟩ := ih (heap.erase p) (insert group ret)
      hnodup.2 fun q hq ↦ by rw [hkept q hq]; exact hlive q (List.mem_cons_of_mem _ hq)
    refine ⟨heap', ret', ?_, fun q ↦ ?_, fun group' ↦ ?_⟩
    · rw [List.foldlM_cons, returnGroup, hgroup]
      exact hrun
    · rw [hheap, hread]
      by_cases heq : p = q
      · simp [heq]
      · simp [heq, Ne.symm heq]
    · rw [hret, Finset.mem_insert, List.exists_mem_cons_iff, hgroup, Option.some.injEq,
        eq_comm (a := group'), or_comm (a := group = group'), or_assoc]
      apply or_congr_right
      apply or_congr_right
      apply exists_congr
      intro q
      apply and_congr_right
      intro hq
      rw [hkept q hq]

/-- What is returned is the components, and every group is freed. -/
theorem joinGroupings_spec (alloc : Allocator) (groupings : List (Finset CTxDestination)) :
    ∃ heap ret, joinGroupings alloc groupings = some (heap, ret) ∧ (∀ p : Ptr, heap[p]? = none) ∧
      IsComponents {group | group ∈ ret} groupings := by
  obtain ⟨st, hst, hsound⟩ := joinGroupings_sound alloc groupings
  have hmem : ∀ p, p ∈ st.uniqueGroupings.sort ↔ ∃ group, st.heap[p]? = some group := by
    intro p
    rw [← hsound.live]
    exact Finset.mem_sort _
  obtain ⟨heap, ret, hrun, hheap, hret⟩ := returnGroups_spec st.heap ∅
    (Finset.sort_nodup st.uniqueGroupings _) fun p hp ↦ (hmem p).mp hp
  refine ⟨heap, ret, ?_, fun p ↦ ?_, ?_⟩
  · rw [joinGroupings, hst]
    exact hrun
  · rw [hheap]
    split
    · rfl
    · next hp =>
      cases hgroup : st.heap[p]? with
      | none => rfl
      | some group => exact absurd ((hmem p).mpr ⟨group, hgroup⟩) hp
  · have hblocks : {group | group ∈ ret} = {group | ∃ p : Ptr, st.heap[p]? = some group} := by
      ext group
      rw [Set.mem_ofPred_eq, Set.mem_ofPred_eq, hret]
      simp only [Finset.notMem_empty, false_or]
      apply exists_congr
      intro p
      exact and_iff_right_of_imp fun hgroup ↦ (hmem p).mpr ⟨group, hgroup⟩
    rw [hblocks]
    exact hsound.components

/-- No pointer to a deleted group: the pointers in use are those of groups, and an address is mapped to
a group that it is in. -/
structure JoinState.NoStalePointer (st : JoinState) : Prop where
  uniqueGroupings : ∀ p ∈ st.uniqueGroupings, p ∈ st.heap
  setmap : ∀ a p, st.setmap a = some p → ∃ group, st.heap[p]? = some group ∧ a ∈ group

theorem JoinState.Sound.noStalePointer (h : st.Sound family) : st.NoStalePointer where
  uniqueGroupings p hp := by
    obtain ⟨group, hgroup⟩ := (h.live p).mp hp
    exact TreeMap.isSome_getElem?_iff_mem.mp (Option.isSome_of_eq_some hgroup)
  setmap a p hp := (h.mapped a p).mp hp

/-- Groupings are joined correctly: no pointer is stale after any number of them, and the result is a
partition into the linked addresses. -/
structure JoinsCorrectly (alloc : Allocator) (groupings : List (Finset CTxDestination)) : Prop where
  pointers : ∀ processed, processed <+: groupings →
    ∃ st, processed.foldlM (joinGrouping alloc) .initial = some st ∧ st.NoStalePointer
  result : ∃ heap ret, joinGroupings alloc groupings = some (heap, ret) ∧ (∀ p : Ptr, heap[p]? = none) ∧
    IsPartition {group | group ∈ ret} groupings ∧
    ∀ a b, (∃ group ∈ ret, a ∈ group ∧ b ∈ group) ↔ Linked groupings a b

/-- Groupings are joined correctly just if none of them is empty. -/
theorem joinsCorrectly_iff (alloc : Allocator) (groupings : List (Finset CTxDestination)) :
    JoinsCorrectly alloc groupings ↔ ∅ ∉ groupings := by
  obtain ⟨heap, ret, hrun, hfreed, hcomponents⟩ := joinGroupings_spec alloc groupings
  constructor
  · intro h
    obtain ⟨heap', ret', hrun', -, hpartition, -⟩ := h.result
    rw [hrun] at hrun'
    cases hrun'
    exact hcomponents.isPartition_iff.mp hpartition
  · intro h
    refine ⟨fun processed _ ↦ ?_, heap, ret, hrun, hfreed, hcomponents.isPartition_iff.mpr h,
      hcomponents.together⟩
    obtain ⟨st, hst, hsound⟩ := joinGroupings_sound alloc processed
    exact ⟨st, hst, hsound.noStalePointer⟩

/-- Every new object goes behind all others. -/
def Allocator.bump : Allocator where
  new heap := heap.keys.sum + 1
  new_notMem heap hmem := by
    have hle := List.le_sum_of_mem (TreeMap.mem_keys.mpr hmem)
    exact Nat.not_succ_le_self _ hle

/-- A script with a public key that pays to no single address. -/
def bareMultisig : CScript := 0x51 :: 0x21 :: List.replicate 33 2 ++ [0x51, 0xae]

def multisigOwner : GroupingEnv where
  isMine scriptPubKey := scriptPubKey == bareMultisig
  isMineAddress _ := false
  getID _ := 0
  mapAddressBook _ := false
  nAdjustedTime := 0

/-- A wallet that has received to a bare multisig script, and has spent that. -/
def multisigWallet : MapWallet :=
  let coin : CWalletTx := { newWalletTx 0 with vout := [⟨2, bareMultisig⟩] }
  let spend : CWalletTx := { newWalletTx 0 with vin := [⟨⟨1, 0⟩, [], 0⟩], vout := [⟨1, []⟩] }
  (TreeMap.empty.insert 1 coin).insert 2 spend

/-- The spent script is solved but has no address, so that an empty grouping is collected, and returned
as a group. -/
theorem joinsCorrectly_multisigWallet :
    (solver bareMultisig .nonstandard []).2.1 = .multisig ∧
      (runOn (collectGroupings multisigOwner) multisigWallet).1.toOption = some [∅] ∧
      (joinGroupings .bump [∅]).map Prod.snd = some {∅} ∧ ¬ JoinsCorrectly .bump [∅] := by
  have hret : (joinGroupings .bump [∅]).map Prod.snd = some {∅} := by decide +kernel
  refine ⟨by decide, by decide, hret, fun h ↦ ?_⟩
  obtain ⟨heap, ret, hrun, -, hpartition, -⟩ := h.result
  rw [hrun] at hret
  cases hret
  exact Finset.not_nonempty_empty (hpartition.nonempty ∅ (Finset.mem_singleton_self ∅))

end Electra.Wallet
