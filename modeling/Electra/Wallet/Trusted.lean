import Electra.Foundations.BreadthFirst
import Electra.Node.Maturity
import Electra.Wallet.CachedAmounts

/-!
# Trusted transactions

A wallet transaction that is in no block is trusted if it is from us and all the transactions that it
depends on are in blocks or are from us too.  They are looked up among the copies that are stored with it,
and each of them may come up on several paths.
-/

namespace Electra.Wallet

open Chain Foundations.TreeSearch Relation

/-- A transaction with the block that it is in. -/
structure CMerkleTx extends CTransaction where
  hashBlock : Uint256
  vMerkleBranch : List Uint256
  nIndex : ℤ
  fMerkleVerified : Bool

/-- A wallet transaction with the copies of the transactions that it depends on. -/
structure SupportedTx extends CachingTx where
  fMerkleVerified : Bool
  vtxPrev : List CMerkleTx

def SupportedTx.toCMerkleTx (wtx : SupportedTx) : CMerkleTx :=
  ⟨wtx.toCTransaction, wtx.hashBlock, wtx.vMerkleBranch, wtx.nIndex, wtx.fMerkleVerified⟩

/-- What trust depends on, apart from the transaction. -/
structure TrustEnv where
  owner : OwnerEnv
  wallet : CachingWallet
  node : NodeState
  nAdjustedTime : ℤ
  fConfChange : Bool

/-- How the search ends early. -/
inductive TrustStop
  | returnsFalse
  | thrown
deriving DecidableEq

variable (env : TrustEnv)

namespace CMerkleTx

def isFinal (tx : CMerkleTx) : Bool := tx.toCTransaction.isFinal env.node.nBestHeight env.nAdjustedTime 0 0

/-- The search for the block leaves the flag set only when it finds it, and then finds it again. -/
def getDepthInMainChain (tx : CMerkleTx) : ℤ :=
  CWalletTx.getDepthInMainChain env.owner.P env.node
    ⟨tx.toCTransaction, tx.hashBlock, tx.vMerkleBranch, tx.nIndex, false, []⟩ tx.fMerkleVerified

end CMerkleTx

/-- The last copy with a hash. -/
def mapPrev (vtxPrev : List CMerkleTx) (hash : Uint256) : Option CMerkleTx :=
  vtxPrev.reverse.find? fun tx ↦ env.owner.P.hashTx tx.toCTransaction = hash

def prevOf (vtxPrev : List CMerkleTx) (txin : CTxIn) : Except TrustStop CMerkleTx :=
  match mapPrev env vtxPrev txin.prevout.hash with
  | none => .error .returnsFalse
  | some tx => .ok tx

/-- One turn of the work queue: what the transaction depends on. -/
def trustTurn (vtxPrev : List CMerkleTx) (ptx : CMerkleTx) : Except TrustStop (List CMerkleTx) :=
  if !ptx.isFinal env then .error .returnsFalse
  else if ptx.getDepthInMainChain env ≥ 1 then .ok []
  else if ptx.getDepthInMainChain env < 0 then .error .returnsFalse
  else
    match env.wallet.getDebit env.owner ptx.toCTransaction with
    | none => .error .thrown
    | some nDebit => if nDebit > 0 then ptx.vin.mapM (prevOf env vtxPrev) else .error .returnsFalse

/-- Whether the transaction is trusted, unless a sum of amounts throws. -/
def isTrusted (fuel : ℕ) (wtx : SupportedTx) : Option (Except Unit Bool) :=
  let nDepth := wtx.toCMerkleTx.getDepthInMainChain env
  if !wtx.toCMerkleTx.isFinal env then some (.ok false)
  else if nDepth ≥ 1 then some (.ok true)
  else if nDepth < 0 then some (.ok false)
  else if env.fConfChange then some (.ok false)
  else
    -- using wtx's cached debit
    match wtx.toCachingTx.getDebit env.owner env.wallet with
    | none => some (.error ())
    | some nDebit =>
        if nDebit > 0 then
          (search (trustTurn env wtx.vtxPrev) fuel [wtx.toCMerkleTx]).map fun result ↦
            match result with
            | .ok () => .ok true
            | .error .returnsFalse => .ok false
            | .error .thrown => .error ()
        else some (.ok false)

/-- What a transaction adds to `GetBalance`. -/
def balancePart (fuel : ℕ) (wtx : SupportedTx) (nBlocksToMaturity : ℤ) : Option ℤ :=
  match isTrusted env fuel wtx with
  | some (.ok true) => wtx.toCachingTx.getAvailableCredit env.owner env.wallet nBlocksToMaturity true
  | some (.ok false) => some 0
  | _ => none

def getBalance (fuel : ℕ) (mapWallet : List (SupportedTx × ℤ)) : Option ℤ :=
  mapWallet.foldlM (fun nTotal entry ↦ (balancePart env fuel entry.1 entry.2).map (nTotal + ·)) 0

/-- One transaction spends an output of another one. -/
def Spends (txs : List CMerkleTx) (hash prevHash : Uint256) : Prop :=
  ∃ tx ∈ txs, env.owner.P.hashTx tx.toCTransaction = hash ∧ ∃ txin ∈ tx.vin, txin.prevout.hash = prevHash

/-- The transaction, and what it depends on without passing one that is in a block. -/
inductive Reached (wtx : SupportedTx) : CMerkleTx → Prop
  | self : Reached wtx wtx.toCMerkleTx
  | prev {ptx prev : CMerkleTx} {txin : CTxIn} (hptx : Reached wtx ptx)
      (hdepth : ptx.getDepthInMainChain env < 1) (htxin : txin ∈ ptx.vin)
      (hprev : mapPrev env wtx.vtxPrev txin.prevout.hash = some prev) : Reached wtx prev

/-- A transaction in the memory pool that is final and from us, and what it depends on is known. -/
structure Supported (vtxPrev : List CMerkleTx) (ptx : CMerkleTx) : Prop where
  isFinal : ptx.isFinal env = true
  getDepthInMainChain : ptx.getDepthInMainChain env = 0
  inPool : (env.node.mempool.mapTx.lookup (env.owner.P.hashTx ptx.toCTransaction)).isSome = true
  fromMe : ∃ txin ∈ ptx.vin, ∃ txout, env.wallet.output txin.prevout = some txout ∧
    env.wallet.isMine env.owner txout = true
  stored : ∀ txin ∈ ptx.vin, ∃ prev ∈ vtxPrev,
    env.owner.P.hashTx prev.toCTransaction = txin.prevout.hash

variable {env} {wtx : SupportedTx} {vtxPrev : List CMerkleTx} {ptx prev : CMerkleTx} {hash : Uint256}

theorem mapPrev_eq_some (h : mapPrev env vtxPrev hash = some prev) :
    prev ∈ vtxPrev ∧ env.owner.P.hashTx prev.toCTransaction = hash := by
  have hfound := List.find?_some h
  exact ⟨List.mem_reverse.mp (List.mem_of_find?_eq_some h), of_decide_eq_true hfound⟩

/-- What `trustTurn` appends to the queue. -/
theorem mapM_prevOf {txins : List CTxIn} {children : List CMerkleTx}
    (h : txins.mapM (prevOf env vtxPrev) = .ok children) :
    (∀ child ∈ children, ∃ txin ∈ txins, mapPrev env vtxPrev txin.prevout.hash = some child) ∧
      ∀ txin ∈ txins, ∃ child ∈ children, mapPrev env vtxPrev txin.prevout.hash = some child := by
  induction txins generalizing children with
  | nil =>
    rw [List.mapM_nil] at h
    obtain rfl := Except.ok.inj h
    exact ⟨fun _ h ↦ absurd h List.not_mem_nil, fun _ h ↦ absurd h List.not_mem_nil⟩
  | cons txin txins ih =>
    rw [List.mapM_cons, Foundations.Outcome.bind_eq_ok] at h
    obtain ⟨child, hchild, hrest⟩ := h
    rw [Foundations.Outcome.bind_eq_ok] at hrest
    obtain ⟨others, hothers, hall⟩ := hrest
    obtain rfl := Except.ok.inj hall
    obtain ⟨hfrom, hto⟩ := ih hothers
    have hfirst : mapPrev env vtxPrev txin.prevout.hash = some child := by
      unfold prevOf at hchild
      split at hchild
      · cases hchild
      · next hprev => rw [hprev, Except.ok.inj hchild]
    constructor
    · intro c hc
      obtain rfl | hold := List.mem_cons.mp hc
      · exact ⟨txin, List.mem_cons_self, hfirst⟩
      · obtain ⟨t, ht, hprev⟩ := hfrom c hold
        exact ⟨t, List.mem_cons_of_mem txin ht, hprev⟩
    · intro t ht
      obtain rfl | hold := List.mem_cons.mp ht
      · exact ⟨child, List.mem_cons_self, hfirst⟩
      · obtain ⟨c, hc, hprev⟩ := hto t hold
        exact ⟨c, List.mem_cons_of_mem child hc, hprev⟩

/-- A transaction that does not end the search is in a block, or it is from us and its inputs are stored. -/
theorem trustTurn_eq_ok {children : List CMerkleTx} (h : trustTurn env vtxPrev ptx = .ok children) :
    ptx.isFinal env = true ∧ (ptx.getDepthInMainChain env < 1 → ptx.getDepthInMainChain env = 0 ∧
      (∃ nDebit > 0, env.wallet.getDebit env.owner ptx.toCTransaction = some nDebit) ∧
      ptx.vin.mapM (prevOf env vtxPrev) = .ok children) := by
  unfold trustTurn at h
  split at h
  · cases h
  · next hfinal =>
    refine ⟨by simpa using hfinal, fun hdepth ↦ ?_⟩
    rw [if_neg (not_le.mpr hdepth)] at h
    split at h
    · cases h
    · next hnonneg =>
      split at h
      · cases h
      · next nDebit hdebit =>
        split at h
        · next hpos => exact ⟨by omega, ⟨nDebit, hpos, hdebit⟩, h⟩
        · cases h

theorem sumOfMoney_map_some {amounts : List ℤ} {nSum : ℤ} (h : sumOfMoney (amounts.map some) = some nSum) :
    nSum = amounts.sum := by
  have hfrom : ∀ nStart, (amounts.map some).foldlM (fun nSum amount ↦ do
      let nValue ← amount
      if moneyRange (nSum + nValue) then some (nSum + nValue) else none) nStart = some nSum →
        nSum = nStart + amounts.sum := by
    clear h
    induction amounts with
    | nil =>
      intro nStart h
      rw [List.sum_nil, add_zero]
      exact (Option.some.inj h).symm
    | cons nValue amounts ih =>
      intro nStart h
      rw [List.map_cons, List.foldlM_cons] at h
      by_cases hrange : moneyRange (nStart + nValue) = true
      · simp only [Option.bind_eq_bind, Option.bind_some, hrange, if_true] at h
        rw [ih _ h, List.sum_cons, add_assoc]
      · simp only [Option.bind_eq_bind, Option.bind_some, hrange] at h
        cases h
  rw [hfrom 0 h, zero_add]

/-- A debit comes from an output of ours. -/
theorem exists_isMine_of_getDebit {wallet : CachingWallet} {owner : OwnerEnv} {tx : CTransaction} {nDebit : ℤ}
    (h : wallet.getDebit owner tx = some nDebit) (hpos : nDebit > 0) :
    ∃ txin ∈ tx.vin, ∃ txout, wallet.output txin.prevout = some txout ∧ wallet.isMine owner txout = true := by
  by_contra hnone
  have hzero : ∀ txin ∈ tx.vin, wallet.debitOf owner txin = 0 := by
    intro txin htxin
    unfold CachingWallet.debitOf
    split
    · rfl
    · next txout hout =>
      rw [if_neg]
      exact fun hmine ↦ hnone ⟨txin, htxin, txout, hout, hmine⟩
  have hsum : nDebit = (tx.vin.map (wallet.debitOf owner)).sum := by
    apply sumOfMoney_map_some
    rw [List.map_map]
    exact h
  rw [List.sum_eq_zero (by simpa using hzero)] at hsum
  omega

theorem inPool_of_getDepthInMainChain (h : ptx.getDepthInMainChain env = 0) :
    (env.node.mempool.mapTx.lookup (env.owner.P.hashTx ptx.toCTransaction)).isSome = true := by
  unfold CMerkleTx.getDepthInMainChain CWalletTx.getDepthInMainChain at h
  dsimp only at h
  split at h
  · cases h
  · next hpool =>
    rw [← Bool.not_eq_false, ← Option.not_isNone, Bool.not_eq_false']
    exact fun hnone ↦ hpool ⟨h, hnone⟩

theorem path_of_reached {fuel : ℕ}
    (h : search (trustTurn env wtx.vtxPrev) fuel [wtx.toCMerkleTx] = some (.ok ()))
    (hptx : Reached env wtx ptx) :
    ReflTransGen (fun a b ↦ IsChild (trustTurn env wtx.vtxPrev) b a) wtx.toCMerkleTx ptx := by
  induction hptx with
  | self => exact .refl
  | @prev ptx prev txin hptx hdepth htxin hprev ih =>
    obtain ⟨children, hchildren⟩ := search_visits h (List.mem_singleton_self _) ih
    obtain ⟨-, hturn⟩ := trustTurn_eq_ok hchildren
    obtain ⟨child, hchild, hfound⟩ := (mapM_prevOf (hturn hdepth).2.2).2 txin htxin
    have heq : prev = child := Option.some.inj (hprev.symm.trans hfound)
    exact ih.tail ⟨children, hchildren, heq ▸ hchild⟩

theorem search_of_isTrusted {fuel : ℕ} (h : isTrusted env fuel wtx = some (.ok true))
    (hdepth : wtx.toCMerkleTx.getDepthInMainChain env < 1) :
    search (trustTurn env wtx.vtxPrev) fuel [wtx.toCMerkleTx] = some (.ok ()) := by
  unfold isTrusted at h
  dsimp only at h
  split at h
  · cases h
  · rw [if_neg (not_le.mpr hdepth)] at h
    split at h
    · cases h
    · split at h
      · cases h
      · split at h
        · cases h
        · split at h
          · obtain ⟨result, hresult, hend⟩ := Option.map_eq_some_iff.mp h
            rw [hresult]
            cases result with
            | ok u => rfl
            | error stop => cases stop <;> cases hend
          · cases h

/-- Children are stored, and their hashes are those of the inputs. -/
theorem isChild_trustTurn (h : IsChild (trustTurn env vtxPrev) prev ptx) :
    prev ∈ vtxPrev ∧ ∃ txin ∈ ptx.vin, txin.prevout.hash = env.owner.P.hashTx prev.toCTransaction := by
  obtain ⟨children, hchildren, hmem⟩ := h
  obtain ⟨-, hturn⟩ := trustTurn_eq_ok hchildren
  by_cases hdepth : ptx.getDepthInMainChain env < 1
  · obtain ⟨txin, htxin, hprev⟩ := (mapM_prevOf (hturn hdepth).2.2).1 prev hmem
    obtain ⟨hstored, hhash⟩ := mapPrev_eq_some hprev
    exact ⟨hstored, txin, htxin, hhash.symm⟩
  · have hempty : children = [] := by
      unfold trustTurn at hchildren
      split at hchildren
      · cases hchildren
      · rw [if_pos (not_lt.mp hdepth)] at hchildren
        exact (Except.ok.inj hchildren).symm
    rw [hempty] at hmem
    exact absurd hmem List.not_mem_nil

theorem isTrusted_ends (hacyclic : ∀ hash, ¬ TransGen (Spends env (wtx.toCMerkleTx :: wtx.vtxPrev)) hash hash) :
    ∃ result bound, ∀ fuel, bound ≤ fuel → isTrusted env fuel wtx = some result := by
  have hsearch : ∃ result bound, ∀ fuel, bound ≤ fuel →
      search (trustTurn env wtx.vtxPrev) fuel [wtx.toCMerkleTx] = some result := by
    have hclosed : ∀ ptx ∈ {tx | tx ∈ wtx.toCMerkleTx :: wtx.vtxPrev}, ∀ prev,
        IsChild (trustTurn env wtx.vtxPrev) prev ptx → prev ∈ {tx | tx ∈ wtx.toCMerkleTx :: wtx.vtxPrev} :=
      fun _ _ _ hchild ↦ List.mem_cons_of_mem _ (isChild_trustTurn hchild).1
    apply search_ends _ hclosed
    · intro ptx hptx
      rw [List.mem_singleton.mp hptx]
      exact List.mem_cons_self
    · apply wellFounded_of_acyclic (List.finite_toSet
        ((wtx.toCMerkleTx :: wtx.vtxPrev).map fun tx ↦ env.owner.P.hashTx tx.toCTransaction)) hacyclic _ hclosed
      · intro ptx hptx prev hchild
        obtain ⟨-, txin, htxin, hhash⟩ := isChild_trustTurn hchild
        exact ⟨ptx, hptx, rfl, txin, htxin, hhash⟩
      · exact fun ptx hptx ↦ List.mem_map.mpr ⟨ptx, hptx, rfl⟩
  obtain ⟨result, bound, hresult⟩ := hsearch
  unfold isTrusted
  dsimp only
  split
  · exact ⟨_, 0, fun _ _ ↦ rfl⟩
  · split
    · exact ⟨_, 0, fun _ _ ↦ rfl⟩
    · split
      · exact ⟨_, 0, fun _ _ ↦ rfl⟩
      · split
        · exact ⟨_, 0, fun _ _ ↦ rfl⟩
        · split
          · exact ⟨_, 0, fun _ _ ↦ rfl⟩
          · split
            · exact ⟨_, bound, fun fuel hfuel ↦ by rw [hresult fuel hfuel, Option.map_some]⟩
            · exact ⟨_, 0, fun _ _ ↦ rfl⟩

theorem supported_of_isTrusted {fuel : ℕ} (htrusted : isTrusted env fuel wtx = some (.ok true))
    (hdepth : wtx.toCMerkleTx.getDepthInMainChain env < 1) (hptx : Reached env wtx ptx)
    (hunconfirmed : ptx.getDepthInMainChain env < 1) : Supported env wtx.vtxPrev ptx := by
  have hsearch := search_of_isTrusted htrusted hdepth
  obtain ⟨children, hchildren⟩ := search_visits hsearch (List.mem_singleton_self _)
    (path_of_reached hsearch hptx)
  obtain ⟨hfinal, hturn⟩ := trustTurn_eq_ok hchildren
  obtain ⟨hzero, ⟨nDebit, hpos, hdebit⟩, hstored⟩ := hturn hunconfirmed
  refine ⟨hfinal, hzero, inPool_of_getDepthInMainChain hzero, exists_isMine_of_getDebit hdebit hpos,
    fun txin htxin ↦ ?_⟩
  obtain ⟨prev, -, hprev⟩ := (mapM_prevOf hstored).2 txin htxin
  exact ⟨prev, mapPrev_eq_some hprev⟩

/-- `IsTrusted` ends when no transaction depends on itself.  An unconfirmed transaction that it trusts is
final, from us and in the memory pool, and so is every transaction that it depends on without passing one
that is in a block, and the inputs of all of these are stored.  No other unconfirmed transaction adds to
the balance. -/
theorem isTrusted_supported
    (hacyclic : ∀ hash, ¬ TransGen (Spends env (wtx.toCMerkleTx :: wtx.vtxPrev)) hash hash) :
    (∃ result bound, ∀ fuel, bound ≤ fuel → isTrusted env fuel wtx = some result) ∧
    (∀ fuel, isTrusted env fuel wtx = some (.ok true) → wtx.toCMerkleTx.getDepthInMainChain env < 1 →
      ∀ ptx, Reached env wtx ptx → ptx.getDepthInMainChain env < 1 → Supported env wtx.vtxPrev ptx) ∧
    ∀ fuel nBlocksToMaturity nCredit, balancePart env fuel wtx nBlocksToMaturity = some nCredit →
      nCredit ≠ 0 → wtx.toCMerkleTx.getDepthInMainChain env < 1 →
        ∀ ptx, Reached env wtx ptx → ptx.getDepthInMainChain env < 1 → Supported env wtx.vtxPrev ptx := by
  refine ⟨isTrusted_ends hacyclic, fun fuel htrusted hdepth ptx hptx ↦
    supported_of_isTrusted htrusted hdepth hptx, fun fuel nBlocksToMaturity nCredit hpart hne ↦ ?_⟩
  have htrusted : isTrusted env fuel wtx = some (.ok true) := by
    unfold balancePart at hpart
    split at hpart
    · assumption
    · exact absurd (Option.some.inj hpart).symm hne
    · cases hpart
  exact fun hdepth ptx hptx ↦ supported_of_isTrusted htrusted hdepth hptx

namespace TrustedExample

open Builders

/-- A payment to our key that is in a block, our transaction that spends it, and one that spends this; the
two are in the pool. -/
def paidTx : CTransaction := coinbase 10 100 1 [⟨5, scriptFor (.keyID 7)⟩]

def parentTx : CTransaction := spending 11 200 [⟨10, 0⟩] [⟨5, scriptFor (.keyID 7)⟩]

def childTx : CTransaction := spending 12 250 [⟨11, 0⟩] [⟨5, scriptFor (.keyID 7)⟩]

def tip : PIndex := quietIndex (network true) 2

def paid : CMerkleTx := ⟨paidTx, tip.getBlockHash, [], 0, true⟩

def parent : CMerkleTx := ⟨parentTx, 0, [], -1, false⟩

def child : SupportedTx := ⟨⟨⟨childTx, 0, [], -1, true, []⟩, none, none, none, none⟩, false, [parent, paid]⟩

def ours : TrustEnv where
  owner := ⟨network true, fun _ ↦ 0, fun _ ↦ 0⟩
  wallet := ⟨⟨{7}, ∅⟩, ∅, 0, fun hash ↦
    if hash = 10 then some ⟨⟨paidTx, tip.getBlockHash, [], 0, false, [true]⟩, none, none, none, none⟩
    else if hash = 11 then some ⟨⟨parentTx, 0, [], -1, true, [true]⟩, none, none, none, none⟩
    else none⟩
  node := { nodeAt tip (txdbOf []) with
    mempool := (CTxMemPool.empty.addUnchecked 11 parentTx).addUnchecked 12 childTx }
  nAdjustedTime := 300
  fConfChange := false

/-- Spends go from larger to smaller names. -/
theorem acyclic_child (hash : Uint256) :
    ¬ TransGen (Spends ours (child.toCMerkleTx :: child.vtxPrev)) hash hash := by
  have hlt : ∀ h h', Spends ours (child.toCMerkleTx :: child.vtxPrev) h h' →
      h'.toNat < h.toNat := by
    have hall : ∀ tx ∈ child.toCMerkleTx :: child.vtxPrev, ∀ txin ∈ tx.vin,
        txin.prevout.hash.toNat < (ours.owner.P.hashTx tx.toCTransaction).toNat := by decide
    rintro h h' ⟨tx, htx, rfl, txin, htxin, rfl⟩
    exact hall tx htx txin htxin
  intro hcycle
  have hself : ∀ h h', TransGen (Spends ours (child.toCMerkleTx :: child.vtxPrev)) h h' →
      h'.toNat < h.toNat := by
    intro h h' hpath
    induction hpath with
    | single hstep => exact hlt _ _ hstep
    | tail _ hstep ih => exact Nat.lt_trans (hlt _ _ hstep) ih
  exact Nat.lt_irrefl _ (hself hash hash hcycle)

/-- The child is trusted, and so its unconfirmed parent is in the pool and from us as well. -/
theorem child_supported : Supported ours child.vtxPrev child.toCMerkleTx ∧
    Supported ours child.vtxPrev parent := by
  have hsupported := (isTrusted_supported acyclic_child).2.1 3 (by decide) (by decide)
  refine ⟨hsupported _ .self (by decide), hsupported _ ?_ (by decide)⟩
  exact .prev .self (by decide) (List.mem_singleton_self _) rfl

end TrustedExample

end Electra.Wallet
