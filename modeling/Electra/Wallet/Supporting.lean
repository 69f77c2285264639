import Electra.Ledger.OrphanTxSync
import Electra.Wallet.Trusted

/-!
# Supporting transactions

A new wallet transaction is stored with copies of the transactions that it depends on, back to such as are
three blocks deep, so that they can be put into a memory pool together.

The supporting transactions stand in the reverse of the order in which they are found.  A transaction stands
behind what it spends if the first path to it goes before the first paths to these; one that is found later
than something it spends, on a longer path or over a later input, stands in front of it, and one pass over
the list does not get it into the memory pool.
-/

namespace Electra.Wallet

open Chain Foundations.BreadthFirst

section

def COPY_DEPTH : ℤ := 3

/-- What copies are looked up in. -/
structure SupportEnv where
  P : ChainParams
  files : BlockFiles
  node : NodeState
  mapWallet : Uint256 → Option SupportedTx

variable (env : SupportEnv)

/-- `SetMerkleBranch` without a block: the copy with the block it is in, and its depth in the main chain. -/
def setMerkleBranch (tx : CMerkleTx) : CMerkleTx × ℤ :=
  -- Load the block this tx is in
  match env.node.txdb.readTxIndex (env.P.hashTx tx.toCTransaction) with
  | none => (tx, 0)
  | some txindex =>
      match env.files.readBlock txindex.pos.nFile txindex.pos.nBlockPos with
      | none => (tx, 0)
      | some block =>
          -- Locate the transaction
          if tx.toCTransaction ∈ block.vtx then
            let nIndex := block.vtx.idxOf tx.toCTransaction
            ({ tx with
                hashBlock := block.getHash env.P
                vMerkleBranch := getMerkleBranch env.P block nIndex
                nIndex := nIndex },
              -- Is the tx in a block that's in the main chain
              match env.node.mapBlockIndex (block.getHash env.P) with
              | none => 0
              | some pindex =>
                  if isInMainChain env.node pindex then env.node.pindexBest.nHeight - pindex.nHeight + 1
                  else 0)
          else
            ({ tx with hashBlock := block.getHash env.P, vMerkleBranch := [], nIndex := -1 }, 0)

def readDiskTx (hash : Uint256) : Option CMerkleTx := do
  let txindex ← env.node.txdb.readTxIndex hash
  let tx ← env.files.readTx txindex.pos.nFile txindex.pos.nTxPos
  return ⟨tx, 0, [], -1, false⟩

/-- The copy for a hash: from the wallet, from the copies of wallet transactions, or from the disk. -/
def copyOf (mapWalletPrev : Uint256 → Option CMerkleTx) (hash : Uint256) : Option CMerkleTx :=
  match env.mapWallet hash with
  | some wtx => some wtx.toCMerkleTx
  | none =>
      match mapWalletPrev hash with
      | some tx => some tx
      | none => readDiskTx env hash

/-- The copies that are stored with a wallet transaction become known. -/
def enterPrev (mapWalletPrev : Uint256 → Option CMerkleTx) (hash : Uint256) : Uint256 → Option CMerkleTx :=
  match env.mapWallet hash with
  | none => mapWalletPrev
  | some wtx => wtx.vtxPrev.foldl
      (fun map tx ↦ Function.update map (env.P.hashTx tx.toCTransaction) (some tx)) mapWalletPrev

structure SupportState where
  setAlreadyDone : List Uint256
  mapWalletPrev : Uint256 → Option CMerkleTx
  vtxPrev : List CMerkleTx

/-- One hash that was not done yet: its copy is stored, and what it spends goes to the queue. -/
def supportTurn (s : SupportState) (hash : Uint256) : SupportState × List Uint256 :=
  let s' := { s with
    setAlreadyDone := s.setAlreadyDone ++ [hash]
    mapWalletPrev := enterPrev env s.mapWalletPrev hash }
  match copyOf env s.mapWalletPrev hash with
  -- unsupported transaction
  | none => (s', [])
  | some tx =>
      let (tx, nDepth) := setMerkleBranch env tx
      ({ s' with vtxPrev := s.vtxPrev ++ [tx] },
        if nDepth < COPY_DEPTH then tx.vin.map fun txin ↦ txin.prevout.hash else [])

def supportLoop : ℕ → SupportState → List Uint256 → Option SupportState
  | _, s, [] => some s
  | 0, _, _ :: _ => none
  | fuel + 1, s, hash :: vWorkQueue =>
      if hash ∈ s.setAlreadyDone then supportLoop fuel s vWorkQueue
      else
        let (s, hashes) := supportTurn env s hash
        supportLoop fuel s (vWorkQueue ++ hashes)

def addSupportingTransactions (fuel : ℕ) (wtx : SupportedTx) : Option SupportedTx :=
  let (tx, nDepth) := setMerkleBranch env wtx.toCMerkleTx
  let wtx := { wtx with
    hashBlock := tx.hashBlock
    vMerkleBranch := tx.vMerkleBranch
    nIndex := tx.nIndex }
  if nDepth < COPY_DEPTH then
    (supportLoop env fuel ⟨[], fun _ ↦ none, []⟩ (wtx.vin.map fun txin ↦ txin.prevout.hash)).map
      fun s ↦ { wtx with vtxPrev := s.vtxPrev.reverse }
  else some { wtx with vtxPrev := [] }

/-- One supporting transaction is put into the pool unless it is there or in the index. -/
def acceptPrev (fCheckInputs : Bool) (pool : CTxMemPool) (tx : CMerkleTx) : CTxMemPool :=
  let hash := env.P.hashTx tx.toCTransaction
  if tx.isCoinBase || tx.isCoinStake || (pool.mapTx.lookup hash).isSome ||
      env.node.txdb.containsTx hash then pool
  else
    match CTxMemPool.accept env.P env.files env.node.txdb env.node.pindexBest pool tx.toCTransaction
        fCheckInputs with
    | .ok pool => pool
    | .error _ => pool

/-- Add previous supporting transactions first. -/
def acceptWalletTransaction (fCheckInputs : Bool) (pool : CTxMemPool) (wtx : SupportedTx) :
    Bool × CTxMemPool :=
  let pool := wtx.vtxPrev.foldl (acceptPrev env fCheckInputs) pool
  match CTxMemPool.accept env.P env.files env.node.txdb env.node.pindexBest pool wtx.toCTransaction
      fCheckInputs with
  | .ok pool => (true, pool)
  | .error _ => (false, pool)

/-- What is known after some hashes are done. -/
def prevMap (history : List Uint256) : Uint256 → Option CMerkleTx := history.foldl (enterPrev env) fun _ ↦ none

/-- The copy of a hash with its depth. -/
def look (history : List Uint256) (hash : Uint256) : Option (CMerkleTx × ℤ) :=
  (copyOf env (prevMap env history) hash).map (setMerkleBranch env)

def spentHashes (found : Option (CMerkleTx × ℤ)) : List Uint256 :=
  match found with
  | none => []
  | some (tx, nDepth) => if nDepth < COPY_DEPTH then tx.vin.map fun txin ↦ txin.prevout.hash else []

variable {env} {fuel : ℕ} {s : SupportState} {hash : Uint256} {visits vWorkQueue : List Uint256}
  {found : Uint256 → Option (CMerkleTx × ℤ)}

theorem prevMap_concat (history : List Uint256) (hash : Uint256) :
    prevMap env (history ++ [hash]) = enterPrev env (prevMap env history) hash := by
  rw [prevMap, List.foldl_append]
  rfl

/-- One turn, when the copies are those of the hashes that are done. -/
theorem supportTurn_eq (hprev : s.mapWalletPrev = prevMap env s.setAlreadyDone) :
    supportTurn env s hash =
      (⟨s.setAlreadyDone ++ [hash], prevMap env (s.setAlreadyDone ++ [hash]),
        s.vtxPrev ++ ((look env s.setAlreadyDone hash).map Prod.fst).toList⟩,
        spentHashes (look env s.setAlreadyDone hash)) := by
  unfold supportTurn look
  rw [hprev, prevMap_concat]
  cases copyOf env (prevMap env s.setAlreadyDone) hash with
  | none => simp [spentHashes]
  | some tx => simp [spentHashes]

theorem supportLoop_eq (h : explore (look env) spentHashes fuel s.setAlreadyDone vWorkQueue = some visits)
    (hlooked : ∀ pre k post, visits = pre ++ k :: post → look env pre k = found k)
    (hprev : s.mapWalletPrev = prevMap env s.setAlreadyDone)
    (hvtx : s.vtxPrev = s.setAlreadyDone.filterMap fun hash ↦ (found hash).map Prod.fst) :
    ∃ t, supportLoop env fuel s vWorkQueue = some t ∧
      t.vtxPrev = visits.filterMap fun hash ↦ (found hash).map Prod.fst := by
  induction fuel generalizing s vWorkQueue with
  | zero =>
    cases vWorkQueue with
    | nil =>
      obtain rfl := Option.some.inj h
      exact ⟨s, rfl, hvtx⟩
    | cons hash vWorkQueue => cases h
  | succ fuel ih =>
    cases vWorkQueue with
    | nil =>
      obtain rfl := Option.some.inj h
      exact ⟨s, rfl, hvtx⟩
    | cons hash vWorkQueue =>
      rw [explore] at h
      rw [supportLoop]
      split at h
      · next hdone =>
        rw [if_pos hdone]
        exact ih h hprev hvtx
      · next hnew =>
        rw [if_neg hnew, supportTurn_eq hprev]
        apply ih h
        · rfl
        · obtain ⟨post, hpost⟩ := explore_starts h
          have hfound : look env s.setAlreadyDone hash = found hash :=
            hlooked s.setAlreadyDone hash post (by rw [← hpost, List.append_assoc]; rfl)
          rw [hvtx, hfound, List.filterMap_append, List.filterMap_cons, List.filterMap_nil]
          cases found hash <;> rfl

/-- A search that does not end is a loop that does not end. -/
theorem exists_explore_of_supportLoop {t : SupportState} (h : supportLoop env fuel s vWorkQueue = some t)
    (hprev : s.mapWalletPrev = prevMap env s.setAlreadyDone) :
    ∃ visits, explore (look env) spentHashes fuel s.setAlreadyDone vWorkQueue = some visits := by
  induction fuel generalizing s vWorkQueue with
  | zero =>
    cases vWorkQueue with
    | nil => exact ⟨s.setAlreadyDone, rfl⟩
    | cons hash vWorkQueue => cases h
  | succ fuel ih =>
    cases vWorkQueue with
    | nil => exact ⟨s.setAlreadyDone, rfl⟩
    | cons hash vWorkQueue =>
      rw [supportLoop] at h
      rw [explore]
      split at h
      · next hdone =>
        rw [if_pos hdone]
        exact ih h hprev
      · next hnew =>
        rw [if_neg hnew]
        rw [supportTurn_eq hprev] at h
        exact ih h rfl

end

open Ledger

variable (env : SupportEnv)

def SpendsHash (tx : CTransaction) (hash : Uint256) : Prop := ∃ txin ∈ tx.vin, txin.prevout.hash = hash

def CMerkleTx.getHash (tx : CMerkleTx) : Uint256 := env.P.hashTx tx.toCTransaction

/-- No transaction spends an output of one that stands behind it. -/
def ParentsFirst (vtxPrev : List CMerkleTx) : Prop :=
  vtxPrev.Pairwise fun tx later ↦ ¬ SpendsHash tx.toCTransaction (later.getHash env)

/-- A transaction that has to go into the memory pool. -/
def isUnconfirmed (tx : CMerkleTx) : Bool :=
  !tx.isCoinBase && !tx.isCoinStake && !env.node.txdb.containsTx (tx.getHash env)

/-- The pool of some transactions. -/
def poolOf (txs : List CMerkleTx) : CTxMemPool :=
  txs.foldl (fun pool tx ↦ pool.addUnchecked (tx.getHash env) tx.toCTransaction) .empty

/-- A transaction that the pool takes as soon as what it spends is there, if that is unconfirmed, next to
others of the list. -/
def Acceptable (fCheckInputs : Bool) (vtxPrev : List CMerkleTx) (tx : CTransaction) : Prop :=
  ∀ txs : List CMerkleTx, txs.Sublist (vtxPrev.filter (isUnconfirmed env)) →
    (∀ other ∈ txs, other.getHash env ≠ env.P.hashTx tx) →
    (∀ parent ∈ vtxPrev, isUnconfirmed env parent = true → parent.getHash env ≠ env.P.hashTx tx →
      SpendsHash tx (parent.getHash env) → parent ∈ txs) →
    ∃ pool, CTxMemPool.accept env.P env.files env.node.txdb env.node.pindexBest (poolOf env txs) tx
      fCheckInputs = .ok pool

/-- One pass puts the transaction and all it depends on into the empty pool, if each of them is acceptable. -/
def PassAccepts (wtx : SupportedTx) : Prop :=
  ∀ fCheckInputs, (∀ tx ∈ wtx.vtxPrev, isUnconfirmed env tx = true →
      Acceptable env fCheckInputs wtx.vtxPrev tx.toCTransaction) →
    Acceptable env fCheckInputs wtx.vtxPrev wtx.toCTransaction →
    let pool := (acceptWalletTransaction env fCheckInputs .empty wtx).2
    (∀ tx ∈ wtx.vtxPrev, isUnconfirmed env tx = true →
      (pool.mapTx.lookup (tx.getHash env)).isSome = true) ∧
    (pool.mapTx.lookup (env.P.hashTx wtx.toCTransaction)).isSome = true

/-- A hash stands for a transaction that has it. -/
structure KeyedEnv : Prop where
  wallet : ∀ hash wtx, env.mapWallet hash = some wtx → env.P.hashTx wtx.toCTransaction = hash
  disk : ∀ hash tx, readDiskTx env hash = some tx → tx.getHash env = hash

def startHashes (wtx : SupportedTx) : List Uint256 := wtx.vin.map fun txin ↦ txin.prevout.hash

/-- Whenever one of the transactions that are found spends another one, the first path to it goes before
the paths to the other one. -/
def PathsInOrder (wtx : SupportedTx) : Prop :=
  (setMerkleBranch env wtx.toCMerkleTx).2 < COPY_DEPTH →
    ∃ found, Consistent (look env) spentHashes (startHashes wtx) found ∧
      ∀ x y tx nDepth, x ≠ y → (∃ p, PathTo (spentHashes ∘ found) (startHashes wtx) p x) →
        (∃ q, PathTo (spentHashes ∘ found) (startHashes wtx) q y) → found x = some (tx, nDepth) →
        (found y).isSome = true → SpendsHash tx.toCTransaction y →
          ReachedBefore (spentHashes ∘ found) (startHashes wtx) x y

variable {env} {fuel : ℕ} {wtx wtx' : SupportedTx} {tx : CMerkleTx} {hash : Uint256} {visits : List Uint256}
  {found : Uint256 → Option (CMerkleTx × ℤ)} {vtxPrev txs : List CMerkleTx}

theorem toCTransaction_setMerkleBranch (tx : CMerkleTx) :
    (setMerkleBranch env tx).1.toCTransaction = tx.toCTransaction := by
  unfold setMerkleBranch
  split
  · rfl
  · split
    · rfl
    · split <;> rfl

theorem getHash_enterPrev {map : Uint256 → Option CMerkleTx}
    (hmap : ∀ k tx, map k = some tx → tx.getHash env = k) :
    ∀ k tx, enterPrev env map hash k = some tx → tx.getHash env = k := by
  unfold enterPrev
  cases env.mapWallet hash with
  | none => exact hmap
  | some wtx =>
    dsimp only
    induction wtx.vtxPrev generalizing map with
    | nil => exact hmap
    | cons prev vtxPrev ih =>
      apply ih
      intro k tx htx
      dsimp only at htx
      by_cases hsame : k = env.P.hashTx prev.toCTransaction
      · rw [hsame, Function.update_self] at htx
        rw [← Option.some.inj htx, hsame]
        rfl
      · rw [Function.update_of_ne hsame] at htx
        exact hmap k tx htx

theorem getHash_prevMap (history : List Uint256) :
    ∀ k tx, prevMap env history k = some tx → tx.getHash env = k := by
  induction history using List.reverseRecOn with
  | nil =>
    intro k tx h
    cases h
  | append_singleton history hash ih =>
    rw [prevMap_concat]
    exact getHash_enterPrev ih

theorem getHash_look (hkeyed : KeyedEnv env) {history : List Uint256} {nDepth : ℤ}
    (h : look env history hash = some (tx, nDepth)) : tx.getHash env = hash := by
  obtain ⟨copy, hcopy, hset⟩ := Option.map_eq_some_iff.mp h
  have hsame : tx.toCTransaction = copy.toCTransaction := by
    rw [← @toCTransaction_setMerkleBranch env copy, hset]
  rw [CMerkleTx.getHash, hsame]
  unfold copyOf at hcopy
  split at hcopy
  · next wtx hwtx =>
    rw [← Option.some.inj hcopy]
    exact hkeyed.wallet hash wtx hwtx
  · split at hcopy
    · next prev hprev =>
      rw [← Option.some.inj hcopy]
      exact getHash_prevMap history hash prev hprev
    · exact hkeyed.disk hash copy hcopy

theorem getHash_found (hkeyed : KeyedEnv env) {start : List Uint256}
    (horder : InOrder (look env) spentHashes start found visits) {nDepth : ℤ} (hhash : hash ∈ visits)
    (h : found hash = some (tx, nDepth)) : tx.getHash env = hash := by
  obtain ⟨pre, post, hsplit⟩ := List.append_of_mem hhash
  rw [← horder.looked pre hash post hsplit] at h
  exact getHash_look hkeyed h

def listed (found : Uint256 → Option (CMerkleTx × ℤ)) (hash : Uint256) : Option CMerkleTx :=
  (found hash).map Prod.fst

theorem exists_of_listed (h : listed found hash = some tx) : ∃ nDepth, found hash = some (tx, nDepth) := by
  obtain ⟨⟨copy, nDepth⟩, hfound, rfl⟩ := Option.map_eq_some_iff.mp h
  exact ⟨nDepth, hfound⟩

/-- The list when the transaction is not deep in the chain. -/
theorem exists_visits (h : addSupportingTransactions env fuel wtx = some wtx')
    (hdepth : (setMerkleBranch env wtx.toCMerkleTx).2 < COPY_DEPTH) :
    ∃ visits, explore (look env) spentHashes fuel [] (startHashes wtx) = some visits ∧
      ∀ found, InOrder (look env) spentHashes (startHashes wtx) found visits →
        wtx'.vtxPrev = (visits.filterMap (listed found)).reverse := by
  unfold addSupportingTransactions at h
  dsimp only at h
  rw [if_pos hdepth] at h
  obtain ⟨t, ht, rfl⟩ := Option.map_eq_some_iff.mp h
  obtain ⟨visits, hvisits⟩ := exists_explore_of_supportLoop ht rfl
  refine ⟨visits, hvisits, fun found horder ↦ ?_⟩
  obtain ⟨t', ht', hvtx⟩ := supportLoop_eq
    (s := ⟨[], fun _ ↦ none, []⟩) hvisits horder.looked rfl rfl
  have hsame : t = t' := Option.some.inj (ht.symm.trans ht')
  rw [hsame, hvtx]
  rfl

theorem nodup_listed (hkeyed : KeyedEnv env) {start : List Uint256}
    (horder : InOrder (look env) spentHashes start found visits) :
    ((visits.filterMap (listed found)).map (CMerkleTx.getHash env)).Nodup := by
  rw [List.Nodup, List.pairwise_map, List.pairwise_filterMap]
  apply horder.nodup.imp_of_mem
  intro x y hx hy hne tx htx tx' htx'
  obtain ⟨_, hfound⟩ := exists_of_listed htx
  obtain ⟨_, hfound'⟩ := exists_of_listed htx'
  rw [getHash_found hkeyed horder hx hfound, getHash_found hkeyed horder hy hfound']
  exact hne

/-- Parents stand first exactly when the paths to the children go first. -/
theorem parentsFirst_iff (hkeyed : KeyedEnv env) {start : List Uint256}
    (horder : InOrder (look env) spentHashes start found visits) :
    ParentsFirst env (visits.filterMap (listed found)).reverse ↔
      ∀ x y tx nDepth, x ≠ y → (∃ p, PathTo (spentHashes ∘ found) start p x) →
        (∃ q, PathTo (spentHashes ∘ found) start q y) → found x = some (tx, nDepth) →
        (found y).isSome = true → SpendsHash tx.toCTransaction y →
          ReachedBefore (spentHashes ∘ found) start x y := by
  rw [ParentsFirst, List.pairwise_reverse, List.pairwise_filterMap]
  constructor
  · intro hfirst x y tx nDepth hne hx hy hfound hsome hspends
    obtain ⟨pre, post, hsplit⟩ := List.append_of_mem ((horder.mem_iff x).mpr hx)
    rw [hsplit] at hfirst
    obtain ⟨⟨copy, nDepth'⟩, hcopy⟩ := Option.isSome_iff_exists.mp hsome
    have hvisited := (horder.mem_iff y).mpr hy
    have hhash := getHash_found hkeyed horder hvisited hcopy
    rw [hsplit] at hvisited
    obtain hpre | hrest := List.mem_append.mp hvisited
    · have hnot := (List.pairwise_append.mp hfirst).2.2 y hpre x List.mem_cons_self copy
        (by rw [listed, hcopy]; rfl) tx (by rw [listed, hfound]; rfl)
      rw [hhash] at hnot
      exact absurd hspends hnot
    · obtain rfl | hpost := List.mem_cons.mp hrest
      · exact absurd rfl hne
      · have hpairwise := horder.pairwise
        rw [hsplit] at hpairwise
        exact (List.pairwise_cons.mp (List.pairwise_append.mp hpairwise).2.1).1 y hpost
  · intro hpaths
    apply (horder.pairwise.and horder.nodup).imp_of_mem
    rintro x y hx hy ⟨hbefore, hne⟩ tx htx tx' htx' hspends
    obtain ⟨_, hfound⟩ := exists_of_listed htx
    obtain ⟨nDepth, hfound'⟩ := exists_of_listed htx'
    rw [getHash_found hkeyed horder hx hfound] at hspends
    exact hbefore.asymm (hpaths y x tx' nDepth hne.symm ((horder.mem_iff y).mp hy)
      ((horder.mem_iff x).mp hx) hfound' (by rw [hfound]; rfl) hspends)

theorem poolOf_concat (txs : List CMerkleTx) (tx : CMerkleTx) :
    poolOf env (txs ++ [tx]) = (poolOf env txs).addUnchecked (tx.getHash env) tx.toCTransaction := by
  rw [poolOf, List.foldl_append]
  rfl

theorem lookup_poolOf : ((poolOf env txs).mapTx.lookup hash).isSome = true ↔
    ∃ tx ∈ txs, tx.getHash env = hash := by
  induction txs using List.reverseRecOn with
  | nil => simp [poolOf, CTxMemPool.empty]
  | append_singleton txs tx ih =>
    rw [poolOf_concat, CTxMemPool.addUnchecked]
    by_cases hsame : hash = tx.getHash env
    · rw [hsame, AList.lookup_insert]
      simp
    · rw [AList.lookup_insert_ne hsame, ih]
      constructor
      · rintro ⟨other, hother, hhash⟩
        exact ⟨other, List.mem_append_left _ hother, hhash⟩
      · rintro ⟨other, hother, hhash⟩
        obtain hold | hlast := List.mem_append.mp hother
        · exact ⟨other, hold, hhash⟩
        · rw [List.mem_singleton.mp hlast] at hhash
          exact absurd hhash.symm hsame

/-- A transaction that is not in the pool yet is put there if it is unconfirmed. -/
theorem acceptPrev_eq {fCheckInputs : Bool} {pool : CTxMemPool}
    (hnew : (pool.mapTx.lookup (tx.getHash env)).isSome = false)
    (haccept : isUnconfirmed env tx = true → ∃ pool', CTxMemPool.accept env.P env.files env.node.txdb
      env.node.pindexBest pool tx.toCTransaction fCheckInputs = .ok pool') :
    acceptPrev env fCheckInputs pool tx =
      if isUnconfirmed env tx then pool.addUnchecked (tx.getHash env) tx.toCTransaction else pool := by
  unfold acceptPrev
  rw [CMerkleTx.getHash] at hnew
  have hskip : (tx.isCoinBase || tx.isCoinStake || (pool.mapTx.lookup (env.P.hashTx tx.toCTransaction)).isSome ||
      env.node.txdb.containsTx (env.P.hashTx tx.toCTransaction)) = !isUnconfirmed env tx := by
    rw [hnew, Bool.or_false, isUnconfirmed, Bool.not_and, Bool.not_and, Bool.not_not, Bool.not_not,
      Bool.not_not]
    rfl
  dsimp only
  rw [hskip]
  cases hunconfirmed : isUnconfirmed env tx with
  | false => rfl
  | true =>
    obtain ⟨pool', hpool'⟩ := haccept hunconfirmed
    rw [Bool.not_true, if_neg Bool.false_ne_true, if_pos rfl, hpool']
    exact (accept_eq_addUnchecked hpool').2

theorem foldl_acceptPrev {fCheckInputs : Bool} (hnodup : (vtxPrev.map (CMerkleTx.getHash env)).Nodup)
    (hfirst : ParentsFirst env vtxPrev)
    (haccept : ∀ tx ∈ vtxPrev, isUnconfirmed env tx = true →
      Acceptable env fCheckInputs vtxPrev tx.toCTransaction)
    {pre post : List CMerkleTx} (hsplit : vtxPrev = pre ++ post) :
    pre.foldl (acceptPrev env fCheckInputs) .empty = poolOf env (pre.filter (isUnconfirmed env)) := by
  induction pre using List.reverseRecOn generalizing post with
  | nil => rfl
  | append_singleton pre tx ih =>
    rw [List.append_assoc, List.singleton_append] at hsplit
    rw [List.foldl_append, ih hsplit, List.foldl_cons, List.foldl_nil, List.filter_append]
    have hmem : tx ∈ vtxPrev := by
      rw [hsplit]
      exact List.mem_append_right _ List.mem_cons_self
    have hdistinct : ∀ other ∈ pre.filter (isUnconfirmed env), other.getHash env ≠ tx.getHash env := by
      intro other hother
      rw [hsplit, List.map_append, List.nodup_append] at hnodup
      exact hnodup.2.2 _ (List.mem_map_of_mem (List.mem_filter.mp hother).1) _
        (List.mem_map_of_mem List.mem_cons_self)
    have hnew : ((poolOf env (pre.filter (isUnconfirmed env))).mapTx.lookup (tx.getHash env)).isSome = false := by
      rw [← Bool.not_eq_true, lookup_poolOf]
      rintro ⟨other, hother, hhash⟩
      exact hdistinct other hother hhash
    rw [acceptPrev_eq hnew]
    · cases hunconfirmed : isUnconfirmed env tx with
      | false =>
        rw [if_neg Bool.false_ne_true, List.filter_cons_of_neg (by rw [hunconfirmed]; exact Bool.false_ne_true),
          List.filter_nil, List.append_nil]
      | true =>
        rw [if_pos rfl, List.filter_cons_of_pos hunconfirmed, List.filter_nil, poolOf_concat]
    · intro hunconfirmed
      apply haccept tx hmem hunconfirmed _ _ hdistinct
      · intro parent hparent hparentUnconfirmed hother hspends
        rw [hsplit] at hparent hfirst
        obtain hpre | hrest := List.mem_append.mp hparent
        · exact List.mem_filter.mpr ⟨hpre, hparentUnconfirmed⟩
        · obtain rfl | hpost := List.mem_cons.mp hrest
          · exact absurd rfl hother
          · have hlater := (List.pairwise_cons.mp (List.pairwise_append.mp hfirst).2.1).1 parent hpost
            exact absurd hspends hlater
      · rw [hsplit, List.filter_append]
        exact List.sublist_append_left _ _

/-- A list with the parents first goes into the pool in one pass. -/
theorem passAccepts_of_parentsFirst (hnodup : (wtx.vtxPrev.map (CMerkleTx.getHash env)).Nodup)
    (hfirst : ParentsFirst env wtx.vtxPrev) : PassAccepts env wtx := by
  intro fCheckInputs haccept hlast
  have hpool := @foldl_acceptPrev env wtx.vtxPrev fCheckInputs hnodup hfirst haccept wtx.vtxPrev []
    (List.append_nil _).symm
  have hprev : ∀ tx ∈ wtx.vtxPrev, isUnconfirmed env tx = true →
      ((poolOf env (wtx.vtxPrev.filter (isUnconfirmed env))).mapTx.lookup (tx.getHash env)).isSome = true :=
    fun tx htx hunconfirmed ↦ lookup_poolOf.mpr ⟨tx, List.mem_filter.mpr ⟨htx, hunconfirmed⟩, rfl⟩
  unfold acceptWalletTransaction
  rw [hpool]
  dsimp only
  by_cases hthere : ∃ tx ∈ wtx.vtxPrev.filter (isUnconfirmed env),
      tx.getHash env = env.P.hashTx wtx.toCTransaction
  · have hself := lookup_poolOf.mpr hthere
    split
    · next pool hok =>
      rw [(accept_eq_addUnchecked hok).1] at hself
      cases hself
    · exact ⟨hprev, hself⟩
  · obtain ⟨pool, hok⟩ := hlast (wtx.vtxPrev.filter (isUnconfirmed env)) (List.Sublist.refl _)
      (fun other hother hhash ↦ hthere ⟨other, hother, hhash⟩)
      (fun parent hparent hunconfirmed _ _ ↦ List.mem_filter.mpr ⟨hparent, hunconfirmed⟩)
    rw [hok]
    obtain ⟨-, rfl⟩ := accept_eq_addUnchecked hok
    constructor
    · intro tx htx hunconfirmed
      have hne : tx.getHash env ≠ env.P.hashTx wtx.toCTransaction :=
        fun hhash ↦ hthere ⟨tx, List.mem_filter.mpr ⟨htx, hunconfirmed⟩, hhash⟩
      change (AList.lookup (tx.getHash env) (AList.insert _ _ _)).isSome = true
      rw [AList.lookup_insert_ne hne]
      exact hprev tx htx hunconfirmed
    · change (AList.lookup _ (AList.insert _ _ _)).isSome = true
      rw [AList.lookup_insert]
      rfl

/-- There are finitely many hashes to do. -/
theorem addSupportingTransactions_ends (env : SupportEnv) (wtx : SupportedTx) :
    ∃ wtx' bound, ∀ fuel, bound ≤ fuel → addSupportingTransactions env fuel wtx = some wtx' := by
  have hfinite : Fintype Uint256 := Fintype.ofInjective BitVec.toFin fun a b h ↦ BitVec.eq_of_toFin_eq h
  obtain ⟨visits, bound, hvisits⟩ := explore_ends (look env) spentHashes (startHashes wtx)
  obtain ⟨found, hfound⟩ := exists_consistent (hvisits bound le_rfl)
  have horder := inOrder_of_explore hfound (hvisits bound le_rfl)
  unfold addSupportingTransactions
  dsimp only
  split
  · let tx := (setMerkleBranch env wtx.toCMerkleTx).1
    refine ⟨{ wtx with
      hashBlock := tx.hashBlock
      vMerkleBranch := tx.vMerkleBranch
      nIndex := tx.nIndex
      vtxPrev := (visits.filterMap (listed found)).reverse }, bound, fun fuel hfuel ↦ ?_⟩
    obtain ⟨t, ht, hvtx⟩ := supportLoop_eq (s := ⟨[], fun _ ↦ none, []⟩) (hvisits fuel hfuel)
      horder.looked rfl rfl
    rw [startHashes] at ht
    rw [ht, Option.map_some, hvtx]
    rfl
  · exact ⟨_, 0, fun _ _ ↦ rfl⟩

theorem parentsFirst_iff_pathsInOrder (hkeyed : KeyedEnv env)
    (h : addSupportingTransactions env fuel wtx = some wtx') :
    ((wtx'.vtxPrev.map (CMerkleTx.getHash env)).Nodup ∧ ParentsFirst env wtx'.vtxPrev ∧
      PassAccepts env wtx') ↔ PathsInOrder env wtx := by
  by_cases hdepth : (setMerkleBranch env wtx.toCMerkleTx).2 < COPY_DEPTH
  · obtain ⟨visits, hvisits, hlist⟩ := exists_visits h hdepth
    have hall : ∀ found, InOrder (look env) spentHashes (startHashes wtx) found visits →
        (wtx'.vtxPrev.map (CMerkleTx.getHash env)).Nodup := by
      intro found horder
      rw [hlist found horder, List.map_reverse, List.nodup_reverse]
      exact nodup_listed hkeyed horder
    constructor
    · rintro ⟨-, hfirst, -⟩ -
      obtain ⟨found, hfound⟩ := exists_consistent hvisits
      have horder := inOrder_of_explore hfound hvisits
      rw [hlist found horder] at hfirst
      exact ⟨found, hfound, (parentsFirst_iff hkeyed horder).mp hfirst⟩
    · intro hpaths
      obtain ⟨found, hfound, hinorder⟩ := hpaths hdepth
      have horder := inOrder_of_explore hfound hvisits
      have hfirst : ParentsFirst env wtx'.vtxPrev := by
        rw [hlist found horder]
        exact (parentsFirst_iff hkeyed horder).mpr hinorder
      exact ⟨hall found horder, hfirst, passAccepts_of_parentsFirst (hall found horder) hfirst⟩
  · have hempty : wtx'.vtxPrev = [] := by
      unfold addSupportingTransactions at h
      dsimp only at h
      rw [if_neg hdepth] at h
      rw [← Option.some.inj h]
    refine ⟨fun _ hless ↦ absurd hless hdepth, fun _ ↦ ?_⟩
    have hnodup : (wtx'.vtxPrev.map (CMerkleTx.getHash env)).Nodup := by
      rw [hempty]
      exact List.nodup_nil
    have hfirst : ParentsFirst env wtx'.vtxPrev := by
      rw [hempty]
      exact List.Pairwise.nil
    exact ⟨hnodup, hfirst, passAccepts_of_parentsFirst hnodup hfirst⟩

/-- The supporting transactions are all different and stand behind what they spend, and one pass puts them
into the empty pool if each is acceptable, exactly when paths to transactions go before the paths to what
these spend. -/
theorem addSupportingTransactions_iff (env : SupportEnv) (wtx : SupportedTx) (hkeyed : KeyedEnv env) :
    ∃ wtx' bound, (∀ fuel, bound ≤ fuel → addSupportingTransactions env fuel wtx = some wtx') ∧
      (((wtx'.vtxPrev.map (CMerkleTx.getHash env)).Nodup ∧ ParentsFirst env wtx'.vtxPrev ∧
        PassAccepts env wtx') ↔ PathsInOrder env wtx) := by
  obtain ⟨wtx', bound, hends⟩ := addSupportingTransactions_ends env wtx
  exact ⟨wtx', bound, hends, parentsFirst_iff_pathsInOrder hkeyed (hends bound le_rfl)⟩

namespace SupportingExample

open Builders

/-- A payment, one that spends it, and one that spends both, the first one first. -/
def firstTx : CTransaction := spending 11 100 [⟨10, 0⟩] [output 5, output 6]

def secondTx : CTransaction := spending 12 200 [⟨11, 0⟩] [output 5]

def bothTx : CTransaction := spending 13 300 [⟨11, 1⟩, ⟨12, 0⟩] [output 11]

def supported (tx : CTransaction) : SupportedTx :=
  ⟨⟨⟨tx, 0, [], -1, true, []⟩, none, none, none, none⟩, false, []⟩

def twoPayments : SupportEnv where
  P := network true
  files := filesOf []
  node := emptyNode []
  mapWallet := fun hash ↦
    if hash = 11 then some (supported firstTx) else if hash = 12 then some (supported secondTx) else none

theorem keyed_twoPayments : KeyedEnv twoPayments where
  wallet := by
    intro hash wtx h
    change (if hash = 11 then some (supported firstTx) else
      if hash = 12 then some (supported secondTx) else none) = some wtx at h
    split at h
    · next hhash =>
      rw [← Option.some.inj h, hhash]
      rfl
    · split at h
      · next hhash =>
        rw [← Option.some.inj h, hhash]
        rfl
      · cases h
  disk := by
    intro hash tx h
    cases h

/-- The payment that spends one other is stored with this one. -/
theorem secondTx_iff : ∃ wtx' bound,
    (∀ fuel, bound ≤ fuel → addSupportingTransactions twoPayments fuel (supported secondTx) = some wtx') ∧
      (((wtx'.vtxPrev.map (CMerkleTx.getHash twoPayments)).Nodup ∧ ParentsFirst twoPayments wtx'.vtxPrev ∧
        PassAccepts twoPayments wtx') ↔ PathsInOrder twoPayments (supported secondTx)) :=
  addSupportingTransactions_iff twoPayments (supported secondTx) keyed_twoPayments

/-- The second payment stands in front of the first one, which it spends. -/
theorem not_parentsFirst : ¬∀ (env : SupportEnv) (wtx : SupportedTx), KeyedEnv env →
    ∃ wtx' bound, (∀ fuel, bound ≤ fuel → addSupportingTransactions env fuel wtx = some wtx') ∧
      (wtx'.vtxPrev.map (CMerkleTx.getHash env)).Nodup ∧ ParentsFirst env wtx'.vtxPrev ∧
        PassAccepts env wtx' := by
  intro h
  obtain ⟨wtx', bound, hends, -, hfirst, -⟩ := h twoPayments (supported bothTx) keyed_twoPayments
  have hresult : (addSupportingTransactions twoPayments (bound + 5) (supported bothTx)).map SupportedTx.vtxPrev =
      some [(supported secondTx).toCMerkleTx, (supported firstTx).toCMerkleTx] := by rfl
  rw [hends (bound + 5) (Nat.le_add_right bound 5), Option.map_some] at hresult
  rw [Option.some.inj hresult] at hfirst
  have hnot := (List.pairwise_cons.mp hfirst).1 _ (List.mem_singleton_self _)
  exact hnot ⟨⟨⟨11, 0⟩, [], uintMax⟩, List.mem_singleton_self _, rfl⟩

end SupportingExample

end Electra.Wallet
