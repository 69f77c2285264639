import Electra.Chain.Builders
import Electra.Foundations.MarkTable
import Electra.Wallet.SpentFlags

/-!
# Rescanning the block chain

`ScanForWalletTransactions` tells the wallet about every transaction of the main chain, except for blocks
that are older than its first key.  With `fUpdate` it also brings known transactions up to date.
-/

namespace Electra.Chain

open Foundations

namespace CWallet

variable (P : ChainParams)

/-- The answer of `AddToWalletIfInvolvingMe`. -/
def involvesMe (wallet : CWallet) (tx : CTransaction) (fUpdate : Bool) : Bool :=
  let fExisted := (wallet.mapWallet (P.hashTx tx)).isSome
  !(fExisted && !fUpdate) && (fExisted || wallet.paysToMe tx || wallet.isFromMe tx)

/-- The block was created before our wallet birthday, as adjusted for block time variability. -/
def beforeBirthday (nTimeFirstKey : ℤ) (block : CBlock) : Bool :=
  nTimeFirstKey ≠ 0 && (block.nTime : ℤ) < nTimeFirstKey - 7200

/-- One turn over the transactions of a block, with the count of what was added or updated. -/
def scanTx (fUpdate : Bool) (block : CBlock) (s : CWallet × ℕ) (tx : CTransaction) : CWallet × ℕ :=
  (s.1.addToWalletIfInvolvingMe P tx block fUpdate,
    if s.1.involvesMe P tx fUpdate then s.2 + 1 else s.2)

def scanBlock (nTimeFirstKey : ℤ) (fUpdate : Bool) (s : CWallet × ℕ) (block : CBlock) : CWallet × ℕ :=
  if beforeBirthday nTimeFirstKey block then s else block.vtx.foldl (scanTx P fUpdate block) s

/-- The chain is what the blocks from `pindexStart` on read back as. -/
def scanForWalletTransactions (nTimeFirstKey : ℤ) (wallet : CWallet) (chain : List CBlock)
    (fUpdate : Bool) : CWallet × ℕ :=
  chain.foldl (scanBlock P nTimeFirstKey fUpdate) (wallet, 0)

/-- Transactions have ids of their own, and spend only what comes before them. -/
structure InOrder (txs : List CTransaction) : Prop where
  hash_nodup : (txs.map P.hashTx).Nodup
  spends_earlier : txs.Pairwise fun tx later ↦ ∀ p ∈ prevouts tx, p.hash ≠ P.hashTx later
  not_self : ∀ tx ∈ txs, ∀ p ∈ prevouts tx, p.hash ≠ P.hashTx tx

/-- The blocks of a main chain. -/
structure IsMainChain (chain : List CBlock) : Prop where
  inOrder : InOrder P (chain.flatMap CBlock.vtx)
  hash_ne_zero : ∀ block ∈ chain, block.getHash P ≠ 0

/-- The transactions that are read, with their blocks. -/
def visited (nTimeFirstKey : ℤ) (chain : List CBlock) : List (CTransaction × CBlock) :=
  (chain.filter fun block ↦ !beforeBirthday nTimeFirstKey block).flatMap fun block ↦
    block.vtx.map fun tx ↦ (tx, block)

variable {P} {w w' : CWallet} {tx later : CTransaction} {txs txs' : List CTransaction} {block : CBlock}
  {chain : List CBlock} {wtx : CWalletTx} {q : COutPoint} {nTimeFirstKey : ℤ} {fUpdate : Bool}
  {es : List (CTransaction × CBlock)} {e : CTransaction × CBlock}

theorem InOrder.sublist (h : InOrder P txs) (hsub : txs'.Sublist txs) : InOrder P txs' where
  hash_nodup := h.hash_nodup.sublist (hsub.map P.hashTx)
  spends_earlier := h.spends_earlier.sublist hsub
  not_self := fun tx htx ↦ h.not_self tx (hsub.subset htx)

theorem visited_cons : visited nTimeFirstKey (block :: chain) =
    (if beforeBirthday nTimeFirstKey block then [] else block.vtx.map fun tx ↦ (tx, block)) ++
      visited nTimeFirstKey chain := by
  unfold visited
  cases hold : beforeBirthday nTimeFirstKey block with
  | true => simp [hold]
  | false => simp [hold]

theorem scanBlock_eq_foldl (s : CWallet × ℕ) :
    (block.vtx.foldl (scanTx P fUpdate block) s).1 = (block.vtx.map fun tx ↦ (tx, block)).foldl
      (fun w e ↦ w.addToWalletIfInvolvingMe P e.1 e.2 fUpdate) s.1 := by
  rw [List.foldl_map]
  induction block.vtx generalizing s with
  | nil => rfl
  | cons tx txs ih => exact ih (scanTx P fUpdate block s tx)

theorem scan_eq_foldl (s : CWallet × ℕ) :
    (chain.foldl (scanBlock P nTimeFirstKey fUpdate) s).1 = (visited nTimeFirstKey chain).foldl
      (fun w e ↦ w.addToWalletIfInvolvingMe P e.1 e.2 fUpdate) s.1 := by
  induction chain generalizing s with
  | nil => rfl
  | cons block chain ih =>
    rw [List.foldl_cons, ih, visited_cons, List.foldl_append]
    congr 1
    unfold scanBlock
    split
    · rfl
    · exact scanBlock_eq_foldl s

/-- What a transaction of a block changes when known transactions are brought up to date. -/
structure Heard (P : ChainParams) (w : CWallet) (tx : CTransaction) (block : CBlock) (w' : CWallet) : Prop where
  isMine : w'.isMine = w.isMine
  nMinimumInputValue : w'.nMinimumInputValue = w.nMinimumInputValue
  others : ∀ h, h ≠ P.hashTx tx → (w'.mapWallet h).map (fun e ↦ (e.toCTransaction, e.hashBlock)) =
    (w.mapWallet h).map fun e ↦ (e.toCTransaction, e.hashBlock)
  entry : ∀ wtx, w'.mapWallet (P.hashTx tx) = some wtx →
    wtx.toCTransaction = tx ∧ wtx.hashBlock = block.getHash P
  involved : w.paysToMe tx = true ∨ w.isFromMe tx = true → (w'.mapWallet (P.hashTx tx)).isSome = true
  flags : ∀ q, w'.IsOwn q → w'.flag q =
    (!decide (q.hash = P.hashTx tx) && (w.flag q || decide (q ∈ prevouts tx)))

theorem addToWalletIfInvolvingMe_update : w.addToWalletIfInvolvingMe P tx block true =
    if (w.mapWallet (P.hashTx tx)).isSome || w.paysToMe tx || w.isFromMe tx then
      w.addToWallet P (walletTxInBlock P tx block)
    else w.walletUpdateSpent P tx false := by
  simp only [addToWalletIfInvolvingMe, Bool.not_true, Bool.and_false, Bool.false_eq_true, if_false]

theorem heard_of_update (hkeyed : Keyed P w tx) (hblock : block.getHash P ≠ 0) :
    Heard P w tx block (w.addToWalletIfInvolvingMe P tx block true) := by
  rw [addToWalletIfInvolvingMe_update]
  split
  · next hinvolved =>
    obtain ⟨hmine, hmin, hentries, hflags⟩ :=
      @addToWallet_spec P w tx (walletTxInBlock P tx block) hkeyed rfl hblock
    refine ⟨hmine, hmin, fun h hne ↦ ?_, fun wtx hwtx ↦ ?_, fun _ ↦ ?_, hflags⟩
    · rw [hentries, if_neg hne]
    · have hentry := hentries (P.hashTx tx)
      rw [if_pos rfl, hwtx, Option.map_some] at hentry
      exact Prod.mk.inj (Option.some.inj hentry)
    · have hentry := congrArg Option.isSome (hentries (P.hashTx tx))
      rwa [if_pos rfl, Option.isSome_map] at hentry
  · next hforeign =>
    rw [Bool.or_eq_true, Bool.or_eq_true, not_or, not_or] at hforeign
    obtain ⟨⟨hunknown, hpays⟩, hfrom⟩ := hforeign
    obtain ⟨hsame, hflags⟩ := @walletUpdateSpent_spec P tx false w fun h ↦ absurd h Bool.false_ne_true
    have hnone : (w.walletUpdateSpent P tx false).mapWallet (P.hashTx tx) = none := by
      rw [← Option.not_isSome_iff_eq_none, ← @Option.isSome_map _ _ CWalletTx.toCTransaction,
        hsame.toCTransaction, Option.isSome_map]
      exact hunknown
    refine ⟨hsame.isMine, hsame.nMinimumInputValue, fun h _ ↦ hsame.entries h, fun wtx hwtx ↦ ?_,
      fun h ↦ ?_, fun q hq ↦ ?_⟩
    · rw [hnone] at hwtx
      cases hwtx
    · exact absurd h (not_or.mpr ⟨hpays, hfrom⟩)
    · have hhash : q.hash ≠ P.hashTx tx := by
        intro hhash
        obtain ⟨wtx, hwtx, -⟩ := isOwn_iff.mp hq
        rw [hhash, hnone] at hwtx
        cases hwtx
      rw [hflags q (hsame.isOwn.mp hq), decide_eq_false hhash, Bool.false_and, Bool.not_false,
        Bool.true_and, Bool.and_true]

theorem getDebit_congr (h : ∀ p ∈ prevouts tx, w'.ownOutput p = w.ownOutput p) :
    w'.getDebit tx = w.getDebit tx := by
  unfold getDebit
  congr 1
  apply List.map_congr_left
  intro txin htxin
  rw [h txin.prevout (List.mem_map_of_mem htxin)]

/-- The events of the flags: a transaction clears those of its outputs and sets those of what it spends. -/
def clears (P : ChainParams) (tx : CTransaction) (q : COutPoint) : Bool := decide (q.hash = P.hashTx tx)

def sets (tx : CTransaction) (q : COutPoint) : Bool := decide (q ∈ prevouts tx)

/-- The wallet after the transactions `es`. -/
structure Scanned (P : ChainParams) (w : CWallet) (es : List (CTransaction × CBlock)) (w' : CWallet) :
    Prop where
  isMine : w'.isMine = w.isMine
  nMinimumInputValue : w'.nMinimumInputValue = w.nMinimumInputValue
  others : ∀ h, (∀ e ∈ es, h ≠ P.hashTx e.1) →
    (w'.mapWallet h).map (fun e ↦ (e.toCTransaction, e.hashBlock)) =
      (w.mapWallet h).map fun e ↦ (e.toCTransaction, e.hashBlock)
  entry : ∀ e ∈ es, ∀ wtx, w'.mapWallet (P.hashTx e.1) = some wtx →
    wtx.toCTransaction = e.1 ∧ wtx.hashBlock = e.2.getHash P
  involved : ∀ e ∈ es, w'.paysToMe e.1 = true ∨ w'.isFromMe e.1 = true →
    (w'.mapWallet (P.hashTx e.1)).isSome = true
  flags : ∀ q, w'.IsOwn q → w'.flag q =
    MarkTable.run (clears P) sets w.flag (es.map Prod.fst) q

theorem Heard.ownOutput (h : Heard P w tx block w') (hne : q.hash ≠ P.hashTx tx) :
    w'.ownOutput q = w.ownOutput q := by
  apply ownOutput_congr h.isMine
  have hfst := congrArg (Option.map Prod.fst) (h.others q.hash hne)
  rwa [Option.map_map, Option.map_map] at hfst

/-- A transaction that spends nothing of the one heard of involves the wallet as before. -/
theorem Heard.involves (h : Heard P w tx block w')
    (hne : ∀ p ∈ prevouts later, p.hash ≠ P.hashTx tx) :
    w'.paysToMe later = w.paysToMe later ∧ w'.isFromMe later = w.isFromMe later := by
  constructor
  · rw [paysToMe, paysToMe, h.isMine, h.nMinimumInputValue]
  · rw [isFromMe, isFromMe, getDebit_congr fun p hp ↦ h.ownOutput (hne p hp)]

/-- One more transaction. -/
theorem Scanned.snoc {w'' : CWallet} (h : Scanned P w es w') (hheard : Heard P w' e.1 e.2 w'')
    (horder : InOrder P ((es ++ [e]).map Prod.fst)) : Scanned P w (es ++ [e]) w'' := by
  rw [List.map_append, List.map_singleton] at horder
  have hnodup := horder.hash_nodup
  rw [List.map_append, List.nodup_append] at hnodup
  have hdistinct : ∀ e' ∈ es, P.hashTx e'.1 ≠ P.hashTx e.1 := fun e' he' ↦
    hnodup.2.2 _ (List.mem_map_of_mem (List.mem_map_of_mem he')) _ (List.mem_singleton_self _)
  have hearlier : ∀ e' ∈ es, ∀ p ∈ prevouts e'.1, p.hash ≠ P.hashTx e.1 := fun e' he' ↦
    (List.pairwise_append.mp horder.spends_earlier).2.2 e'.1 (List.mem_map_of_mem he') e.1
      (List.mem_singleton_self _)
  have hself : ∀ p ∈ prevouts e.1, p.hash ≠ P.hashTx e.1 :=
    horder.not_self e.1 (List.mem_append_right _ (List.mem_singleton_self _))
  refine ⟨hheard.isMine.trans h.isMine, hheard.nMinimumInputValue.trans h.nMinimumInputValue,
    fun hash hne ↦ ?_, fun e' he' wtx hwtx ↦ ?_, fun e' he' hinvolved ↦ ?_, fun q hq ↦ ?_⟩
  · rw [hheard.others hash (hne e (List.mem_append_right _ (List.mem_singleton_self e)))]
    exact h.others hash fun e' he' ↦ hne e' (List.mem_append_left _ he')
  · obtain hdone | hlast := List.mem_append.mp he'
    · have hview := hheard.others _ (hdistinct e' hdone)
      rw [hwtx, Option.map_some] at hview
      obtain ⟨old, hold, hsame⟩ := Option.map_eq_some_iff.mp hview.symm
      obtain ⟨htx, hblock⟩ := h.entry e' hdone old hold
      obtain ⟨htx', hblock'⟩ := Prod.mk.inj hsame
      exact ⟨htx'.symm.trans htx, hblock'.symm.trans hblock⟩
    · obtain rfl := List.mem_singleton.mp hlast
      exact hheard.entry wtx hwtx
  · obtain hdone | hlast := List.mem_append.mp he'
    · obtain ⟨hpays, hfrom⟩ := hheard.involves (hearlier e' hdone)
      rw [hpays, hfrom] at hinvolved
      have hsome := h.involved e' hdone hinvolved
      have hview := congrArg Option.isSome (hheard.others _ (hdistinct e' hdone))
      rwa [Option.isSome_map, Option.isSome_map, hsome] at hview
    · obtain rfl := List.mem_singleton.mp hlast
      obtain ⟨hpays, hfrom⟩ := hheard.involves hself
      rw [hpays, hfrom] at hinvolved
      exact hheard.involved hinvolved
  · rw [hheard.flags q hq, List.map_append, List.map_singleton, MarkTable.run, List.foldl_append]
    change _ = MarkTable.step (clears P) sets
      (MarkTable.run (clears P) sets w.flag (es.map Prod.fst)) e.1 q
    rw [MarkTable.step, clears, sets]
    by_cases hhash : q.hash = P.hashTx e.1
    · rw [decide_eq_true hhash]
      rfl
    · have hown : w'.IsOwn q := by
        rw [IsOwn, ← hheard.ownOutput hhash]
        exact hq
      rw [h.flags q hown]

theorem Scanned.run (hkeyed : ∀ e ∈ es, Keyed P w e.1) (hblock : ∀ e ∈ es, e.2.getHash P ≠ 0)
    (horder : InOrder P (es.map Prod.fst)) :
    Scanned P w es (es.foldl (fun w e ↦ w.addToWalletIfInvolvingMe P e.1 e.2 true) w) := by
  induction es using List.reverseRecOn with
  | nil =>
    exact ⟨rfl, rfl, fun _ _ ↦ rfl, fun _ he ↦ absurd he List.not_mem_nil,
      fun _ he ↦ absurd he List.not_mem_nil, fun _ _ ↦ rfl⟩
  | append_singleton es e ih =>
    have hsub : (es.map Prod.fst).Sublist ((es ++ [e]).map Prod.fst) := by
      rw [List.map_append]
      exact List.sublist_append_left _ _
    have hdone := ih (fun e' he' ↦ hkeyed e' (List.mem_append_left _ he'))
      (fun e' he' ↦ hblock e' (List.mem_append_left _ he')) (horder.sublist hsub)
    have hlast := List.mem_append_right es (List.mem_singleton_self e)
    rw [List.foldl_append, List.foldl_cons, List.foldl_nil]
    apply hdone.snoc _ horder
    apply heard_of_update _ (hblock e hlast)
    -- the wallet still has under the new id what it had at the beginning
    intro wtx hwtx
    have hnodup := horder.hash_nodup
    rw [List.map_append, List.map_append, List.nodup_append] at hnodup
    have hview := hdone.others (P.hashTx e.1) fun e' he' hsame ↦
      hnodup.2.2 _ (List.mem_map_of_mem (List.mem_map_of_mem he')) _ (List.mem_singleton_self _)
        hsame.symm
    rw [hwtx, Option.map_some] at hview
    obtain ⟨old, hold, hsame⟩ := Option.map_eq_some_iff.mp hview.symm
    exact (Prod.mk.inj hsame).1.symm.trans (hkeyed e hlast old hold)

/-- An own output of a transaction of the wallet or of the chain. -/
def OwnCoin (P : ChainParams) (w : CWallet) (chain : List CBlock) (q : COutPoint) : Prop :=
  w.IsOwn q ∨ ∃ block ∈ chain, ∃ tx ∈ block.vtx, P.hashTx tx = q.hash ∧
    ∃ txout, tx.vout[q.n]? = some txout ∧ w.isMine txout.scriptPubKey = true

/-- A block with a transaction that has an own output or spends one. -/
def Relevant (P : ChainParams) (w : CWallet) (chain : List CBlock) (block : CBlock) : Prop :=
  ∃ tx ∈ block.vtx, (∃ txout ∈ tx.vout, w.isMine txout.scriptPubKey = true) ∨
    ∃ p ∈ prevouts tx, OwnCoin P w chain p

theorem mem_visited : e ∈ visited nTimeFirstKey chain ↔
    e.2 ∈ chain ∧ beforeBirthday nTimeFirstKey e.2 = false ∧ e.1 ∈ e.2.vtx := by
  simp only [visited, List.mem_flatMap, List.mem_filter, List.mem_map, Bool.not_eq_true']
  constructor
  · rintro ⟨block, ⟨hblock, hread⟩, tx, htx, rfl⟩
    exact ⟨hblock, hread, htx⟩
  · rintro ⟨hblock, hread, htx⟩
    exact ⟨e.2, ⟨hblock, hread⟩, e.1, htx, rfl⟩

theorem map_fst_visited_sublist :
    ((visited nTimeFirstKey chain).map Prod.fst).Sublist (chain.flatMap CBlock.vtx) := by
  induction chain with
  | nil => exact List.Sublist.refl _
  | cons block chain ih =>
    rw [visited_cons, List.map_append, List.flatMap_cons]
    apply List.Sublist.append _ ih
    split
    · exact List.nil_sublist _
    · have hsame : (block.vtx.map fun tx ↦ (tx, block)).map Prod.fst = block.vtx := by
        rw [List.map_map]
        exact List.map_id block.vtx
      rw [hsame]

theorem exists_isOwn_of_isFromMe (h : w.isFromMe tx = true) : ∃ p ∈ prevouts tx, w.IsOwn p := by
  by_contra hnone
  have hzero : w.getDebit tx = 0 := by
    apply List.sum_eq_zero
    intro nValue hvalue
    obtain ⟨txin, htxin, rfl⟩ := List.mem_map.mp hvalue
    have hown : w.ownOutput txin.prevout = none := by
      rw [← Option.not_isSome_iff_eq_none]
      exact fun hsome ↦ hnone ⟨txin.prevout, List.mem_map_of_mem htxin, hsome⟩
    rw [hown]
    rfl
  rw [isFromMe, hzero] at h
  exact absurd h (by decide)

theorem ordered_of_inOrder (h : InOrder P txs) : MarkTable.Ordered (clears P) sets txs where
  self := fun tx htx q hq ↦ decide_eq_false (h.not_self tx htx q (of_decide_eq_true hq))
  later := h.spends_earlier.imp fun hne q hq ↦ decide_eq_false (hne q (of_decide_eq_true hq))

section Restores

variable (hchain : IsMainChain P chain) (hkeyed : ∀ block ∈ chain, ∀ tx ∈ block.vtx, Keyed P w tx)
  (hbirthday : ∀ block ∈ chain, Relevant P w chain block → beforeBirthday nTimeFirstKey block = false)

include hchain hkeyed

theorem scanned_of_scan : Scanned P w (visited nTimeFirstKey chain)
    (scanForWalletTransactions P nTimeFirstKey w chain true).1 := by
  rw [scanForWalletTransactions, scan_eq_foldl]
  apply Scanned.run
  · intro e he
    obtain ⟨hblock, -, htx⟩ := mem_visited.mp he
    exact hkeyed e.2 hblock e.1 htx
  · intro e he
    exact hchain.hash_ne_zero e.2 (mem_visited.mp he).1
  · exact hchain.inOrder.sublist map_fst_visited_sublist

/-- What is under the id of a transaction of the chain is this transaction. -/
theorem toCTransaction_of_scan (hblock : block ∈ chain) (htx : tx ∈ block.vtx)
    (hwtx : (scanForWalletTransactions P nTimeFirstKey w chain true).1.mapWallet (P.hashTx tx) =
      some wtx) : wtx.toCTransaction = tx := by
  have hscan := @scanned_of_scan P w chain nTimeFirstKey hchain hkeyed
  by_cases hseen : ∃ e ∈ visited nTimeFirstKey chain, P.hashTx tx = P.hashTx e.1
  · obtain ⟨e, he, hhash⟩ := hseen
    have hsame : tx = e.1 := by
      apply List.inj_on_of_nodup_map hchain.inOrder.hash_nodup _ _ hhash
      · exact List.mem_flatMap.mpr ⟨block, hblock, htx⟩
      · obtain ⟨hblock', -, htx'⟩ := mem_visited.mp he
        exact List.mem_flatMap.mpr ⟨e.2, hblock', htx'⟩
    rw [hhash] at hwtx
    rw [hsame]
    exact (hscan.entry e he wtx hwtx).1
  · have hview := hscan.others (P.hashTx tx) fun e he hhash ↦ hseen ⟨e, he, hhash⟩
    rw [hwtx, Option.map_some] at hview
    obtain ⟨old, hold, hsame⟩ := Option.map_eq_some_iff.mp hview.symm
    exact (Prod.mk.inj hsame).1.symm.trans (hkeyed block hblock tx htx old hold)

theorem ownCoin_of_isOwn (hq : (scanForWalletTransactions P nTimeFirstKey w chain true).1.IsOwn q) :
    OwnCoin P w chain q := by
  have hscan := @scanned_of_scan P w chain nTimeFirstKey hchain hkeyed
  by_cases hseen : ∃ e ∈ visited nTimeFirstKey chain, q.hash = P.hashTx e.1
  · obtain ⟨e, he, hhash⟩ := hseen
    obtain ⟨wtx, hwtx, txout, hout, hmine⟩ := isOwn_iff.mp hq
    rw [hhash] at hwtx
    obtain ⟨htx, -⟩ := hscan.entry e he wtx hwtx
    obtain ⟨hblock, -, hmem⟩ := mem_visited.mp he
    rw [hscan.isMine] at hmine
    exact .inr ⟨e.2, hblock, e.1, hmem, hhash.symm, txout, htx ▸ hout, hmine⟩
  · left
    have hview := hscan.others q.hash fun e he hhash ↦ hseen ⟨e, he, hhash⟩
    have hfst := congrArg (Option.map Prod.fst) hview
    rw [Option.map_map, Option.map_map] at hfst
    rwa [IsOwn, ownOutput_congr hscan.isMine hfst] at hq

include hbirthday

/-- A full rescan enters or updates every transaction of the chain that pays us at least the minimum or
spends coins of ours worth something, and leaves exactly the spent flags of what the chain spends. -/
theorem scanForWalletTransactions_restores {w' : CWallet}
    (hrun : (scanForWalletTransactions P nTimeFirstKey w chain true).1 = w') :
    (∀ block ∈ chain, ∀ tx ∈ block.vtx, w'.paysToMe tx = true ∨ w'.isFromMe tx = true →
      ∃ wtx, w'.mapWallet (P.hashTx tx) = some wtx ∧ wtx.hashBlock = block.getHash P) ∧
    ∀ block ∈ chain, ∀ tx ∈ block.vtx, ∀ wtx, w'.mapWallet (P.hashTx tx) = some wtx →
      ∀ n txout, wtx.vout[n]? = some txout → w'.isMine txout.scriptPubKey = true →
        (wtx.isSpent n = true ↔ ∃ spender ∈ chain.flatMap CBlock.vtx,
          (⟨P.hashTx tx, n⟩ : COutPoint) ∈ prevouts spender) := by
  subst hrun
  have hscan := @scanned_of_scan P w chain nTimeFirstKey hchain hkeyed
  have hread : ∀ block ∈ chain, ∀ tx ∈ block.vtx, (∃ txout ∈ tx.vout, w.isMine txout.scriptPubKey = true) ∨
      (∃ p ∈ prevouts tx, OwnCoin P w chain p) → (tx, block) ∈ visited nTimeFirstKey chain :=
    fun block hblock tx htx hrelevant ↦
      mem_visited.mpr ⟨hblock, hbirthday block hblock ⟨tx, htx, hrelevant⟩, htx⟩
  refine ⟨fun block hblock tx htx hinvolved ↦ ?_,
    fun block hblock tx htx wtx hwtx n txout hout hmine ↦ ?_⟩
  · have hvisited : (tx, block) ∈ visited nTimeFirstKey chain := by
      apply hread block hblock tx htx
      obtain hpays | hfrom := hinvolved
      · left
        rw [paysToMe, List.any_eq_true] at hpays
        obtain ⟨txout, htxout, hboth⟩ := hpays
        rw [Bool.and_eq_true, hscan.isMine] at hboth
        exact ⟨txout, htxout, hboth.1⟩
      · right
        obtain ⟨p, hp, hown⟩ := exists_isOwn_of_isFromMe hfrom
        exact ⟨p, hp, ownCoin_of_isOwn hchain hkeyed hown⟩
    obtain ⟨wtx, hwtx⟩ := Option.isSome_iff_exists.mp (hscan.involved (tx, block) hvisited hinvolved)
    exact ⟨wtx, hwtx, (hscan.entry (tx, block) hvisited wtx hwtx).2⟩
  · have htxEq : wtx.toCTransaction = tx := toCTransaction_of_scan hchain hkeyed hblock htx hwtx
    have hmine' := hmine
    rw [hscan.isMine] at hmine'
    have hout' : tx.vout[n]? = some txout := htxEq ▸ hout
    have hvisited := hread block hblock tx htx
      (.inl ⟨txout, List.mem_of_getElem? hout', hmine'⟩)
    have hflag := hscan.flags ⟨P.hashTx tx, n⟩ (isOwn_iff.mpr ⟨wtx, hwtx, txout, hout, hmine⟩)
    rw [flag, hwtx, Option.any_some] at hflag
    rw [hflag, MarkTable.run_iff (ordered_of_inOrder (hchain.inOrder.sublist map_fst_visited_sublist))
      ⟨tx, List.mem_map_of_mem hvisited, decide_eq_true rfl⟩]
    constructor
    · rintro ⟨spender, hspender, hsets⟩
      exact ⟨spender, map_fst_visited_sublist.subset hspender, of_decide_eq_true hsets⟩
    · rintro ⟨spender, hspender, hspends⟩
      obtain ⟨block', hblock', hmem⟩ := List.mem_flatMap.mp hspender
      have hcoin : OwnCoin P w chain ⟨P.hashTx tx, n⟩ :=
        .inr ⟨block, hblock, tx, htx, rfl, txout, hout', hmine'⟩
      have hseen := hread block' hblock' spender hmem (.inr ⟨_, hspends, hcoin⟩)
      exact ⟨spender, List.mem_map_of_mem hseen, decide_eq_true hspends⟩

end Restores

namespace RescanExample

open Builders

/-- A payment of nothing to us, and a transaction that spends it. -/
def parentTx : CTransaction := coinbase 10 100 1 [⟨0, payTo 1⟩]

def spenderTx : CTransaction := spending 11 200 [⟨10, 0⟩] [⟨0, payTo 2⟩]

def net : ChainParams := network true

def blocks : List CBlock := [blockOf net 5 4 100 0 [parentTx], blockOf net 6 5 200 0 [spenderTx]]

def newWallet : CWallet where
  isMine := fun script ↦ script = payTo 1
  nMinimumInputValue := 0
  mapWallet := fun _ ↦ none

theorem isMainChain_blocks : IsMainChain net blocks where
  inOrder := ⟨by decide, by decide, by decide⟩
  hash_ne_zero := by decide

theorem keyed_newWallet : ∀ block ∈ blocks, ∀ tx ∈ block.vtx, Keyed net newWallet tx := by
  intro _ _ _ _ wtx hwtx
  cases hwtx

/-- The payment is spent after the rescan. -/
theorem parentTx_spent : ∃ wtx,
    (scanForWalletTransactions net 0 newWallet blocks true).1.mapWallet (net.hashTx parentTx) = some wtx ∧
      wtx.isSpent 0 = true := by
  have hentered : ((scanForWalletTransactions net 0 newWallet blocks true).1.mapWallet
      (net.hashTx parentTx)).isSome = true := by decide
  obtain ⟨wtx, hwtx⟩ := Option.isSome_iff_exists.mp hentered
  have hblock : blockOf net 5 4 100 0 [parentTx] ∈ blocks := List.mem_cons_self
  have htx := toCTransaction_of_scan isMainChain_blocks keyed_newWallet hblock
    (List.mem_singleton_self parentTx) hwtx
  refine ⟨wtx, hwtx, ?_⟩
  apply ((scanForWalletTransactions_restores isMainChain_blocks keyed_newWallet
    (fun _ _ _ ↦ (rfl : beforeBirthday 0 _ = false)) rfl).2 _ hblock parentTx (List.mem_singleton_self _) wtx hwtx 0
      ⟨0, payTo 1⟩ (htx ▸ rfl) (by decide)).mpr
  exact ⟨spenderTx, by decide, by decide⟩

/-- The transaction that spends our payment of nothing is not entered. -/
theorem not_all_entered : ¬∀ (P : ChainParams) (w : CWallet) (chain : List CBlock) (nTimeFirstKey : ℤ),
    IsMainChain P chain → (∀ block ∈ chain, ∀ tx ∈ block.vtx, Keyed P w tx) →
    (∀ block ∈ chain, Relevant P w chain block → beforeBirthday nTimeFirstKey block = false) →
    let w' := (scanForWalletTransactions P nTimeFirstKey w chain true).1
    ∀ block ∈ chain, ∀ tx ∈ block.vtx, (∃ txout ∈ tx.vout, w'.isMine txout.scriptPubKey = true) ∨
      (∃ p ∈ prevouts tx, w'.IsOwn p) →
      ∃ wtx, w'.mapWallet (P.hashTx tx) = some wtx ∧ wtx.hashBlock = block.getHash P := by
  intro h
  obtain ⟨wtx, hwtx, -⟩ := h net newWallet blocks 0 isMainChain_blocks keyed_newWallet
    (fun _ _ _ ↦ rfl) (blockOf net 6 5 200 0 [spenderTx]) (by decide) spenderTx (by decide)
    (.inr ⟨⟨10, 0⟩, by decide, by unfold IsOwn; decide⟩)
  have hnone : ((scanForWalletTransactions net 0 newWallet blocks true).1.mapWallet
      (net.hashTx spenderTx)).isSome = false := by decide
  rw [hwtx] at hnone
  cases hnone

end RescanExample

end CWallet

end Electra.Chain
