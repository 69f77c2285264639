import Electra.Node.MoveBestChain

/-!
# What a move of the best chain does to memory

Whatever the block index holds, a call of `SetBestChain` leaves the index alone.  One that fails
leaves the tip and the links alone too, and one that succeeds keeps the links on the way to the tip.
-/

namespace Electra.Node

open Chain Ledger Foundations.Outcome Foundations.WriteBatch

/-- Every link leads to the next entry on the way to a tip. -/
def LinksWithin (pnext : PIndex → Option PIndex) (tip : PIndex) : Prop :=
  ∀ pindex next, pnext pindex = some next → next <:+ tip ∧ next.tail = pindex ∧ pindex ≠ []

variable {pnext : PIndex → Option PIndex} {tip pindex pindexNew : PIndex} {pindexes : List PIndex}
  {progress progress' : NodeState × List CTransaction}

theorem LinksWithin.mono {tip' : PIndex} (h : LinksWithin pnext tip) (hsuffix : tip <:+ tip') :
    LinksWithin pnext tip' :=
  fun pindex next hnext ↦ ⟨(h pindex next hnext).1.trans hsuffix, (h pindex next hnext).2⟩

theorem LinksWithin.setPrevNext (h : LinksWithin pnext tip) {next : Option PIndex}
    (hnext : ∀ p ∈ next, p = pindex) (hsuffix : next.isSome → pindex <:+ tip) :
    LinksWithin (setPrevNext next pnext pindex) tip := by
  intro pindex' next' hlink
  unfold Chain.setPrevNext at hlink
  split at hlink
  · exact h _ _ hlink
  · next hne =>
    by_cases heq : pindex' = pindex.tail
    · rw [heq, Function.update_self] at hlink
      obtain rfl := hnext next' hlink
      exact ⟨hsuffix (hlink ▸ rfl), heq.symm, heq ▸ hne⟩
    · rw [Function.update_of_ne heq] at hlink
      exact h _ _ hlink

theorem LinksWithin.linkFromPrev (h : LinksWithin pnext tip) (hsuffix : pindex <:+ tip) :
    LinksWithin (linkFromPrev pnext pindex) tip :=
  h.setPrevNext (fun _ hp ↦ (Option.some.inj hp).symm) fun _ ↦ hsuffix

theorem LinksWithin.foldl_linkFromPrev (hsuffix : ∀ pindex ∈ pindexes, pindex <:+ tip)
    (h : LinksWithin pnext tip) : LinksWithin (pindexes.foldl Chain.linkFromPrev pnext) tip := by
  induction pindexes generalizing pnext with
  | nil => exact h
  | cons pindex pindexes ih =>
    exact ih (fun p hp ↦ hsuffix p (List.mem_cons_of_mem _ hp))
      (h.linkFromPrev (hsuffix pindex List.mem_cons_self))

/-- Taking the links of a branch away leaves those on the way to the fork. -/
theorem LinksWithin.foldl_setPrevNext {pfork : PIndex} (hfork : pfork <:+ tip)
    (h : LinksWithin pnext tip) :
    LinksWithin ((branchFrom pfork tip).foldl (Chain.setPrevNext none) pnext) pfork := by
  induction tip generalizing pnext with
  | nil =>
    rw [List.suffix_nil.mp hfork]
    exact h
  | cons index pprev ih =>
    rw [branchFrom]
    split
    · next heq =>
      subst heq
      exact h
    · next hne =>
      have hbelow : pfork <:+ pprev := (List.suffix_cons_iff.mp hfork).resolve_left (Ne.symm hne)
      refine ih hbelow ?_
      intro pindex next hlink
      have hcleared : pnext pindex = some next ∧ (pprev ≠ [] → pindex ≠ pprev) := by
        unfold Chain.setPrevNext at hlink
        rw [List.tail_cons] at hlink
        split at hlink
        · next hnil => exact ⟨hlink, fun hprev ↦ absurd hnil hprev⟩
        · by_cases heq : pindex = pprev
          · rw [heq, Function.update_self] at hlink
            cases hlink
          · rw [Function.update_of_ne heq] at hlink
            exact ⟨hlink, fun _ ↦ heq⟩
      obtain ⟨hsuffix, htail, hpindex⟩ := h _ _ hcleared.1
      refine ⟨(List.suffix_cons_iff.mp hsuffix).resolve_left ?_, htail, hpindex⟩
      rintro rfl
      rw [List.tail_cons] at htail
      subst htail
      exact hcleared.2 hpindex rfl

variable {P : ChainParams} {env : Env} {st st' : NodeState}

theorem disconnectTip_frame (h : disconnectTip P env progress pindex = .ok progress') :
    NodeFrame progress.1 progress'.1 := by
  simp only [disconnectTip, bind_eq_ok, mapError_eq_ok, pure_eq_ok] at h
  obtain ⟨index, -, block, -, st₁, hdisconnect, rfl⟩ := h
  exact (disconnectBlock_eq_ok hdisconnect).frame

theorem connectNext_frame (h : connectNext P env progress pindex = .ok progress') :
    NodeFrame progress.1 progress'.1 := by
  simp only [connectNext, bind_eq_ok, mapError_eq_ok, pure_eq_ok] at h
  obtain ⟨index, -, block, -, st₁, hconnect, rfl⟩ := h
  obtain ⟨sums, hconnects⟩ := connectBlock_eq_ok hconnect
  exact hconnects.frame

theorem disconnectLoop_frame {vResurrect : List CTransaction}
    (h : pindexes.foldlM (disconnectTip P env) (st, vResurrect) = .ok progress) :
    NodeFrame st progress.1 :=
  foldlM_invariant (fun s ↦ NodeFrame st s.1)
    (fun _ _ _ _ hframe hone ↦ hframe.trans (disconnectTip_frame hone)) (.refl st) h

theorem connectLoop_frame {vDelete : List CTransaction}
    (h : pindexes.foldlM (connectNext P env) (st, vDelete) = .ok progress) : NodeFrame st progress.1 :=
  foldlM_invariant (fun s ↦ NodeFrame st s.1)
    (fun _ _ _ _ hframe hone ↦ hframe.trans (connectNext_frame hone)) (.refl st) h

/-- A reorganisation that succeeds moves the links from the old branch to the new one. -/
theorem reorganize_links (h : reorganize P env st pindexNew = .ok st') :
    SameTip st st' ∧ (LinksWithin st.pnext st.pindexBest → LinksWithin st'.pnext pindexNew) := by
  obtain ⟨pfork, down, up, hfork, hdown, hup, rfl⟩ := reorganize_parts h
  have hframe := (disconnectLoop_frame hdown).trans (connectLoop_frame hup)
  refine ⟨(sameTip_of_frame hframe).trans ⟨rfl, rfl, rfl, rfl, rfl⟩, fun hlinks ↦ ?_⟩
  obtain ⟨hold, hnew⟩ := findFork_suffix hfork
  have hcleared := (hlinks.foldl_setPrevNext hold).mono hnew
  rw [← hframe.pnext] at hcleared
  refine hcleared.foldl_linkFromPrev fun pindex hpindex ↦ ?_
  exact (mem_branchFrom (List.mem_reverse.mp hpindex)).1

/-- A reorganisation that fails leaves all links. -/
theorem reorganize_frame_of_error {failure : Reject × NodeState}
    (h : reorganize P env st pindexNew = .error failure) :
    SameTip st failure.2 ∧ failure.2.pnext = st.pnext := by
  rcases reorganize_failures h with hsame | ⟨pfork, -, h⟩
  · rw [hsame]
    exact ⟨.refl st, rfl⟩
  · have hframe : ∀ {st' : NodeState}, NodeFrame st st' → SameTip st st' ∧ st'.pnext = st.pnext :=
      fun h ↦ ⟨sameTip_of_frame h, h.pnext⟩
    rcases h with hfail | ⟨down, hdown, hfail | ⟨up, hup, hcommitted⟩⟩
    · obtain ⟨pre, pindex, post, progress, -, hpre, hone⟩ := foldlM_eq_error hfail
      exact hframe ((disconnectLoop_frame hpre).trans (disconnectTip_eq_error hone).frame)
    · obtain ⟨pre, pindex, post, progress, -, hpre, hone⟩ := foldlM_eq_error hfail
      rw [connectNext_eq_error hone]
      exact hframe ((disconnectLoop_frame hdown).trans (connectLoop_frame hpre))
    · have hboth := (disconnectLoop_frame hdown).trans (connectLoop_frame hup)
      rw [hcommitted]
      exact ⟨(sameTip_of_frame hboth).trans ⟨rfl, rfl, rfl, rfl, rfl⟩, hboth.pnext⟩

theorem sameTip_begun (st : NodeState) : SameTip st (begun st) := ⟨rfl, rfl, rfl, rfl, rfl⟩

theorem pnext_invalidChainFound (st : NodeState) (pindexNew : PIndex) :
    (invalidChainFound st pindexNew).pnext = st.pnext := by
  unfold invalidChainFound
  split <;> rfl

theorem pnext_setBestChainInner (P : ChainParams) (env : Env) (st : NodeState) (block : CBlock)
    (pindexNew : PIndex) : (setBestChainInner P env st block pindexNew).2.pnext =
      if (setBestChainInner P env st block pindexNew).1 then linkFromPrev st.pnext pindexNew
      else st.pnext := by
  rcases setBestChainInner_cases P env st block pindexNew with
    ⟨reject, -, heq⟩ | ⟨st₁, hconnect, heq | heq⟩
  · rw [heq]
    exact pnext_invalidChainFound _ _
  · obtain ⟨sums, hconnects⟩ := connectBlock_eq_ok hconnect
    rw [heq]
    exact congrArg (linkFromPrev · pindexNew) hconnects.frame.pnext
  · obtain ⟨sums, hconnects⟩ := connectBlock_eq_ok hconnect
    rw [heq]
    exact hconnects.frame.pnext

theorem connectPostponed_links (P : ChainParams) (env : Env) (st : NodeState) (pindex : PIndex) :
    SameTip st (connectPostponed P env st pindex).2 ∧ ∀ tip, pindex <:+ tip →
      LinksWithin st.pnext tip → LinksWithin (connectPostponed P env st pindex).2.pnext tip := by
  cases pindex with
  | nil => exact ⟨.refl st, fun _ _ hlinks ↦ hlinks⟩
  | cons index pprev =>
    rw [connectPostponed]
    split
    · exact ⟨.refl st, fun _ _ hlinks ↦ hlinks⟩
    · next block hread =>
      refine ⟨(sameTip_begun st).trans (sameTip_setBestChainInner P env (begun st) block _), ?_⟩
      intro tip hsuffix hlinks
      have hpnext := pnext_setBestChainInner P env (begun st) block (index :: pprev)
      unfold begun at hpnext
      rw [hpnext]
      split
      · exact hlinks.linkFromPrev hsuffix
      · exact hlinks

theorem connectSecondary_links (P : ChainParams) (env : Env) (st : NodeState) (pindexes : List PIndex) :
    SameTip st (connectSecondary P env st pindexes) ∧
      ∀ tip, (∀ pindex ∈ pindexes, pindex <:+ tip) → LinksWithin st.pnext tip →
        LinksWithin (connectSecondary P env st pindexes).pnext tip := by
  induction pindexes generalizing st with
  | nil => exact ⟨.refl st, fun _ _ hlinks ↦ hlinks⟩
  | cons pindex pindexes ih =>
    have hone := connectPostponed_links P env st pindex
    rw [connectSecondary]
    cases hcall : connectPostponed P env st pindex with
    | mk fOk st₁ =>
      rw [hcall] at hone
      cases fOk with
      | false => exact ⟨hone.1, fun tip hsuffix ↦ hone.2 tip (hsuffix pindex List.mem_cons_self)⟩
      | true =>
        obtain ⟨hrest, hlinks⟩ := ih st₁
        refine ⟨hone.1.trans hrest, fun tip hsuffix hwithin ↦ ?_⟩
        exact hlinks tip (fun p hp ↦ hsuffix p (List.mem_cons_of_mem _ hp))
          (hone.2 tip (hsuffix pindex List.mem_cons_self) hwithin)

theorem splitSecondary_snd_suffix (nBestTrust : Uint256) (pindexNew : PIndex) :
    ∀ pindex ∈ (splitSecondary nBestTrust pindexNew).2, pindex <:+ pindexNew := by
  induction pindexNew with
  | nil => simp [splitSecondary]
  | cons index pprev ih =>
    rw [splitSecondary]
    split
    · intro pindex hpindex
      rcases List.mem_cons.mp hpindex with rfl | hpindex
      · exact List.suffix_refl _
      · exact (ih pindex hpindex).trans (List.suffix_cons index pprev)
    · simp

/-- The block index is as before, and so is the tip with its links after a failure.  After a success
the links are on the way to the new tip, if a direct extension is on top of the old one. -/
structure ChainMoved (st : NodeState) (hashPrev : Uint256) (pindexNew : PIndex)
    (result : Bool × NodeState) : Prop where
  mapBlockIndex : result.2.mapBlockIndex = st.mapBlockIndex
  failed : result.1 = false → SameTip st result.2 ∧ result.2.pnext = st.pnext
  links : result.1 = true → st.pindexGenesisBlock ≠ [] → LinksWithin st.pnext st.pindexBest →
    (hashPrev = st.hashBestChain → st.pindexBest <:+ pindexNew) →
    result.2.pindexGenesisBlock = st.pindexGenesisBlock ∧ LinksWithin result.2.pnext pindexNew

theorem chainMoved_setBestChainInner (P : ChainParams) (env : Env) (st : NodeState) (block : CBlock)
    (pindexNew : PIndex) (hprev : block.hashPrevBlock = st.hashBestChain) : ChainMoved st
      block.hashPrevBlock pindexNew (setBestChainInner P env (begun st) block pindexNew) := by
  have hsame := (sameTip_begun st).trans (sameTip_setBestChainInner P env (begun st) block pindexNew)
  have hpnext := pnext_setBestChainInner P env (begun st) block pindexNew
  refine ⟨hsame.mapBlockIndex, fun hfailed ↦ ⟨hsame, ?_⟩, fun hok _ hlinks hdirect ↦ ?_⟩
  · rw [hpnext, hfailed]
    rfl
  · rw [hpnext, if_pos hok]
    exact ⟨hsame.pindexGenesisBlock, (hlinks.mono (hdirect hprev)).linkFromPrev (List.suffix_refl _)⟩

theorem chainMoved_moveBestChain (P : ChainParams) (env : Env) (st : NodeState) (block : CBlock)
    (pindexNew : PIndex) :
    ChainMoved st block.hashPrevBlock pindexNew (moveBestChain P env st block pindexNew) := by
  rcases moveBestChain_cases P env st block pindexNew with
    ⟨hstart, -, heq | heq⟩ | ⟨-, ⟨hprev, heq⟩ | ⟨-, ⟨failure, hfail, heq⟩ | ⟨st₁, hok, heq⟩⟩⟩
  · rw [heq]
    exact ⟨rfl, nofun, fun _ hne ↦ absurd hstart hne⟩
  · rw [heq]
    exact ⟨rfl, fun _ ↦ ⟨⟨rfl, rfl, rfl, rfl, rfl⟩, rfl⟩, nofun⟩
  · rw [heq]
    exact chainMoved_setBestChainInner P env st block pindexNew hprev
  · obtain ⟨hsame, hpnext⟩ := reorganize_frame_of_error hfail
    have habort : SameTip failure.2 (txnAbort failure.2) := ⟨rfl, rfl, rfl, rfl, rfl⟩
    have htip := ((sameTip_begun st).trans (hsame.trans habort)).trans
      (sameTip_invalidChainFound (txnAbort failure.2) pindexNew)
    rw [heq]
    exact ⟨htip.mapBlockIndex, fun _ ↦ ⟨htip, (pnext_invalidChainFound _ _).trans hpnext⟩, nofun⟩
  · obtain ⟨hsame, hlinks⟩ := reorganize_links hok
    obtain ⟨hrest, hsecondary⟩ := connectSecondary_links P env st₁
      (splitSecondary st.pindexBest.nChainTrust pindexNew).2.reverse
    have htip := (sameTip_begun st).trans (hsame.trans hrest)
    rw [heq]
    refine ⟨htip.mapBlockIndex, nofun, fun _ _ hwithin _ ↦ ⟨htip.pindexGenesisBlock, ?_⟩⟩
    refine hsecondary pindexNew (fun pindex hpindex ↦ ?_)
      ((hlinks hwithin).mono (splitSecondary_suffix _ _))
    exact splitSecondary_snd_suffix _ _ pindex (List.mem_reverse.mp hpindex)

theorem chainMoved (P : ChainParams) (env : Env) (st : NodeState) (block : CBlock) (pindexNew : PIndex) :
    ChainMoved st block.hashPrevBlock pindexNew (setBestChain P env st block pindexNew) := by
  have hmoved := chainMoved_moveBestChain P env st block pindexNew
  rw [setBestChain_eq]
  cases hok : (moveBestChain P env st block pindexNew).1 with
  | false => exact ⟨hmoved.mapBlockIndex, fun _ ↦ hmoved.failed hok, nofun⟩
  | true => exact ⟨hmoved.mapBlockIndex, nofun, fun _ ↦ hmoved.links hok⟩

theorem tip_of_setBestChain {block : CBlock} (h : (setBestChain P env st block pindexNew).1 = true) :
    (setBestChain P env st block pindexNew).2.pindexBest = pindexNew ∧
      (setBestChain P env st block pindexNew).2.hashBestChain = block.getHash P := by
  rw [setBestChain_eq] at h ⊢
  rw [if_pos h]
  exact ⟨rfl, rfl⟩

end Electra.Node
