import Electra.Net.AddrManRun
import Mathlib.Algebra.BigOperators.Fin

/-!
# The check of the address manager

The invariant makes `Check_` return 0, so that it does so in every state that calls can reach.  Calls
that give out every id of an `int` reach none.
-/

namespace Electra.Net

open Chain Foundations.BucketTable Foundations.PositionIndex Foundations.Outcome

namespace CAddrMan

variable {am : CAddrMan} {nId : ℤ} {info : CAddrInfo} {hash : List UInt8 → Uint256}

theorem mem_entries {n : ℤ} : (n, info) ∈ am.entries ↔ am.mapInfo.lookup n = some info := by
  unfold entries
  rw [List.mem_filterMap]
  constructor
  · rintro ⟨m, -, hm⟩
    obtain ⟨info', hlookup, heq⟩ := Option.map_eq_some_iff.mp hm
    obtain ⟨rfl, rfl⟩ := Prod.mk.inj heq
    exact hlookup
  · intro hlookup
    refine ⟨n, ?_, by rw [hlookup, Option.map_some]⟩
    rw [Finset.mem_sort, Finmap.mem_keys]
    exact mem_mapInfo.mpr ⟨info, hlookup⟩

theorem map_fst_entries : am.entries.map Prod.fst = am.mapInfo.keys.sort := by
  have hsome : ∀ n ∈ am.mapInfo.keys.sort,
      ((am.mapInfo.lookup n).map fun info ↦ (n, info)).map Prod.fst = some n := by
    intro n hn
    rw [Finset.mem_sort, Finmap.mem_keys] at hn
    obtain ⟨info, hlookup⟩ := mem_mapInfo.mp hn
    rw [hlookup, Option.map_some, Option.map_some]
  unfold entries
  rw [List.map_filterMap, List.filterMap_congr hsome, List.filterMap_some]

/-- The entries of one table. -/
def tableOf (am : CAddrMan) (fTried : Bool) (n : ℤ) (info : CAddrInfo) : Prop :=
  am.mapInfo.lookup n = some info ∧ info.fInTried = fTried

/-- What the loop has found when some entries are left. -/
structure FoundAll (am : CAddrMan) (rest : List (ℤ × CAddrInfo)) (found : Finset ℤ × Counts) : Prop where
  nodup : (rest.map Prod.fst).Nodup
  entry : ∀ entry ∈ rest, am.mapInfo.lookup entry.1 = some entry.2
  tried : ∀ n, n ∈ found.1 ↔ (∃ info, am.tableOf true n info) ∧ n ∉ rest.map Prod.fst
  new : ∀ n nCount, found.2.lookup n = some nCount ↔
    (∃ info, am.tableOf false n info ∧ info.nRefCount = nCount) ∧ n ∉ rest.map Prod.fst

theorem Placed.nRefCount_le {r o : ℕ} (h : Placed r o info) :
    info.nRefCount ≤ ADDRMAN_NEW_BUCKETS_PER_ADDRESS ∧ 0 ≤ info.nRefCount := by
  cases h with
  | tried _ hcount _ _ _ =>
    rw [hcount]
    exact ⟨by decide, le_rfl⟩
  | new _ hcount _ hle _ => exact ⟨hle, hcount ▸ Int.natCast_nonneg _⟩

/-- An entry passes its tests. -/
theorem checkEntry_eq (h : Inv hash am) (hlookup : am.mapInfo.lookup nId = some info)
    {found : Finset ℤ × Counts} : am.checkEntry found (nId, info) =
      .ok (if info.fInTried then (insert nId found.1, found.2)
        else (found.1, found.2.insert nId info.nRefCount)) := by
  have hpass : ∀ {bad : Prop} [Decidable bad] {reason : ℤ}, ¬ bad → rejectIf bad reason = .ok () := by
    intro bad _ reason hgood
    exact rejectIf_eq_ok.mpr hgood
  obtain ⟨i, hi, hat⟩ := h.indexes.exists_position hlookup
  have hentry := h.tables.entry nId
  rw [hlookup] at hentry
  obtain ⟨hplaced, htry, hsuccess⟩ := hentry
  have haddr : am.mapAddr.lookup info.toCNetAddr = some nId :=
    (h.indexes.addr _ _).mpr ⟨info, hlookup, rfl⟩
  have hilt : i < am.vRandom.length := (List.getElem?_eq_some_iff.mp hat).1
  have hagree : ¬ (am.mapAddr.lookup info.toCNetAddr).getD 0 ≠ nId := by
    rw [haddr, Option.getD_some]
    exact not_not.mpr rfl
  have hplace : ¬ (info.nRandomPos < 0 ∨ info.nRandomPos ≥ am.vRandom.length ∨
      am.vRandom[info.nRandomPos.toNat]? ≠ some nId) := by
    rw [hi, Int.toNat_natCast, hat]
    simp only [ne_eq, not_true, or_false]
    omega
  have hrefs := hplaced.nRefCount_le
  cases hplaced with
  | tried hin hcount _ _ hne =>
    simp only [checkEntry, hin, if_true, hpass hne, hpass (not_not.mpr hcount), hpass hagree,
      hpass hplace, hpass htry.not_gt, hpass hsuccess.not_gt, bind, Except.bind, pure, Except.pure]
  | new hin hcount hpos hle _ =>
    have hrange : ¬ (info.nRefCount < 0 ∨ info.nRefCount > ADDRMAN_NEW_BUCKETS_PER_ADDRESS) := by
      omega
    have hzero : ¬ info.nRefCount = 0 := by omega
    simp only [checkEntry, hin, Bool.false_eq_true, if_false, hpass hrange, hpass hzero, hpass hagree,
      hpass hplace, hpass htry.not_gt, hpass hsuccess.not_gt, bind, Except.bind, pure, Except.pure]

theorem foundAll_step (h : Inv hash am) {entry : ℤ × CAddrInfo} {rest : List (ℤ × CAddrInfo)}
    {found : Finset ℤ × Counts} (hfound : FoundAll am (entry :: rest) found) :
    ∃ found', am.checkEntry found entry = .ok found' ∧ FoundAll am rest found' := by
  obtain ⟨n, info⟩ := entry
  obtain ⟨hnodup, hentry, htried, hnew⟩ := hfound
  rw [List.map_cons, List.nodup_cons] at hnodup
  have hlookup := hentry _ (List.mem_cons_self ..)
  refine ⟨_, checkEntry_eq h hlookup, hnodup.2, fun e he ↦ hentry e (List.mem_cons_of_mem _ he), ?_, ?_⟩
  · intro m
    have hm := htried m
    rw [List.map_cons, List.mem_cons, not_or] at hm
    by_cases hmn : m = n
    · subst hmn
      cases hin : info.fInTried <;> simp_all [tableOf]
    · cases hin : info.fInTried <;> simp_all
  · intro m nCount
    have hm := hnew m nCount
    rw [List.map_cons, List.mem_cons, not_or] at hm
    by_cases hmn : m = n
    · subst hmn
      cases hin : info.fInTried <;> simp_all [tableOf]
    · cases hin : info.fInTried <;> simp_all [Finmap.lookup_insert_of_ne]

theorem foldlM_checkEntry (h : Inv hash am) :
    ∃ found, am.entries.foldlM am.checkEntry (∅, ∅) = .ok found ∧ FoundAll am [] found := by
  apply foldlM_total (FoundAll am) fun _ _ _ hfound ↦ foundAll_step h hfound
  have hall : ∀ n info, am.mapInfo.lookup n = some info → n ∈ am.entries.map Prod.fst :=
    fun n info hlookup ↦ List.mem_map.mpr ⟨(n, info), mem_entries.mpr hlookup, rfl⟩
  refine ⟨?_, fun entry hentry ↦ mem_entries.mp hentry, ?_, ?_⟩
  · rw [map_fst_entries]
    exact Finset.sort_nodup _ _
  · intro n
    simp only [Finset.notMem_empty, false_iff, not_and, not_not]
    rintro ⟨info, hlookup, -⟩
    exact hall n info hlookup
  · intro n nCount
    simp only [Finmap.lookup_empty, reduceCtorEq, false_iff, not_and, not_not]
    rintro ⟨info, ⟨hlookup, -⟩, -⟩
    exact hall n info hlookup

/-- Ids that are crossed off once each leave nothing. -/
theorem foldlM_checkTried {nIds : List ℤ} {setTried : Finset ℤ} (hnodup : nIds.Nodup)
    (hmem : ∀ n, n ∈ setTried ↔ n ∈ nIds) : nIds.foldlM checkTried setTried = .ok ∅ := by
  obtain ⟨left, hrun, -, hleft⟩ := foldlM_total
    (fun nIds setTried ↦ nIds.Nodup ∧ ∀ n, n ∈ setTried ↔ n ∈ nIds) (f := checkTried)
    (by
      intro n rest setTried hinv
      obtain ⟨hnodup, hmem⟩ := hinv
      rw [List.nodup_cons] at hnodup
      have hn : n ∈ setTried := (hmem n).mpr (List.mem_cons_self ..)
      refine ⟨setTried.erase n, ?_, hnodup.2, ?_⟩
      · simp only [checkTried, rejectIf, not_not.mpr hn, if_false, bind, Except.bind, pure, Except.pure]
      · intro m
        rw [Finset.mem_erase, hmem, List.mem_cons]
        constructor
        · rintro ⟨hne, heq | hrest⟩
          · exact absurd heq hne
          · exact hrest
        · intro hrest
          have hne : m ≠ n := by
            rintro rfl
            exact hnodup.1 hrest
          exact ⟨hne, .inr hrest⟩)
    ⟨hnodup, hmem⟩
  have hempty : left = ∅ := Finset.eq_empty_of_forall_notMem fun n hn ↦
    absurd ((hleft n).mp hn) (List.not_mem_nil)
  rw [hrun, hempty]

/-- Ids that are counted down as often as they occur leave nothing. -/
theorem foldlM_checkNew {nIds : List ℤ} {mapNew : Counts} (hcount : ∀ n, mapNew.lookup n =
      if nIds.count n = 0 then none else some (nIds.count n : ℤ)) :
    nIds.foldlM checkNew mapNew = .ok ∅ := by
  obtain ⟨left, hrun, hleft⟩ := foldlM_total (fun (nIds : List ℤ) (mapNew : Counts) ↦
      ∀ n, mapNew.lookup n = if nIds.count n = 0 then none else some (nIds.count n : ℤ))
    (f := checkNew)
    (by
      intro n rest mapNew hcount
      have hn := hcount n
      rw [List.count_cons_self, if_neg (Nat.succ_ne_zero _)] at hn
      push_cast at hn
      simp only [checkNew, hn, add_sub_cancel_right]
      have hother : ∀ m, m ≠ n → (n :: rest).count m = rest.count m := fun m hne ↦
        List.count_cons_of_ne hne.symm
      by_cases hlast : (rest.count n : ℤ) = 0
      · rw [if_pos hlast]
        refine ⟨_, rfl, ?_⟩
        intro m
        by_cases hm : m = n
        · rw [hm, Finmap.lookup_erase, if_pos (by exact_mod_cast hlast)]
        · rw [Finmap.lookup_erase_ne hm, hcount, hother m hm]
      · rw [if_neg hlast]
        refine ⟨_, rfl, ?_⟩
        intro m
        by_cases hm : m = n
        · rw [hm, Finmap.lookup_insert, if_neg (by exact_mod_cast hlast)]
        · rw [Finmap.lookup_insert_of_ne _ hm, hcount, hother m hm])
    hcount
  have hempty : left = ∅ := Finmap.ext_lookup fun n ↦ by
    rw [hleft n, List.count_nil, if_pos rfl, Finmap.lookup_empty]
  rw [hrun, hempty]

/-- All tried buckets one after the other. -/
theorem count_tried {n : ℤ} :
    ((List.finRange 64).flatMap am.vvTried).count n = occurrences am.vvTried n := by
  rw [List.count_flatMap, occurrences, Fin.sum_univ_def]
  rfl

theorem length_tried : ((List.finRange 64).flatMap am.vvTried).length = size am.vvTried := by
  rw [List.length_flatMap, size, Fin.sum_univ_def]

/-- All new buckets one after the other. -/
theorem count_new {n : ℤ} :
    ((List.finRange 256).flatMap fun b ↦ (am.vvNew b).sort).count n = references am.vvNew n := by
  have hone : ∀ b : NewBucket, ((am.vvNew b).sort).count n = if n ∈ am.vvNew b then 1 else 0 := by
    intro b
    rw [List.Nodup.count (Finset.sort_nodup _ _)]
    simp only [Finset.mem_sort]
  rw [List.count_flatMap, references, Finset.card_filter, Fin.sum_univ_def]
  simp only [Function.comp_def, hone]

theorem checks_eq_ok (h : Inv hash am) : am.checks = .ok () := by
  obtain ⟨⟨setTried, mapNew⟩, hentries, hfound⟩ := foldlM_checkEntry h
  have hplacedOf : ∀ n info, am.mapInfo.lookup n = some info →
      Placed (references am.vvNew n) (occurrences am.vvTried n) info := fun n info hlookup ↦
    h.tables.placed hlookup
  have htried : ∀ n, n ∈ setTried ↔ n ∈ (List.finRange 64).flatMap am.vvTried := by
    intro n
    rw [hfound.tried, ← List.count_pos_iff (l := List.flatMap _ _), count_tried]
    constructor
    · rintro ⟨⟨info, hlookup, hin⟩, -⟩
      cases hplacedOf n info hlookup with
      | tried _ _ _ honce _ => rw [honce]; exact Nat.one_pos
      | new hin' _ _ _ _ => exact absurd (hin.symm.trans hin') (by simp)
    · intro hpos
      have hentry := h.tables.entry n
      cases hlookup : am.mapInfo.lookup n with
      | none =>
        rw [hlookup] at hentry
        exact absurd hentry.2 hpos.ne'
      | some info =>
        refine ⟨⟨info, hlookup, ?_⟩, by simp⟩
        cases hplacedOf n info hlookup with
        | tried hin _ _ _ _ => exact hin
        | new _ _ _ _ hnone => exact absurd hnone hpos.ne'
  have hnodup : ((List.finRange 64).flatMap am.vvTried).Nodup := by
    rw [List.nodup_iff_count_le_one]
    intro n
    rw [count_tried]
    have hentry := h.tables.entry n
    cases hlookup : am.mapInfo.lookup n with
    | none =>
      rw [hlookup] at hentry
      exact hentry.2.le.trans Nat.one_pos.le
    | some info =>
      cases hplacedOf n info hlookup with
      | tried _ _ _ honce _ => exact honce.le
      | new _ _ _ _ hnone => exact hnone.le.trans Nat.one_pos.le
  have hsetTried : (setTried.card : ℤ) = am.nTried := by
    have heq : setTried = ((List.finRange 64).flatMap am.vvTried).toFinset := by
      ext n
      rw [htried, List.mem_toFinset]
    rw [heq, List.toFinset_card_of_nodup hnodup, length_tried, h.tables.nTried_eq]
  have hnew : ∀ n, mapNew.lookup n =
      if ((List.finRange 256).flatMap fun b ↦ (am.vvNew b).sort).count n = 0 then none
      else some (((List.finRange 256).flatMap fun b ↦ (am.vvNew b).sort).count n : ℤ) := by
    intro n
    rw [count_new]
    ext nCount
    rw [hfound.new]
    constructor
    · rintro ⟨⟨info, ⟨hlookup, hin⟩, rfl⟩, -⟩
      cases hplacedOf n info hlookup with
      | tried hin' _ _ _ _ => exact absurd (hin.symm.trans hin') (by simp)
      | new _ hcount hpos _ _ => rw [if_neg hpos.ne', hcount]
    · intro hsome
      split at hsome
      · exact absurd hsome (by simp)
      · next hne =>
        obtain ⟨info, hlookup, hin, hcount, -⟩ := @Tables.exists_of_references _ n _ _ h.tables
          (Nat.pos_of_ne_zero hne)
        exact ⟨⟨info, ⟨hlookup, hin⟩, hcount.trans (Option.some.inj hsome)⟩, by simp⟩
  have hmapNew : (mapNew.keys.card : ℤ) = am.nNew := by
    have hunion : setTried ∪ mapNew.keys = am.vRandom.toFinset := by
      ext n
      rw [Finset.mem_union, Finmap.mem_keys, Finmap.mem_iff, hfound.tried, List.mem_toFinset,
        h.indexes.mem_vRandom, mem_mapInfo]
      simp only [hfound.new, List.map_nil, List.not_mem_nil, not_false_eq_true, and_true]
      constructor
      · rintro (⟨info, hlookup, -⟩ | ⟨nCount, info, ⟨hlookup, -⟩, -⟩) <;> exact ⟨info, hlookup⟩
      · rintro ⟨info, hlookup⟩
        cases hin : info.fInTried with
        | true => exact .inl ⟨info, hlookup, hin⟩
        | false => exact .inr ⟨_, info, ⟨hlookup, hin⟩, rfl⟩
    have hdisjoint : Disjoint setTried mapNew.keys := by
      rw [Finset.disjoint_left]
      intro n hn hn'
      obtain ⟨⟨info, hlookup, hin⟩, -⟩ := (hfound.tried n).mp hn
      obtain ⟨nCount, hcount⟩ := Finmap.mem_iff.mp (Finmap.mem_keys.mp hn')
      obtain ⟨⟨info', ⟨hlookup', hin'⟩, -⟩, -⟩ := (hfound.new n nCount).mp hcount
      rw [Option.some.inj (hlookup.symm.trans hlookup'), hin'] at hin
      exact absurd hin (by simp)
    have hcard := Finset.card_union_of_disjoint hdisjoint
    rw [hunion, List.toFinset_card_of_nodup h.indexes.random.nodup] at hcard
    have hcounts := h.tables.nNew_eq
    omega
  have hlength : ¬ (am.vRandom.length : ℤ) ≠ am.nTried + am.nNew :=
    not_not.mpr h.tables.nNew_eq.symm
  simp only [checks, rejectIf, hlength, hentries, not_not.mpr hsetTried, not_not.mpr hmapNew,
    foldlM_checkTried hnodup htried, foldlM_checkNew hnew, if_false, bind, Except.bind]
  rfl

/-- `Check_` returns 0, the two maps agree, and no bucket is too large. -/
structure Consistent (am : CAddrMan) : Prop where
  check : am.check_ = 0
  addr : ∀ addr nId, am.mapAddr.lookup addr = some nId ↔
    ∃ info, am.mapInfo.lookup nId = some info ∧ info.toCNetAddr = addr
  tried_le : ∀ nKBucket, (am.vvTried nKBucket).length ≤ ADDRMAN_TRIED_BUCKET_SIZE
  new_le : ∀ nUBucket, (am.vvNew nUBucket).card ≤ ADDRMAN_NEW_BUCKET_SIZE

theorem Inv.consistent (h : Inv hash am) : Consistent am := by
  refine ⟨?_, h.indexes.addr, h.tables.tried_le, h.tables.new_le⟩
  rw [check_, checks_eq_ok h]

/-- Whatever is called with positive times and however the random choices fall, the calls have a
result, and a consistent one, just when none of them counts beyond an `int`. -/
theorem check_run_iff (hash : List UInt8 → Uint256) (nKey : List UInt8) (calls : List AddrCall)
    (hpos : ∀ addrCall ∈ calls, addrCall.TimePositive) :
    (∃ am, (empty nKey).run hash calls = some am ∧ Consistent am) ↔
      (empty nKey).CountsFit hash calls := by
  constructor
  · rintro ⟨am, hrun, -⟩
    exact countsFit_of_run hrun
  · intro hfits
    obtain ⟨am, hrun, hinv⟩ := run_spec (@inv_empty hash nKey) hpos hfits
    exact ⟨am, hrun, hinv.consistent⟩

/-- Two addresses are entered; one of them is tried and found good, and both are given away. -/
theorem check_run_good :
    let addr : CAddress := { CAddress.init with
      ip := pchIPv4 ++ [8, 8, 8, 8], length_ip := rfl, port := 5817, nTime := 1000 }
    let other : CAddress := { CAddress.init with
      ip := pchIPv4 ++ [9, 9, 9, 9], length_ip := rfl, port := 5817, nTime := 1000 }
    let calls : List AddrCall := [.add 1000 (fun _ ↦ 0) addr addr.toCNetAddr 0,
      .add 1000 (fun _ ↦ 0) other addr.toCNetAddr 0, .attempt addr.toCService 1000,
      .good (fun _ ↦ 0) addr.toCService 1001, .getAddr fun _ ↦ 0]
    ∃ am, (empty []).run (fun _ ↦ 0) calls = some am ∧ Consistent am := by
  intro addr other calls
  have hsome : ((empty []).run (fun _ ↦ 0) calls).isSome = true := by decide +kernel
  obtain ⟨am, hrun⟩ := Option.isSome_iff_exists.mp hsome
  exact (check_run_iff (fun _ ↦ 0) [] calls (by simp [calls, AddrCall.TimePositive])).mpr
    (countsFit_of_run hrun)

/-- As many addresses as four bytes tell apart. -/
def addrAt (n : ℕ) : CAddress :=
  { CAddress.init with
    ip := [0x2a, 0, 0, 0, 0, 0, 0, 0, 0, 0, 0, 0, UInt8.ofNat (n / 2 ^ 24), UInt8.ofNat (n / 2 ^ 16),
      UInt8.ofNat (n / 2 ^ 8), UInt8.ofNat n]
    length_ip := rfl, port := 5817, nTime := 1000 }

def addCalls (n : ℕ) : List AddrCall :=
  (List.range n).map fun m ↦ .add 1000 (fun _ ↦ 0) (addrAt m) (addrAt m).toCNetAddr 0

theorem isRoutable_addrAt (n : ℕ) : (addrAt n).isRoutable = true := by
  have hbyte : (addrAt n).getByte 15 = 0x2a := rfl
  have hIPv4 : (addrAt n).isIPv4 = false := rfl
  have hRFC4862 : (addrAt n).isRFC4862 = false := rfl
  have hRFC4193 : (addrAt n).isRFC4193 = false := by
    rw [CNetAddr.isRFC4193, hbyte]
    decide
  have hlocal : (addrAt n).isLocal = false := rfl
  have hzero : (addrAt n).ip ≠ List.replicate 16 0 := by simp [addrAt]
  have hshifted : ((addrAt n).ip.take 9 == pchIPv4.drop 3) = false := rfl
  simpa [CNetAddr.isRoutable, CNetAddr.isValid, CNetAddr.isRFC1918, CNetAddr.isRFC3927,
    CNetAddr.isRFC4843, CNetAddr.isRFC3849, hbyte, hIPv4, hRFC4862, hRFC4193, hlocal, hshifted]
    using hzero

theorem addrAt_injective {m n : ℕ} (hm : m < 2 ^ 32) (hn : n < 2 ^ 32)
    (h : (addrAt m).toCNetAddr = (addrAt n).toCNetAddr) : m = n := by
  have hip := congrArg CNetAddr.ip h
  simp only [addrAt, List.cons.injEq, true_and, and_true, ← UInt8.toNat_inj,
    UInt8.toNat_ofNat'] at hip
  omega

theorem find_addrAt_eq_none {n : ℕ} (hn : n < 2 ^ 32)
    (h : ∀ addr ∈ am.mapAddr, ∃ m < n, addr = (addrAt m).toCNetAddr) :
    am.find (addrAt n).toCNetAddr = none := by
  have hnew : (addrAt n).toCNetAddr ∉ am.mapAddr := by
    intro hmem
    obtain ⟨m, hm, heq⟩ := h _ hmem
    exact hm.ne' (addrAt_injective hn (hm.trans hn) heq)
  rw [find, Finmap.lookup_eq_none.mpr hnew]
  rfl

theorem addCalls_succ (n : ℕ) : addCalls (n + 1) =
    addCalls n ++ [.add 1000 (fun _ ↦ 0) (addrAt n) (addrAt n).toCNetAddr 0] := by
  rw [addCalls, List.range_succ, List.map_append]
  rfl

/-- Every one of the addresses is entered under the next id. -/
theorem run_addCalls {nKey : List UInt8} {n : ℕ} (hn : n ≤ 2 ^ 32)
    (h : (empty nKey).run hash (addCalls n) = some am) :
    am.nIdCount = n ∧ ∀ addr ∈ am.mapAddr, ∃ m < n, addr = (addrAt m).toCNetAddr := by
  induction n generalizing am with
  | zero =>
    rw [← Option.some.inj h]
    exact ⟨rfl, fun addr haddr ↦ absurd haddr Finmap.notMem_empty⟩
  | succ n ih =>
    rw [addCalls_succ, run, List.foldlM_append] at h
    obtain ⟨am₁, hrun, h⟩ := Option.bind_eq_some_iff.mp h
    obtain ⟨hcount, hknown⟩ := ih (by omega) hrun
    have hfind := find_addrAt_eq_none (by omega) hknown
    obtain ⟨am₂, hcall, h⟩ := Option.bind_eq_some_iff.mp h
    obtain ⟨⟨fNew, am₃⟩, hadd, rfl⟩ := Option.map_eq_some_iff.mp hcall
    obtain ⟨hmore, hentered⟩ := add_unknown_eq_some (isRoutable_addrAt n) hfind hadd
    rw [← Option.some.inj h]
    refine ⟨by rw [hmore, hcount]; push_cast; rfl, fun addr haddr ↦ ?_⟩
    obtain rfl | hold := hentered addr haddr
    · exact ⟨n, Nat.lt_succ_self n, rfl⟩
    · obtain ⟨m, hm, heq⟩ := hknown addr hold
      exact ⟨m, hm.trans (Nat.lt_succ_self n), heq⟩

/-- The last of 2³¹ addresses would count `nIdCount` beyond the largest `int`. -/
theorem not_check_run_ids : (∀ addrCall ∈ addCalls (2 ^ 31), addrCall.TimePositive) ∧
    ¬ ∃ am, (empty []).run (fun _ ↦ 0) (addCalls (2 ^ 31)) = some am ∧ Consistent am := by
  constructor
  · intro addrCall hmem
    obtain ⟨n, -, rfl⟩ := List.mem_map.mp hmem
    trivial
  · rintro ⟨am, hrun, -⟩
    have hlast : 2 ^ 31 = (2 ^ 31 - 1) + 1 := rfl
    rw [hlast, addCalls_succ, run, List.foldlM_append] at hrun
    obtain ⟨am₁, hbefore, hrun⟩ := Option.bind_eq_some_iff.mp hrun
    obtain ⟨hcount, hknown⟩ := run_addCalls (by decide) hbefore
    obtain ⟨am₂, hcall, -⟩ := Option.bind_eq_some_iff.mp hrun
    exact countFits_of_call hcall (isRoutable_addrAt _) (find_addrAt_eq_none (by decide) hknown)
      hcount

end CAddrMan

end Electra.Net
