import Mathlib.Data.List.Induction
import Mathlib.Data.List.Nodup
import Mathlib.Data.List.Indexes

/-!
# Index of a ledger of transactions that spend one another's outputs

A ledger is a list of transactions, each with an id, a position, a list of outpoints it consumes
and a number of outputs.  An index maps the id of a transaction to its position and to one mark
for each of its outputs: the position of the transaction that spends the output, if any.

Entering a transaction marks what it consumes and adds its own entry; removing it takes the
marks and the entry back.  For ledgers whose transactions only consume outputs which are present
and unmarked, the index is a function of the ledger (`Valid.indexOf_apply`), and removal undoes
entering (`undoAll_applyAll`).
-/

namespace Electra.Foundations.SpendIndex

/-- An output, named by the id of its transaction and its place among the outputs. -/
structure OutPoint (K : Type*) where
  hash : K
  n : ℕ
deriving DecidableEq

/-- Index record of one transaction. -/
structure Entry (P : Type*) where
  pos : P
  vSpent : List (Option P)
deriving DecidableEq

abbrev Index (K P : Type*) := K → Option (Entry P)

/-- What the index needs to know of a transaction. -/
structure Spender (K P : Type*) where
  id : K
  pos : P
  ins : List (OutPoint K)
  outs : ℕ

variable {K P : Type*} [DecidableEq K]

/-- Overwrite the mark of one output; nothing happens when its transaction has no entry. -/
def setMark (mark : Option P) (index : Index K P) (o : OutPoint K) : Index K P :=
  match index o.hash with
  | none => index
  | some entry =>
      Function.update index o.hash (some { entry with vSpent := entry.vSpent.set o.n mark })

/-- Enter a transaction. -/
def apply (index : Index K P) (t : Spender K P) : Index K P :=
  Function.update (t.ins.foldl (setMark (some t.pos)) index) t.id
    (some ⟨t.pos, List.replicate t.outs none⟩)

/-- Take a transaction out again. -/
def undo (index : Index K P) (t : Spender K P) : Index K P :=
  Function.update (t.ins.foldl (setMark none) index) t.id none

def applyAll (index : Index K P) (ts : List (Spender K P)) : Index K P := ts.foldl apply index

/-- Removal runs through the transactions backwards. -/
def undoAll (index : Index K P) (ts : List (Spender K P)) : Index K P :=
  ts.reverse.foldl undo index

/-- The output exists and is unmarked. -/
def Ready (index : Index K P) (o : OutPoint K) : Prop :=
  ∃ entry, index o.hash = some entry ∧ entry.vSpent[o.n]? = some none

/-- There is no entry of this id, or all its outputs are marked. -/
def FullySpent (index : Index K P) (k : K) : Prop :=
  ∀ entry, index k = some entry → none ∉ entry.vSpent

/-- A transaction may be entered: it consumes present, unmarked and distinct outputs, and its own
entry overwrites at most an entry that nothing can consume from any more. -/
structure Enabled (index : Index K P) (t : Spender K P) : Prop where
  ready : ∀ o ∈ t.ins, Ready index o
  nodup : t.ins.Nodup
  fullySpent : FullySpent index t.id

/-- The transactions of a list may be entered one after another. -/
def EnabledAll (index : Index K P) : List (Spender K P) → Prop
  | [] => True
  | t :: ts => Enabled index t ∧ EnabledAll (apply index t) ts

/-- The index of a ledger. -/
def indexOf (ts : List (Spender K P)) : Index K P := applyAll (fun _ ↦ none) ts

/-- A ledger in which ids are unique and every transaction consumes unmarked earlier outputs. -/
structure Valid (ts : List (Spender K P)) : Prop where
  enabled : EnabledAll (fun _ ↦ none) ts
  ids : (ts.map Spender.id).Nodup

@[simp]
theorem mapIdx_old (vSpent : List (Option P)) : vSpent.mapIdx (fun _ old ↦ old) = vSpent := by
  apply List.ext_getElem <;> simp

/-- Closed form of marking a list of outputs. -/
def markAll (mark : Option P) (ins : List (OutPoint K)) (index : Index K P) : Index K P :=
  fun k ↦ (index k).map fun entry ↦
    { entry with vSpent := entry.vSpent.mapIdx fun n old ↦ if ⟨k, n⟩ ∈ ins then mark else old }

theorem setMark_eq_markAll (mark : Option P) (index : Index K P) (o : OutPoint K) :
    setMark mark index o = markAll mark [o] index := by
  funext k
  unfold setMark markAll
  cases hentry : index o.hash with
  | none =>
    by_cases hk : k = o.hash
    · subst hk
      simp [hentry]
    · have hne : ∀ n, (⟨k, n⟩ : OutPoint K) ≠ o := fun n h ↦ hk (by rw [← h])
      simp [hne]
  | some entry =>
    by_cases hk : k = o.hash
    · subst hk
      simp only [Function.update_self, hentry, Option.map_some]
      congr 2
      apply List.ext_getElem
      · simp
      · intro n h₁ h₂
        by_cases hn : n = o.n
        · subst hn
          simp
        · have hne : (⟨o.hash, n⟩ : OutPoint K) ≠ o := fun h ↦ hn (by rw [← h])
          simp [hne, List.getElem_set_ne (Ne.symm hn)]
    · have hne : ∀ n, (⟨k, n⟩ : OutPoint K) ≠ o := fun n h ↦ hk (by rw [← h])
      simp only [Function.update_of_ne hk]
      cases index k <;> simp [hne]

theorem markAll_append (mark : Option P) (as bs : List (OutPoint K)) (index : Index K P) :
    markAll mark (as ++ bs) index = markAll mark bs (markAll mark as index) := by
  funext k
  unfold markAll
  cases index k with
  | none => rfl
  | some entry =>
    simp only [Option.map_some]
    congr 2
    apply List.ext_getElem
    · simp
    · intro n h₁ h₂
      simp only [List.getElem_mapIdx, List.mem_append]
      by_cases hb : (⟨k, n⟩ : OutPoint K) ∈ bs <;> by_cases ha : (⟨k, n⟩ : OutPoint K) ∈ as <;>
        simp [ha, hb]

theorem foldl_setMark (mark : Option P) (ins : List (OutPoint K)) (index : Index K P) :
    ins.foldl (setMark mark) index = markAll mark ins index := by
  induction ins using List.reverseRecOn with
  | nil =>
    funext k
    cases hentry : index k <;> simp [markAll, hentry]
  | append_singleton ins o ih =>
    rw [List.foldl_append, ih, List.foldl_cons, List.foldl_nil, setMark_eq_markAll, markAll_append]

variable {index : Index K P} {k : K} {o : OutPoint K} {t : Spender K P} {as bs ts : List (Spender K P)}

theorem markAll_eq_none_iff {mark : Option P} {ins : List (OutPoint K)} :
    markAll mark ins index k = none ↔ index k = none := by
  simp [markAll]

/-- An output that is unmarked after marking was unmarked before. -/
theorem Ready.of_markAll {p : P} {ins : List (OutPoint K)} (h : Ready (markAll (some p) ins index) o) :
    Ready index o := by
  obtain ⟨entry, hentry, hnone⟩ := h
  obtain ⟨old, hold, rfl⟩ := Option.map_eq_some_iff.mp hentry
  refine ⟨old, hold, ?_⟩
  simp only [List.getElem?_mapIdx, Option.map_eq_some_iff] at hnone
  obtain ⟨mark, hmark, heq⟩ := hnone
  split at heq
  · cases heq
  · rw [hmark, heq]

theorem apply_eq (index : Index K P) (t : Spender K P) :
    apply index t = Function.update (markAll (some t.pos) t.ins index) t.id
      (some ⟨t.pos, List.replicate t.outs none⟩) := by
  rw [apply, foldl_setMark]

theorem undo_eq (index : Index K P) (t : Spender K P) :
    undo index t = Function.update (markAll none t.ins index) t.id none := by
  rw [undo, foldl_setMark]

theorem apply_eq_none_iff :
    apply index t k = none ↔ index k = none ∧ k ≠ t.id := by
  rw [apply_eq]
  by_cases hk : k = t.id
  · subst hk
    simp
  · simp [markAll_eq_none_iff, hk]

omit [DecidableEq K] in
theorem Ready.isSome (h : Ready index o) :
    index o.hash ≠ none := by
  obtain ⟨entry, hentry, -⟩ := h
  simp [hentry]

/-- Removing the transaction entered last restores every record but its own. -/
theorem undo_apply_of_ne (hready : ∀ o ∈ t.ins, Ready index o) (hk : k ≠ t.id) :
    undo (apply index t) t k = index k := by
  rw [undo_eq, apply_eq, Function.update_of_ne hk]
  unfold markAll
  rw [Function.update_of_ne hk]
  cases hentry : index k with
  | none => rfl
  | some entry =>
    have hspent : (entry.vSpent.mapIdx fun n old ↦
        if (⟨k, n⟩ : OutPoint K) ∈ t.ins then some t.pos else old).mapIdx
        (fun n old ↦ if (⟨k, n⟩ : OutPoint K) ∈ t.ins then none else old) = entry.vSpent := by
      apply List.ext_getElem
      · simp
      · intro n h₁ h₂
        by_cases hmem : (⟨k, n⟩ : OutPoint K) ∈ t.ins
        · obtain ⟨entry', hentry', hnone⟩ := hready _ hmem
          obtain rfl : entry = entry' := Option.some.inj (hentry.symm.trans hentry')
          have hn : entry.vSpent[n] = none := by
            rw [List.getElem?_eq_getElem h₂] at hnone
            exact Option.some.inj hnone
          simp [hmem, hn]
        · simp [hmem]
    simp [hspent]

/-- Removing the transaction entered last restores the index record for record. -/
theorem undo_apply (hready : ∀ o ∈ t.ins, Ready index o) (hfresh : index t.id = none) :
    undo (apply index t) t = index := by
  funext k
  by_cases hk : k = t.id
  · subst hk
    simp [undo_eq, hfresh]
  · exact undo_apply_of_ne hready hk

@[simp]
theorem applyAll_nil (index : Index K P) : applyAll index [] = index := rfl

@[simp]
theorem applyAll_cons (index : Index K P) (t : Spender K P) (ts : List (Spender K P)) :
    applyAll index (t :: ts) = applyAll (apply index t) ts := rfl

theorem applyAll_append (index : Index K P) (as bs : List (Spender K P)) :
    applyAll index (as ++ bs) = applyAll (applyAll index as) bs := by
  simp [applyAll, List.foldl_append]

theorem undoAll_cons (index : Index K P) (t : Spender K P) (ts : List (Spender K P)) :
    undoAll index (t :: ts) = undo (undoAll index ts) t := by
  simp [undoAll, List.foldl_append]

theorem enabledAll_append :
    EnabledAll index (as ++ bs) ↔ EnabledAll index as ∧ EnabledAll (applyAll index as) bs := by
  induction as generalizing index with
  | nil => simp [EnabledAll]
  | cons t as ih => simp [EnabledAll, ih, and_assoc]

theorem applyAll_eq_none_iff :
    applyAll index ts k = none ↔ index k = none ∧ k ∉ ts.map Spender.id := by
  induction ts generalizing index with
  | nil => simp
  | cons t ts ih => simp [ih, apply_eq_none_iff, and_assoc]

/-- The position of a record changes only when a transaction of that id is entered. -/
theorem map_pos_apply_of_ne (hk : k ≠ t.id) :
    (apply index t k).map Entry.pos = (index k).map Entry.pos := by
  rw [apply_eq, Function.update_of_ne hk, markAll, Option.map_map]
  rfl

theorem map_pos_applyAll_of_notMem (hk : k ∉ ts.map Spender.id) :
    (applyAll index ts k).map Entry.pos = (index k).map Entry.pos := by
  induction ts generalizing index with
  | nil => rfl
  | cons t ts ih =>
    rw [List.map_cons, List.mem_cons, not_or] at hk
    rw [applyAll_cons, ih hk.2, map_pos_apply_of_ne hk.1]

/-- Each entered transaction has a record with its position. -/
theorem map_pos_applyAll (ht : t ∈ ts) (hids : (ts.map Spender.id).Nodup) :
    (applyAll index ts t.id).map Entry.pos = some t.pos := by
  obtain ⟨pre, post, rfl⟩ := List.append_of_mem ht
  rw [List.map_append, List.map_cons] at hids
  have hlater : t.id ∉ post.map Spender.id := (List.nodup_cons.mp hids.of_append_right).1
  rw [applyAll_append, applyAll_cons, map_pos_applyAll_of_notMem hlater, apply_eq,
    Function.update_self, Option.map_some]

/-- Removing a list of transactions in reverse order undoes entering it. -/
theorem undoAll_applyAll (henabled : EnabledAll index ts) (hids : (ts.map Spender.id).Nodup)
    (hfresh : ∀ t ∈ ts, index t.id = none) : undoAll (applyAll index ts) ts = index := by
  induction ts generalizing index with
  | nil => rfl
  | cons t ts ih =>
    rw [List.map_cons, List.nodup_cons] at hids
    have htail : undoAll (applyAll (apply index t) ts) ts = apply index t := by
      refine ih henabled.2 hids.2 fun u hu ↦ apply_eq_none_iff.mpr ⟨hfresh u (.tail _ hu), ?_⟩
      intro heq
      exact hids.1 (heq ▸ List.mem_map_of_mem hu)
    rw [applyAll_cons, undoAll_cons, htail]
    exact undo_apply henabled.1.ready (hfresh t (.head _))

/-- A fully marked entry stays so when outputs are marked. -/
theorem fullySpent_markAll (h : FullySpent index k) (p : P) (ins : List (OutPoint K)) :
    FullySpent (markAll (some p) ins index) k := by
  intro entry hentry hmem
  obtain ⟨old, hold, rfl⟩ := Option.map_eq_some_iff.mp hentry
  obtain ⟨n, hn, heq⟩ := List.mem_mapIdx.mp hmem
  by_cases hin : (⟨k, n⟩ : OutPoint K) ∈ ins
  · simp [hin] at heq
  · rw [if_neg hin] at heq
    exact h old hold (heq ▸ List.getElem_mem hn)

theorem fullySpent_apply (h : FullySpent index k) (hne : k ≠ t.id) : FullySpent (apply index t) k := by
  intro entry hentry
  rw [apply_eq, Function.update_of_ne hne] at hentry
  exact fullySpent_markAll h t.pos t.ins entry hentry

theorem fullySpent_applyAll (h : FullySpent index k) (hne : k ∉ ts.map Spender.id) :
    FullySpent (applyAll index ts) k := by
  induction ts generalizing index with
  | nil => exact h
  | cons t ts ih =>
    rw [List.map_cons, List.mem_cons, not_or] at hne
    exact ih (fullySpent_apply h hne.1) hne.2

/-- An unmarked output was there before a transaction was entered, or it is one of its own. -/
theorem Ready.of_apply (h : Ready (apply index t) o) :
    Ready index o ∨ t.id = o.hash ∧ o.n < t.outs := by
  rw [apply_eq] at h
  by_cases hid : o.hash = t.id
  · right
    obtain ⟨entry, hentry, hnone⟩ := h
    rw [hid, Function.update_self, Option.some.injEq] at hentry
    subst hentry
    refine ⟨hid.symm, ?_⟩
    by_contra hout
    rw [List.getElem?_eq_none (by simpa using hout)] at hnone
    cases hnone
  · left
    obtain ⟨entry, hentry, hnone⟩ := h
    rw [Function.update_of_ne hid] at hentry
    have hmarked : Ready (markAll (some t.pos) t.ins index) o := ⟨entry, hentry, hnone⟩
    exact hmarked.of_markAll

theorem Ready.of_applyAll (h : Ready (applyAll index ts) o) :
    Ready index o ∨ ∃ t ∈ ts, t.id = o.hash ∧ o.n < t.outs := by
  induction ts generalizing index with
  | nil => exact .inl h
  | cons t ts ih =>
    rcases ih h with hready | ⟨u, hu, hid⟩
    · rcases hready.of_apply with hready | hid
      · exact .inl hready
      · exact .inr ⟨t, List.mem_cons_self, hid⟩
    · exact .inr ⟨u, List.mem_cons_of_mem t hu, hid⟩

/-- Every transaction consumes outputs that the index has or that an earlier transaction has. -/
theorem EnabledAll.source {pre post : List (Spender K P)} (h : EnabledAll index (pre ++ t :: post))
    (ho : o ∈ t.ins) :
    Ready index o ∨ ∃ u ∈ pre, u.id = o.hash ∧ o.n < u.outs :=
  ((enabledAll_append.mp h).2.1.ready o ho).of_applyAll

/-- An output that is marked is not consumed any more, unless its transaction is entered again. -/
theorem EnabledAll.notMem_ins (h : EnabledAll index ts) (hmarked : ¬ Ready index o)
    (hold : o.hash ∉ ts.map Spender.id) :
    ∀ t ∈ ts, o ∉ t.ins := by
  induction ts generalizing index with
  | nil => simp
  | cons t ts ih =>
    rw [List.map_cons, List.mem_cons, not_or] at hold
    have hmarked' : ¬ Ready (apply index t) o := by
      intro hready
      rcases hready.of_apply with hready | ⟨hid, -⟩
      · exact hmarked hready
      · exact hold.1 hid.symm
    intro u hu ho
    rcases List.mem_cons.mp hu with rfl | hu
    · exact hmarked (h.1.ready o ho)
    · exact ih h.2 hmarked' hold.2 u hu ho

/-- No outpoint is consumed by two of the transactions, if none of them is in the index already. -/
theorem EnabledAll.pairwise_disjoint (h : EnabledAll index ts) (hids : (ts.map Spender.id).Nodup)
    (hfresh : ∀ t ∈ ts, index t.id = none) : ts.Pairwise fun t u ↦ ∀ o ∈ t.ins, o ∉ u.ins := by
  induction ts generalizing index with
  | nil => exact List.Pairwise.nil
  | cons t ts ih =>
    rw [List.map_cons, List.nodup_cons] at hids
    have hne : ∀ u ∈ ts, u.id ≠ t.id := fun u hu heq ↦ hids.1 (heq ▸ List.mem_map_of_mem hu)
    rw [List.pairwise_cons]
    constructor
    · intro u hu o ho
      have hpresent : index o.hash ≠ none := (h.1.ready o ho).isSome
      have hown : o.hash ≠ t.id := fun heq ↦ hpresent (heq ▸ hfresh t List.mem_cons_self)
      have hold : o.hash ∉ ts.map Spender.id := by
        intro hmem
        obtain ⟨v, hv, hid⟩ := List.mem_map.mp hmem
        exact hpresent (hid ▸ hfresh v (List.mem_cons_of_mem t hv))
      have hmarked : ¬ Ready (apply index t) o := by
        rintro ⟨entry, hentry, hnone⟩
        rw [apply_eq, Function.update_of_ne hown] at hentry
        obtain ⟨old, -, rfl⟩ := Option.map_eq_some_iff.mp hentry
        simp [List.getElem?_mapIdx, show (⟨o.hash, o.n⟩ : OutPoint K) ∈ t.ins from ho] at hnone
      exact h.2.notMem_ins hmarked hold u hu
    · refine ih h.2 hids.2 ?_
      intro u hu
      exact apply_eq_none_iff.mpr ⟨hfresh u (List.mem_cons_of_mem t hu), hne u hu⟩

/-- Position of the transaction of the ledger that consumes an outpoint. -/
def spenderPos (ts : List (Spender K P)) (o : OutPoint K) : Option P :=
  (ts.find? (o ∈ ·.ins)).map Spender.pos

/-- The entry the index of a ledger has for one of its transactions. -/
def entryOf (ts : List (Spender K P)) (t : Spender K P) : Entry P :=
  ⟨t.pos, (List.range t.outs).map fun n ↦ spenderPos ts ⟨t.id, n⟩⟩

theorem indexOf_append (as bs : List (Spender K P)) :
    indexOf (as ++ bs) = applyAll (indexOf as) bs := applyAll_append _ as bs

theorem indexOf_append_singleton (ts : List (Spender K P)) (t : Spender K P) :
    indexOf (ts ++ [t]) = apply (indexOf ts) t := indexOf_append ts [t]

theorem indexOf_eq_none_iff :
    indexOf ts k = none ↔ k ∉ ts.map Spender.id := by
  simp [indexOf, applyAll_eq_none_iff]

/-- An entry of the index is that of a transaction with its id. -/
theorem exists_spender_of_indexOf {entry : Entry P} (h : indexOf ts k = some entry) :
    ∃ t ∈ ts, t.id = k ∧ t.pos = entry.pos := by
  induction ts using List.reverseRecOn generalizing entry with
  | nil => cases h
  | append_singleton ts t ih =>
    rw [indexOf_append_singleton, apply_eq] at h
    by_cases heq : k = t.id
    · subst heq
      rw [Function.update_self] at h
      obtain rfl := Option.some.inj h
      exact ⟨t, by simp, rfl, rfl⟩
    · rw [Function.update_of_ne heq] at h
      obtain ⟨old, hold, rfl⟩ := Option.map_eq_some_iff.mp h
      obtain ⟨t', ht', hid, hpos⟩ := ih hold
      exact ⟨t', List.mem_append_left _ ht', hid, hpos⟩

theorem Valid.append_left (h : Valid (as ++ bs)) : Valid as where
  enabled := (enabledAll_append.mp h.enabled).1
  ids := by
    have hids := h.ids
    rw [List.map_append] at hids
    exact hids.of_append_left

/-- A ledger grows by transactions that may be entered and have new ids. -/
theorem Valid.append (h : Valid as) (henabled : EnabledAll (indexOf as) bs)
    (hids : (bs.map Spender.id).Nodup) (hfresh : ∀ t ∈ bs, t.id ∉ as.map Spender.id) :
    Valid (as ++ bs) where
  enabled := enabledAll_append.mpr ⟨h.enabled, henabled⟩
  ids := by
    rw [List.map_append, List.nodup_append]
    refine ⟨h.ids, hids, ?_⟩
    rintro a ha b hb rfl
    obtain ⟨t, ht, rfl⟩ := List.mem_map.mp hb
    exact hfresh t ht ha

theorem Valid.enabled_last (h : Valid (ts ++ [t])) :
    Enabled (indexOf ts) t := (enabledAll_append.mp h.enabled).2.1

theorem Valid.id_last_notMem (h : Valid (ts ++ [t])) :
    t.id ∉ ts.map Spender.id := by
  have hids := h.ids
  rw [List.map_append, List.nodup_append] at hids
  intro hmem
  exact hids.2.2 _ hmem t.id (by simp) rfl

/-- A transaction of a valid ledger consumes outputs of transactions of the ledger. -/
theorem Valid.ins_mem_ids (h : Valid ts) (ht : t ∈ ts) (ho : o ∈ t.ins) :
    o.hash ∈ ts.map Spender.id := by
  induction ts using List.reverseRecOn with
  | nil => cases ht
  | append_singleton ts u ih =>
    rw [List.map_append, List.mem_append]
    left
    rcases List.mem_append.mp ht with ht | ht
    · exact ih h.append_left ht
    · obtain rfl := List.mem_singleton.mp ht
      by_contra hmem
      exact (h.enabled_last.ready o ho).isSome (indexOf_eq_none_iff.mpr hmem)

/-- The index of a valid ledger: one entry for each of its transactions, with its position and
for each output the position of its spender. -/
theorem Valid.indexOf_apply (h : Valid ts) (ht : t ∈ ts) :
    indexOf ts t.id = some (entryOf ts t) := by
  induction ts using List.reverseRecOn with
  | nil => cases ht
  | append_singleton ts u ih =>
    have hu : u.id ∉ ts.map Spender.id := h.id_last_notMem
    rw [indexOf_append_singleton, apply_eq]
    rcases List.mem_append.mp ht with ht | ht
    · have hne : t.id ≠ u.id := fun heq ↦ hu (heq ▸ List.mem_map_of_mem ht)
      rw [Function.update_of_ne hne, markAll, ih h.append_left ht, Option.map_some]
      congr 1
      simp only [entryOf]
      congr 1
      apply List.ext_getElem
      · simp
      · intro n h₁ h₂
        simp only [List.getElem_mapIdx, List.getElem_map, List.getElem_range, spenderPos,
          List.find?_append]
        by_cases hmem : (⟨t.id, n⟩ : OutPoint K) ∈ u.ins
        · obtain ⟨entry, hentry, hnone⟩ := h.enabled_last.ready _ hmem
          rw [ih h.append_left ht] at hentry
          obtain rfl := Option.some.inj hentry
          have hold : spenderPos ts ⟨t.id, n⟩ = none := by
            have hn : n < t.outs := by simpa using h₁
            simpa [entryOf, List.getElem?_range hn] using hnone
          have hfind : ts.find? (fun v ↦ decide ((⟨t.id, n⟩ : OutPoint K) ∈ v.ins)) = none := by
            simpa [spenderPos] using hold
          simp [hmem, hfind]
        · simp [hmem]
    · obtain rfl := List.mem_singleton.mp ht
      rw [Function.update_self]
      congr 1
      simp only [entryOf]
      congr 1
      apply List.ext_getElem
      · simp
      · intro n h₁ h₂
        have hnone : ∀ v ∈ ts ++ [t], (⟨t.id, n⟩ : OutPoint K) ∉ v.ins := by
          intro v hv hmem
          rcases List.mem_append.mp hv with hv | hv
          · exact hu (h.append_left.ins_mem_ids hv hmem)
          · obtain rfl := List.mem_singleton.mp hv
            exact (h.enabled_last.ready _ hmem).isSome (indexOf_eq_none_iff.mpr hu)
        have hfind : (ts ++ [t]).find? (fun v ↦ decide ((⟨t.id, n⟩ : OutPoint K) ∈ v.ins)) = none := by
          rw [List.find?_eq_none]
          intro v hv
          simpa using hnone v hv
        simp only [List.getElem_replicate, List.getElem_map, List.getElem_range, spenderPos, hfind,
          Option.map_none]

/-- An output that a transaction of the ledger consumes is not ready any more. -/
theorem Valid.not_ready_of_spent (h : Valid ts) (ht : t ∈ ts) (ho : o ∈ t.ins) :
    ¬ Ready (indexOf ts) o := by
  rintro ⟨entry, hentry, hnone⟩
  obtain ⟨u, hu, hid⟩ := List.mem_map.mp (h.ins_mem_ids ht ho)
  rw [← hid, h.indexOf_apply hu] at hentry
  obtain rfl := Option.some.inj hentry
  have hpos : spenderPos ts o = none := by
    rcases Nat.lt_or_ge o.n u.outs with hn | hn
    · simpa [entryOf, List.getElem?_range hn, hid] using hnone
    · simp [entryOf, List.getElem?_eq_none (l := List.range u.outs) (by simpa using hn)] at hnone
  simp only [spenderPos, Option.map_eq_none_iff, List.find?_eq_none] at hpos
  exact hpos t ht (by simpa using ho)

/-- No outpoint is consumed by two transactions of a valid ledger. -/
theorem Valid.pairwise_disjoint (h : Valid ts) :
    ts.Pairwise fun t u ↦ ∀ o ∈ t.ins, o ∉ u.ins :=
  h.enabled.pairwise_disjoint h.ids fun _ _ ↦ rfl

/-- The transaction that consumes an outpoint is unique. -/
theorem Valid.spender_unique (h : Valid ts) {u : Spender K P} (ht : t ∈ ts) (hu : u ∈ ts)
    (hot : o ∈ t.ins) (hou : o ∈ u.ins) : t = u := by
  induction ts using List.reverseRecOn with
  | nil => cases ht
  | append_singleton ts v ih =>
    have hlast : ∀ w ∈ ts, o ∈ w.ins → o ∉ v.ins := fun w hw how hov ↦
      h.append_left.not_ready_of_spent hw how (h.enabled_last.ready o hov)
    rcases List.mem_append.mp ht with ht | ht <;> rcases List.mem_append.mp hu with hu | hu
    · exact ih h.append_left ht hu
    · exact absurd (List.mem_singleton.mp hu ▸ hou) (hlast t ht hot)
    · exact absurd (List.mem_singleton.mp ht ▸ hot) (hlast u hu hou)
    · rw [List.mem_singleton.mp ht, List.mem_singleton.mp hu]

end Electra.Foundations.SpendIndex
