import Electra.Foundations.MachineInt
import Electra.Foundations.WindowMedian
import Electra.Net.AddrMan
import Mathlib.Data.List.DropRight

/-!
# Time data of other nodes

The first time that an address names is put into a window of 200 samples, which starts with a zero.  The
offset is set from the median whenever the window holds an odd number of samples, and so never again once it
is full.  What the later samples are no longer matters then (`nTimeOffset_append_iff`).
-/

namespace Electra.Net

open Foundations.MachineInt Foundations.WindowMedian

structure CMedianFilter where
  nSize : ℕ
  vValues : List ℤ
  vSorted : List ℤ

namespace CMedianFilter

def new (size : ℕ) (initialValue : ℤ) : CMedianFilter := ⟨size, [initialValue], [initialValue]⟩

def input (f : CMedianFilter) (value : ℤ) : CMedianFilter :=
  let vValues := (if f.vValues.length = f.nSize then f.vValues.drop 1 else f.vValues) ++ [value]
  { f with vValues, vSorted := sorted vValues }

/-- The sorted values are never empty. -/
def median (f : CMedianFilter) : ℤ :=
  let size := f.vSorted.length
  if size % 2 = 1 then f.vSorted.getD (size / 2) 0
  else (int64 (f.vSorted.getD (size / 2 - 1) 0 + f.vSorted.getD (size / 2) 0)).tdiv 2

def size (f : CMedianFilter) : ℕ := f.vValues.length

end CMedianFilter

def abs64 (n : ℤ) : ℤ := if 0 ≤ n then n else int64 (-n)

structure TimeData where
  setKnown : Finset CNetAddr
  vTimeOffsets : CMedianFilter
  nTimeOffset : ℤ
  fDone : Bool
  strMiscWarning : String

def TimeData.initial : TimeData := ⟨∅, .new 200 0, 0, false, ""⟩

structure TimeCall where
  ip : CNetAddr
  nTime : ℤ
  /-- What `GetTime` returns during the call. -/
  now : ℤ

def TimeCall.nOffsetSample (call : TimeCall) : ℤ := int64 (call.nTime - call.now)

def checkClockWarning : String :=
  "Warning: Please check that your computer's date and time are correct! " ++
    "If your clock is wrong Electra will not work properly."

/-- The warning is given once, if nobody has a time that differs from ours by less than 2.5 minutes. -/
def TimeData.warn (s : TimeData) : TimeData :=
  if s.fDone || s.vTimeOffsets.vSorted.any (fun nOffset ↦ nOffset ≠ 0 ∧ abs64 nOffset < 150) then s
  else { s with fDone := true, strMiscWarning := checkClockWarning }

def TimeData.updateOffset (s : TimeData) : TimeData :=
  if 5 ≤ s.vTimeOffsets.size ∧ s.vTimeOffsets.size % 2 = 1 then
    let nMedian := s.vTimeOffsets.median
    -- Only let other nodes change our time by so much
    if abs64 nMedian < 70 * 60 then { s with nTimeOffset := nMedian }
    else TimeData.warn { s with nTimeOffset := 0 }
  else s

def TimeData.addTimeData (s : TimeData) (call : TimeCall) : TimeData :=
  if call.ip ∈ s.setKnown then s
  else TimeData.updateOffset { s with
    setKnown := insert call.ip s.setKnown
    vTimeOffsets := s.vTimeOffsets.input call.nOffsetSample }

def timeDataAfter (calls : List TimeCall) : TimeData := calls.foldl TimeData.addTimeData TimeData.initial

/-- Our own zero and all samples, and of these the last ones. -/
def window (samples : List ℤ) : List ℤ := (0 :: samples).rtake 200

def samples (calls : List TimeCall) : List ℤ := calls.map TimeCall.nOffsetSample

theorem abs64_lt_iff {m : ℤ} (h : InInt64 m) : abs64 m < 70 * 60 ↔ |m| < 70 * 60 ∨ m = -2 ^ 63 := by
  obtain ⟨hlow, hhigh⟩ := h
  rw [abs_lt]
  unfold abs64 int64
  split <;> omega

/-- What the offset is set to. -/
def offsetOf (m : ℤ) : ℤ := if abs64 m < 70 * 60 then m else 0

theorem offsetOf_eq_iff {m : ℤ} (h : InInt64 m) :
    offsetOf m = (if |m| < 70 * 60 then m else 0) ↔ m ≠ -2 ^ 63 := by
  unfold offsetOf
  simp only [abs64_lt_iff h, abs_lt]
  split <;> split <;> omega

theorem offsetOf_eq_of_lt {m d : ℤ} (h : InInt64 m) (hd : |d| < 70 * 60) :
    offsetOf m = d ↔ m = d ∨ d = 0 ∧ (70 * 60 ≤ m ∨ m ≤ -(70 * 60) ∧ m ≠ -2 ^ 63) := by
  unfold offsetOf
  simp only [abs64_lt_iff h, abs_lt] at hd ⊢
  split <;> omega

section

variable (s : TimeData)

@[simp] theorem warn_setKnown : s.warn.setKnown = s.setKnown := by
  unfold TimeData.warn
  split <;> rfl

@[simp] theorem warn_vTimeOffsets : s.warn.vTimeOffsets = s.vTimeOffsets := by
  unfold TimeData.warn
  split <;> rfl

@[simp] theorem warn_nTimeOffset : s.warn.nTimeOffset = s.nTimeOffset := by
  unfold TimeData.warn
  split <;> rfl

@[simp] theorem updateOffset_setKnown : s.updateOffset.setKnown = s.setKnown := by
  simp only [TimeData.updateOffset, apply_ite TimeData.setKnown, warn_setKnown, ite_self]

@[simp] theorem updateOffset_vTimeOffsets : s.updateOffset.vTimeOffsets = s.vTimeOffsets := by
  simp only [TimeData.updateOffset, apply_ite TimeData.vTimeOffsets, warn_vTimeOffsets, ite_self]

theorem updateOffset_nTimeOffset : s.updateOffset.nTimeOffset =
    if 5 ≤ s.vTimeOffsets.size ∧ s.vTimeOffsets.size % 2 = 1 then offsetOf s.vTimeOffsets.median
    else s.nTimeOffset := by
  simp only [TimeData.updateOffset, apply_ite TimeData.nTimeOffset, warn_nTimeOffset, offsetOf]

end

section

variable {calls : List TimeCall} {call : TimeCall} {S : List ℤ} {m d x : ℤ}

theorem samples_concat (calls : List TimeCall) (call : TimeCall) :
    samples (calls ++ [call]) = samples calls ++ [call.nOffsetSample] := List.map_append

@[simp] theorem length_samples (calls : List TimeCall) : (samples calls).length = calls.length :=
  List.length_map ..

theorem length_rtake (n : ℕ) (xs : List ℤ) : (xs.rtake n).length = min n xs.length := by
  rw [List.rtake, List.length_drop]
  omega

theorem rtake_concat {n : ℕ} (hn : 0 < n) (xs : List ℤ) (x : ℤ) : (xs ++ [x]).rtake n =
    (if (xs.rtake n).length = n then (xs.rtake n).drop 1 else xs.rtake n) ++ [x] := by
  have hconcat : (xs ++ [x]).rtake n = xs.drop (xs.length + 1 - n) ++ [x] := by
    rw [List.rtake, List.length_append, List.length_singleton]
    exact List.drop_append_of_le_length (by omega)
  rw [hconcat, length_rtake]
  congr 1
  split
  · rw [List.rtake, List.drop_drop]
    congr 1
    omega
  · rw [List.rtake]
    congr 1
    omega

theorem length_window (S : List ℤ) : (window S).length = min 200 (S.length + 1) := length_rtake 200 _

theorem window_of_length_lt (h : S.length < 200) : window S = 0 :: S := by
  have hzero : S.length + 1 - 200 = 0 := by omega
  rw [window, List.rtake, List.length_cons, hzero, List.drop_zero]

theorem window_concat (S : List ℤ) (x : ℤ) :
    window (S ++ [x]) = (if (window S).length = 200 then (window S).drop 1 else window S) ++ [x] :=
  rtake_concat (by decide) (0 :: S) x

/-- The filter whose window is that of some samples. -/
abbrev filterOf (S : List ℤ) : CMedianFilter := ⟨200, window S, sorted (window S)⟩

@[simp] theorem filterOf_size (S : List ℤ) : (filterOf S).size = (window S).length := by
  simp only [CMedianFilter.size]

theorem filterOf_input (S : List ℤ) (x : ℤ) : (filterOf S).input x = filterOf (S ++ [x]) := by
  simp only [CMedianFilter.input, filterOf, window_concat]

theorem filterOf_median (hodd : (window S).length % 2 = 1) (hm : median (window S) = some m) :
    (filterOf S).median = m := by
  simp only [CMedianFilter.median, length_sorted, if_pos hodd, List.getD_eq_getElem?_getD]
  rw [median] at hm
  rw [hm, Option.getD_some]

theorem addTimeData_setKnown (s : TimeData) (call : TimeCall) :
    (s.addTimeData call).setKnown = insert call.ip s.setKnown := by
  unfold TimeData.addTimeData
  split
  · next hmem => exact (Finset.insert_eq_of_mem hmem).symm
  · rw [updateOffset_setKnown]

theorem timeDataAfter_concat (calls : List TimeCall) (call : TimeCall) :
    timeDataAfter (calls ++ [call]) = (timeDataAfter calls).addTimeData call := List.foldl_concat ..

theorem setKnown_timeDataAfter (calls : List TimeCall) :
    (timeDataAfter calls).setKnown = (calls.map TimeCall.ip).toFinset := by
  induction calls using List.reverseRecOn with
  | nil => rfl
  | append_singleton calls call ih =>
    rw [timeDataAfter_concat, addTimeData_setKnown, ih, List.map_append, List.toFinset_append,
      Finset.union_comm, List.map_singleton, List.toFinset_cons, List.toFinset_nil]
    rfl

theorem addTimeData_of_distinct (h : ((calls ++ [call]).map TimeCall.ip).Nodup) :
    (timeDataAfter calls).addTimeData call = TimeData.updateOffset { timeDataAfter calls with
      setKnown := insert call.ip (timeDataAfter calls).setKnown
      vTimeOffsets := (timeDataAfter calls).vTimeOffsets.input call.nOffsetSample } := by
  have hnew : call.ip ∉ (timeDataAfter calls).setKnown := by
    rw [setKnown_timeDataAfter, List.mem_toFinset]
    rw [List.map_append, List.nodup_append] at h
    exact fun hmem ↦ h.2.2 _ hmem _ (List.mem_singleton.mpr rfl) rfl
  exact if_neg hnew

theorem nodup_of_concat (h : ((calls ++ [call]).map TimeCall.ip).Nodup) : (calls.map TimeCall.ip).Nodup := by
  rw [List.map_append, List.nodup_append] at h
  exact h.1

theorem vTimeOffsets_timeDataAfter (h : (calls.map TimeCall.ip).Nodup) :
    (timeDataAfter calls).vTimeOffsets = filterOf (samples calls) := by
  induction calls using List.reverseRecOn with
  | nil => rfl
  | append_singleton calls call ih =>
    rw [timeDataAfter_concat, addTimeData_of_distinct h, updateOffset_vTimeOffsets, samples_concat,
      ← filterOf_input, ← ih (nodup_of_concat h)]

theorem nTimeOffset_concat (h : ((calls ++ [call]).map TimeCall.ip).Nodup) :
    (timeDataAfter (calls ++ [call])).nTimeOffset =
      if 5 ≤ (window (samples (calls ++ [call]))).length ∧
          (window (samples (calls ++ [call]))).length % 2 = 1 then
        offsetOf (filterOf (samples (calls ++ [call]))).median
      else (timeDataAfter calls).nTimeOffset := by
  rw [timeDataAfter_concat, addTimeData_of_distinct h, updateOffset_nTimeOffset,
    vTimeOffsets_timeDataAfter (nodup_of_concat h)]
  simp only [filterOf_input, ← samples_concat, filterOf_size]

theorem nTimeOffset_of_odd (h : (calls.map TimeCall.ip).Nodup) (hodd : (window (samples calls)).length % 2 = 1)
    (hfive : 5 ≤ (window (samples calls)).length) (hm : median (window (samples calls)) = some m) :
    (timeDataAfter calls).nTimeOffset = offsetOf m := by
  cases calls using List.reverseRecOn with
  | nil =>
    rw [length_window] at hfive
    exact absurd hfive (by decide)
  | append_singleton calls call =>
    rw [nTimeOffset_concat h, if_pos ⟨hfive, hodd⟩, filterOf_median hodd hm]

/-- The last time that the offset is set is when the window holds our zero and 198 samples. -/
theorem nTimeOffset_of_le (h : (calls.map TimeCall.ip).Nodup) (hlength : 198 ≤ calls.length)
    (hm : median (0 :: (samples calls).take 198) = some m) : (timeDataAfter calls).nTimeOffset = offsetOf m := by
  induction calls using List.reverseRecOn with
  | nil => exact absurd hlength (by decide)
  | append_singleton calls call ih =>
    have hsamples := length_samples (calls ++ [call])
    rw [List.length_append, List.length_singleton] at hlength hsamples
    by_cases hbefore : 198 ≤ calls.length
    · rw [nTimeOffset_concat h, if_neg]
      · apply ih (nodup_of_concat h) hbefore
        rw [samples_concat, List.take_append_of_le_length (by rwa [length_samples])] at hm
        exact hm
      · rw [length_window]
        omega
    · have hwindow : window (samples (calls ++ [call])) = 0 :: (samples (calls ++ [call])).take 198 := by
        rw [window_of_length_lt (by omega), List.take_of_length_le (by omega)]
      apply nTimeOffset_of_odd h
      · rw [length_window]
        omega
      · rw [length_window]
        omega
      · rw [hwindow]
        exact hm

/-- Not more than half of the samples are below, and not more than half above.  Zero is also what is left of
a median that is too far away. -/
def SettlesAt (d : ℤ) (S : List ℤ) : Prop :=
  (S.countP (· < d) ≤ 99 ∧ S.countP (d < ·) ≤ 99) ∨
    d = 0 ∧ (100 ≤ S.countP (70 * 60 ≤ ·) ∨
      100 ≤ S.countP (· ≤ -(70 * 60)) ∧ S.countP (· = -2 ^ 63) ≤ 99)

theorem median_lt_iff (hlength : S.length = 199) (hm : median S = some m) (bound : ℤ) :
    m < bound ↔ 100 ≤ S.countP (· < bound) := by
  have hle : bound ≤ m ↔ _ := le_median_iff hm
  rw [hlength] at hle
  omega

theorem le_median_iff_countP_le (hlength : S.length = 199) (hm : median S = some m) (bound : ℤ) :
    bound ≤ m ↔ 100 ≤ S.countP (bound ≤ ·) := by
  have hle : bound ≤ m ↔ _ := le_median_iff hm
  have hsum := List.length_eq_countP_add_countP (· < bound) (l := S)
  simp only [decide_eq_true_eq, not_lt] at hsum
  rw [hlength] at hle hsum
  omega

theorem countP_append_of_forall_eq {fill : List ℤ} (hfill : ∀ x ∈ fill, x = d) {p : ℤ → Bool}
    (hd : p d = false) : (S ++ fill).countP p = S.countP p := by
  have hzero : fill.countP p = 0 := by
    rw [List.countP_eq_zero]
    intro x hx
    rw [hfill x hx, hd]
    exact Bool.false_ne_true
  rw [List.countP_append, hzero, Nat.add_zero]

theorem mem_of_median (hm : median S = some m) : m ∈ S := by
  obtain ⟨hk, hm⟩ := List.getElem?_eq_some_iff.mp hm
  exact (List.perm_insertionSort _ S).mem_iff.mp (hm ▸ List.getElem_mem hk)

/-- A window that is filled up with one value has its median there just if the samples before settle at it. -/
theorem offsetOf_median_eq_iff {fill : List ℤ} (hfill : ∀ x ∈ fill, x = d) (hd : |d| < 70 * 60)
    (hlength : (S ++ fill).length = 199) (hrange : ∀ x ∈ S ++ fill, InInt64 x)
    (hm : median (S ++ fill) = some m) : offsetOf m = d ↔ SettlesAt d S := by
  rw [offsetOf_eq_of_lt (hrange m (mem_of_median hm)) hd, SettlesAt]
  rw [abs_lt] at hd
  have hbelow : m < d ↔ 100 ≤ S.countP (· < d) := by
    rw [median_lt_iff hlength hm, countP_append_of_forall_eq hfill (by simp)]
  have habove : d + 1 ≤ m ↔ 100 ≤ S.countP (d < ·) := by
    rw [le_median_iff_countP_le hlength hm]
    simp only [Int.add_one_le_iff]
    rw [countP_append_of_forall_eq hfill (by simp)]
  have hfar : 70 * 60 ≤ m ↔ 100 ≤ S.countP (70 * 60 ≤ ·) := by
    rw [le_median_iff_countP_le hlength hm, countP_append_of_forall_eq hfill (by simpa using hd.2)]
  have hlow : m < -(70 * 60) + 1 ↔ 100 ≤ S.countP (· ≤ -(70 * 60)) := by
    rw [median_lt_iff hlength hm]
    simp only [Int.lt_add_one_iff]
    rw [countP_append_of_forall_eq hfill (by simpa using hd.1)]
  have hlowest : m < -2 ^ 63 + 1 ↔ 100 ≤ S.countP (· = -2 ^ 63) := by
    have heq : (S ++ fill).countP (· < -2 ^ 63 + 1) = (S ++ fill).countP (· = -2 ^ 63) := by
      apply List.countP_congr
      intro x hx
      have := (hrange x hx).1
      simp only [decide_eq_true_eq]
      omega
    rw [median_lt_iff hlength hm, heq, countP_append_of_forall_eq hfill (decide_eq_false (by omega))]
  have hm63 := (hrange m (mem_of_median hm)).1
  omega

theorem inInt64_samples (hx : x ∈ 0 :: samples calls) : InInt64 x := by
  cases hx with
  | head => decide
  | tail _ hmem =>
    obtain ⟨call, -, rfl⟩ := List.mem_map.mp hmem
    exact inInt64_int64 _

theorem nTimeOffset_append_iff {later : List TimeCall}
    (h : ((calls ++ later).map TimeCall.ip).Nodup)
    (hd : |d| < 70 * 60) (hlater : ∀ call ∈ later, call.nOffsetSample = d) (hlength : 2 * 200 ≤ later.length) :
    (timeDataAfter (calls ++ later)).nTimeOffset = d ↔ SettlesAt d (0 :: (samples calls).take 198) := by
  have hsplit : 0 :: (samples (calls ++ later)).take 198 =
      (0 :: (samples calls).take 198) ++ (samples later).take (198 - calls.length) := by
    rw [samples, List.map_append, List.take_append, ← samples, ← samples, length_samples, List.cons_append]
  have hfull : (0 :: (samples (calls ++ later)).take 198).length = 199 := by
    rw [List.length_cons, List.length_take, length_samples, List.length_append]
    omega
  obtain ⟨m, hm⟩ := exists_median (List.cons_ne_nil 0 ((samples (calls ++ later)).take 198))
  rw [nTimeOffset_of_le h (by rw [List.length_append]; omega) hm]
  rw [hsplit] at hm hfull
  apply offsetOf_median_eq_iff _ hd hfull _ hm
  · intro x hx
    obtain ⟨call, hcall, rfl⟩ := List.mem_map.mp (List.mem_of_mem_take hx)
    exact hlater call hcall
  · rw [← hsplit]
    intro x hx
    exact inInt64_samples (List.cons_subset_cons 0 (List.take_subset 198 _) hx)

/-- The offset follows the median while the window holds an odd number of samples, unless this is the least
number there is.  Afterwards it stays, and is that of the later samples just if the first 198 settle there. -/
theorem nTimeOffset_iff (h : (calls.map TimeCall.ip).Nodup) :
    ((window (samples calls)).length % 2 = 1 → 5 ≤ (window (samples calls)).length →
      ∀ m, median (window (samples calls)) = some m →
        ((timeDataAfter calls).nTimeOffset = (if |m| < 70 * 60 then m else 0) ↔ m ≠ -2 ^ 63)) ∧
    ∀ d later, |d| < 70 * 60 → 2 * 200 ≤ later.length → ((calls ++ later).map TimeCall.ip).Nodup →
      (∀ call ∈ later, call.nOffsetSample = d) →
        ((timeDataAfter (calls ++ later)).nTimeOffset = d ↔
          SettlesAt d (0 :: (samples calls).take 198)) := by
  refine ⟨fun hodd hfive m hm ↦ ?_, fun d later hd hlength hdistinct hlater ↦ ?_⟩
  · rw [nTimeOffset_of_odd h hodd hfive hm]
    apply offsetOf_eq_iff
    exact inInt64_samples (List.drop_subset _ _ (mem_of_median hm))
  · exact nTimeOffset_append_iff hdistinct hd hlater hlength

end

namespace TimeExample

def numbered (n : ℕ) : CNetAddr :=
  ⟨List.replicate 14 0 ++ [UInt8.ofNat (n / 256), UInt8.ofNat n], by
    rw [List.length_append, List.length_replicate]
    rfl⟩

theorem numbered_inj {n n' : ℕ} (hn : n < 65536) (hn' : n' < 65536) (h : numbered n = numbered n') : n = n' := by
  have hbytes := List.append_cancel_left (congrArg CNetAddr.ip h)
  simp only [List.cons.injEq, and_true] at hbytes
  have hhigh := congrArg UInt8.toNat hbytes.1
  have hlow := congrArg UInt8.toNat hbytes.2
  simp only [UInt8.toNat_ofNat'] at hhigh hlow
  omega

/-- The calls of many addresses, which all give one time. -/
def callsAt (nTime : ℤ) (first count : ℕ) : List TimeCall :=
  (List.range' first count).map fun n ↦ ⟨numbered n, nTime, 0⟩

theorem nodup_ips : ((callsAt 0 0 198 ++ callsAt 60 198 400).map TimeCall.ip).Nodup := by
  have hips : (callsAt 0 0 198 ++ callsAt 60 198 400).map TimeCall.ip = (List.range' 0 598).map numbered := by
    rw [callsAt, callsAt, List.map_append, List.map_map, List.map_map]
    change (List.range' 0 198).map numbered ++ (List.range' (0 + 1 * 198) 400).map numbered = _
    rw [← List.map_append, List.range'_append]
  rw [hips]
  apply List.Nodup.map_on _ List.nodup_range'
  intro n hn n' hn' heq
  rw [List.mem_range'_1] at hn hn'
  exact numbered_inj (by omega) (by omega) heq

theorem samples_callsAt {nTime : ℤ} (h : InInt64 nTime) (first count : ℕ) :
    samples (callsAt nTime first count) = List.replicate count nTime := by
  rw [samples, callsAt, List.map_map, List.eq_replicate_iff, List.length_map, List.length_range']
  refine ⟨rfl, fun x hx ↦ ?_⟩
  obtain ⟨n, -, rfl⟩ := List.mem_map.mp hx
  change int64 (nTime - 0) = nTime
  rw [sub_zero, int64_eq_self h]

def fourCalls : List TimeCall :=
  [⟨numbered 1, 101, 100⟩, ⟨numbered 2, 104, 100⟩, ⟨numbered 3, 102, 100⟩, ⟨numbered 4, 103, 100⟩]

end TimeExample

open TimeExample in
/-- After 198 nodes that agree with our clock the offset stays zero. -/
theorem not_nTimeOffset_eq :
    ¬∀ (calls later : List TimeCall) (d : ℤ), |d| < 70 * 60 → ((calls ++ later).map TimeCall.ip).Nodup →
      (∀ call ∈ later, call.nOffsetSample = d) → 2 * 200 ≤ later.length →
        (timeDataAfter (calls ++ later)).nTimeOffset = d := by
  intro hall
  have hlength : 2 * 200 ≤ (callsAt 60 198 400).length := by
    rw [callsAt, List.length_map, List.length_range']
  have hlater : ∀ call ∈ callsAt 60 198 400, call.nOffsetSample = 60 := by
    intro call hcall
    have hsample := List.mem_map_of_mem (f := TimeCall.nOffsetSample) hcall
    rw [← samples, samples_callsAt (by decide)] at hsample
    exact List.eq_of_mem_replicate hsample
  have hoffset := hall _ _ 60 (by decide) nodup_ips hlater hlength
  rw [nTimeOffset_append_iff nodup_ips (by decide) hlater hlength, samples_callsAt (by decide),
    List.take_replicate, SettlesAt] at hoffset
  rcases hoffset with hcounts | hzero
  · have hcount := hcounts.1
    rw [List.countP_cons_of_pos (by decide), List.countP_replicate] at hcount
    exact absurd hcount (by decide)
  · exact absurd hzero.1 (by decide)

open TimeExample in
theorem nTimeOffset_fourCalls : (timeDataAfter fourCalls).nTimeOffset = 2 := by
  have hwindow : window (samples fourCalls) = [0, 1, 4, 2, 3] := window_of_length_lt (by decide)
  have hoffset := (@nTimeOffset_iff fourCalls (by decide)).1
  rw [hwindow] at hoffset
  exact (hoffset (by decide) (by decide) 2 (by decide)).mpr (by decide)

end Electra.Net
