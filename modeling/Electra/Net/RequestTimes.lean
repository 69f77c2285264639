import Electra.Chain.Block
import Electra.Foundations.TimedQueue

/-!
# Times of requests

Every node has a queue `mapAskFor` of what it is to be asked for, and `mapAlreadyAskedFor` has the last time
that is known of an item, for all nodes together.  `AskFor` puts each entry two minutes behind that time.
`SendMessages` sets the time back to the present when it asks, while the entries of other nodes stay where
they are.  So two requests for an item may be closer to each other than two minutes, unless whoever is served
holds the only entry of the item that is due before then (`Timely`).
-/

namespace Electra.Net

open Chain Foundations

structure CInv where
  type : BitVec 32
  hash : Uint256
  deriving DecidableEq, Repr

structure AskState where
  mapAlreadyAskedFor : CInv → ℤ
  mapAskFor : ℕ → List (ℤ × CInv)
  nLastTime : ℤ

def AskState.empty : AskState := ⟨fun _ ↦ 0, fun _ ↦ [], 0⟩

def AskState.askFor (s : AskState) (nTime : ℤ) (pnode : ℕ) (inv : CInv) : AskState :=
  let nNow := max ((nTime - 1) * 1000000) (s.nLastTime + 1)
  -- Each retry is 2 minutes after the last
  let nRequestTime := max (s.mapAlreadyAskedFor inv + 2 * 60 * 1000000) nNow
  { mapAlreadyAskedFor := Function.update s.mapAlreadyAskedFor inv nRequestTime
    mapAskFor := Function.update s.mapAskFor pnode (TimedQueue.insertAt (s.mapAskFor pnode) nRequestTime inv)
    nLastTime := nNow }

/-- What the loop over `mapAskFor` holds: the messages that were pushed, the next one, and both maps. -/
structure GetDataLoop where
  pushed : List (List CInv)
  vGetData : List CInv
  mapAlreadyAskedFor : CInv → ℤ
  mapAskFor : List (ℤ × CInv)

def GetDataLoop.ask (l : GetDataLoop) (nNow : ℤ) (inv : CInv) : GetDataLoop :=
  let vGetData := l.vGetData ++ [inv]
  { l with
    pushed := if 1000 ≤ vGetData.length then l.pushed ++ [vGetData] else l.pushed
    vGetData := if 1000 ≤ vGetData.length then [] else vGetData
    mapAlreadyAskedFor := Function.update l.mapAlreadyAskedFor inv nNow }

def getDataLoop (alreadyHave : CInv → Bool) (nNow : ℤ) : List (ℤ × CInv) → GetDataLoop → GetDataLoop
  | [], l => { l with mapAskFor := [] }
  | (nRequestTime, inv) :: rest, l =>
    if nRequestTime ≤ nNow then
      getDataLoop alreadyHave nNow rest (if alreadyHave inv then l else l.ask nNow inv)
    else { l with mapAskFor := (nRequestTime, inv) :: rest }

/-- The messages `getdata` to one node, and the state after them. -/
def AskState.sendMessages (s : AskState) (nTime : ℤ) (pto : ℕ) (alreadyHave : CInv → Bool) :
    List (List CInv) × AskState :=
  let queue := s.mapAskFor pto
  let l := getDataLoop alreadyHave (nTime * 1000000) queue ⟨[], [], s.mapAlreadyAskedFor, queue⟩
  (if l.vGetData.isEmpty then l.pushed else l.pushed ++ [l.vGetData],
    { s with
      mapAlreadyAskedFor := l.mapAlreadyAskedFor
      mapAskFor := Function.update s.mapAskFor pto l.mapAskFor })

inductive AskEvent where
  | askFor (nTime : ℤ) (pnode : ℕ) (inv : CInv)
  | sendMessages (nTime : ℤ) (pto : ℕ) (alreadyHave : CInv → Bool)

def AskEvent.nTime : AskEvent → ℤ
  | .askFor nTime _ _ => nTime
  | .sendMessages nTime _ _ => nTime

/-- The state, and all items that were asked for, each with the time of its request. -/
structure AskRun where
  state : AskState
  requests : List (ℤ × CInv)

def AskRun.step (r : AskRun) : AskEvent → AskRun
  | .askFor nTime pnode inv => { r with state := r.state.askFor nTime pnode inv }
  | .sendMessages nTime pto alreadyHave =>
    let (messages, state) := r.state.sendMessages nTime pto alreadyHave
    ⟨state, r.requests ++ messages.flatten.map (nTime, ·)⟩

def askRun (events : List AskEvent) : AskRun := events.foldl AskRun.step ⟨AskState.empty, []⟩

/-- Of two requests for an item, the later one is made two minutes after the earlier one, or more. -/
def Spaced (requests : List (ℤ × CInv)) : Prop :=
  requests.Pairwise fun first second ↦ first.2 = second.2 → first.1 + 2 * 60 ≤ second.1

/-- The times of the events do not decrease. -/
def Clocked (events : List AskEvent) : Prop := (events.map AskEvent.nTime).Pairwise (· ≤ ·)

/-- What is asked for when a queue is served. -/
def wanted (alreadyHave : CInv → Bool) (nNow : ℤ) (queue : List (ℤ × CInv)) : List CInv :=
  ((TimedQueue.due nNow queue).map Prod.snd).filter (!alreadyHave ·)

variable {queue : List (ℤ × CInv)} {events : List AskEvent}

theorem wanted_cons_of_le {alreadyHave : CInv → Bool} {nNow : ℤ} {entry : ℤ × CInv} (h : entry.1 ≤ nNow) :
    wanted alreadyHave nNow (entry :: queue) =
      if alreadyHave entry.2 then wanted alreadyHave nNow queue
      else entry.2 :: wanted alreadyHave nNow queue := by
  rw [wanted, TimedQueue.due, List.takeWhile_cons_of_pos (by simpa using h), List.map_cons, List.filter_cons]
  cases alreadyHave entry.2 <;> rfl

theorem wanted_cons_of_lt {alreadyHave : CInv → Bool} {nNow : ℤ} {entry : ℤ × CInv} (h : nNow < entry.1) :
    wanted alreadyHave nNow (entry :: queue) = [] := by
  rw [wanted, TimedQueue.due, List.takeWhile_cons_of_neg (by simpa using h)]
  rfl

theorem GetDataLoop.ask_pushed (l : GetDataLoop) (nNow : ℤ) (inv : CInv) :
    (l.ask nNow inv).pushed.flatten ++ (l.ask nNow inv).vGetData =
      (l.pushed.flatten ++ l.vGetData) ++ [inv] := by
  simp only [GetDataLoop.ask]
  split <;> simp

theorem getDataLoop_eq (alreadyHave : CInv → Bool) (nNow : ℤ) (queue : List (ℤ × CInv)) (l : GetDataLoop) :
    ((getDataLoop alreadyHave nNow queue l).pushed.flatten ++ (getDataLoop alreadyHave nNow queue l).vGetData =
        (l.pushed.flatten ++ l.vGetData) ++ wanted alreadyHave nNow queue) ∧
      (getDataLoop alreadyHave nNow queue l).mapAskFor = TimedQueue.later nNow queue ∧
      ∀ inv, (getDataLoop alreadyHave nNow queue l).mapAlreadyAskedFor inv =
        if inv ∈ wanted alreadyHave nNow queue then nNow else l.mapAlreadyAskedFor inv := by
  induction queue generalizing l with
  | nil => simp [getDataLoop, wanted, TimedQueue.due, TimedQueue.later]
  | cons entry queue ih =>
    rw [getDataLoop]
    by_cases hdue : entry.1 ≤ nNow
    · have hlater : TimedQueue.later nNow (entry :: queue) = TimedQueue.later nNow queue :=
        List.dropWhile_cons_of_pos (by simpa using hdue)
      rw [if_pos hdue, wanted_cons_of_le hdue, hlater]
      cases hhave : alreadyHave entry.2 with
      | true => exact ih l
      | false =>
        obtain ⟨hpushed, hqueue, hasked⟩ := ih (l.ask nNow entry.2)
        refine ⟨?_, hqueue, fun inv ↦ ?_⟩
        · rw [if_neg Bool.false_ne_true, hpushed, GetDataLoop.ask_pushed, List.append_assoc]
          rfl
        · rw [if_neg Bool.false_ne_true, hasked]
          by_cases hinv : inv = entry.2
          · subst hinv
            simp [GetDataLoop.ask]
          · simp [GetDataLoop.ask, hinv]
    · have hlater : TimedQueue.later nNow (entry :: queue) = entry :: queue :=
        List.dropWhile_cons_of_neg (by simpa using hdue)
      rw [if_neg hdue, wanted_cons_of_lt (not_le.mp hdue), hlater]
      simp

section

variable (s : AskState) (nTime : ℤ) (pto : ℕ) (alreadyHave : CInv → Bool)

theorem sendMessages_flatten : (s.sendMessages nTime pto alreadyHave).1.flatten =
    wanted alreadyHave (nTime * 1000000) (s.mapAskFor pto) := by
  have hpushed := (getDataLoop_eq alreadyHave (nTime * 1000000) (s.mapAskFor pto)
    ⟨[], [], s.mapAlreadyAskedFor, s.mapAskFor pto⟩).1
  rw [List.flatten_nil, List.nil_append, List.nil_append] at hpushed
  rw [← hpushed]
  simp only [AskState.sendMessages]
  split
  · next hempty => rw [List.isEmpty_iff.mp hempty, List.append_nil]
  · rw [List.flatten_append, List.flatten_singleton]

@[simp] theorem sendMessages_mapAskFor : (s.sendMessages nTime pto alreadyHave).2.mapAskFor =
    Function.update s.mapAskFor pto (TimedQueue.later (nTime * 1000000) (s.mapAskFor pto)) := by
  rw [← (getDataLoop_eq alreadyHave (nTime * 1000000) (s.mapAskFor pto)
    ⟨[], [], s.mapAlreadyAskedFor, s.mapAskFor pto⟩).2.1]
  rfl

@[simp] theorem sendMessages_mapAlreadyAskedFor (inv : CInv) :
    (s.sendMessages nTime pto alreadyHave).2.mapAlreadyAskedFor inv =
      if inv ∈ wanted alreadyHave (nTime * 1000000) (s.mapAskFor pto) then nTime * 1000000
      else s.mapAlreadyAskedFor inv :=
  (getDataLoop_eq alreadyHave (nTime * 1000000) (s.mapAskFor pto)
    ⟨[], [], s.mapAlreadyAskedFor, s.mapAskFor pto⟩).2.2 inv

end

/-- The entries of a queue for an item that can be served before two minutes have passed. -/
def soon (nTime : ℤ) (inv : CInv) (queue : List (ℤ × CInv)) : List (ℤ × CInv) :=
  queue.filter fun entry ↦ entry.2 = inv ∧ entry.1 ≤ (nTime + 2 * 60 - 1) * 1000000

/-- Whoever is served holds the only entry of each item that is asked for now. -/
def AskEvent.Timely (s : AskState) : AskEvent → Prop
  | .askFor _ _ _ => True
  | .sendMessages nTime pto alreadyHave =>
    ∀ entry ∈ s.mapAskFor pto, entry.1 ≤ nTime * 1000000 → alreadyHave entry.2 = false →
      (soon nTime entry.2 (s.mapAskFor pto)).length = 1 ∧
        ∀ peer ≠ pto, soon nTime entry.2 (s.mapAskFor peer) = []

def AllTimely (events : List AskEvent) : Prop :=
  ∀ past event future, events = past ++ event :: future → event.Timely (askRun past).state

section

variable {nTime t t' : ℤ} {inv : CInv} {queue : List (ℤ × CInv)} {alreadyHave : CInv → Bool} {r : AskRun}
  {requests : List (ℤ × CInv)} {w w' : List CInv}

theorem soon_eq_nil : soon nTime inv queue = [] ↔
    ∀ entry ∈ queue, entry.2 = inv → (nTime + 2 * 60 - 1) * 1000000 < entry.1 := by
  simp [soon, List.filter_eq_nil_iff]

theorem soon_eq (nTime : ℤ) (inv : CInv) (queue : List (ℤ × CInv)) :
    soon nTime inv queue = (TimedQueue.due (nTime * 1000000) queue).filter (·.2 = inv) ++
      soon nTime inv (TimedQueue.later (nTime * 1000000) queue) := by
  conv_lhs => rw [soon, ← TimedQueue.due_append_later (nTime * 1000000) queue, List.filter_append]
  congr 1
  apply List.filter_congr
  intro entry hentry
  have hle := TimedQueue.le_of_mem_due hentry
  have hsoon : entry.1 ≤ (nTime + 2 * 60 - 1) * 1000000 := by omega
  simp only [hsoon, and_true]

theorem mem_wanted (h : TimedQueue.InOrder queue) : inv ∈ wanted alreadyHave t queue ↔
    alreadyHave inv = false ∧ ∃ entry ∈ queue, entry.2 = inv ∧ entry.1 ≤ t := by
  simp only [wanted, List.mem_filter, List.mem_map, h.mem_due_iff, Bool.not_eq_true']
  constructor
  · rintro ⟨⟨entry, ⟨hentry, hle⟩, rfl⟩, hhave⟩
    exact ⟨hhave, entry, hentry, rfl, hle⟩
  · rintro ⟨hhave, entry, hentry, rfl, hle⟩
    exact ⟨⟨entry, ⟨hentry, hle⟩, rfl⟩, hhave⟩

theorem count_wanted (h : alreadyHave inv = false) : (wanted alreadyHave t queue).count inv =
    ((TimedQueue.due t queue).filter (·.2 = inv)).length := by
  rw [wanted, List.count_filter (by simpa using h), List.count, List.countP_map, List.countP_eq_length_filter]
  rfl

theorem spaced_append_iff : Spaced (requests ++ w.map (t, ·)) ↔
    Spaced requests ∧ w.Nodup ∧ ∀ request ∈ requests, request.2 ∈ w → request.1 + 2 * 60 ≤ t := by
  rw [Spaced, List.pairwise_append, List.pairwise_map, List.Nodup]
  refine and_congr_right fun _ ↦ and_congr ⟨fun h ↦ ?_, fun h ↦ ?_⟩ ?_
  · exact h.imp fun himp heq ↦ by have := himp heq; omega
  · exact h.imp fun hne heq ↦ absurd heq hne
  · simp only [List.mem_map, forall_exists_index, and_imp, forall_apply_eq_imp_iff₂]
    exact forall₂_congr fun request _ ↦ ⟨fun h hmem ↦ h _ hmem rfl, fun h i hi heq ↦ h (heq ▸ hi)⟩

/-- Items that are asked for within two minutes are all different. -/
theorem Spaced.nodup_append (h : Spaced ((requests ++ w.map (t, ·)) ++ w'.map (t', ·)))
    (hlt : t' < t + 2 * 60) : (w ++ w').Nodup := by
  obtain ⟨hfirst, hnodup, hfar⟩ := spaced_append_iff.mp h
  refine List.nodup_append.mpr ⟨(spaced_append_iff.mp hfirst).2.1, hnodup, fun i hi i' hi' heq ↦ ?_⟩
  have := hfar (t, i) (List.mem_append_right _ (List.mem_map_of_mem hi)) (heq ▸ hi')
  omega

end

theorem askRun_concat (events : List AskEvent) (event : AskEvent) :
    askRun (events ++ [event]) = (askRun events).step event := List.foldl_concat ..

theorem requests_step_sendMessages (r : AskRun) (nTime : ℤ) (pto : ℕ) (alreadyHave : CInv → Bool) :
    (r.step (.sendMessages nTime pto alreadyHave)).requests =
      r.requests ++ (wanted alreadyHave (nTime * 1000000) (r.state.mapAskFor pto)).map (nTime, ·) := by
  rw [← sendMessages_flatten]
  rfl

/-- What holds after events that are all timely: requests are spaced, and what is queued for an item that was
asked for waits for its two minutes. -/
structure AskInv (r : AskRun) : Prop where
  inOrder : ∀ peer, TimedQueue.InOrder (r.state.mapAskFor peer)
  spaced : Spaced r.requests
  asked : ∀ request ∈ r.requests, request.1 * 1000000 ≤ r.state.mapAlreadyAskedFor request.2
  queued : ∀ request ∈ r.requests, ∀ peer, soon request.1 request.2 (r.state.mapAskFor peer) = []

theorem inOrder_step {r : AskRun} (h : ∀ peer, TimedQueue.InOrder (r.state.mapAskFor peer)) (event : AskEvent)
    (peer : ℕ) : TimedQueue.InOrder ((r.step event).state.mapAskFor peer) := by
  cases event with
  | askFor nTime pnode inv =>
    by_cases hpeer : peer = pnode
    · subst hpeer
      simpa [AskRun.step, AskState.askFor] using (h peer).insertAt
    · simpa [AskRun.step, AskState.askFor, hpeer] using h peer
  | sendMessages nTime pto alreadyHave =>
    by_cases hpeer : peer = pto
    · subst hpeer
      simpa [AskRun.step] using (h peer).later
    · simpa [AskRun.step, hpeer] using h peer

theorem inOrder_askRun (events : List AskEvent) (peer : ℕ) :
    TimedQueue.InOrder ((askRun events).state.mapAskFor peer) := by
  induction events using List.reverseRecOn generalizing peer with
  | nil => exact List.Pairwise.nil
  | append_singleton events event ih =>
    rw [askRun_concat]
    exact inOrder_step ih event peer

theorem AskInv.askFor {r : AskRun} (h : AskInv r) (nTime : ℤ) (pnode : ℕ) (inv : CInv) :
    AskInv (r.step (.askFor nTime pnode inv)) := by
  have hrequest : r.state.mapAlreadyAskedFor inv + 2 * 60 * 1000000 ≤
      (r.state.askFor nTime pnode inv).mapAlreadyAskedFor inv := by
    simp [AskState.askFor]
  refine ⟨inOrder_step h.inOrder _, h.spaced, fun request hmem ↦ ?_, fun request hmem peer ↦ ?_⟩
  · have hasked := h.asked request hmem
    by_cases hinv : request.2 = inv
    · subst hinv
      change _ ≤ (r.state.askFor nTime pnode request.2).mapAlreadyAskedFor request.2
      omega
    · simpa [AskRun.step, AskState.askFor, hinv] using hasked
  · have hold := h.queued request hmem
    by_cases hpeer : peer = pnode
    · subst hpeer
      rw [soon_eq_nil]
      intro entry hentry hinv
      simp only [AskRun.step, AskState.askFor, Function.update_self] at hentry
      cases TimedQueue.mem_insertAt.mp hentry with
      | inl hnew =>
        have hasked := h.asked request hmem
        subst hnew
        subst hinv
        simp only at *
        omega
      | inr hmem => exact soon_eq_nil.mp (hold peer) entry hmem hinv
    · simpa [AskRun.step, AskState.askFor, hpeer] using hold peer

section

variable {r : AskRun} {nTime : ℤ} {pto : ℕ} {alreadyHave : CInv → Bool}

theorem AskInv.timely (h : AskInv r) (htimely : (AskEvent.sendMessages nTime pto alreadyHave).Timely r.state)
    {inv : CInv} (hinv : inv ∈ wanted alreadyHave (nTime * 1000000) (r.state.mapAskFor pto)) :
    (wanted alreadyHave (nTime * 1000000) (r.state.mapAskFor pto)).count inv = 1 ∧
      ∀ peer, soon nTime inv ((r.step (.sendMessages nTime pto alreadyHave)).state.mapAskFor peer) = [] := by
  obtain ⟨hhave, entry, hentry, rfl, hle⟩ := (mem_wanted (h.inOrder pto)).mp hinv
  obtain ⟨hone, hothers⟩ := htimely entry hentry hle hhave
  have hpositive := List.count_pos_iff.mpr hinv
  rw [soon_eq, List.length_append, ← count_wanted hhave] at hone
  refine ⟨by omega, fun peer ↦ ?_⟩
  by_cases hpeer : peer = pto
  · subst hpeer
    have hzero : (soon nTime entry.2 (TimedQueue.later (nTime * 1000000) (r.state.mapAskFor peer))).length = 0 := by
      omega
    simpa [AskRun.step] using List.length_eq_zero_iff.mp hzero
  · simpa [AskRun.step, hpeer] using hothers peer hpeer

theorem AskInv.sendMessages (h : AskInv r)
    (htimely : (AskEvent.sendMessages nTime pto alreadyHave).Timely r.state) :
    AskInv (r.step (.sendMessages nTime pto alreadyHave)) := by
  have hfar : ∀ request ∈ r.requests,
      request.2 ∈ wanted alreadyHave (nTime * 1000000) (r.state.mapAskFor pto) →
        request.1 + 2 * 60 ≤ nTime := by
    intro request hmem hinv
    obtain ⟨-, entry, hentry, heq, hle⟩ := (mem_wanted (h.inOrder pto)).mp hinv
    have hlt := soon_eq_nil.mp (h.queued request hmem pto) entry hentry heq
    omega
  refine ⟨inOrder_step h.inOrder _, ?_, ?_, ?_⟩
  · rw [requests_step_sendMessages, spaced_append_iff]
    refine ⟨h.spaced, List.nodup_iff_count_le_one.mpr fun inv ↦ ?_, hfar⟩
    by_cases hinv : inv ∈ wanted alreadyHave (nTime * 1000000) (r.state.mapAskFor pto)
    · exact (h.timely htimely hinv).1.le
    · rw [List.count_eq_zero.mpr hinv]
      exact zero_le_one
  · rw [requests_step_sendMessages]
    intro request hmem
    change _ ≤ (r.state.sendMessages nTime pto alreadyHave).2.mapAlreadyAskedFor request.2
    rw [sendMessages_mapAlreadyAskedFor]
    cases List.mem_append.mp hmem with
    | inl hold =>
      split
      · next hinv =>
        have := hfar request hold hinv
        omega
      · exact h.asked request hold
    | inr hnew =>
      obtain ⟨inv, hinv, rfl⟩ := List.mem_map.mp hnew
      rw [if_pos hinv]
  · rw [requests_step_sendMessages]
    intro request hmem peer
    cases List.mem_append.mp hmem with
    | inl hold =>
      have hbefore := h.queued request hold peer
      by_cases hpeer : peer = pto
      · subst hpeer
        rw [soon_eq_nil] at hbefore ⊢
        intro entry hentry
        simp only [AskRun.step, sendMessages_mapAskFor, Function.update_self] at hentry
        exact hbefore entry (List.dropWhile_subset _ hentry)
      · simpa [AskRun.step, hpeer] using hbefore
    | inr hnew =>
      obtain ⟨inv, hinv, rfl⟩ := List.mem_map.mp hnew
      exact (h.timely htimely hinv).2 peer

end

theorem AllTimely.of_concat {event : AskEvent} (h : AllTimely (events ++ [event])) :
    AllTimely events ∧ event.Timely (askRun events).state := by
  refine ⟨fun past event' future heq ↦ h past event' (future ++ [event]) ?_, h events event [] rfl⟩
  rw [heq, List.append_assoc, List.cons_append]

theorem AllTimely.askInv (h : AllTimely events) : AskInv (askRun events) := by
  induction events using List.reverseRecOn with
  | nil =>
    refine ⟨inOrder_askRun [], List.Pairwise.nil, ?_, ?_⟩
    · exact fun request hmem ↦ absurd hmem List.not_mem_nil
    · exact fun request hmem ↦ absurd hmem List.not_mem_nil
  | append_singleton events event ih =>
    have hinv := ih h.of_concat.1
    rw [askRun_concat]
    cases event with
    | askFor nTime pnode inv => exact hinv.askFor nTime pnode inv
    | sendMessages nTime pto alreadyHave => exact hinv.sendMessages h.of_concat.2

theorem soon_of_inOrder {nTime : ℤ} {inv : CInv} (h : TimedQueue.InOrder queue) :
    soon nTime inv queue =
      (TimedQueue.due ((nTime + 2 * 60 - 1) * 1000000) queue).filter (·.2 = inv) := by
  conv_lhs =>
    rw [soon, ← TimedQueue.due_append_later ((nTime + 2 * 60 - 1) * 1000000) queue, List.filter_append]
  have hlater : (TimedQueue.later ((nTime + 2 * 60 - 1) * 1000000) queue).filter
      (fun entry ↦ entry.2 = inv ∧ entry.1 ≤ (nTime + 2 * 60 - 1) * 1000000) = [] := by
    rw [List.filter_eq_nil_iff]
    intro entry hentry
    have hlt := not_le.mpr (h.lt_of_mem_later hentry)
    simp only [hlt, and_false, decide_false, Bool.false_eq_true, not_false_eq_true]
  rw [hlater, List.append_nil]
  apply List.filter_congr
  intro entry hentry
  simp only [TimedQueue.le_of_mem_due hentry, and_true]

/-- Whoever has the other entry is served before two minutes have passed. -/
theorem exists_not_spaced {event : AskEvent} (h : ¬event.Timely (askRun events).state) :
    ∃ next : AskEvent, event.nTime ≤ next.nTime ∧
      ¬Spaced (askRun (events ++ [event] ++ [next])).requests := by
  cases event with
  | askFor nTime pnode inv => exact absurd trivial h
  | sendMessages nTime pto alreadyHave =>
    simp only [AskEvent.Timely, not_forall] at h
    obtain ⟨entry, hentry, hle, hhave, hnot⟩ := h
    have hinv : entry.2 ∈ wanted alreadyHave (nTime * 1000000) ((askRun events).state.mapAskFor pto) :=
      (mem_wanted (inOrder_askRun events pto)).mpr ⟨hhave, entry, hentry, rfl, hle⟩
    have hpositive := List.count_pos_iff.mpr hinv
    have hsum : ∃ peer, 2 ≤ (wanted alreadyHave (nTime * 1000000)
          ((askRun events).state.mapAskFor pto)).count entry.2 +
        (soon nTime entry.2 ((askRun (events ++ [.sendMessages nTime pto alreadyHave])).state.mapAskFor
          peer)).length := by
      rw [askRun_concat]
      by_cases hone : (soon nTime entry.2 ((askRun events).state.mapAskFor pto)).length = 1
      · simp only [hone, true_and, not_forall] at hnot
        obtain ⟨peer, hpeer, hsoon⟩ := hnot
        refine ⟨peer, ?_⟩
        have hlength := List.length_pos_iff.mpr hsoon
        simp only [AskRun.step, sendMessages_mapAskFor, Function.update_of_ne hpeer]
        omega
      · refine ⟨pto, ?_⟩
        rw [soon_eq, List.length_append, ← count_wanted hhave] at hone
        simp only [AskRun.step, sendMessages_mapAskFor, Function.update_self]
        omega
    obtain ⟨peer, hpeer⟩ := hsum
    refine ⟨.sendMessages (nTime + 2 * 60 - 1) peer (· ≠ entry.2), by simp only [AskEvent.nTime]; omega,
      fun hspaced ↦ ?_⟩
    rw [soon_of_inOrder (inOrder_askRun _ peer)] at hpeer
    rw [askRun_concat, requests_step_sendMessages, askRun_concat, requests_step_sendMessages,
      ← askRun_concat] at hspaced
    have hcount := List.nodup_iff_count_le_one.mp (hspaced.nodup_append (by omega)) entry.2
    have hlacks : decide (entry.2 ≠ entry.2) = false := decide_eq_false (not_not.mpr rfl)
    rw [List.count_append,
      @count_wanted ((nTime + 2 * 60 - 1) * 1000000) entry.2 _ (fun inv ↦ inv ≠ entry.2) hlacks] at hcount
    omega

/-- While whoever is served holds the only entry of what it is asked for, requests for an item are two minutes
apart.  Once that fails, they need not be. -/
theorem spaced_of_allTimely (events : List AskEvent) :
    (AllTimely events → Spaced (askRun events).requests) ∧
      ∀ event : AskEvent, ¬event.Timely (askRun events).state →
        ∃ next : AskEvent, event.nTime ≤ next.nTime ∧
          ¬Spaced (askRun (events ++ [event] ++ [next])).requests :=
  ⟨fun h ↦ h.askInv.spaced, fun _ ↦ exists_not_spaced⟩

/-- Two nodes announce an item at once, and both are served late. -/
theorem not_spaced_of_clocked : ¬∀ events, Clocked events → Spaced (askRun events).requests := by
  intro h
  unfold Clocked Spaced at h
  have hclose := h [.askFor 1000 1 ⟨1, 0⟩, .askFor 1000 2 ⟨1, 0⟩, .sendMessages 1130 1 fun _ ↦ false,
    .sendMessages 1130 2 fun _ ↦ false] (by decide)
  revert hclose
  decide

end Electra.Net
