import Electra.Foundations.RecentWindow
import Electra.Net.RequestTimes

/-!
# The relay of inventory

Every peer has a set `setInventoryKnown` of the most recent items it knows and a list
`vInventoryToSend` of items to be offered to it.  `SendMessages` offers what the peer does not know,
but keeps transactions back unless it is the turn of the peer to be sent everything.  Transactions
that are relayed stay in `mapRelay` for whoever asks for them.
-/

namespace Electra.Net

open Chain Foundations.RecentWindow

/-- `mruset`: a set with the queue of its elements, the newest last. -/
structure Mruset (α : Type*) where
  set : Finset α
  queue : List α
  nMaxSize : ℕ

namespace Mruset

variable {α : Type*} [DecidableEq α]

def new (nMaxSize : ℕ) : Mruset α := ⟨∅, [], nMaxSize⟩

/-- The second component tells whether the element is new. -/
def insert (s : Mruset α) (x : α) : Mruset α × Bool :=
  if x ∈ s.set then (s, false)
  else
    let set := Insert.insert x s.set
    if s.nMaxSize ≠ 0 ∧ s.queue.length = s.nMaxSize then
      ({ s with set := s.queue.head?.elim set set.erase, queue := s.queue.tail ++ [x] }, true)
    else ({ s with set, queue := s.queue ++ [x] }, true)

/-- The elements are the window of what was new so far, in this order. -/
structure Holds (s : Mruset α) (history : List α) : Prop where
  queue : s.queue = window s.nMaxSize history
  set : s.set = s.queue.toFinset
  spaced : FarApart s.nMaxSize history

theorem holds_new (nMaxSize : ℕ) : (new nMaxSize : Mruset α).Holds [] :=
  ⟨(window_nil nMaxSize).symm, rfl, farApart_nil nMaxSize⟩

variable {s : Mruset α} {history : List α} {x : α}

theorem Holds.mem_window_iff (h : s.Holds history) : x ∈ s.set ↔ x ∈ window s.nMaxSize history := by
  rw [h.set, List.mem_toFinset, h.queue]

theorem Holds.mem_history (h : s.Holds history) (hx : x ∈ s.set) : x ∈ history :=
  (window_suffix s.nMaxSize history).mem (h.mem_window_iff.mp hx)

theorem insert_snd (s : Mruset α) (x : α) : (s.insert x).2 = decide (x ∉ s.set) := by
  unfold insert
  split
  · next hx => simp [hx]
  · next hx => split <;> simp [hx]

theorem insert_fst_of_mem (hx : x ∈ s.set) : (s.insert x).1 = s := by rw [insert, if_pos hx]

/-- What is new enters the history; the oldest element makes room for it. -/
theorem Holds.insert (h : s.Holds history) (hx : x ∉ s.set) : (s.insert x).1.Holds (history ++ [x]) := by
  have hspaced : FarApart s.nMaxSize (history ++ [x]) := h.spaced.append fun hmem ↦ hx (h.mem_window_iff.mpr hmem)
  rw [Mruset.insert, if_neg hx]
  split
  · next hfull =>
    obtain ⟨hsize, hlength⟩ := hfull
    have hwindow : window s.nMaxSize (history ++ [x]) = s.queue.tail ++ [x] := by
      rw [h.queue] at hlength ⊢
      exact window_append_of_full hsize hlength x
    refine ⟨hwindow.symm, ?_, hspaced⟩
    have hnodup : s.queue.Nodup := h.queue ▸ h.spaced.nodup_window
    have hmem := h.set
    cases hqueue : s.queue with
    | nil =>
      rw [hqueue] at hlength
      exact absurd hlength.symm hsize
    | cons front queue =>
      rw [hqueue] at hmem hnodup
      have hne : x ≠ front := by
        rintro rfl
        exact hx (hmem ▸ by simp)
      ext y
      by_cases hy : y = front
      · subst hy
        simp [Ne.symm hne, (List.nodup_cons.mp hnodup).1]
      · simp [hmem, hy]
  · next hroom =>
    have hwindow : window s.nMaxSize (history ++ [x]) = s.queue ++ [x] := by
      rw [h.queue]
      refine window_append_of_room ?_ x
      by_cases hsize : s.nMaxSize = 0
      · exact .inl hsize
      · refine .inr (lt_of_le_of_ne (length_window_le hsize history) fun hlength ↦ hroom ⟨hsize, ?_⟩)
        rw [h.queue, hlength]
    refine ⟨hwindow.symm, ?_, hspaced⟩
    rw [h.set]
    ext y
    simp

end Mruset

/-- What the relay needs of a `CNode`. -/
structure RelayNode where
  nVersion : ℤ
  setInventoryKnown : Mruset CInv
  vInventoryToSend : List CInv

namespace RelayNode

def new (nMaxSize : ℕ) : RelayNode := ⟨0, .new nMaxSize, []⟩

def addInventoryKnown (pnode : RelayNode) (inv : CInv) : RelayNode :=
  { pnode with setInventoryKnown := (pnode.setInventoryKnown.insert inv).1 }

def pushInventory (pnode : RelayNode) (inv : CInv) : RelayNode :=
  if inv ∈ pnode.setInventoryKnown.set then pnode
  else { pnode with vInventoryToSend := pnode.vInventoryToSend ++ [inv] }

end RelayNode

def MSG_TX : BitVec 32 := 1

/-- One transaction in four is not kept back, unless it is our own.  The first argument is the salted
hash that decides. -/
def fTrickleWait (hashRand : Uint256 → Uint256) (fFromMe : Uint256 → Bool) (inv : CInv) : Bool :=
  decide (hashRand inv.hash &&& 3 ≠ 0) || fFromMe inv.hash

/-- What the loop over `vInventoryToSend` holds: the messages that were pushed, the next one, what is
kept back, and what the peer knows. -/
structure InvLoop where
  pushed : List (List CInv)
  vInv : List CInv
  vInvWait : List CInv
  setInventoryKnown : Mruset CInv

namespace InvLoop

def announce (l : InvLoop) (inv : CInv) : InvLoop :=
  let vInv := l.vInv ++ [inv]
  { l with
    pushed := if 1000 ≤ vInv.length then l.pushed ++ [vInv] else l.pushed
    vInv := if 1000 ≤ vInv.length then [] else vInv
    setInventoryKnown := (l.setInventoryKnown.insert inv).1 }

def offer (fSendTrickle : Bool) (wait : CInv → Bool) (l : InvLoop) (inv : CInv) : InvLoop :=
  if inv ∈ l.setInventoryKnown.set then l
  -- trickle out tx inv to protect privacy
  else if inv.type = MSG_TX ∧ !fSendTrickle ∧ wait inv then { l with vInvWait := l.vInvWait ++ [inv] }
  else if (l.setInventoryKnown.insert inv).2 then l.announce inv
  else l

/-- The messages in the end. -/
def messages (l : InvLoop) : List (List CInv) :=
  if l.vInv.isEmpty then l.pushed else l.pushed ++ [l.vInv]

/-- Everything that is announced, in order. -/
def announced (l : InvLoop) : List CInv := l.pushed.flatten ++ l.vInv

end InvLoop

/-- The messages `inv` to a peer, and what is left; nothing is sent before the peer's version. -/
def RelayNode.sendInventory (pto : RelayNode) (fSendTrickle : Bool) (wait : CInv → Bool) :
    List (List CInv) × RelayNode :=
  if pto.nVersion = 0 then ([], pto)
  else
    let l := pto.vInventoryToSend.foldl (InvLoop.offer fSendTrickle wait)
      ⟨[], [], [], pto.setInventoryKnown⟩
    (l.messages, { pto with
      setInventoryKnown := l.setInventoryKnown
      vInventoryToSend := l.vInvWait })

namespace InvLoop

/-- A message has at least one item and at most 1000. -/
def FitsMessage (message : List CInv) : Prop := message ≠ [] ∧ message.length ≤ 1000

/-- What holds after a part of the list: of what was announced and kept back. -/
structure After (fSendTrickle : Bool) (wait : CInv → Bool) (known : List CInv) (done : List CInv)
    (l : InvLoop) : Prop where
  holds : l.setInventoryKnown.Holds (known ++ l.announced)
  pushed : ∀ message ∈ l.pushed, FitsMessage message
  room : l.vInv.length < 1000
  all : ∀ inv ∈ done, inv ∈ known ++ l.announced ∨ inv ∈ l.vInvWait
  waits : ∀ inv ∈ l.vInvWait, inv.type = MSG_TX ∧ fSendTrickle = false ∧ wait inv = true
  announces : ∀ inv ∈ l.announced, inv ∈ done ∧
    ¬ (inv.type = MSG_TX ∧ fSendTrickle = false ∧ wait inv = true)

theorem announced_announce (l : InvLoop) (inv : CInv) :
    (l.announce inv).announced = l.announced ++ [inv] := by
  unfold announced announce
  dsimp only
  split <;> simp

variable {fSendTrickle : Bool} {wait : CInv → Bool} {known done : List CInv} {l : InvLoop}

theorem After.announce (h : After fSendTrickle wait known done l) {inv : CInv}
    (hnew : inv ∉ l.setInventoryKnown.set)
    (hfree : ¬ (inv.type = MSG_TX ∧ fSendTrickle = false ∧ wait inv = true)) :
    After fSendTrickle wait known (done ++ [inv]) (l.announce inv) := by
  have hannounced := announced_announce l inv
  have hlength : (l.vInv ++ [inv]).length ≤ 1000 := by
    have hroom := h.room
    simp only [List.length_append, List.length_singleton]
    omega
  refine ⟨?_, ?_, ?_, ?_, h.waits, ?_⟩
  · rw [hannounced, ← List.append_assoc]
    exact h.holds.insert hnew
  · unfold InvLoop.announce
    dsimp only
    split
    · exact List.forall_mem_append.mpr ⟨h.pushed, List.forall_mem_singleton.mpr ⟨by simp, hlength⟩⟩
    · exact h.pushed
  · unfold InvLoop.announce
    dsimp only
    split
    · simp
    · omega
  · rw [hannounced, ← List.append_assoc]
    refine List.forall_mem_append.mpr ⟨fun inv' hinv' ↦ ?_, List.forall_mem_singleton.mpr (.inl (by simp))⟩
    exact (h.all inv' hinv').imp_left (List.mem_append_left _)
  · rw [hannounced]
    refine List.forall_mem_append.mpr ⟨fun inv' hinv' ↦ ?_, List.forall_mem_singleton.mpr ⟨by simp, hfree⟩⟩
    exact (h.announces inv' hinv').imp_left (List.mem_append_left _)

theorem After.offer (h : After fSendTrickle wait known done l) (inv : CInv) :
    After fSendTrickle wait known (done ++ [inv]) (l.offer fSendTrickle wait inv) := by
  have hannounces : ∀ inv' ∈ l.announced, inv' ∈ done ++ [inv] ∧
      ¬ (inv'.type = MSG_TX ∧ fSendTrickle = false ∧ wait inv' = true) :=
    fun inv' hinv' ↦ (h.announces inv' hinv').imp_left (List.mem_append_left _)
  unfold InvLoop.offer
  split
  · next hknown =>
    refine ⟨h.holds, h.pushed, h.room, ?_, h.waits, hannounces⟩
    exact List.forall_mem_append.mpr
      ⟨h.all, List.forall_mem_singleton.mpr (.inl (h.holds.mem_history hknown))⟩
  · next hnew =>
    split
    · next hwait =>
      simp only [Bool.not_eq_true'] at hwait
      refine ⟨h.holds, h.pushed, h.room, ?_, ?_, hannounces⟩
      · refine List.forall_mem_append.mpr ⟨fun inv' hinv' ↦ ?_, List.forall_mem_singleton.mpr (.inr (by simp))⟩
        exact (h.all inv' hinv').imp_right (List.mem_append_left _)
      · exact List.forall_mem_append.mpr ⟨h.waits, List.forall_mem_singleton.mpr hwait⟩
    · next hfree =>
      simp only [Bool.not_eq_true'] at hfree
      rw [if_pos (by rw [Mruset.insert_snd]; exact decide_eq_true hnew)]
      exact h.announce hnew hfree

theorem after_foldl (h : After fSendTrickle wait known done l) (invs : List CInv) :
    After fSendTrickle wait known (done ++ invs) (invs.foldl (InvLoop.offer fSendTrickle wait) l) := by
  induction invs generalizing done l with
  | nil => simpa using h
  | cons inv invs ih =>
    have hrest := ih (h.offer inv)
    rwa [List.append_assoc, List.singleton_append] at hrest

theorem flatten_messages (l : InvLoop) : l.messages.flatten = l.announced := by
  unfold messages announced
  split
  · next hempty => simp [List.isEmpty_iff.mp hempty]
  · simp

end InvLoop

/-- What one call of `SendMessages` does to the inventory of a peer. -/
structure Announces (fSendTrickle : Bool) (wait : CInv → Bool) (known : List CInv) (pto : RelayNode)
    (messages : List (List CInv)) (pto' : RelayNode) : Prop where
  holds : pto'.setInventoryKnown.Holds (known ++ messages.flatten)
  fits : ∀ message ∈ messages, InvLoop.FitsMessage message
  all : ∀ inv ∈ pto.vInventoryToSend, inv ∈ known ++ messages.flatten ∨ inv ∈ pto'.vInventoryToSend
  rest : pto.nVersion ≠ 0 → fSendTrickle = true → pto'.vInventoryToSend = []
  free : ∀ inv ∈ messages.flatten, inv ∈ pto.vInventoryToSend ∧
    (inv.type = MSG_TX → fSendTrickle = false → wait inv = false)

theorem announces_sendInventory {pto : RelayNode} {known : List CInv}
    (h : pto.setInventoryKnown.Holds known) (fSendTrickle : Bool) (wait : CInv → Bool) :
    Announces fSendTrickle wait known pto (pto.sendInventory fSendTrickle wait).1
      (pto.sendInventory fSendTrickle wait).2 := by
  unfold RelayNode.sendInventory
  split
  · next hversion =>
    exact ⟨by simpa using h, by simp, fun inv hinv ↦ .inr hinv, fun hne ↦ absurd hversion hne, by simp⟩
  · have hinit : InvLoop.After fSendTrickle wait known [] ⟨[], [], [], pto.setInventoryKnown⟩ :=
      ⟨by simpa [InvLoop.announced] using h, by simp, by simp, by simp, by simp, by simp [InvLoop.announced]⟩
    have hafter := InvLoop.after_foldl hinit pto.vInventoryToSend
    rw [List.nil_append] at hafter
    dsimp only
    generalize pto.vInventoryToSend.foldl (InvLoop.offer fSendTrickle wait)
      ⟨[], [], [], pto.setInventoryKnown⟩ = l at hafter
    refine ⟨?_, ?_, ?_, fun _ htrickle ↦ ?_, ?_⟩
    · rw [InvLoop.flatten_messages]
      exact hafter.holds
    · unfold InvLoop.messages
      split
      · exact hafter.pushed
      · next hne =>
        refine List.forall_mem_append.mpr ⟨hafter.pushed, List.forall_mem_singleton.mpr ⟨?_, hafter.room.le⟩⟩
        exact fun hnil ↦ hne (by simp [hnil])
    · rw [InvLoop.flatten_messages]
      exact hafter.all
    · refine List.eq_nil_iff_forall_not_mem.mpr fun inv hinv ↦ ?_
      have hwaits := (hafter.waits inv hinv).2.1
      rw [htrickle] at hwaits
      cases hwaits
    · intro inv hinv
      rw [InvLoop.flatten_messages] at hinv
      obtain ⟨hdone, hfree⟩ := hafter.announces inv hinv
      refine ⟨hdone, fun htype htrickle ↦ ?_⟩
      cases hwait : wait inv with
      | false => rfl
      | true => exact absurd ⟨htype, htrickle, hwait⟩ hfree

/-- The peers in `vNodes`, and the transactions that are kept for them with the times until which they
are kept. -/
structure RelayState where
  vNodes : List ℕ
  node : ℕ → RelayNode
  mapRelay : CInv → Option (List UInt8)
  vRelayExpiration : List (ℤ × CInv)

namespace RelayState

def update (s : RelayState) (pnode : ℕ) (node : RelayNode) : RelayState :=
  { s with node := Function.update s.node pnode node }

def relayInventory (s : RelayState) (inv : CInv) : RelayState :=
  { s with node := fun pnode ↦
      if pnode ∈ s.vNodes then (s.node pnode).pushInventory inv else s.node pnode }

/-- The part of `RelayTransaction` under `cs_mapRelay`. -/
def keepForRelay (s : RelayState) (nTime : ℤ) (inv : CInv) (ss : List UInt8) : RelayState :=
  -- Expire old relay messages
  let expired := s.vRelayExpiration.takeWhile fun entry ↦ decide (entry.1 < nTime)
  let mapRelay := expired.foldl
    (fun (mapRelay : CInv → Option (List UInt8)) entry ↦ Function.update mapRelay entry.2 none) s.mapRelay
  { s with
    mapRelay := if (mapRelay inv).isSome then mapRelay else Function.update mapRelay inv (some ss)
    vRelayExpiration := (s.vRelayExpiration.dropWhile fun entry ↦ decide (entry.1 < nTime)) ++
      [(nTime + 15 * 60, inv)] }

def relayTransaction (s : RelayState) (nTime : ℤ) (hash : Uint256) (ss : List UInt8) : RelayState :=
  (s.keepForRelay nTime ⟨MSG_TX, hash⟩ ss).relayInventory ⟨MSG_TX, hash⟩

/-- The payload that `getdata` gets for a transaction: what is kept, else what the pool has. -/
def txForGetData (s : RelayState) (mempool : Uint256 → Option (List UInt8)) (hash : Uint256) :
    Option (List UInt8) :=
  (s.mapRelay ⟨MSG_TX, hash⟩).or (mempool hash)

end RelayState

inductive RelayEvent where
  | connect (pnode : ℕ) (nMaxSize : ℕ)
  | version (pnode : ℕ) (nVersion : ℤ)
  | disconnect (pnode : ℕ)
  | addInventoryKnown (pnode : ℕ) (inv : CInv)
  | pushInventory (pnode : ℕ) (inv : CInv)
  | relayInventory (inv : CInv)
  | relayTransaction (nTime : ℤ) (hash : Uint256) (ss : List UInt8)
  | sendMessages (pto : ℕ) (fSendTrickle : Bool) (wait : CInv → Bool)

/-- The state with, for each peer, what became known to it, in order, and whether this node told it;
and what was to be offered to it. -/
structure RelayRun where
  state : RelayState
  log : ℕ → List (CInv × Bool)
  offered : ℕ → List CInv

namespace RelayRun

def empty : RelayRun := ⟨⟨[], fun _ ↦ .new 0, fun _ ↦ none, []⟩, fun _ ↦ [], fun _ ↦ []⟩

/-- Everything that became known to a peer. -/
def known (r : RelayRun) (pnode : ℕ) : List CInv := (r.log pnode).map Prod.fst

def offerTo (r : RelayRun) (pnodes : List ℕ) (inv : CInv) : ℕ → List CInv := fun pnode ↦
  if pnode ∈ pnodes then r.offered pnode ++ [inv] else r.offered pnode

def step (r : RelayRun) : RelayEvent → RelayRun
  | .connect pnode nMaxSize =>
      { state := { r.state.update pnode (.new nMaxSize) with vNodes := r.state.vNodes ++ [pnode] }
        log := Function.update r.log pnode []
        offered := Function.update r.offered pnode [] }
  | .version pnode nVersion =>
      { r with state := r.state.update pnode { r.state.node pnode with nVersion } }
  | .disconnect pnode =>
      { r with state := { r.state with vNodes := r.state.vNodes.filter (· ≠ pnode) } }
  | .addInventoryKnown pnode inv =>
      { r with
        state := r.state.update pnode ((r.state.node pnode).addInventoryKnown inv)
        log := if inv ∈ (r.state.node pnode).setInventoryKnown.set then r.log
          else Function.update r.log pnode (r.log pnode ++ [(inv, false)]) }
  | .pushInventory pnode inv =>
      { r with
        state := r.state.update pnode ((r.state.node pnode).pushInventory inv)
        offered := r.offerTo [pnode] inv }
  | .relayInventory inv =>
      { r with state := r.state.relayInventory inv, offered := r.offerTo r.state.vNodes inv }
  | .relayTransaction nTime hash ss =>
      { r with
        state := r.state.relayTransaction nTime hash ss
        offered := r.offerTo r.state.vNodes ⟨MSG_TX, hash⟩ }
  | .sendMessages pto fSendTrickle wait =>
      let (messages, node) := (r.state.node pto).sendInventory fSendTrickle wait
      { r with
        state := r.state.update pto node
        log := Function.update r.log pto (r.log pto ++ messages.flatten.map (·, true)) }

def steps (r : RelayRun) (events : List RelayEvent) : RelayRun := events.foldl step r

end RelayRun

/-- What the relay knows of a peer: its set is the window of what became known to it, and what was to
be offered is known or waits. -/
structure RelayInv (r : RelayRun) (pnode : ℕ) : Prop where
  holds : (r.state.node pnode).setInventoryKnown.Holds (r.known pnode)
  offered : ∀ inv ∈ r.offered pnode,
    inv ∈ r.known pnode ∨ inv ∈ (r.state.node pnode).vInventoryToSend

theorem relayInv_empty (pnode : ℕ) : RelayInv .empty pnode :=
  ⟨Mruset.holds_new 0, fun _ hinv ↦ by cases hinv⟩

variable {r : RelayRun} {pnode i : ℕ} {s : RelayState}

/-- An item that is offered waits, unless the peer knows it. -/
theorem offered_pushInventory (h : RelayInv r pnode) (inv : CInv) :
    ∀ inv' ∈ r.offered pnode ++ [inv], inv' ∈ r.known pnode ∨
      inv' ∈ ((r.state.node pnode).pushInventory inv).vInventoryToSend := by
  unfold RelayNode.pushInventory
  split
  · next hknown =>
    exact List.forall_mem_append.mpr
      ⟨h.offered, List.forall_mem_singleton.mpr (.inl (h.holds.mem_history hknown))⟩
  · refine List.forall_mem_append.mpr ⟨fun inv' hinv' ↦ ?_, List.forall_mem_singleton.mpr (.inr (by simp))⟩
    exact (h.offered inv' hinv').imp_right (List.mem_append_left _)

theorem setInventoryKnown_pushInventory (pnode : RelayNode) (inv : CInv) :
    (pnode.pushInventory inv).setInventoryKnown = pnode.setInventoryKnown := by
  unfold RelayNode.pushInventory
  split <;> rfl

/-- Offering an item to some peers keeps the invariant. -/
theorem RelayInv.offerTo {r' : RelayRun} (h : RelayInv r pnode) {pnodes : List ℕ} {inv : CInv}
    (hlog : r'.log pnode = r.log pnode) (hoffered : r'.offered = r.offerTo pnodes inv)
    (hnode : r'.state.node pnode =
      if pnode ∈ pnodes then (r.state.node pnode).pushInventory inv else r.state.node pnode) :
    RelayInv r' pnode := by
  have hknown : r'.known pnode = r.known pnode := by rw [RelayRun.known, hlog, RelayRun.known]
  by_cases hmem : pnode ∈ pnodes
  · rw [if_pos hmem] at hnode
    refine ⟨?_, ?_⟩
    · rw [hknown, hnode, setInventoryKnown_pushInventory]
      exact h.holds
    · rw [hknown, hnode, hoffered, RelayRun.offerTo, if_pos hmem]
      exact offered_pushInventory h inv
  · rw [if_neg hmem] at hnode
    refine ⟨?_, ?_⟩
    · rw [hknown, hnode]
      exact h.holds
    · rw [hknown, hnode, hoffered, RelayRun.offerTo, if_neg hmem]
      exact h.offered

theorem RelayInv.congr {r' : RelayRun} (h : RelayInv r pnode) (hlog : r'.log pnode = r.log pnode)
    (hoffered : r'.offered pnode = r.offered pnode)
    (hknown : (r'.state.node pnode).setInventoryKnown = (r.state.node pnode).setInventoryKnown)
    (hwaits : (r'.state.node pnode).vInventoryToSend = (r.state.node pnode).vInventoryToSend) :
    RelayInv r' pnode := by
  refine ⟨?_, ?_⟩
  · rw [RelayRun.known, hlog, hknown]
    exact h.holds
  · rw [RelayRun.known, hlog, hoffered, hwaits]
    exact h.offered

theorem RelayInv.step (h : RelayInv r pnode) (event : RelayEvent) :
    RelayInv (r.step event) pnode := by
  cases event with
  | connect p nMaxSize =>
    by_cases heq : pnode = p
    · subst heq
      refine ⟨?_, ?_⟩
      · simpa [RelayRun.step, RelayRun.known, RelayState.update, RelayNode.new] using
          Mruset.holds_new nMaxSize
      · simp [RelayRun.step]
    · exact h.congr (by simp [RelayRun.step, heq]) (by simp [RelayRun.step, heq])
        (by simp [RelayRun.step, RelayState.update, heq]) (by simp [RelayRun.step, RelayState.update, heq])
  | version p nVersion =>
    refine h.congr rfl rfl ?_ ?_
    all_goals
      by_cases heq : pnode = p
      · subst heq
        simp [RelayRun.step, RelayState.update]
      · simp [RelayRun.step, RelayState.update, heq]
  | disconnect p => exact h.congr rfl rfl rfl rfl
  | addInventoryKnown p inv =>
    by_cases heq : pnode = p
    · subst heq
      by_cases hmem : inv ∈ (r.state.node pnode).setInventoryKnown.set
      · refine h.congr (by simp [RelayRun.step, hmem]) rfl ?_ ?_
        · simp [RelayRun.step, RelayState.update, RelayNode.addInventoryKnown, Mruset.insert_fst_of_mem hmem]
        · simp [RelayRun.step, RelayState.update, RelayNode.addInventoryKnown]
      · have hknown : (r.step (.addInventoryKnown pnode inv)).known pnode = r.known pnode ++ [inv] := by
          simp [RelayRun.step, RelayRun.known, hmem]
        refine ⟨?_, ?_⟩
        · rw [hknown]
          simpa [RelayRun.step, RelayState.update, RelayNode.addInventoryKnown] using h.holds.insert hmem
        · rw [hknown]
          intro inv' hinv'
          refine (h.offered inv' hinv').imp (List.mem_append_left _) fun hwaits ↦ ?_
          simpa [RelayRun.step, RelayState.update, RelayNode.addInventoryKnown] using hwaits
    · refine h.congr ?_ rfl (by simp [RelayRun.step, RelayState.update, heq])
        (by simp [RelayRun.step, RelayState.update, heq])
      simp only [RelayRun.step]
      split
      · rfl
      · exact Function.update_of_ne heq _ _
  | pushInventory p inv =>
    refine h.offerTo rfl rfl ?_
    by_cases heq : pnode = p
    · subst heq
      simp [RelayRun.step, RelayState.update]
    · simp [RelayRun.step, RelayState.update, heq]
  | relayInventory inv => exact h.offerTo rfl rfl rfl
  | relayTransaction nTime hash ss => exact h.offerTo rfl rfl rfl
  | sendMessages p fSendTrickle wait =>
    by_cases heq : pnode = p
    · subst heq
      have hannounces := announces_sendInventory h.holds fSendTrickle wait
      have hknown : (r.step (.sendMessages pnode fSendTrickle wait)).known pnode = r.known pnode ++
          ((r.state.node pnode).sendInventory fSendTrickle wait).1.flatten := by
        simp [RelayRun.step, RelayRun.known, Function.comp_def]
      have hnode : (r.step (.sendMessages pnode fSendTrickle wait)).state.node pnode =
          ((r.state.node pnode).sendInventory fSendTrickle wait).2 := by
        simp [RelayRun.step, RelayState.update]
      refine ⟨?_, ?_⟩
      · rw [hknown, hnode]
        exact hannounces.holds
      · rw [hknown, hnode]
        intro inv hinv
        rcases h.offered inv hinv with hinv | hinv
        · exact .inl (List.mem_append_left _ hinv)
        · exact hannounces.all inv hinv
    · refine h.congr ?_ rfl ?_ ?_
      · simp [RelayRun.step, heq]
      · simp [RelayRun.step, RelayState.update, heq]
      · simp [RelayRun.step, RelayState.update, heq]

theorem relayInv_steps (h : RelayInv r pnode) (events : List RelayEvent) :
    RelayInv (r.steps events) pnode := by
  induction events generalizing r with
  | nil => exact h
  | cons event events ih => exact ih (h.step event)

theorem mem_known {inv : CInv} {told : Bool} (h : (r.log pnode)[i]? = some (inv, told)) :
    (r.known pnode)[i]? = some inv := by
  rw [RelayRun.known, List.getElem?_map, h]
  rfl

/-- A peer is told of an item that it knew, or was told of, only after more other items became known
to it than its set has room for. -/
theorem announced_apart (events : List RelayEvent) (pnode i j : ℕ) (inv : CInv) (told : Bool)
    (hij : i < j) (hi : ((RelayRun.empty.steps events).log pnode)[i]? = some (inv, told))
    (hj : ((RelayRun.empty.steps events).log pnode)[j]? = some (inv, true)) :
    let nMaxSize := ((RelayRun.empty.steps events).state.node pnode).setInventoryKnown.nMaxSize
    nMaxSize ≠ 0 ∧ i + nMaxSize < j := by
  have hinv := relayInv_steps (relayInv_empty pnode) events
  exact hinv.holds.spaced i j inv hij (mem_known hi) (mem_known hj)

/-- Three items pass through a set with room for two. -/
def threeItems : List RelayEvent :=
  [.connect 0 2, .version 0 60008, .addInventoryKnown 0 ⟨MSG_TX, 1⟩, .relayInventory ⟨2, 2⟩,
    .relayInventory ⟨2, 3⟩, .sendMessages 0 true fun _ ↦ true, .relayInventory ⟨MSG_TX, 1⟩,
    .sendMessages 0 true fun _ ↦ true]

theorem announced_apart_example :
    (RelayRun.empty.steps threeItems).log 0 =
      [(⟨MSG_TX, 1⟩, false), (⟨2, 2⟩, true), (⟨2, 3⟩, true), (⟨MSG_TX, 1⟩, true)] ∧
    ((RelayRun.empty.steps threeItems).state.node 0).setInventoryKnown.nMaxSize ≠ 0 ∧
    0 + ((RelayRun.empty.steps threeItems).state.node 0).setInventoryKnown.nMaxSize < 3 :=
  ⟨by decide, announced_apart threeItems 0 0 3 ⟨MSG_TX, 1⟩ false (by decide) (by decide) (by decide)⟩

/-- Whether the event is a call of `SendMessages`. -/
def RelayEvent.sends : RelayEvent → Bool
  | .sendMessages .. => true
  | _ => false

/-- What the message handler does for a peer: it processes what was received, or another thread runs,
and sends if it gets the lock. -/
structure Visit where
  pnode : ℕ
  received : List RelayEvent
  lockSend : Bool
  fFromMe : Uint256 → Bool
  quiet : ∀ event ∈ received, event.sends = false

/-- A round of `ThreadMessageHandler2`: one peer is sent everything. -/
structure Round where
  pnodeTrickle : ℕ
  visits : List Visit

def Visit.events (hashRand : Uint256 → Uint256) (pnodeTrickle : ℕ) (visit : Visit) : List RelayEvent :=
  visit.received ++
    if visit.lockSend then
      [.sendMessages visit.pnode (visit.pnode == pnodeTrickle) (fTrickleWait hashRand visit.fFromMe)]
    else []

def Round.events (hashRand : Uint256 → Uint256) (round : Round) : List RelayEvent :=
  round.visits.flatMap (Visit.events hashRand round.pnodeTrickle)

/-- What is known to a peer is forgotten or grows at its end, and only `SendMessages` tells it. -/
theorem log_step (r : RelayRun) (event : RelayEvent) (pnode : ℕ) :
    (r.step event).log pnode = [] ∨ ∃ more, (r.step event).log pnode = r.log pnode ++ more ∧
      ∀ inv, (inv, true) ∈ more → ∃ fSendTrickle wait, event = .sendMessages pnode fSendTrickle wait ∧
        inv ∈ ((r.state.node pnode).sendInventory fSendTrickle wait).1.flatten := by
  have hsame (hlog : (r.step event).log pnode = r.log pnode) :
      ∃ more, (r.step event).log pnode = r.log pnode ++ more ∧
        ∀ inv, (inv, true) ∈ more → ∃ fSendTrickle wait, event = .sendMessages pnode fSendTrickle wait ∧
          inv ∈ ((r.state.node pnode).sendInventory fSendTrickle wait).1.flatten :=
    ⟨[], by rw [hlog, List.append_nil], fun inv hmem ↦ by cases hmem⟩
  cases event with
  | connect p nMaxSize =>
    by_cases heq : pnode = p
    · subst heq
      exact .inl (Function.update_self _ _ _)
    · exact .inr (hsame (Function.update_of_ne heq _ _))
  | addInventoryKnown p inv =>
    right
    by_cases hknown : inv ∈ (r.state.node p).setInventoryKnown.set
    · exact hsame (by simp only [RelayRun.step, if_pos hknown])
    · by_cases heq : pnode = p
      · subst heq
        refine ⟨[(inv, false)], ?_, by simp⟩
        simp only [RelayRun.step, if_neg hknown, Function.update_self]
      · exact hsame (by simp only [RelayRun.step, if_neg hknown, Function.update_of_ne heq])
  | sendMessages p fSendTrickle wait =>
    right
    by_cases heq : pnode = p
    · subst heq
      refine ⟨_, Function.update_self _ _ _, fun inv hmem ↦ ⟨fSendTrickle, wait, rfl, ?_⟩⟩
      obtain ⟨inv', hinv, heq⟩ := List.mem_map.mp hmem
      obtain rfl : inv' = inv := congrArg Prod.fst heq
      exact hinv
    · exact hsame (Function.update_of_ne heq _ _)
  | version => exact .inr (hsame rfl)
  | disconnect => exact .inr (hsame rfl)
  | pushInventory => exact .inr (hsame rfl)
  | relayInventory => exact .inr (hsame rfl)
  | relayTransaction => exact .inr (hsame rfl)

/-- The event tells the peer of the item, which becomes number `i` of what is known to it. -/
structure RelayRun.Tells (r : RelayRun) (event : RelayEvent) (pnode i : ℕ) (inv : CInv) : Prop where
  new : (r.log pnode).length ≤ i
  told : ((r.step event).log pnode)[i]? = some (inv, true)

/-- What is told waits for nothing. -/
theorem RelayRun.Tells.sends {event : RelayEvent} {inv : CInv} (h : r.Tells event pnode i inv)
    (hinv : RelayInv r pnode) :
    ∃ fSendTrickle wait, event = .sendMessages pnode fSendTrickle wait ∧
      (inv.type = MSG_TX → fSendTrickle = false → wait inv = false) := by
  have htold := h.told
  rcases log_step r event pnode with hnil | ⟨more, hlog, hsends⟩
  · rw [hnil] at htold
    cases htold
  · rw [hlog, List.getElem?_append_right h.new] at htold
    obtain ⟨fSendTrickle, wait, rfl, hmem⟩ := hsends inv (List.mem_of_getElem? htold)
    have hfree := (announces_sendInventory hinv.holds fSendTrickle wait).free inv hmem
    exact ⟨fSendTrickle, wait, rfl, hfree.2⟩

/-- Whatever is kept has its entry in the queue. -/
def RelayState.Queued (s : RelayState) : Prop :=
  ∀ inv, (s.mapRelay inv).isSome → ∃ entry ∈ s.vRelayExpiration, entry.2 = inv

theorem foldl_erase (expired : List (ℤ × CInv)) (mapRelay : CInv → Option (List UInt8)) (inv : CInv) :
    expired.foldl (fun (mapRelay : CInv → Option (List UInt8)) entry ↦
      Function.update mapRelay entry.2 none) mapRelay inv =
        if inv ∈ expired.map Prod.snd then none else mapRelay inv := by
  induction expired generalizing mapRelay with
  | nil => simp
  | cons entry expired ih =>
    rw [List.foldl_cons, ih, List.map_cons]
    by_cases heq : inv = entry.2
    · subst heq
      simp
    · rw [Function.update_of_ne heq]
      by_cases hmem : inv ∈ expired.map Prod.snd
      · rw [if_pos hmem, if_pos (List.mem_cons_of_mem _ hmem)]
      · rw [if_neg hmem, if_neg fun hcons ↦ (List.mem_cons.mp hcons).elim heq hmem]

theorem RelayState.Queued.keepForRelay (h : s.Queued) (nTime : ℤ) (inv : CInv) (ss : List UInt8) :
    (s.keepForRelay nTime inv ss).Queued := by
  intro inv' hsome
  by_cases heq : inv' = inv
  · exact ⟨(nTime + 15 * 60, inv), by simp [RelayState.keepForRelay], heq.symm⟩
  · have hkept : (s.mapRelay inv').isSome ∧
        inv' ∉ (s.vRelayExpiration.takeWhile fun entry ↦ decide (entry.1 < nTime)).map Prod.snd := by
      unfold RelayState.keepForRelay at hsome
      dsimp only at hsome
      split at hsome
      all_goals
        simp only [Function.update_of_ne heq, foldl_erase] at hsome
        split at hsome
        · cases hsome
        · next hnot => exact ⟨hsome, hnot⟩
    obtain ⟨entry, hentry, rfl⟩ := h inv' hkept.1
    refine ⟨entry, ?_, rfl⟩
    rw [← List.takeWhile_append_dropWhile (p := fun entry : ℤ × CInv ↦ decide (entry.1 < nTime))
      (l := s.vRelayExpiration)] at hentry
    rcases List.mem_append.mp hentry with hexpired | hrest
    · exact absurd (List.mem_map_of_mem hexpired) hkept.2
    · exact List.mem_append_left _ hrest

/-- The stream is kept, and its entry is not behind another one of the same item. -/
def RelayState.Kept (s : RelayState) (nExpires : ℤ) (inv : CInv) (ss : List UInt8) : Prop :=
  s.mapRelay inv = some ss ∧ ∃ before behind,
    s.vRelayExpiration = before ++ (nExpires, inv) :: behind ∧ inv ∉ before.map Prod.snd

/-- An item without an entry is kept for fifteen minutes. -/
theorem kept_keepForRelay (h : s.Queued) {inv : CInv}
    (hnew : ∀ entry ∈ s.vRelayExpiration, entry.2 ≠ inv) (nTime : ℤ) (ss : List UInt8) :
    (s.keepForRelay nTime inv ss).Kept (nTime + 15 * 60) inv ss := by
  have hnone : s.mapRelay inv = none := by
    by_contra hsome
    obtain ⟨entry, hentry, heq⟩ := h inv (Option.isSome_iff_ne_none.mpr hsome)
    exact hnew entry hentry heq
  refine ⟨?_, s.vRelayExpiration.dropWhile fun entry ↦ decide (entry.1 < nTime), [], rfl, ?_⟩
  · simp [RelayState.keepForRelay, foldl_erase, hnone]
  · rintro hmem
    obtain ⟨entry, hentry, heq⟩ := List.mem_map.mp hmem
    exact hnew entry ((List.dropWhile_suffix _).mem hentry) heq

/-- Later transactions do not remove it before its time. -/
theorem RelayState.Kept.keepForRelay {nExpires nTime : ℤ} {inv : CInv} {ss : List UInt8}
    (h : s.Kept nExpires inv ss) (htime : nTime ≤ nExpires) (inv' : CInv) (ss' : List UInt8) :
    (s.keepForRelay nTime inv' ss').Kept nExpires inv ss := by
  obtain ⟨hmap, before, behind, hqueue, hbefore⟩ := h
  have hstop : decide (nExpires < nTime) = false := by simpa using htime
  have htake : s.vRelayExpiration.takeWhile (fun entry ↦ decide (entry.1 < nTime)) =
      before.takeWhile fun entry ↦ decide (entry.1 < nTime) := by
    rw [hqueue, List.takeWhile_append]
    split
    · next hall =>
      rw [List.takeWhile_cons, hstop]
      simp [(List.takeWhile_sublist _).eq_of_length hall]
    · rfl
  have hdrop : s.vRelayExpiration.dropWhile (fun entry ↦ decide (entry.1 < nTime)) =
      before.dropWhile (fun entry ↦ decide (entry.1 < nTime)) ++ (nExpires, inv) :: behind := by
    rw [hqueue, List.dropWhile_append]
    split
    · next hall =>
      rw [List.dropWhile_cons, hstop]
      simp [List.isEmpty_iff.mp hall]
    · rfl
  have hnot : inv ∉ (before.takeWhile fun entry ↦ decide (entry.1 < nTime)).map Prod.snd := by
    intro hmem
    obtain ⟨entry, hentry, heq⟩ := List.mem_map.mp hmem
    exact hbefore (List.mem_map.mpr ⟨entry, (List.takeWhile_prefix _).mem hentry, heq⟩)
  refine ⟨?_, before.dropWhile fun entry ↦ decide (entry.1 < nTime), behind ++ [(nTime + 15 * 60, inv')], ?_, ?_⟩
  · unfold RelayState.keepForRelay
    dsimp only
    rw [htake]
    by_cases heq : inv = inv'
    · subst heq
      rw [if_pos (by simp [foldl_erase, hnot, hmap]), foldl_erase, if_neg hnot, hmap]
    · split
      · rw [foldl_erase, if_neg hnot, hmap]
      · rw [Function.update_of_ne heq, foldl_erase, if_neg hnot, hmap]
  · simp [RelayState.keepForRelay, hdrop]
  · intro hmem
    obtain ⟨entry, hentry, heq⟩ := List.mem_map.mp hmem
    exact hbefore (List.mem_map.mpr ⟨entry, (List.dropWhile_suffix _).mem hentry, heq⟩)

/-- The times of the relays are at most this. -/
def RelayEvent.Until (nTime : ℤ) : RelayEvent → Prop
  | .relayTransaction nTime' _ _ => nTime' ≤ nTime
  | _ => True

theorem queued_steps (events : List RelayEvent) (h : r.state.Queued) :
    (r.steps events).state.Queued := by
  induction events generalizing r with
  | nil => exact h
  | cons event events ih =>
    refine ih ?_
    cases event with
    | relayTransaction nTime hash ss => exact h.keepForRelay nTime ⟨MSG_TX, hash⟩ ss
    | _ => exact h

theorem kept_steps {events : List RelayEvent} {nExpires : ℤ} {inv : CInv} {ss : List UInt8}
    (h : r.state.Kept nExpires inv ss) (huntil : ∀ event ∈ events, event.Until nExpires) :
    (r.steps events).state.Kept nExpires inv ss := by
  induction events generalizing r with
  | nil => exact h
  | cons event events ih =>
    refine ih ?_ fun event' hmem ↦ huntil event' (List.mem_cons_of_mem _ hmem)
    have htime := huntil event List.mem_cons_self
    cases event with
    | relayTransaction nTime hash ss' => exact h.keepForRelay htime ⟨MSG_TX, hash⟩ ss'
    | _ => exact h

/-- A transaction that has no entry in the queue when it is relayed is served to every peer for fifteen
minutes, whatever else is relayed and whether or not the pool still has it. -/
theorem served_after_relay (before after : List RelayEvent) (nTime : ℤ) (hash : Uint256) (ss : List UInt8)
    (hnew : ∀ entry ∈ (RelayRun.empty.steps before).state.vRelayExpiration, entry.2 ≠ ⟨MSG_TX, hash⟩)
    (huntil : ∀ event ∈ after, event.Until (nTime + 15 * 60)) (mempool : Uint256 → Option (List UInt8)) :
    (RelayRun.empty.steps (before ++ .relayTransaction nTime hash ss :: after)).state.txForGetData
      mempool hash = some ss := by
  have hempty : RelayRun.empty.state.Queued := by
    intro inv hsome
    cases hsome
  have hkept : ((RelayRun.empty.steps before).step (.relayTransaction nTime hash ss)).state.Kept
      (nTime + 15 * 60) ⟨MSG_TX, hash⟩ ss := kept_keepForRelay (queued_steps before hempty) hnew nTime ss
  have hafter := (kept_steps hkept huntil).1
  have hruns : RelayRun.empty.steps (before ++ .relayTransaction nTime hash ss :: after) =
      ((RelayRun.empty.steps before).step (.relayTransaction nTime hash ss)).steps after := by
    simp [RelayRun.steps]
  rw [hruns, RelayState.txForGetData, hafter, Option.some_or]

/-- The older transaction is gone and the newer one is still there. -/
theorem served_after_relay_example :
    (RelayRun.empty.steps ([.relayTransaction 0 6 [8]] ++ .relayTransaction 100 7 [9] ::
      [.connect 0 5, .relayTransaction 1000 8 [10]])).state.txForGetData (fun _ ↦ none) 7 = some [9] :=
  served_after_relay [.relayTransaction 0 6 [8]] [.connect 0 5, .relayTransaction 1000 8 [10]] 100 7 [9]
    (by simp [RelayRun.empty, RelayRun.steps, RelayRun.step, RelayState.relayTransaction,
      RelayState.keepForRelay, RelayState.relayInventory])
    (by simp [RelayEvent.Until]) fun _ ↦ none

end Electra.Net
