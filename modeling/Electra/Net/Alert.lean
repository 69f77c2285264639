import Electra.Net.Serialize
import Mathlib.Data.List.AList

/-!
# Alerts

A signed alert is shown until it expires or until a later alert cancels it.  What the keys of the two
networks verify and the hash are parameters, and one call meets one adjusted time.

An alert with the number `maxInt` cancels all others and is never cancelled by their numbers alone.  A
new alert erases what it cancels before anyone asks whether it is cancelled itself, so the alert stands
just when no admitted alert names `maxInt` in `nCancel` or `setCancel`.

What an alert names in `nCancel` or `setCancel` does not depend on the time.  An alert that is added has
erased the alerts it names, and is named by none that is left, so no two alerts of the map name each other
(`Compatible`).  An alert that is refused has erased what it names too.
-/

namespace Electra.Net

open Chain Foundations.Codec

section

/-- `std::numeric_limits<int>::max()`. -/
def maxInt : ℤ := 2 ^ 31 - 1

structure CUnsignedAlert where
  nVersion : ℤ
  nRelayUntil : ℤ
  nExpiration : ℤ
  nID : ℤ
  nCancel : ℤ
  setCancel : List ℤ
  nMinVer : ℤ
  nMaxVer : ℤ
  setSubVer : List (List UInt8)
  nPriority : ℤ
  strComment : List UInt8
  strStatusBar : List UInt8
  strReserved : List UInt8
deriving DecidableEq

structure CAlert extends CUnsignedAlert where
  vchMsg : List UInt8
  vchSig : List UInt8
deriving DecidableEq

def writeSet {α : Type} (write : α → List UInt8) (m : List α) : List UInt8 :=
  writeCompactSize m.length ++ m.flatMap write

/-- Elements are inserted one at a time, without a reservation. -/
def readSet {α : Type} [DecidableEq α] (read : Reader α) : Reader (List α) := do
  let nSize ← readCompactSize
  let m ← readItems read nSize
  return m.dedup

def readString : Reader (List UInt8) := do
  let nSize ← readCompactSize
  readData nSize

def writeAlert (alert : CUnsignedAlert) : List UInt8 :=
  writeInt 4 alert.nVersion ++ (writeInt 8 alert.nRelayUntil ++ (writeInt 8 alert.nExpiration ++
    (writeInt 4 alert.nID ++ (writeInt 4 alert.nCancel ++ (writeSet (writeInt 4) alert.setCancel ++
      (writeInt 4 alert.nMinVer ++ (writeInt 4 alert.nMaxVer ++ (writeSet writeBytes alert.setSubVer ++
        (writeInt 4 alert.nPriority ++ (writeBytes alert.strComment ++
          (writeBytes alert.strStatusBar ++ writeBytes alert.strReserved)))))))))))

def readAlert : Reader CUnsignedAlert := do
  let nVersion ← readInt 4
  let nRelayUntil ← readInt 8
  let nExpiration ← readInt 8
  let nID ← readInt 4
  let nCancel ← readInt 4
  let setCancel ← readSet (readInt 4)
  let nMinVer ← readInt 4
  let nMaxVer ← readInt 4
  let setSubVer ← readSet readString
  let nPriority ← readInt 4
  let strComment ← readString
  let strStatusBar ← readString
  let strReserved ← readString
  return { nVersion, nRelayUntil, nExpiration, nID, nCancel, setCancel, nMinVer, nMaxVer, setSubVer,
           nPriority, strComment, strStatusBar, strReserved }

namespace CAlert

variable (nAdjustedTime : ℤ)

def isInEffect (alert : CAlert) : Bool := decide (nAdjustedTime < alert.nExpiration)

def cancels (alert other : CAlert) : Bool :=
  alert.isInEffect nAdjustedTime &&
    (decide (other.nID ≤ alert.nCancel) || decide (other.nID ∈ alert.setCancel))

def strCompromised : List UInt8 :=
  "URGENT: Alert key compromised, upgrade required".toList.map fun c ↦ UInt8.ofNat c.toNat

/-- What an alert with the reserved number must be like. -/
def isPredefined (alert : CAlert) : Bool :=
  decide (alert.nExpiration = maxInt) && decide (alert.nCancel = maxInt - 1) &&
    decide (alert.nMinVer = 0) && decide (alert.nMaxVer = maxInt) && alert.setSubVer.isEmpty &&
    decide (alert.nPriority = maxInt) && alert.strStatusBar == strCompromised

end CAlert

/-- The hash, and whether a signature fits a message under the alert key of the network. -/
structure AlertKeys where
  hash : List UInt8 → Uint256
  verify : Uint256 → List UInt8 → Bool

/-- The alerts by their hashes. -/
abbrev MapAlerts := AList fun _ : Uint256 ↦ CAlert

/-- Erase the alerts that meet a condition. -/
def MapAlerts.eraseIf (drop : CAlert → Bool) (mapAlerts : MapAlerts) : MapAlerts where
  entries := mapAlerts.entries.filter fun entry ↦ !drop entry.2
  nodupKeys := mapAlerts.nodupKeys.sublist List.filter_sublist

/-- `std::map::insert` leaves an entry that is there. -/
def MapAlerts.insertNew (hash : Uint256) (alert : CAlert) (mapAlerts : MapAlerts) : MapAlerts :=
  if hash ∈ mapAlerts then mapAlerts else mapAlerts.insert hash alert

/-- An alert as it arrives, at an adjusted time. -/
structure AlertEvent where
  nAdjustedTime : ℤ
  vchMsg : List UInt8
  vchSig : List UInt8

variable (keys : AlertKeys)

def CAlert.getHash (alert : CAlert) : Uint256 := keys.hash alert.vchMsg

/-- `CheckSignature` reads the alert; a message that cannot be read throws out of `ProcessAlert`. -/
def checkSignature (event : AlertEvent) : Option CAlert :=
  if keys.verify (keys.hash event.vchMsg) event.vchSig then
    match readAlert ⟨.ofBytes event.vchMsg, []⟩ with
    | .error _ => none
    | .ok (fields, _) => some ⟨fields, event.vchMsg, event.vchSig⟩
  else none

/-- The checks of an alert by itself. -/
def admittedAlert (event : AlertEvent) : Option CAlert :=
  (checkSignature keys event).filter fun alert ↦
    alert.isInEffect event.nAdjustedTime && (alert.nID != maxInt || alert.isPredefined)

/-- The alerts that are left when a new one has cancelled what it cancels. -/
def cancelPrevious (nAdjustedTime : ℤ) (alert : CAlert) (mapAlerts : MapAlerts) : MapAlerts :=
  mapAlerts.eraseIf fun previous ↦
    alert.cancels nAdjustedTime previous || !previous.isInEffect nAdjustedTime

def processAlert (mapAlerts : MapAlerts) (event : AlertEvent) : Bool × MapAlerts :=
  match admittedAlert keys event with
  | none => (false, mapAlerts)
  | some alert =>
      let mapAlerts := cancelPrevious event.nAdjustedTime alert mapAlerts
      if mapAlerts.entries.any fun entry ↦ entry.2.cancels event.nAdjustedTime alert then
        (false, mapAlerts)
      else (true, mapAlerts.insertNew (alert.getHash keys) alert)

/-- The alerts after some events. -/
def mapAlertsAfter (events : List AlertEvent) : MapAlerts :=
  events.foldl (fun mapAlerts event ↦ (processAlert keys mapAlerts event).2) ∅

end

open Foundations.Outcome

section

variable {keys : AlertKeys} {key : Uint256} {mapAlerts : MapAlerts} {event : AlertEvent} {alert : CAlert}

theorem reader_bind_eq_ok {α β : Type} {read : Reader α} {next : α → Reader β} {st st' : ReadState}
    {b : β} : (read >>= next) st = .ok (b, st') ↔
      ∃ a st₁, read st = .ok (a, st₁) ∧ next a st₁ = .ok (b, st') := by
  change Except.bind (read st) (fun p ↦ next p.1 p.2) = _ ↔ _
  cases read st with
  | error text => simp [Except.bind]
  | ok p =>
    constructor
    · exact fun hnext ↦ ⟨p.1, p.2, rfl, hnext⟩
    · rintro ⟨a, st₁, heq, hnext⟩
      obtain rfl := Except.ok.inj heq
      exact hnext

theorem readInt_le {st st' : ReadState} {n : ℤ} (h : readInt 4 st = .ok (n, st')) : n ≤ maxInt := by
  simp only [readInt, readUInt, reader_bind_eq_ok] at h
  obtain ⟨u, st₁, ⟨data, st₂, hread, hu⟩, hn⟩ := h
  obtain ⟨rfl, -⟩ := Prod.mk.inj (Except.ok.inj hu)
  obtain ⟨rfl, -⟩ := Prod.mk.inj (Except.ok.inj hn)
  have hlength : data.length ≤ 4 := by
    simp only [readData, CDataStream.read_eq] at hread
    split at hread
    · cases hread
    · next heq =>
      obtain ⟨rfl, -⟩ := Prod.mk.inj (Except.ok.inj hread)
      split at heq
      · cases heq
      · obtain ⟨rfl, -⟩ := Prod.mk.inj (Except.ok.inj heq)
        exact List.length_take_le _ _
  have hlt : ofLeBytes data < 256 ^ 4 :=
    (ofLeBytes_lt data).trans_le (Nat.pow_le_pow_right (by decide) hlength)
  unfold maxInt
  split <;> omega

theorem nID_le_of_readAlert {st st' : ReadState} {fields : CUnsignedAlert}
    (h : readAlert st = .ok (fields, st')) : fields.nID ≤ maxInt := by
  simp only [readAlert, reader_bind_eq_ok] at h
  obtain ⟨_, _, -, _, _, -, _, _, -, nID, _, hnID, _, _, -, _, _, -, _, _, -, _, _, -, _, _, -, _, _, -,
    _, _, -, _, _, -, _, _, -, hfields⟩ := h
  obtain ⟨rfl, -⟩ := Prod.mk.inj (Except.ok.inj hfields)
  exact readInt_le hnID

/-- An admitted alert is in effect, and is predefined if it has the reserved number. -/
structure Admitted (event : AlertEvent) (alert : CAlert) : Prop where
  inEffect : event.nAdjustedTime < alert.nExpiration
  nID_le : alert.nID ≤ maxInt
  predefined : alert.nID = maxInt → alert.isPredefined

theorem admitted_of_eq_some (h : admittedAlert keys event = some alert) : Admitted event alert := by
  obtain ⟨hread, hchecks⟩ := Option.filter_eq_some_iff.mp h
  rw [Bool.and_eq_true, Bool.or_eq_true, CAlert.isInEffect, decide_eq_true_iff, bne_iff_ne] at hchecks
  refine ⟨hchecks.1, ?_, fun hreserved ↦ hchecks.2.resolve_left (not_not.mpr hreserved)⟩
  unfold checkSignature at hread
  split at hread
  · split at hread
    · cases hread
    · next hfields =>
      obtain rfl := Option.some.inj hread
      exact nID_le_of_readAlert hfields
  · cases hread

theorem isPredefined_fields (h : alert.isPredefined) :
    alert.nExpiration = maxInt ∧ alert.nCancel = maxInt - 1 := by
  simp only [CAlert.isPredefined, Bool.and_eq_true, decide_eq_true_iff] at h
  obtain ⟨⟨⟨⟨⟨⟨hexpiration, hcancel⟩, -⟩, -⟩, -⟩, -⟩, -⟩ := h
  exact ⟨hexpiration, hcancel⟩

theorem cancels_iff {nAdjustedTime : ℤ} {other : CAlert} : alert.cancels nAdjustedTime other ↔
    nAdjustedTime < alert.nExpiration ∧ (other.nID ≤ alert.nCancel ∨ other.nID ∈ alert.setCancel) := by
  simp only [CAlert.cancels, CAlert.isInEffect, Bool.and_eq_true, Bool.or_eq_true, decide_eq_true_iff]

/-- Every alert of the map meets a condition. -/
def MapAlerts.All (p : CAlert → Prop) (mapAlerts : MapAlerts) : Prop :=
  ∀ entry ∈ mapAlerts.entries, p entry.2

/-- Numbers are in range, and the reserved one is used as it must be. -/
def InRange (alert : CAlert) : Prop := alert.nID ≤ maxInt ∧ (alert.nID = maxInt → alert.isPredefined)

/-- The predefined alert with the reserved number. -/
def IsFinal (alert : CAlert) : Prop := alert.nID = maxInt ∧ alert.isPredefined

/-- The map shows an alert with the reserved number under a hash. -/
def Shown (key : Uint256) (mapAlerts : MapAlerts) : Prop :=
  ∃ alert, mapAlerts.lookup key = some alert ∧ alert.nID = maxInt

namespace MapAlerts

variable {p q : CAlert → Prop} {drop : CAlert → Bool}

theorem mem_entries_eraseIf {entry : Sigma fun _ : Uint256 ↦ CAlert} :
    entry ∈ (mapAlerts.eraseIf drop).entries ↔ entry ∈ mapAlerts.entries ∧ drop entry.2 = false := by
  simp [eraseIf]

/-- What is left of an erasure meets what the erased ones might not. -/
theorem All.eraseIf (h : mapAlerts.All p) (himp : ∀ alert, p alert → drop alert = false → q alert) :
    (mapAlerts.eraseIf drop).All q := by
  intro entry hentry
  obtain ⟨hmem, hkept⟩ := mem_entries_eraseIf.mp hentry
  exact himp entry.2 (h entry hmem) hkept

theorem eraseIf_eq_self (h : mapAlerts.All fun alert ↦ drop alert = false) :
    mapAlerts.eraseIf drop = mapAlerts := by
  apply AList.ext
  apply List.filter_eq_self.mpr
  intro entry hentry
  rw [h entry hentry, Bool.not_false]

theorem eraseIf_eq_empty (h : mapAlerts.All fun alert ↦ drop alert = true) :
    mapAlerts.eraseIf drop = ∅ := by
  apply AList.ext
  apply List.filter_eq_nil_iff.mpr
  intro entry hentry
  rw [h entry hentry, Bool.not_true]
  exact Bool.false_ne_true

theorem All.insertNew (h : mapAlerts.All p) (halert : p alert) : (mapAlerts.insertNew key alert).All p := by
  unfold MapAlerts.insertNew
  split
  · exact h
  · next hnew =>
    intro entry hentry
    rw [AList.entries_insert_of_notMem hnew] at hentry
    rcases List.mem_cons.mp hentry with rfl | hold
    · exact halert
    · exact h entry hold

theorem shown_insertNew_self (h : mapAlerts.All IsFinal) (halert : alert.nID = maxInt) :
    Shown key (mapAlerts.insertNew key alert) := by
  unfold MapAlerts.insertNew
  split
  · next hmem =>
    obtain ⟨old, hold⟩ := Option.isSome_iff_exists.mp (AList.lookup_isSome.mpr hmem)
    exact ⟨old, hold, (h _ (AList.mem_lookup_iff.mp hold)).1⟩
  · exact ⟨alert, AList.lookup_insert _, halert⟩

theorem shown_insertNew {key' : Uint256} (h : Shown key mapAlerts) :
    Shown key (mapAlerts.insertNew key' alert) := by
  unfold MapAlerts.insertNew
  split
  · exact h
  · next hnew =>
    obtain ⟨old, hold, hreserved⟩ := h
    have hne : key ≠ key' := by
      rintro rfl
      exact hnew (AList.lookup_isSome.mp (hold ▸ rfl))
    exact ⟨old, (AList.lookup_insert_ne hne).trans hold, hreserved⟩

end MapAlerts

theorem processAlert_of_none (h : admittedAlert keys event = none) :
    processAlert keys mapAlerts event = (false, mapAlerts) := by
  rw [processAlert, h]

/-- An admitted alert is refused by what is left, or is inserted. -/
theorem processAlert_cases (h : admittedAlert keys event = some alert) :
    ((∃ entry ∈ (cancelPrevious event.nAdjustedTime alert mapAlerts).entries,
        entry.2.cancels event.nAdjustedTime alert) ∧
      processAlert keys mapAlerts event = (false, cancelPrevious event.nAdjustedTime alert mapAlerts)) ∨
    ((cancelPrevious event.nAdjustedTime alert mapAlerts).All
        (fun other ↦ other.cancels event.nAdjustedTime alert = false) ∧
      processAlert keys mapAlerts event = (true,
        (cancelPrevious event.nAdjustedTime alert mapAlerts).insertNew (alert.getHash keys) alert)) := by
  simp only [processAlert, h]
  split
  · next hany => exact .inl ⟨List.any_eq_true.mp hany, rfl⟩
  · next hnone =>
    refine .inr ⟨?_, rfl⟩
    intro entry hentry
    by_contra hcancels
    exact hnone (List.any_eq_true.mpr ⟨entry, hentry, by simpa using hcancels⟩)

theorem all_inRange_processAlert (h : mapAlerts.All InRange) :
    (processAlert keys mapAlerts event).2.All InRange := by
  cases hadmitted : admittedAlert keys event with
  | none =>
    rw [processAlert_of_none hadmitted]
    exact h
  | some alert =>
    have hleft : (cancelPrevious event.nAdjustedTime alert mapAlerts).All InRange :=
      h.eraseIf fun _ hrange _ ↦ hrange
    have halert := admitted_of_eq_some hadmitted
    rcases @processAlert_cases _ mapAlerts _ _ hadmitted with ⟨-, heq⟩ | ⟨-, heq⟩
    · rw [heq]
      exact hleft
    · rw [heq]
      exact hleft.insertNew ⟨halert.nID_le, halert.predefined⟩

theorem all_inRange_mapAlertsAfter (keys : AlertKeys) (events : List AlertEvent) :
    (mapAlertsAfter keys events).All InRange := by
  induction events using List.reverseRecOn with
  | nil =>
    intro entry hentry
    cases hentry
  | append_singleton events event ih =>
    rw [mapAlertsAfter, List.foldl_append]
    exact all_inRange_processAlert ih

/-- Only final alerts are left, and one of them is under the hash. -/
structure Final (key : Uint256) (mapAlerts : MapAlerts) : Prop where
  shown : Shown key mapAlerts
  all : mapAlerts.All IsFinal

/-- An accepted alert with the reserved number has cancelled all other numbers. -/
theorem final_of_accepted (h : mapAlerts.All InRange) (hadmitted : admittedAlert keys event = some alert)
    (hreserved : alert.nID = maxInt) (haccepted : (processAlert keys mapAlerts event).1 = true) :
    Final (alert.getHash keys) (processAlert keys mapAlerts event).2 := by
  have halert := admitted_of_eq_some hadmitted
  have hpredefined := halert.predefined hreserved
  obtain ⟨-, hcancel⟩ := isPredefined_fields hpredefined
  have hleft : (cancelPrevious event.nAdjustedTime alert mapAlerts).All IsFinal := by
    refine h.eraseIf fun other hother hkept ↦ ?_
    have hnID : ¬ other.nID ≤ maxInt - 1 := by
      intro hle
      rw [Bool.or_eq_false_iff] at hkept
      have hcancels : alert.cancels event.nAdjustedTime other :=
        cancels_iff.mpr ⟨halert.inEffect, .inl (hcancel ▸ hle)⟩
      exact absurd (hcancels.symm.trans hkept.1) (by decide)
    have heq : other.nID = maxInt := by
      have hle := hother.1
      omega
    exact ⟨heq, hother.2 heq⟩
  rcases @processAlert_cases _ mapAlerts _ _ hadmitted with ⟨-, heq⟩ | ⟨-, heq⟩
  · rw [heq] at haccepted
    cases haccepted
  · rw [heq]
    exact ⟨MapAlerts.shown_insertNew_self hleft hreserved, hleft.insertNew ⟨hreserved, hpredefined⟩⟩

/-- An admitted alert cancels the reserved number and is not the one under the hash again. -/
def Overrides (keys : AlertKeys) (key : Uint256) (event : AlertEvent) : Prop :=
  ∃ alert, admittedAlert keys event = some alert ∧
    (maxInt ≤ alert.nCancel ∨ maxInt ∈ alert.setCancel) ∧
    ¬ (alert.nID = maxInt ∧ alert.getHash keys = key)

theorem isFinal_cancels (h : IsFinal alert) {nAdjustedTime : ℤ} (htime : nAdjustedTime < maxInt)
    {other : CAlert} (hlt : other.nID < maxInt) : alert.cancels nAdjustedTime other := by
  obtain ⟨hexpiration, hcancel⟩ := isPredefined_fields h.2
  exact cancels_iff.mpr ⟨hexpiration ▸ htime, .inl (by omega)⟩

/-- An alert that does not cancel the reserved number leaves final alerts. -/
theorem cancelPrevious_eq_self (h : mapAlerts.All IsFinal) (htime : event.nAdjustedTime < maxInt)
    (hcancel : ¬ (maxInt ≤ alert.nCancel ∨ maxInt ∈ alert.setCancel)) :
    cancelPrevious event.nAdjustedTime alert mapAlerts = mapAlerts := by
  apply MapAlerts.eraseIf_eq_self
  intro entry hentry
  obtain ⟨hreserved, hpredefined⟩ := h entry hentry
  have hcancels : ¬ alert.cancels event.nAdjustedTime entry.2 := by
    rw [cancels_iff, hreserved]
    exact fun hboth ↦ hcancel hboth.2
  have hinEffect : entry.2.isInEffect event.nAdjustedTime = true := by
    rw [CAlert.isInEffect, decide_eq_true_iff, (isPredefined_fields hpredefined).1]
    exact htime
  rw [Bool.eq_false_iff.mpr hcancels, hinEffect]
  rfl

/-- An admitted alert that cancels the reserved number erases final alerts and is inserted. -/
theorem processAlert_of_cancels (h : mapAlerts.All IsFinal)
    (hadmitted : admittedAlert keys event = some alert)
    (hcancel : maxInt ≤ alert.nCancel ∨ maxInt ∈ alert.setCancel) :
    processAlert keys mapAlerts event = (true, (∅ : MapAlerts).insert (alert.getHash keys) alert) := by
  have hempty : cancelPrevious event.nAdjustedTime alert mapAlerts = ∅ := by
    apply MapAlerts.eraseIf_eq_empty
    intro entry hentry
    have hcancels : alert.cancels event.nAdjustedTime entry.2 := by
      rw [cancels_iff, (h entry hentry).1]
      exact ⟨(admitted_of_eq_some hadmitted).inEffect, hcancel⟩
    rw [hcancels, Bool.true_or]
  rcases @processAlert_cases _ mapAlerts _ _ hadmitted with ⟨⟨entry, hentry, -⟩, -⟩ | ⟨-, heq⟩
  · rw [hempty] at hentry
    cases hentry
  · rw [heq, hempty]
    rfl

/-- An alert that does not override keeps the final alert, and is accepted only with its number. -/
theorem Final.processAlert (h : Final key mapAlerts) (htime : event.nAdjustedTime < maxInt)
    (hkeep : ¬ Overrides keys key event) :
    Final key (processAlert keys mapAlerts event).2 ∧
      ∀ alert, admittedAlert keys event = some alert → (processAlert keys mapAlerts event).1 = true →
        maxInt ≤ alert.nID := by
  cases hadmitted : admittedAlert keys event with
  | none =>
    rw [processAlert_of_none hadmitted]
    exact ⟨h, fun _ hsome ↦ absurd hsome (Option.some_ne_none _).symm⟩
  | some alert =>
    have halert := admitted_of_eq_some hadmitted
    by_cases hcancel : maxInt ≤ alert.nCancel ∨ maxInt ∈ alert.setCancel
    · have hsame : alert.nID = maxInt ∧ alert.getHash keys = key := by
        by_contra hother
        exact hkeep ⟨alert, hadmitted, hcancel, hother⟩
      obtain ⟨hreserved, rfl⟩ := hsame
      rw [processAlert_of_cancels h.all hadmitted hcancel]
      refine ⟨⟨⟨alert, AList.lookup_insert _, hreserved⟩, ?_⟩, ?_⟩
      · intro entry hentry
        obtain rfl := List.mem_singleton.mp hentry
        exact ⟨hreserved, halert.predefined hreserved⟩
      · rintro other hother -
        obtain rfl := Option.some.inj hother
        exact hreserved.ge
    · have hself := cancelPrevious_eq_self h.all htime hcancel
      rcases @processAlert_cases _ mapAlerts _ _ hadmitted with ⟨-, heq⟩ | ⟨hnone, heq⟩
      · rw [heq, hself]
        exact ⟨h, fun _ _ haccepted ↦ absurd haccepted Bool.false_ne_true⟩
      · rw [hself] at heq hnone
        obtain ⟨final, hlookup, -⟩ := h.shown
        have hentry := AList.mem_lookup_iff.mp hlookup
        have hge : maxInt ≤ alert.nID := by
          by_contra hlt
          have hcancels := isFinal_cancels (h.all _ hentry) htime (not_le.mp hlt)
          exact absurd (hcancels.symm.trans (hnone _ hentry)) (by decide)
        have hreserved : alert.nID = maxInt := le_antisymm halert.nID_le hge
        rw [heq]
        refine ⟨⟨MapAlerts.shown_insertNew h.shown, ?_⟩, ?_⟩
        · exact h.all.insertNew ⟨hreserved, halert.predefined hreserved⟩
        · rintro other hother -
          obtain rfl := Option.some.inj hother
          exact hge

/-- An overriding alert leaves the final alert out. -/
theorem Final.not_shown (h : Final key mapAlerts) (hoverrides : Overrides keys key event) :
    ¬ Shown key (Net.processAlert keys mapAlerts event).2 := by
  obtain ⟨alert, hadmitted, hcancel, hother⟩ := hoverrides
  rw [processAlert_of_cancels h.all hadmitted hcancel]
  rintro ⟨shown, hlookup, hreserved⟩
  obtain heq := List.mem_singleton.mp (AList.mem_lookup_iff.mp hlookup)
  obtain ⟨rfl, hsame⟩ := Sigma.mk.inj heq
  obtain rfl := eq_of_heq hsame
  exact hother ⟨hreserved, rfl⟩

/-- The alert under the hash is shown throughout, and nothing with a smaller number is accepted. -/
def StandsThrough (keys : AlertKeys) (key : Uint256) : MapAlerts → List AlertEvent → Prop
  | mapAlerts, [] => Shown key mapAlerts
  | mapAlerts, event :: events =>
      Shown key mapAlerts ∧
        (∀ alert, admittedAlert keys event = some alert → (processAlert keys mapAlerts event).1 = true →
          maxInt ≤ alert.nID) ∧
        StandsThrough keys key (processAlert keys mapAlerts event).2 events

theorem StandsThrough.shown {events : List AlertEvent} (h : StandsThrough keys key mapAlerts events) :
    Shown key mapAlerts := by
  cases events with
  | nil => exact h
  | cons event events => exact h.1

theorem Final.standsThrough_iff {events : List AlertEvent} (h : Final key mapAlerts)
    (htime : ∀ event ∈ events, event.nAdjustedTime < maxInt) :
    StandsThrough keys key mapAlerts events ↔ ∀ event ∈ events, ¬ Overrides keys key event := by
  induction events generalizing mapAlerts with
  | nil => exact ⟨fun _ _ hmem ↦ absurd hmem List.not_mem_nil, fun _ ↦ h.shown⟩
  | cons event events ih =>
    obtain ⟨hnow, hlater⟩ := List.forall_mem_cons.mp htime
    rw [List.forall_mem_cons]
    constructor
    · rintro ⟨-, -, hrest⟩
      have hkeep : ¬ Overrides keys key event := fun hoverrides ↦ h.not_shown hoverrides hrest.shown
      exact ⟨hkeep, (ih (h.processAlert hnow hkeep).1 hlater).mp hrest⟩
    · rintro ⟨hkeep, hrest⟩
      obtain ⟨hfinal, haccepted⟩ := h.processAlert hnow hkeep
      exact ⟨h.shown, haccepted, (ih hfinal hlater).mpr hrest⟩

/-- Once an alert with the reserved number is accepted, it stands just when no later alert overrides
it. -/
theorem standsThrough_iff_of_accepted (keys : AlertKeys) {earlier later : List AlertEvent}
    {event : AlertEvent} {alert : CAlert} (hadmitted : admittedAlert keys event = some alert)
    (hreserved : alert.nID = maxInt)
    (haccepted : (processAlert keys (mapAlertsAfter keys earlier) event).1 = true)
    (htime : ∀ event ∈ later, event.nAdjustedTime < maxInt) :
    StandsThrough keys (alert.getHash keys) (mapAlertsAfter keys (earlier ++ [event])) later ↔
      ∀ event ∈ later, ¬ Overrides keys (alert.getHash keys) event := by
  have hfinal := final_of_accepted (all_inRange_mapAlertsAfter keys earlier) hadmitted hreserved haccepted
  have hafter : mapAlertsAfter keys (earlier ++ [event]) =
      (processAlert keys (mapAlertsAfter keys earlier) event).2 := by
    rw [mapAlertsAfter, List.foldl_append]
    rfl
  rw [hafter]
  exact hfinal.standsThrough_iff htime

namespace AlertExample

/-- The front of a message is its hash, and all signatures fit. -/
def testKeys : AlertKeys := ⟨fun vchMsg ↦ BitVec.ofNat 256 (ofLeBytes (vchMsg.take 32)), fun _ _ ↦ true⟩

def eventOf (alert : CUnsignedAlert) : AlertEvent := ⟨1500000000, writeAlert alert, []⟩

/-- The alert about the compromised key. -/
def compromised : CUnsignedAlert where
  nVersion := 1
  nRelayUntil := maxInt
  nExpiration := maxInt
  nID := maxInt
  nCancel := maxInt - 1
  setCancel := []
  nMinVer := 0
  nMaxVer := maxInt
  setSubVer := []
  nPriority := maxInt
  strComment := []
  strStatusBar := CAlert.strCompromised
  strReserved := []

/-- An ordinary alert that cancels the numbers up to the given one. -/
def ordinary (nCancel : ℤ) : CUnsignedAlert :=
  { compromised with nID := 1, nCancel, nPriority := 1, strStatusBar := [] }

end AlertExample

open AlertExample in
theorem standsThrough_example :
    StandsThrough testKeys (testKeys.hash (writeAlert compromised)) (mapAlertsAfter testKeys ([] ++ [eventOf compromised]))
        [eventOf (ordinary 0)] ↔
      ∀ event ∈ [eventOf (ordinary 0)], ¬ Overrides testKeys (testKeys.hash (writeAlert compromised)) event := by
  have hadmitted : admittedAlert testKeys (eventOf compromised) =
      some ⟨compromised, writeAlert compromised, []⟩ := by decide
  exact standsThrough_iff_of_accepted testKeys hadmitted rfl (by decide) (by decide)

open AlertExample in
/-- The alert with the reserved number is accepted, erased by an ordinary one, and that one is
accepted. -/
theorem not_standsThrough_ordinary :
    (processAlert testKeys ∅ (eventOf compromised)).1 = true ∧
      ¬ StandsThrough testKeys (testKeys.hash (writeAlert compromised)) (mapAlertsAfter testKeys [eventOf compromised])
        [eventOf (ordinary maxInt)] := by
  refine ⟨by decide, ?_⟩
  rintro ⟨-, hrefuses, -⟩
  have hge := hrefuses ⟨ordinary maxInt, writeAlert (ordinary maxInt), []⟩ (by decide)
    (by decide)
  exact absurd hge (by decide)

end

variable {keys : AlertKeys} {key : Uint256} {mapAlerts : MapAlerts} {event : AlertEvent} {alert other : CAlert}
  {nAdjustedTime : ℤ}

/-- The other alert is among those that an alert cancels while it is in effect. -/
def CAlert.Names (alert other : CAlert) : Prop := other.nID ≤ alert.nCancel ∨ other.nID ∈ alert.setCancel

theorem cancels_iff_names (h : alert.isInEffect nAdjustedTime) :
    alert.cancels nAdjustedTime other ↔ alert.Names other := by
  rw [cancels_iff]
  exact and_iff_right (of_decide_eq_true h)

theorem names_of_cancels (h : alert.cancels nAdjustedTime other) : alert.Names other := (cancels_iff.mp h).2

/-- No alert of the map names another one. -/
def Compatible (mapAlerts : MapAlerts) : Prop :=
  ∀ entry ∈ mapAlerts.entries, ∀ entry' ∈ mapAlerts.entries, entry.1 ≠ entry'.1 → ¬entry.2.Names entry'.2

theorem Compatible.eraseIf (h : Compatible mapAlerts) (drop : CAlert → Bool) :
    Compatible (mapAlerts.eraseIf drop) := by
  intro entry hentry entry' hentry'
  exact h entry (MapAlerts.mem_entries_eraseIf.mp hentry).1 entry' (MapAlerts.mem_entries_eraseIf.mp hentry').1

theorem Compatible.insertNew (h : Compatible mapAlerts)
    (hnew : ∀ entry ∈ mapAlerts.entries, ¬alert.Names entry.2 ∧ ¬entry.2.Names alert) :
    Compatible (mapAlerts.insertNew key alert) := by
  unfold MapAlerts.insertNew
  split
  · exact h
  · next hkey =>
    intro entry hentry entry' hentry' hne
    rw [AList.entries_insert_of_notMem hkey] at hentry hentry'
    rcases List.mem_cons.mp hentry with rfl | hold
    · rcases List.mem_cons.mp hentry' with rfl | hold'
      · exact absurd rfl hne
      · exact (hnew entry' hold').1
    · rcases List.mem_cons.mp hentry' with rfl | hold'
      · exact (hnew entry hold).2
      · exact h entry hold entry' hold' hne

theorem mem_cancelPrevious {entry : Sigma fun _ : Uint256 ↦ CAlert} :
    entry ∈ (cancelPrevious nAdjustedTime alert mapAlerts).entries ↔
      entry ∈ mapAlerts.entries ∧ alert.cancels nAdjustedTime entry.2 = false ∧
        entry.2.isInEffect nAdjustedTime = true := by
  rw [cancelPrevious, MapAlerts.mem_entries_eraseIf, Bool.or_eq_false_iff, Bool.not_eq_false']

theorem Compatible.processAlert (h : Compatible mapAlerts) : Compatible (processAlert keys mapAlerts event).2 := by
  cases hadmitted : admittedAlert keys event with
  | none =>
    rw [processAlert_of_none hadmitted]
    exact h
  | some alert =>
    have heffect : alert.isInEffect event.nAdjustedTime = true :=
      decide_eq_true (admitted_of_eq_some hadmitted).inEffect
    cases @processAlert_cases keys mapAlerts event alert hadmitted with
    | inl hrefused =>
      rw [hrefused.2]
      exact h.eraseIf _
    | inr haccepted =>
      rw [haccepted.2]
      refine (h.eraseIf _).insertNew fun entry hentry ↦ ⟨fun hnames ↦ ?_, fun hnames ↦ ?_⟩
      · have hcancels := (cancels_iff_names heffect).mpr hnames
        rw [(mem_cancelPrevious.mp hentry).2.1] at hcancels
        cases hcancels
      · have hcancels := (cancels_iff_names (mem_cancelPrevious.mp hentry).2.2).mpr hnames
        rw [haccepted.1 entry hentry] at hcancels
        cases hcancels

theorem compatible_mapAlertsAfter (keys : AlertKeys) (events : List AlertEvent) :
    Compatible (mapAlertsAfter keys events) := by
  induction events using List.reverseRecOn with
  | nil => exact fun entry hentry ↦ absurd hentry List.not_mem_nil
  | append_singleton events event ih =>
    rw [mapAlertsAfter, List.foldl_concat]
    exact ih.processAlert

/-- The alert of the map under a hash is in effect. -/
def InEffect (nAdjustedTime : ℤ) (mapAlerts : MapAlerts) (key : Uint256) (alert : CAlert) : Prop :=
  ⟨key, alert⟩ ∈ mapAlerts.entries ∧ alert.isInEffect nAdjustedTime = true

/-- An admitted alert that is cancelled by one which it does not cancel cancels none itself. -/
def RefusedQuietly (keys : AlertKeys) (mapAlerts : MapAlerts) (event : AlertEvent) : Prop :=
  ∀ alert, admittedAlert keys event = some alert →
    (∃ key previous, InEffect event.nAdjustedTime mapAlerts key previous ∧ ¬alert.Names previous ∧
      previous.Names alert) →
    ∀ key previous, InEffect event.nAdjustedTime mapAlerts key previous → ¬alert.Names previous

theorem inEffect_cancelPrevious (h : alert.isInEffect nAdjustedTime = true) :
    InEffect nAdjustedTime (cancelPrevious nAdjustedTime alert mapAlerts) key other ↔
      InEffect nAdjustedTime mapAlerts key other ∧ ¬alert.Names other := by
  rw [InEffect, mem_cancelPrevious, InEffect, ← cancels_iff_names h, Bool.not_eq_true]
  tauto

theorem same_of_refused_iff (keys : AlertKeys) (mapAlerts : MapAlerts) (event : AlertEvent) :
    ((processAlert keys mapAlerts event).1 = false →
      ∀ key alert, InEffect event.nAdjustedTime (processAlert keys mapAlerts event).2 key alert ↔
        InEffect event.nAdjustedTime mapAlerts key alert) ↔ RefusedQuietly keys mapAlerts event := by
  cases hadmitted : admittedAlert keys event with
  | none =>
    rw [processAlert_of_none hadmitted]
    refine iff_of_true (fun _ key alert ↦ Iff.rfl) fun alert hsome ↦ ?_
    rw [hadmitted] at hsome
    cases hsome
  | some alert =>
    have heffect : alert.isInEffect event.nAdjustedTime = true :=
      decide_eq_true (admitted_of_eq_some hadmitted).inEffect
    have hquiet : RefusedQuietly keys mapAlerts event ↔
        ((∃ key previous, InEffect event.nAdjustedTime mapAlerts key previous ∧ ¬alert.Names previous ∧
          previous.Names alert) →
        ∀ key previous, InEffect event.nAdjustedTime mapAlerts key previous → ¬alert.Names previous) := by
      rw [RefusedQuietly, hadmitted]
      simp only [Option.some.injEq, forall_eq']
    rw [hquiet]
    cases @processAlert_cases keys mapAlerts event alert hadmitted with
    | inl hrefused =>
      obtain ⟨⟨entry, hentry, hcancels⟩, hresult⟩ := hrefused
      have hleft : ∃ key previous, InEffect event.nAdjustedTime mapAlerts key previous ∧
          ¬alert.Names previous ∧ previous.Names alert := by
        have heither : InEffect event.nAdjustedTime mapAlerts entry.1 entry.2 ∧ ¬alert.Names entry.2 :=
          (inEffect_cancelPrevious heffect).mp ⟨hentry, (mem_cancelPrevious.mp hentry).2.2⟩
        exact ⟨entry.1, entry.2, heither.1, heither.2, names_of_cancels hcancels⟩
      rw [hresult]
      simp only [forall_const, inEffect_cancelPrevious heffect, and_iff_left_iff_imp]
      exact ⟨fun h _ ↦ h, fun h ↦ h hleft⟩
    | inr haccepted =>
      rw [haccepted.2]
      refine iff_of_true (fun hfalse ↦ ?_) fun hleft ↦ ?_
      · cases hfalse
      · obtain ⟨key, previous, heffect', hnot, hnames⟩ := hleft
        have hmem := mem_cancelPrevious.mpr ⟨heffect'.1,
          Bool.eq_false_iff.mpr fun hcancels ↦ hnot (names_of_cancels hcancels), heffect'.2⟩
        have hcancels := (cancels_iff_names heffect'.2).mpr hnames
        rw [haccepted.1 _ hmem] at hcancels
        cases hcancels

/-- A refused alert has no effect just if it names none of the alerts in effect, and no two alerts in
effect cancel one another. -/
theorem refused_and_compatible_iff (keys : AlertKeys) (events : List AlertEvent) (event : AlertEvent) :
    (((processAlert keys (mapAlertsAfter keys events) event).1 = false →
        ∀ key alert,
          InEffect event.nAdjustedTime (processAlert keys (mapAlertsAfter keys events) event).2 key alert ↔
            InEffect event.nAdjustedTime (mapAlertsAfter keys events) key alert) ↔
      RefusedQuietly keys (mapAlertsAfter keys events) event) ∧
    ∀ nAdjustedTime key key' alert alert', key ≠ key' →
      InEffect nAdjustedTime (mapAlertsAfter keys events) key alert →
        InEffect nAdjustedTime (mapAlertsAfter keys events) key' alert' →
          alert.cancels nAdjustedTime alert' = false := by
  refine ⟨same_of_refused_iff keys _ event, fun nAdjustedTime key key' alert alert' hne h h' ↦ ?_⟩
  exact Bool.eq_false_iff.mpr fun hcancels ↦
    compatible_mapAlertsAfter keys events _ h.1 _ h'.1 hne (names_of_cancels hcancels)

open AlertExample in
/-- The third alert erases the first one, and the second one cancels it. -/
theorem not_same_of_refused :
    ¬∀ (keys : AlertKeys) (events : List AlertEvent) (event : AlertEvent),
      (processAlert keys (mapAlertsAfter keys events) event).1 = false →
        ∀ key alert,
          InEffect event.nAdjustedTime (processAlert keys (mapAlertsAfter keys events) event).2 key alert ↔
            InEffect event.nAdjustedTime (mapAlertsAfter keys events) key alert := by
  intro hall
  let numbered (nID : ℤ) (setCancel : List ℤ) : CUnsignedAlert := { ordinary 0 with nID, setCancel }
  let events := [eventOf (numbered 1 []), eventOf (numbered 2 [3])]
  let event := eventOf (numbered 3 [1])
  let first : CAlert := ⟨numbered 1 [], writeAlert (numbered 1 []), []⟩
  have hrun : (processAlert testKeys (mapAlertsAfter testKeys events) event).1 = false ∧
      (mapAlertsAfter testKeys events).lookup (first.getHash testKeys) = some first ∧
      first.isInEffect event.nAdjustedTime = true ∧
      (processAlert testKeys (mapAlertsAfter testKeys events) event).2.lookup (first.getHash testKeys) = none := by
    decide
  have hbefore : InEffect event.nAdjustedTime (mapAlertsAfter testKeys events) (first.getHash testKeys) first :=
    ⟨AList.mem_lookup_iff.mp hrun.2.1, hrun.2.2.1⟩
  have hafter := ((hall testKeys events event hrun.1 _ _).mpr hbefore).1
  rw [← AList.mem_lookup_iff, hrun.2.2.2] at hafter
  cases hafter

end Electra.Net
