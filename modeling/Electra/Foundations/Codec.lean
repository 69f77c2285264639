import Mathlib.Data.List.Basic
import Mathlib.Tactic.Ring

/-!
# Writers and readers

A reader takes items off a source that holds unread data.  It reads a value back from data if it
returns the value whatever follows the data (`ReadsBack`), and refuses the data if it ends with an error
(`Refuses`); it is faithful if what it takes off is the
data of the value it returns (`Faithful`), provided that the source is still in canonical form.  Both
are closed under sequencing and loops.
-/

namespace Electra.Foundations.Codec

universe u

variable {S α α' : Type u} {ε : Type u} {β : Type*}

def leBytes : ℕ → ℕ → List UInt8
  | 0, _ => []
  | w + 1, n => UInt8.ofNat n :: leBytes w (n / 256)

def ofLeBytes : List UInt8 → ℕ
  | [] => 0
  | b :: bytes => b.toNat + 256 * ofLeBytes bytes

@[simp]
theorem length_leBytes (w n : ℕ) : (leBytes w n).length = w := by
  induction w generalizing n with
  | zero => rfl
  | succ w ih => rw [leBytes, List.length_cons, ih]

theorem ofLeBytes_lt (bytes : List UInt8) : ofLeBytes bytes < 256 ^ bytes.length := by
  induction bytes with
  | nil => exact Nat.one_pos
  | cons b bytes ih =>
    have hb := b.toNat_lt
    rw [ofLeBytes, List.length_cons, pow_succ]
    omega

theorem ofLeBytes_leBytes {w n : ℕ} (hn : n < 256 ^ w) : ofLeBytes (leBytes w n) = n := by
  induction w generalizing n with
  | zero =>
    rw [pow_zero, Nat.lt_one_iff] at hn
    rw [hn]
    rfl
  | succ w ih =>
    have hdiv : n / 256 < 256 ^ w := by
      rw [pow_succ] at hn
      exact Nat.div_lt_of_lt_mul (by rwa [Nat.mul_comm] at hn)
    rw [leBytes, ofLeBytes, ih hdiv, UInt8.toNat_ofNat']
    exact Nat.mod_add_div n 256

theorem leBytes_ofLeBytes (bytes : List UInt8) : leBytes bytes.length (ofLeBytes bytes) = bytes := by
  induction bytes with
  | nil => rfl
  | cons b bytes ih =>
    have hb := b.toNat_lt
    have hdiv : (b.toNat + 256 * ofLeBytes bytes) / 256 = ofLeBytes bytes := by omega
    have hhead : UInt8.ofNat (b.toNat + 256 * ofLeBytes bytes) = b := by
      apply UInt8.toNat_inj.mp
      rw [UInt8.toNat_ofNat']
      omega
    rw [List.length_cons, ofLeBytes, leBytes, hdiv, hhead, ih]

theorem ofLeBytes_append (bytes bytes' : List UInt8) :
    ofLeBytes (bytes ++ bytes') = ofLeBytes bytes + 256 ^ bytes.length * ofLeBytes bytes' := by
  induction bytes with
  | nil => simp [ofLeBytes]
  | cons b bytes ih =>
    rw [List.cons_append, ofLeBytes, ofLeBytes, ih, List.length_cons, pow_succ]
    ring

theorem leBytes_add (m k n : ℕ) : leBytes (m + k) n = leBytes m n ++ leBytes k (n / 256 ^ m) := by
  induction m generalizing n with
  | zero => simp [leBytes]
  | succ m ih =>
    rw [Nat.succ_add, leBytes, leBytes, ih, List.cons_append, Nat.div_div_eq_div_mul, pow_succ']

theorem ofLeBytes_leBytes_mod (w n : ℕ) : ofLeBytes (leBytes w n) = n % 256 ^ w := by
  induction w generalizing n with
  | zero => simp [leBytes, ofLeBytes, Nat.mod_one]
  | succ w ih =>
    have hsplit : n % 256 ^ (w + 1) = n % 256 + 256 * (n / 256 % 256 ^ w) := by
      rw [pow_succ', Nat.mod_mul]
    rw [leBytes, ofLeBytes, ih, UInt8.toNat_ofNat', hsplit]

theorem leBytes_mod (w n : ℕ) : leBytes w (n % 256 ^ w) = leBytes w n := by
  have hback := leBytes_ofLeBytes (leBytes w n)
  rwa [length_leBytes, ofLeBytes_leBytes_mod] at hback

section ReadsBack

variable (unread : S → List β)

/-- The value comes back from the data, and what follows is left. -/
def ReadsBack (read : StateT S (Except ε) α) (data : List β) (a : α) : Prop :=
  ∀ s rest, unread s = data ++ rest → ∃ s', read.run s = .ok (a, s') ∧ unread s' = rest

variable {unread} {read : StateT S (Except ε) α} {data data' : List β} {a : α} {b : α'}

theorem ReadsBack.pure : ReadsBack unread (pure a : StateT S (Except ε) α) [] a :=
  fun s _ hs ↦ ⟨s, rfl, hs⟩

variable {f : α → StateT S (Except ε) α'}

theorem ReadsBack.bind (h : ReadsBack unread read data a) (hf : ReadsBack unread (f a) data' b) :
    ReadsBack unread (read >>= f) (data ++ data') b := by
  intro s rest hs
  rw [List.append_assoc] at hs
  obtain ⟨s₁, hrun, hs₁⟩ := h s _ hs
  obtain ⟨s₂, hrun₂, hs₂⟩ := hf s₁ rest hs₁
  refine ⟨s₂, ?_, hs₂⟩
  rw [StateT.run_bind, hrun]
  exact hrun₂

theorem ReadsBack.bind_pure {f : α → α'} (h : ReadsBack unread read data a) :
    ReadsBack unread (read >>= fun x ↦ Pure.pure (f x)) data (f a) := by
  have hboth : ReadsBack unread (read >>= fun x ↦ Pure.pure (f x)) (data ++ []) (f a) := h.bind .pure
  rwa [List.append_nil] at hboth

/-- One value at most comes back from the same data. -/
theorem ReadsBack.unique {a' : α} (h : ReadsBack unread read data a) (h' : ReadsBack unread read data a')
    {s : S} (hs : unread s = data) : a = a' := by
  rw [← List.append_nil data] at hs
  obtain ⟨s₁, hrun, -⟩ := h s [] hs
  obtain ⟨s₂, hrun', -⟩ := h' s [] hs
  rw [hrun] at hrun'
  exact congrArg Prod.fst (Except.ok.inj hrun')

variable (unread) in
/-- The reader ends with an error, whatever follows the data. -/
def Refuses (read : StateT S (Except ε) α) (data : List β) (e : ε) : Prop :=
  ∀ s rest, unread s = data ++ rest → read.run s = .error e

variable {e : ε}

theorem Refuses.bind (h : Refuses unread read data e) :
    Refuses unread (read >>= f) (data ++ data') e := by
  intro s rest hs
  rw [List.append_assoc] at hs
  rw [StateT.run_bind, h s _ hs]
  rfl

theorem ReadsBack.bind_refuses (h : ReadsBack unread read data a) (hf : Refuses unread (f a) data' e) :
    Refuses unread (read >>= f) (data ++ data') e := by
  intro s rest hs
  rw [List.append_assoc] at hs
  obtain ⟨s₁, hrun, hs₁⟩ := h s _ hs
  rw [StateT.run_bind, hrun]
  exact hf s₁ rest hs₁

theorem Refuses.not_readsBack (h : Refuses unread read data e) {s : S} (hs : unread s = data) :
    ¬ ReadsBack unread read data a := by
  intro hback
  rw [← List.append_nil data] at hs
  obtain ⟨s', hrun, -⟩ := hback s [] hs
  rw [h s [] hs] at hrun
  cases hrun

end ReadsBack

section Faithful

variable (unread : S → List β) (canonical : S → Prop)

/-- Whatever the reader takes off is the data of the value it returns. -/
def Faithful (read : StateT S (Except ε) α) (IsData : α → List β → Prop) : Prop :=
  ∀ s a s', read.run s = .ok (a, s') → canonical s' →
    canonical s ∧ ∃ data, unread s = data ++ unread s' ∧ IsData a data

variable {unread canonical} {read : StateT S (Except ε) α} {IsData : α → List β → Prop}

theorem Faithful.imp {IsData' : α → List β → Prop} (h : Faithful unread canonical read IsData)
    (himp : ∀ a data, IsData a data → IsData' a data) : Faithful unread canonical read IsData' := by
  intro s a s' hrun hcanonical
  obtain ⟨hs, data, hdata, ha⟩ := h s a s' hrun hcanonical
  exact ⟨hs, data, hdata, himp a data ha⟩

theorem Faithful.pure {a : α} : Faithful unread canonical (pure a : StateT S (Except ε) α)
    fun b data ↦ b = a ∧ data = [] := by
  intro s b s' hrun hcanonical
  cases hrun
  exact ⟨hcanonical, [], rfl, rfl, rfl⟩

theorem Faithful.bind_pure {f : α → α'} (h : Faithful unread canonical read IsData) :
    Faithful unread canonical (read >>= fun x ↦ Pure.pure (f x)) fun b data ↦
      ∃ a, b = f a ∧ IsData a data := by
  intro s b s' hrun hcanonical
  rw [StateT.run_bind] at hrun
  cases hfirst : read.run s with
  | error e =>
    rw [hfirst] at hrun
    cases hrun
  | ok p =>
    rw [hfirst] at hrun
    cases hrun
    obtain ⟨hs, data, hdata, ha⟩ := h s p.1 p.2 hfirst hcanonical
    exact ⟨hs, data, hdata, p.1, rfl, ha⟩

/-- The data of a sequence is that of its parts. -/
theorem Faithful.bind {f : α → StateT S (Except ε) α'} {IsData' : α → α' → List β → Prop}
    (h : Faithful unread canonical read IsData)
    (hf : ∀ a, Faithful unread canonical (f a) (IsData' a)) :
    Faithful unread canonical (read >>= f) fun b data ↦
      ∃ a data₁ data₂, data = data₁ ++ data₂ ∧ IsData a data₁ ∧ IsData' a b data₂ := by
  intro s b s' hrun hcanonical
  rw [StateT.run_bind] at hrun
  cases hfirst : read.run s with
  | error e =>
    rw [hfirst] at hrun
    cases hrun
  | ok p =>
    obtain ⟨a, s₁⟩ := p
    rw [hfirst] at hrun
    obtain ⟨hcanonical₁, data₂, hdata₂, hb⟩ := hf a s₁ b s' hrun hcanonical
    obtain ⟨hcanonical₀, data₁, hdata₁, ha⟩ := h s a s₁ hfirst hcanonical₁
    refine ⟨hcanonical₀, data₁ ++ data₂, ?_, a, data₁, data₂, rfl, ha, hb⟩
    rw [hdata₁, hdata₂, List.append_assoc]

end Faithful

/-- Read a number of items. -/
def readItems (read : StateT S (Except ε) α) : ℕ → StateT S (Except ε) (List α)
  | 0 => pure []
  | n + 1 => do
      let a ← read
      let as ← readItems read n
      return a :: as

/-- Read a number of items in blocks of at most `nBatch` items, as long as some are left. -/
def readBatches (readBlock : ℕ → StateT S (Except ε) (List α)) (nBatch : ℕ) :
    ℕ → ℕ → StateT S (Except ε) (List α)
  | 0, _ => pure []
  | nTurns + 1, nLeft =>
      if nLeft = 0 then pure []
      else do
        let blk := min nLeft nBatch
        let block ← readBlock blk
        let rest ← readBatches readBlock nBatch nTurns (nLeft - blk)
        return block ++ rest

section Loops

variable {unread : S → List β} {canonical : S → Prop} {read : StateT S (Except ε) α}
  {readBlock : ℕ → StateT S (Except ε) (List α)} {write : α → List β} {Valid : α → Prop} {nBatch : ℕ}

theorem readsBack_readItems (h : ∀ a, Valid a → ReadsBack unread read (write a) a) (as : List α)
    (has : ∀ a ∈ as, Valid a) :
    ReadsBack unread (readItems read as.length) (as.flatMap write) as := by
  induction as with
  | nil => exact .pure
  | cons a as ih =>
    have htail := ih fun b hb ↦ has b (List.mem_cons_of_mem a hb)
    have hboth : ReadsBack unread (readItems read (as.length + 1))
        (write a ++ (as.flatMap write ++ [])) (a :: as) :=
      (h a (has a List.mem_cons_self)).bind (htail.bind .pure)
    rw [List.append_nil] at hboth
    rw [List.flatMap_cons]
    exact hboth

/-- Blocks do not change what is read. -/
theorem readsBack_readBatches (hpos : 0 < nBatch)
    (h : ∀ as, (∀ a ∈ as, Valid a) → ReadsBack unread (readBlock as.length) (as.flatMap write) as)
    (nTurns : ℕ) (as : List α) (has : ∀ a ∈ as, Valid a) (hle : as.length ≤ nTurns) :
    ReadsBack unread (readBatches readBlock nBatch nTurns as.length) (as.flatMap write) as := by
  induction nTurns generalizing as with
  | zero =>
    rw [Nat.le_zero, List.length_eq_zero_iff] at hle
    rw [hle]
    exact .pure
  | succ nTurns ih =>
    by_cases hnil : as.length = 0
    · rw [readBatches, if_pos hnil]
      rw [List.length_eq_zero_iff] at hnil
      rw [hnil]
      exact .pure
    · have hblk : (as.take nBatch).length = min as.length nBatch := by
        rw [List.length_take, Nat.min_comm]
      have hrest : (as.drop nBatch).length = as.length - min as.length nBatch := by
        rw [List.length_drop]
        omega
      have hfirst := h (as.take nBatch) fun a ha ↦ has a (List.mem_of_mem_take ha)
      have hlater := ih (as.drop nBatch) (fun a ha ↦ has a (List.mem_of_mem_drop ha)) (by omega)
      rw [hblk] at hfirst
      rw [hrest] at hlater
      have hboth : ReadsBack unread (readBatches readBlock nBatch (nTurns + 1) as.length)
          ((as.take nBatch).flatMap write ++ ((as.drop nBatch).flatMap write ++ []))
          (as.take nBatch ++ as.drop nBatch) := by
        rw [readBatches, if_neg hnil]
        exact hfirst.bind (hlater.bind .pure)
      rw [List.append_nil, ← List.flatMap_append, List.take_append_drop] at hboth
      exact hboth

/-- The data of a list is that of its items. -/
def IsListData (write : α → List β) (Valid : α → Prop) (n : ℕ) (as : List α) (data : List β) : Prop :=
  as.length = n ∧ (∀ a ∈ as, Valid a) ∧ data = as.flatMap write

theorem faithful_readItems
    (h : Faithful unread canonical read fun a data ↦ Valid a ∧ data = write a) (n : ℕ) :
    Faithful unread canonical (readItems read n) (IsListData write Valid n) := by
  induction n with
  | zero =>
    apply Faithful.pure.imp
    rintro as data ⟨rfl, rfl⟩
    exact ⟨rfl, fun a ha ↦ absurd ha List.not_mem_nil, rfl⟩
  | succ n ih =>
    apply (h.bind fun a ↦ ih.bind fun as ↦ Faithful.pure).imp
    rintro _ _ ⟨a, _, _, rfl, ⟨ha, rfl⟩, as, _, _, rfl, ⟨hlength, has, rfl⟩, rfl, rfl⟩
    refine ⟨congrArg (· + 1) hlength, ?_, ?_⟩
    · rintro b (_ | ⟨_, hb⟩)
      · exact ha
      · exact has b hb
    · rw [List.flatMap_cons, List.append_nil]

theorem faithful_readBatches (hpos : 0 < nBatch)
    (h : ∀ n, Faithful unread canonical (readBlock n) (IsListData write Valid n)) (nTurns n : ℕ)
    (hle : n ≤ nTurns) :
    Faithful unread canonical (readBatches readBlock nBatch nTurns n) (IsListData write Valid n) := by
  have hnil : Faithful unread canonical (pure [] : StateT S (Except ε) (List α))
      (IsListData write Valid 0) := by
    apply Faithful.pure.imp
    rintro as data ⟨rfl, rfl⟩
    exact ⟨rfl, fun a ha ↦ absurd ha List.not_mem_nil, rfl⟩
  induction nTurns generalizing n with
  | zero =>
    rw [Nat.le_zero] at hle
    rw [hle]
    exact hnil
  | succ nTurns ih =>
    by_cases hzero : n = 0
    · rw [readBatches, if_pos hzero, hzero]
      exact hnil
    · rw [readBatches, if_neg hzero]
      have hlater := ih (n - min n nBatch) (by omega)
      apply ((h (min n nBatch)).bind fun block ↦ hlater.bind fun rest ↦ Faithful.pure).imp
      rintro _ _ ⟨block, _, _, rfl, ⟨hblock, hvalid, rfl⟩, rest, _, _, rfl,
        ⟨hrest, hvalid', rfl⟩, rfl, rfl⟩
      refine ⟨?_, ?_, ?_⟩
      · rw [List.length_append, hblock, hrest]
        omega
      · intro a ha
        exact (List.mem_append.mp ha).elim (hvalid a) (hvalid' a)
      · rw [List.flatMap_append, List.append_nil]

end Loops

end Electra.Foundations.Codec
