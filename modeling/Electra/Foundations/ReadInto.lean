import Electra.Foundations.Codec

/-!
# Reading into an object

A reader that fills an object which is there leaves a part of the new one in it where it fails.  Such a
reader follows one that makes a new object when both succeed on the same streams, with the same result.
-/

namespace Electra.Foundations.ReadInto

open Codec

variable {S ε α β σ τ : Type}

/-- The object, with the rest of the stream unless the read fails. -/
abbrev Into (S α : Type) := S → Except α (α × S)

/-- What is read at once stays as it is where the read fails. -/
def atOnce (read : StateT S (Except ε) α) (a : α) : Into S α := fun is ↦
  match read.run is with
  | .error _ => .error a
  | .ok p => .ok p

/-- A part of an object is read. -/
def field (set : β → σ) (r : Except β (β × S)) : Except σ (σ × S) :=
  match r with
  | .error b => .error (set b)
  | .ok (b, is) => .ok (set b, is)

/-- A number of fresh objects, each read into in its turn. -/
def itemsInto (fresh : α) (into : Into S α) : ℕ → Into S (List α)
  | 0, is => .ok ([], is)
  | n + 1, is =>
      match into is with
      | .error torn => .error (torn :: List.replicate n fresh)
      | .ok (a, is) => field (a :: ·) (itemsInto fresh into n is)

/-- Blocks are read one behind the other, as long as some objects are left. -/
def batchesInto (blockInto : ℕ → Into S (List α)) (nBatch : ℕ) : ℕ → ℕ → Into S (List α)
  | 0, _, is => .ok ([], is)
  | nTurns + 1, nLeft, is =>
      if nLeft = 0 then .ok ([], is)
      else
        match blockInto (min nLeft nBatch) is with
        | .error torn => .error torn
        | .ok (block, is) =>
            field (block ++ ·) (batchesInto blockInto nBatch nTurns (nLeft - min nLeft nBatch) is)

/-- Both fail, or both have one result. -/
def Follows (r : Except σ (α × S)) (r' : Except ε (α × S)) : Prop := r.toOption = r'.toOption

def FollowsAll (into : Into S α) (read : StateT S (Except ε) α) : Prop :=
  ∀ is, Follows (into is) (read.run is)

theorem Follows.eq_ok {r : Except σ (α × S)} {r' : Except ε (α × S)} (h : Follows r r') {p : α × S}
    (hr' : r' = .ok p) : r = .ok p := by
  subst hr'
  cases r with
  | error torn => cases h
  | ok q => exact congrArg Except.ok (Option.some.inj h)

theorem Follows.eq_error {r : Except σ (α × S)} {r' : Except ε (α × S)} (h : Follows r r') {e : ε}
    (hr' : r' = .error e) : ∃ torn, r = .error torn := by
  subst hr'
  cases r with
  | error torn => exact ⟨torn, rfl⟩
  | ok q => cases h

theorem follows_ok {p : α × S} : Follows (.ok p : Except σ (α × S)) (.ok p : Except ε (α × S)) := rfl

theorem followsAll_atOnce (read : StateT S (Except ε) α) (a : α) : FollowsAll (atOnce read a) read := by
  intro is
  unfold Follows atOnce
  cases read.run is <;> rfl

/-- A reader that reads the parts in turn is followed by one that fills them in turn. -/
theorem Follows.field_bind {set : β → σ} {r : Except β (β × S)} {read : StateT S (Except ε) β} {is : S}
    {k : σ × S → Except σ (τ × S)} {k' : β → StateT S (Except ε) τ} (h : Follows r (read.run is))
    (hk : ∀ b is, Follows (k (set b, is)) ((k' b).run is)) :
    Follows (field set r >>= k) ((read >>= k').run is) := by
  rw [StateT.run_bind]
  cases hread : read.run is with
  | error e =>
    obtain ⟨torn, rfl⟩ := h.eq_error hread
    rfl
  | ok p =>
    rw [h.eq_ok hread]
    exact hk p.1 p.2

/-- The same for the last part. -/
theorem Follows.field {set : β → σ} {r : Except β (β × S)} {read : StateT S (Except ε) β} {is : S}
    {k' : β → StateT S (Except ε) σ} (h : Follows r (read.run is))
    (hk : ∀ b is, (k' b).run is = .ok (set b, is)) : Follows (field set r) ((read >>= k').run is) := by
  rw [StateT.run_bind]
  cases hread : read.run is with
  | error e =>
    obtain ⟨torn, rfl⟩ := h.eq_error hread
    rfl
  | ok p =>
    obtain ⟨b, is⟩ := p
    rw [h.eq_ok hread]
    change Follows (.ok (set b, is)) ((k' b).run is)
    rw [hk]
    exact follows_ok

variable {read : StateT S (Except ε) α} {into : Into S α} {fresh : α}

theorem FollowsAll.itemsInto (h : FollowsAll into read) (n : ℕ) :
    FollowsAll (itemsInto fresh into n) (readItems read n) := by
  induction n with
  | zero => exact fun is ↦ follows_ok
  | succ n ih =>
    intro is
    have hrest (a : α) (is : S) : Follows (ReadInto.field (a :: ·) (ReadInto.itemsInto fresh into n is))
        ((do
          let as ← readItems read n
          return a :: as : StateT S (Except ε) (List α)).run is) := (ih is).field fun _ _ ↦ rfl
    rw [readItems, StateT.run_bind, ReadInto.itemsInto]
    cases hread : read.run is with
    | error e =>
      obtain ⟨torn, htorn⟩ := (h is).eq_error hread
      rw [htorn]
      rfl
    | ok p =>
      obtain ⟨a, is'⟩ := p
      rw [(h is).eq_ok hread]
      exact hrest a is'

theorem FollowsAll.batchesInto {readBlock : ℕ → StateT S (Except ε) (List α)}
    {blockInto : ℕ → Into S (List α)} (h : ∀ n, FollowsAll (blockInto n) (readBlock n)) (nBatch : ℕ)
    (nTurns nLeft : ℕ) :
    FollowsAll (batchesInto blockInto nBatch nTurns nLeft) (readBatches readBlock nBatch nTurns nLeft) := by
  induction nTurns generalizing nLeft with
  | zero => exact fun is ↦ follows_ok
  | succ nTurns ih =>
    intro is
    have hrest (block : List α) (is : S) : Follows
        (ReadInto.field (block ++ ·)
          (ReadInto.batchesInto blockInto nBatch nTurns (nLeft - min nLeft nBatch) is))
        ((do
          let rest ← readBatches readBlock nBatch nTurns (nLeft - min nLeft nBatch)
          return block ++ rest : StateT S (Except ε) (List α)).run is) := (ih _ is).field fun _ _ ↦ rfl
    rw [readBatches, ReadInto.batchesInto]
    split
    · exact follows_ok
    · rw [StateT.run_bind]
      cases hread : (readBlock (min nLeft nBatch)).run is with
      | error e =>
        obtain ⟨torn, htorn⟩ := (h _ is).eq_error hread
        rw [htorn]
        rfl
      | ok p =>
        obtain ⟨block, is'⟩ := p
        rw [(h _ is).eq_ok hread]
        exact hrest block is'

end Electra.Foundations.ReadInto
