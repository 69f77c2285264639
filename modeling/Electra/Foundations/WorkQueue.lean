import Mathlib.Data.List.Basic
import Mathlib.Data.List.Induction
import Mathlib.Order.Basic

/-!
# Loops that repeat and work queues

A turn of the loop changes a state and says whether there is another turn.  The loop ends when each turn
that asks for another one lowers a measure, and ends with a turn that did not ask.

A loop takes keys from a queue.  For each key it visits the items that the state has for it; a visit
changes the state and may append one more key to the queue.  An invariant of the visits is one of
the whole loop (`run_invariant`), conditions on the visits of one run are stated by `RunMeets`, and
the queue is empty at the end if every key that is found uses up some of the state (`run_snd_eq_nil`).
-/

namespace Electra.Foundations.RepeatLoop

variable {σ : Type*}

/-- The turns of the loop, as many as there is fuel for. -/
def repeatLoop (turn : σ → σ × Bool) : ℕ → σ → Option σ
  | 0, _ => none
  | fuel + 1, s => if (turn s).2 then repeatLoop turn fuel (turn s).1 else some (turn s).1

variable {turn : σ → σ × Bool} {Inv : σ → Prop} {s t : σ} {fuel : ℕ}

theorem exists_repeatLoop_eq (potential : σ → ℕ) (hinv : ∀ s, Inv s → (turn s).2 = true →
    Inv (turn s).1 ∧ potential (turn s).1 < potential s) (hs : Inv s) :
    ∃ t, ∀ fuel, potential s < fuel → repeatLoop turn fuel s = some t := by
  induction hpotential : potential s using Nat.strongRecOn generalizing s with
  | ind n ih =>
    cases hagain : (turn s).2 with
    | false =>
      refine ⟨(turn s).1, fun fuel hfuel ↦ ?_⟩
      obtain ⟨fuel, rfl⟩ := Nat.exists_eq_succ_of_ne_zero (Nat.ne_zero_of_lt hfuel)
      rw [repeatLoop, hagain]
      exact if_neg Bool.false_ne_true
    | true =>
      obtain ⟨hnext, hlt⟩ := hinv s hs hagain
      rw [hpotential] at hlt
      obtain ⟨t, ht⟩ := ih _ hlt hnext rfl
      refine ⟨t, fun fuel hfuel ↦ ?_⟩
      obtain ⟨fuel, rfl⟩ := Nat.exists_eq_succ_of_ne_zero (Nat.ne_zero_of_lt hfuel)
      rw [repeatLoop, if_pos hagain]
      exact ht fuel (Nat.lt_of_lt_of_le hlt (Nat.le_of_lt_succ hfuel))

/-- The loop ends with a turn that does not ask for another one, in a state that the turns before keep. -/
theorem last_turn (hinv : ∀ s, Inv s → (turn s).2 = true → Inv (turn s).1) (hs : Inv s)
    (h : repeatLoop turn fuel s = some t) : ∃ last, Inv last ∧ turn last = (t, false) := by
  induction fuel generalizing s with
  | zero => cases h
  | succ fuel ih =>
    rw [repeatLoop] at h
    cases hagain : (turn s).2 with
    | false =>
      rw [hagain, if_neg Bool.false_ne_true] at h
      obtain rfl := Option.some.inj h
      exact ⟨s, hs, Prod.ext rfl hagain⟩
    | true =>
      rw [if_pos hagain] at h
      exact ih (hinv s hs hagain) h

end Electra.Foundations.RepeatLoop

namespace Electra.Foundations.WorkQueue

/-- The parts of a loop: what is done on taking a key, the items to visit, a visit with the key it
finds, and what is done when the items of a key have been visited. -/
structure Loop (σ κ ι : Type*) where
  enter : σ → κ → σ
  items : σ → κ → List ι
  visit : σ → ι → σ × Option κ
  leave : σ → κ → σ

variable {σ κ ι : Type*}

namespace Loop

variable (loop : Loop σ κ ι)

def visitNext (progress : σ × List κ) (item : ι) : σ × List κ :=
  ((loop.visit progress.1 item).1, progress.2 ++ (loop.visit progress.1 item).2.toList)

def turn (s : σ) (key : κ) (queue : List κ) : σ × List κ :=
  let progress := (loop.items s key).foldl loop.visitNext (loop.enter s key, queue)
  (loop.leave progress.1 key, progress.2)

/-- The state and the rest of the queue after a number of turns. -/
def run : ℕ → σ → List κ → σ × List κ
  | 0, s, queue => (s, queue)
  | _ + 1, s, [] => (s, [])
  | nTurns + 1, s, key :: queue => run nTurns (loop.turn s key queue).1 (loop.turn s key queue).2

/-- The items that are visited, in their order. -/
def visited : ℕ → σ → List κ → List ι
  | 0, _, _ => []
  | _ + 1, _, [] => []
  | nTurns + 1, s, key :: queue => loop.items s key ++
      visited nTurns (loop.turn s key queue).1 (loop.turn s key queue).2

variable (Good : σ → ι → Prop)

/-- Each of some visits meets a condition in the state in which it takes place. -/
def VisitsMeet : σ → List ι → Prop
  | _, [] => True
  | s, item :: items => Good s item ∧ VisitsMeet (loop.visit s item).1 items

def RunMeets : ℕ → σ → List κ → Prop
  | 0, _, _ => True
  | _ + 1, _, [] => True
  | nTurns + 1, s, key :: queue => loop.VisitsMeet Good (loop.enter s key) (loop.items s key) ∧
      RunMeets nTurns (loop.turn s key queue).1 (loop.turn s key queue).2

instance VisitsMeet.decidable [∀ s item, Decidable (Good s item)] :
    (s : σ) → (items : List ι) → Decidable (loop.VisitsMeet Good s items)
  | _, [] => .isTrue trivial
  | s, item :: items =>
      have := VisitsMeet.decidable (loop.visit s item).1 items
      inferInstanceAs (Decidable (Good s item ∧ loop.VisitsMeet Good (loop.visit s item).1 items))

instance RunMeets.decidable [∀ s item, Decidable (Good s item)] :
    (nTurns : ℕ) → (s : σ) → (queue : List κ) → Decidable (loop.RunMeets Good nTurns s queue)
  | 0, _, _ => .isTrue trivial
  | _ + 1, _, [] => .isTrue trivial
  | nTurns + 1, s, key :: queue =>
      have := RunMeets.decidable nTurns (loop.turn s key queue).1 (loop.turn s key queue).2
      inferInstanceAs (Decidable (loop.VisitsMeet Good (loop.enter s key) (loop.items s key) ∧
        loop.RunMeets Good nTurns (loop.turn s key queue).1 (loop.turn s key queue).2))

variable {loop Good}

theorem VisitsMeet.of_forall (h : ∀ s item, Good s item) (s : σ) (items : List ι) :
    loop.VisitsMeet Good s items := by
  induction items generalizing s with
  | nil => trivial
  | cons item items ih => exact ⟨h s item, ih _⟩

theorem RunMeets.of_forall (h : ∀ s item, Good s item) (nTurns : ℕ) (s : σ) (queue : List κ) :
    loop.RunMeets Good nTurns s queue := by
  induction nTurns generalizing s queue with
  | zero => trivial
  | succ nTurns ih =>
    cases queue with
    | nil => trivial
    | cons key queue => exact ⟨.of_forall h _ _, ih _ _⟩

variable (loop)

variable {s : σ} {queue : List κ}

/-- Rule for the visits of one turn, with the items visited so far. -/
theorem foldl_visitNext (Inv : List ι → σ → List κ → Prop) {items : List ι}
    (hvisit : ∀ pre item post s queue, items = pre ++ item :: post → Inv pre s queue → Good s item →
      Inv (pre ++ [item]) (loop.visit s item).1 (queue ++ (loop.visit s item).2.toList))
    (hmeets : loop.VisitsMeet Good s items) (h : Inv [] s queue) :
    Inv items (items.foldl loop.visitNext (s, queue)).1 (items.foldl loop.visitNext (s, queue)).2 := by
  suffices hrest : ∀ post pre s queue, items = pre ++ post → loop.VisitsMeet Good s post →
      Inv pre s queue → Inv items (post.foldl loop.visitNext (s, queue)).1
        (post.foldl loop.visitNext (s, queue)).2 from hrest items [] s queue rfl hmeets h
  intro post
  induction post with
  | nil =>
    intro pre s queue hitems _ hinv
    rw [List.append_nil] at hitems
    exact hitems ▸ hinv
  | cons item post ih =>
    intro pre s queue hitems hmeets hinv
    have hnext := hvisit pre item post s queue hitems hinv hmeets.1
    exact ih (pre ++ [item]) _ _ (by rw [hitems, List.append_assoc]; rfl) hmeets.2 hnext

theorem foldl_visitNext_always (Inv : List ι → σ → List κ → Prop) {items : List ι}
    (hvisit : ∀ pre item post s queue, items = pre ++ item :: post → Inv pre s queue →
      Inv (pre ++ [item]) (loop.visit s item).1 (queue ++ (loop.visit s item).2.toList))
    (h : Inv [] s queue) :
    Inv items (items.foldl loop.visitNext (s, queue)).1 (items.foldl loop.visitNext (s, queue)).2 := by
  have hmeets : loop.VisitsMeet (fun _ _ ↦ True) s items := .of_forall (fun _ _ ↦ trivial) s items
  exact loop.foldl_visitNext Inv
    (fun pre item post s queue hitems hinv _ ↦ hvisit pre item post s queue hitems hinv) hmeets h

/-- Rule for the whole loop: what each turn keeps holds at the end. -/
theorem run_invariant (Inv : σ → List κ → Prop) (hturn : ∀ s key queue, Inv s (key :: queue) →
      loop.VisitsMeet Good (loop.enter s key) (loop.items s key) →
      Inv (loop.turn s key queue).1 (loop.turn s key queue).2) (nTurns : ℕ)
    (hmeets : loop.RunMeets Good nTurns s queue) (h : Inv s queue) :
    Inv (loop.run nTurns s queue).1 (loop.run nTurns s queue).2 := by
  induction nTurns generalizing s queue with
  | zero => exact h
  | succ nTurns ih =>
    cases queue with
    | nil => exact h
    | cons key queue => exact ih hmeets.2 (hturn s key queue h hmeets.1)

theorem run_invariant_always (Inv : σ → List κ → Prop) (hturn : ∀ s key queue, Inv s (key :: queue) →
      Inv (loop.turn s key queue).1 (loop.turn s key queue).2) (nTurns : ℕ) (h : Inv s queue) :
    Inv (loop.run nTurns s queue).1 (loop.run nTurns s queue).2 := by
  have hmeets : loop.RunMeets (fun _ _ ↦ True) nTurns s queue :=
    .of_forall (fun _ _ ↦ trivial) nTurns s queue
  exact loop.run_invariant Inv (fun s key queue hinv _ ↦ hturn s key queue hinv) nTurns hmeets h

/-- A part that only visits change is changed by the visited items one after the other. -/
theorem run_foldl {τ : Type*} (part : σ → τ) (f : τ → ι → τ)
    (henter : ∀ s key, part (loop.enter s key) = part s)
    (hvisit : ∀ s item, part (loop.visit s item).1 = f (part s) item)
    (hleave : ∀ s key, part (loop.leave s key) = part s) (nTurns : ℕ) (s : σ) (queue : List κ) :
    part (loop.run nTurns s queue).1 = (loop.visited nTurns s queue).foldl f (part s) := by
  have hfoldl : ∀ (items : List ι) s queue, part (items.foldl loop.visitNext (s, queue)).1 =
      items.foldl f (part s) := by
    intro items
    induction items with
    | nil => exact fun _ _ ↦ rfl
    | cons item items ih =>
      intro s queue
      rw [List.foldl_cons, List.foldl_cons, ← hvisit]
      exact ih _ _
  induction nTurns generalizing s queue with
  | zero => rfl
  | succ nTurns ih =>
    cases queue with
    | nil => rfl
    | cons key queue =>
      rw [visited, List.foldl_append, run, ih, turn, hleave, hfoldl, henter]

/-- What holds of the items of every key holds of all items that are visited. -/
theorem forall_visited (Inv : σ → Prop) {Seen : ι → Prop}
    (hturn : ∀ s key queue, Inv s → Inv (loop.turn s key queue).1)
    (hitems : ∀ s key, Inv s → ∀ item ∈ loop.items s key, Seen item) (nTurns : ℕ) (h : Inv s) :
    ∀ item ∈ loop.visited nTurns s queue, Seen item := by
  induction nTurns generalizing s queue with
  | zero => exact nofun
  | succ nTurns ih =>
    cases queue with
    | nil => exact nofun
    | cons key queue =>
      intro item hitem
      rcases List.mem_append.mp hitem with hfirst | hlater
      · exact hitems s key h item hfirst
      · exact ih (hturn s key queue h) item hlater

/-- If every key that a visit finds makes the state smaller, the queue runs empty. -/
theorem run_snd_eq_nil (size : σ → ℕ) (Inv : σ → Prop)
    (hturn : ∀ s key queue, Inv s → Inv (loop.turn s key queue).1 ∧
      size (loop.turn s key queue).1 + (loop.turn s key queue).2.length ≤ size s + queue.length)
    (nTurns : ℕ) (h : Inv s) (hsize : size s + queue.length ≤ nTurns) :
    (loop.run nTurns s queue).2 = [] := by
  induction nTurns generalizing s queue with
  | zero =>
    have hempty : queue = [] := List.eq_nil_of_length_eq_zero (by omega)
    exact hempty
  | succ nTurns ih =>
    cases queue with
    | nil => rfl
    | cons key queue =>
      obtain ⟨hinv, hsmaller⟩ := hturn s key queue h
      rw [List.length_cons] at hsize
      exact ih hinv (by omega)

end Loop

end Electra.Foundations.WorkQueue
