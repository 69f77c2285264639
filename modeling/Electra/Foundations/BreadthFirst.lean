import Mathlib.Order.WellFoundedSet
import Mathlib.Algebra.GroupWithZero.Nat

/-!
# Breadth-first search

A search takes keys from a queue, skips those that it has seen, and appends the keys that a new one leads
to.  What is found for a key may depend on what was seen before it.  The keys are seen in the order of the
first paths to them, where a path goes before all longer ones and before those of its length that turn off
later.

A search takes items from a queue and appends the children of each, or ends early at one of them.  It
does not remember what it has seen, so that it walks the tree of all paths.  It ends when no path is
infinite, and if it does not end early then it has been at every item that a path leads to.
-/

namespace Electra.Foundations.BreadthFirst

/-- A path is a list of positions, and paths are compared by length and then position by position. -/
def place (path : List ℕ) : ℕ ×ₗ List ℕ := toLex (path.length, path)

variable {p q : List ℕ} {i j : ℕ}

theorem place_lt_iff : place p < place q ↔ p.length < q.length ∨ p.length = q.length ∧ p < q :=
  Prod.Lex.lt_iff

theorem place_injective (h : place p = place q) : p = q := congrArg (fun x ↦ (ofLex x).2) h

theorem place_lt_append (p : List ℕ) (i : ℕ) : place p < place (p ++ [i]) := by
  rw [place_lt_iff, List.length_append]
  exact .inl (Nat.lt_succ_self _)

theorem append_lt_append (hlength : p.length = q.length) (h : p < q) : p ++ [i] < q ++ [j] := by
  induction p generalizing q with
  | nil =>
    cases q with
    | nil => exact absurd h (lt_irrefl _)
    | cons b q => cases hlength
  | cons a p ih =>
    cases q with
    | nil => cases hlength
    | cons b q =>
      rw [List.cons_append, List.cons_append, List.cons_lt_cons_iff] at *
      exact h.imp_right fun ⟨hab, htail⟩ ↦ ⟨hab, ih (Nat.succ.inj hlength) htail⟩

theorem place_append_lt_append (h : place p < place q) : place (p ++ [i]) < place (q ++ [j]) := by
  rw [place_lt_iff] at *
  rw [List.length_append, List.length_append, List.length_singleton, List.length_singleton]
  apply h.imp
  · exact Nat.succ_lt_succ
  · exact fun ⟨hlength, hlt⟩ ↦ ⟨congrArg Nat.succ hlength, append_lt_append hlength hlt⟩

theorem place_append_le_append (h : place p ≤ place q) : place (p ++ [i]) ≤ place (q ++ [i]) := by
  obtain hlt | heq := h.lt_or_eq
  · exact (place_append_lt_append hlt).le
  · rw [place_injective heq]

theorem place_append_lt (h : i < j) : place (p ++ [i]) < place (p ++ [j]) := by
  rw [place_lt_iff]
  refine .inr ⟨by rw [List.length_append, List.length_append]; rfl, ?_⟩
  induction p with
  | nil => exact List.cons_lt_cons_iff.mpr (.inl h)
  | cons a p ih => exact List.cons_lt_cons_iff.mpr (.inr ⟨rfl, ih⟩)

section Search

variable {κ β : Type*} (look : List κ → κ → β) (out : β → List κ)

def explore [DecidableEq κ] : ℕ → List κ → List κ → Option (List κ)
  | _, seen, [] => some seen
  | 0, _, _ :: _ => none
  | fuel + 1, seen, k :: queue =>
      if k ∈ seen then explore fuel seen queue
      else explore fuel (seen ++ [k]) (queue ++ out (look seen k))

/-- Paths from the first queue, by the positions of the keys. -/
inductive PathTo (next : κ → List κ) (start : List κ) : List ℕ → κ → Prop
  | start {i : ℕ} {k : κ} (h : start[i]? = some k) : PathTo next start [i] k
  | step {p : List ℕ} {i : ℕ} {k k' : κ} (hp : PathTo next start p k) (h : (next k)[i]? = some k') :
      PathTo next start (p ++ [i]) k'

/-- A path to `x` goes before all paths to `y`. -/
def ReachedBefore (next : κ → List κ) (start : List κ) (x y : κ) : Prop :=
  ∃ p, PathTo next start p x ∧ ∀ q, PathTo next start q y → place p < place q

/-- What is found for a key is what the keys that are reached before it lead to. -/
def Consistent (start : List κ) (found : κ → β) : Prop :=
  ∀ k, (∃ p, PathTo (out ∘ found) start p k) → ∀ history : List κ,
    history.Pairwise (ReachedBefore (out ∘ found) start) →
    (∀ x, x ∈ history ↔ ReachedBefore (out ∘ found) start x k) → found k = look history k

variable {look out} {fuel : ℕ} {start visits keys queue : List κ} {found : κ → β} {next : κ → List κ} {k x y : κ}

theorem ReachedBefore.asymm (h : ReachedBefore next start x y) : ¬ ReachedBefore next start y x := by
  rintro ⟨q, hq, hx⟩
  obtain ⟨p, hp, hy⟩ := h
  exact lt_asymm (hy q hq) (hx p hp)

theorem explore_starts [DecidableEq κ] (h : explore look out fuel keys queue = some visits) : keys <+: visits := by
  induction fuel generalizing keys queue with
  | zero =>
    cases queue with
    | nil =>
      obtain rfl := Option.some.inj h
      exact List.prefix_refl _
    | cons k queue => cases h
  | succ fuel ih =>
    cases queue with
    | nil =>
      obtain rfl := Option.some.inj h
      exact List.prefix_refl _
    | cons k queue =>
      rw [explore] at h
      split at h
      · exact ih h
      · exact (List.prefix_append keys [k]).trans (ih h)

/-- Among finitely many keys the search ends. -/
theorem explore_ends [DecidableEq κ] [Fintype κ] (look : List κ → κ → β) (out : β → List κ) (start : List κ) :
    ∃ visits bound, ∀ fuel, bound ≤ fuel → explore look out fuel [] start = some visits := by
  suffices hends : ∀ n (keys queue : List κ), (Finset.univ \ keys.toFinset).card = n →
      ∃ visits bound, ∀ fuel, bound ≤ fuel → explore look out fuel keys queue = some visits from
    hends _ [] start rfl
  intro n
  induction n using Nat.strongRecOn with
  | ind n ih =>
    intro keys queue hcard
    induction queue with
    | nil => exact ⟨keys, 0, fun fuel _ ↦ by rw [explore]⟩
    | cons k queue ihq =>
      have hturn : ∃ visits bound, ∀ fuel, bound ≤ fuel →
          (if k ∈ keys then explore look out fuel keys queue
            else explore look out fuel (keys ++ [k]) (queue ++ out (look keys k))) = some visits := by
        split
        · exact ihq
        · next hnew =>
          apply ih (Finset.univ \ (keys ++ [k]).toFinset).card _ _ _ rfl
          rw [← hcard]
          apply Finset.card_lt_card
          rw [Finset.ssubset_iff_of_subset]
          · refine ⟨k, ?_, ?_⟩
            · simpa using hnew
            · simp
          · intro x hx
            simp only [Finset.mem_sdiff, Finset.mem_univ, List.mem_toFinset, List.mem_append, true_and,
              not_or] at hx ⊢
            exact hx.1
      obtain ⟨visits, bound, hvisits⟩ := hturn
      refine ⟨visits, bound + 1, fun fuel hfuel ↦ ?_⟩
      obtain ⟨fuel, rfl⟩ := Nat.exists_eq_succ_of_ne_zero (Nat.ne_of_gt (Nat.lt_of_lt_of_le
        (Nat.succ_pos bound) hfuel))
      rw [explore]
      exact hvisits fuel (Nat.le_of_succ_le_succ hfuel)

/-- The keys that were seen and those in the queue, with the paths on which they were found. -/
structure Annotated (look : List κ → κ → β) (out : β → List κ) (start : List κ) (found : κ → β)
    (seen queue : List (κ × List ℕ)) : Prop where
  increasing : (seen ++ queue).Pairwise fun e e' ↦ place e.2 < place e'.2
  path : ∀ e ∈ seen ++ queue, PathTo (out ∘ found) start e.2 e.1
  nodup : (seen.map Prod.fst).Nodup
  least : ∀ e ∈ seen, ∀ q, PathTo (out ∘ found) start q e.1 → place e.2 ≤ place q
  from_start : ∀ i k, start[i]? = some k → ∃ p, (k, p) ∈ seen ++ queue ∧ place p ≤ place [i]
  from_seen : ∀ e ∈ seen, ∀ i k, (out (found e.1))[i]? = some k →
    ∃ p, (k, p) ∈ seen ++ queue ∧ place p ≤ place (e.2 ++ [i])
  tails : ∀ e ∈ queue, ∀ e' ∈ queue, place e.2.dropLast < place e'.2
  looked : ∀ pre e post, seen = pre ++ e :: post → look (pre.map Prod.fst) e.1 = found e.1

variable {seen rest : List (κ × List ℕ)} {annotated : List (κ × List ℕ)}

theorem Annotated.init : Annotated look out start found [] (start.zipIdx.map fun e ↦ (e.1, [e.2])) where
  increasing := by
    rw [List.nil_append, List.pairwise_map]
    have hsnd : (start.zipIdx.map Prod.snd).Pairwise (· < ·) := by
      rw [List.zipIdx_map_snd]
      exact List.pairwise_lt_range'
    rw [List.pairwise_map] at hsnd
    exact hsnd.imp fun hlt ↦ by simpa using @place_append_lt [] _ _ hlt
  path := by
    intro e he
    obtain ⟨⟨k, i⟩, hk, rfl⟩ := List.mem_map.mp he
    exact .start (List.mem_zipIdx_iff_getElem?.mp hk)
  nodup := List.nodup_nil
  least := fun _ h ↦ absurd h List.not_mem_nil
  from_start := by
    intro i k hk
    exact ⟨[i], List.mem_map.mpr ⟨(k, i), List.mem_zipIdx_iff_getElem?.mpr hk, rfl⟩, le_rfl⟩
  from_seen := fun _ h ↦ absurd h List.not_mem_nil
  tails := by
    intro e he e' he'
    obtain ⟨_, -, rfl⟩ := List.mem_map.mp he
    obtain ⟨_, -, rfl⟩ := List.mem_map.mp he'
    exact place_lt_append [] _
  looked := by
    intro pre e post h
    exact absurd h.symm (List.append_ne_nil_of_right_ne_nil pre (List.cons_ne_nil e post))

/-- Along every path there is a key that was seen, up to one that is in the queue. -/
theorem Annotated.reach (h : Annotated look out start found seen rest)
    (hq : PathTo (out ∘ found) start q k) :
    (∃ p, (k, p) ∈ seen ∧ place p ≤ place q) ∨ ∃ e ∈ rest, place e.2 ≤ place q := by
  have hsplit : ∀ {k : κ} {q : List ℕ}, (∃ p, (k, p) ∈ seen ++ rest ∧ place p ≤ place q) →
      (∃ p, (k, p) ∈ seen ∧ place p ≤ place q) ∨ ∃ e ∈ rest, place e.2 ≤ place q := by
    rintro k q ⟨p, hp, hle⟩
    exact (List.mem_append.mp hp).imp (fun hseen ↦ ⟨p, hseen, hle⟩) fun hrest ↦ ⟨(k, p), hrest, hle⟩
  induction hq with
  | start hk => exact hsplit (h.from_start _ _ hk)
  | @step q i k k' hq hk ih =>
    obtain ⟨p, hp, hle⟩ | ⟨e, he, hle⟩ := ih
    · obtain ⟨p', hp', hle'⟩ := h.from_seen (k, p) hp i k' hk
      exact hsplit ⟨p', hp', hle'.trans (place_append_le_append hle)⟩
    · exact .inr ⟨e, he, hle.trans (place_lt_append q i).le⟩

variable {e : κ × List ℕ}

theorem Annotated.le_of_mem (h : Annotated look out start found seen (e :: rest)) {e' : κ × List ℕ}
    (he' : e' ∈ e :: rest) : place e.2 ≤ place e'.2 := by
  have hqueue := (List.pairwise_append.mp h.increasing).2.1
  obtain rfl | hlater := List.mem_cons.mp he'
  · exact le_rfl
  · exact ((List.pairwise_cons.mp hqueue).1 e' hlater).le

/-- A key that is new at the head of the queue is there on the first path to it. -/
theorem Annotated.head_least (h : Annotated look out start found seen (e :: rest))
    (hnew : e.1 ∉ seen.map Prod.fst) (hq : PathTo (out ∘ found) start q e.1) : place e.2 ≤ place q := by
  obtain ⟨p, hp, -⟩ | ⟨e', he', hle⟩ := h.reach hq
  · exact absurd (List.mem_map_of_mem hp) hnew
  · exact (h.le_of_mem he').trans hle

/-- What was seen before the head of the queue is what is reached before it. -/
theorem Annotated.history (h : Annotated look out start found seen (e :: rest))
    (hnew : e.1 ∉ seen.map Prod.fst) :
    (seen.map Prod.fst).Pairwise (ReachedBefore (out ∘ found) start) ∧
      ∀ x, x ∈ seen.map Prod.fst ↔ ReachedBefore (out ∘ found) start x e.1 := by
  obtain ⟨hseen, -, hcross⟩ := List.pairwise_append.mp h.increasing
  have hbefore : ∀ a ∈ seen, ∀ b : κ × List ℕ, place a.2 < place b.2 →
      (∀ q, PathTo (out ∘ found) start q b.1 → place b.2 ≤ place q) →
        ReachedBefore (out ∘ found) start a.1 b.1 := fun a ha b hlt hleast ↦
    ⟨a.2, h.path a (List.mem_append_left _ ha), fun q hq ↦ lt_of_lt_of_le hlt (hleast q hq)⟩
  refine ⟨?_, fun x ↦ ⟨fun hx ↦ ?_, fun ⟨p, hp, hlt⟩ ↦ ?_⟩⟩
  · rw [List.pairwise_map]
    exact hseen.imp_of_mem fun ha hb hlt ↦ hbefore _ ha _ hlt (h.least _ hb)
  · obtain ⟨a, ha, rfl⟩ := List.mem_map.mp hx
    exact hbefore a ha e (hcross a ha e List.mem_cons_self) fun q hq ↦ h.head_least hnew hq
  · obtain ⟨p', hp', -⟩ | ⟨e', he', hle⟩ := h.reach hp
    · exact List.mem_map_of_mem hp'
    · have hlt' := hlt e.2 (h.path e (List.mem_append_right _ List.mem_cons_self))
      exact absurd hlt' (not_lt.mpr ((h.le_of_mem he').trans hle))

/-- A key that was seen is skipped. -/
theorem Annotated.skip (h : Annotated look out start found seen (e :: rest))
    (hold : e.1 ∈ seen.map Prod.fst) : Annotated look out start found seen rest := by
  have hkeep : ∀ {k : κ} {q : List ℕ}, (∃ p, (k, p) ∈ seen ++ e :: rest ∧ place p ≤ place q) →
      ∃ p, (k, p) ∈ seen ++ rest ∧ place p ≤ place q := by
    rintro k q ⟨p, hp, hle⟩
    obtain hseen | hqueue := List.mem_append.mp hp
    · exact ⟨p, List.mem_append_left _ hseen, hle⟩
    · obtain rfl | hrest := List.mem_cons.mp hqueue
      · -- the key has an earlier path
        obtain ⟨⟨k', p'⟩, hseen, hkey⟩ := List.mem_map.mp hold
        obtain rfl : k' = k := hkey
        have hlt := (List.pairwise_append.mp h.increasing).2.2 (k', p') hseen (k', p) List.mem_cons_self
        exact ⟨p', List.mem_append_left _ hseen, hlt.le.trans hle⟩
      · exact ⟨p, List.mem_append_right _ hrest, hle⟩
  have hsub : (seen ++ rest).Sublist (seen ++ e :: rest) :=
    (List.Sublist.refl seen).append (List.sublist_cons_self e rest)
  exact
    { increasing := h.increasing.sublist hsub
      path := fun e' he' ↦ h.path e' (hsub.subset he')
      nodup := h.nodup
      least := h.least
      from_start := fun i k hk ↦ hkeep (h.from_start i k hk)
      from_seen := fun e' he' i k hk ↦ hkeep (h.from_seen e' he' i k hk)
      tails := fun a ha b hb ↦ h.tails a (List.mem_cons_of_mem e ha) b (List.mem_cons_of_mem e hb)
      looked := h.looked }

/-- A new key is seen, and what it leads to goes to the end of the queue. -/
theorem Annotated.visit (h : Annotated look out start found seen (e :: rest))
    (hnew : e.1 ∉ seen.map Prod.fst) (hlook : look (seen.map Prod.fst) e.1 = found e.1) :
    Annotated look out start found (seen ++ [e])
      (rest ++ (out (found e.1)).zipIdx.map fun child ↦ (child.1, e.2 ++ [child.2])) := by
  obtain ⟨hseen, hqueue, hcross⟩ := List.pairwise_append.mp h.increasing
  have hhead : e ∈ seen ++ e :: rest := List.mem_append_right _ List.mem_cons_self
  have hall : (seen ++ [e]) ++ (rest ++ (out (found e.1)).zipIdx.map fun child ↦ (child.1, e.2 ++ [child.2])) =
      (seen ++ e :: rest) ++ (out (found e.1)).zipIdx.map fun child ↦ (child.1, e.2 ++ [child.2]) := by
    simp only [List.append_assoc, List.cons_append, List.nil_append]
  have hmore : ∀ {k : κ} {q : List ℕ}, (∃ p, (k, p) ∈ seen ++ e :: rest ∧ place p ≤ place q) →
      ∃ p, (k, p) ∈ (seen ++ e :: rest) ++
        ((out (found e.1)).zipIdx.map fun child ↦ (child.1, e.2 ++ [child.2])) ∧ place p ≤ place q :=
    fun ⟨p, hp, hle⟩ ↦ ⟨p, List.mem_append_left _ hp, hle⟩
  have hchild : ∀ child ∈ (out (found e.1)).zipIdx.map fun child ↦ (child.1, e.2 ++ [child.2]),
      ∃ i, child.2 = e.2 ++ [i] ∧ (out (found e.1))[i]? = some child.1 := by
    intro child hmem
    obtain ⟨⟨k, i⟩, hk, rfl⟩ := List.mem_map.mp hmem
    exact ⟨i, rfl, List.mem_zipIdx_iff_getElem?.mp hk⟩
  -- what is in the queue was put there before
  have holder : ∀ e' ∈ e :: rest, ∀ i, place e'.2 < place (e.2 ++ [i]) := by
    intro e' he' i
    obtain rfl | hrest := List.mem_cons.mp he'
    · exact place_lt_append _ i
    · have htail := h.tails e' he' e List.mem_cons_self
      have hne : e'.2 ≠ [] := by
        intro hnil
        rw [hnil] at htail
        have hlt := (List.pairwise_cons.mp hqueue).1 e' hrest
        rw [hnil] at hlt
        exact lt_asymm htail hlt
      rw [← List.dropLast_append_getLast hne]
      exact place_append_lt_append htail
  rw [← hall] at hmore
  constructor
  · rw [hall, List.pairwise_append]
    refine ⟨h.increasing, ?_, fun a ha b hb ↦ ?_⟩
    · rw [List.pairwise_map]
      have hsnd : ((out (found e.1)).zipIdx.map Prod.snd).Pairwise (· < ·) := by
        rw [List.zipIdx_map_snd]
        exact List.pairwise_lt_range'
      rw [List.pairwise_map] at hsnd
      exact hsnd.imp place_append_lt
    · obtain ⟨i, hpath, -⟩ := hchild b hb
      rw [hpath]
      obtain hold | hq := List.mem_append.mp ha
      · exact (hcross a hold e List.mem_cons_self).trans (place_lt_append _ i)
      · exact holder a hq i
  · rw [hall]
    intro e' he'
    obtain hold | hb := List.mem_append.mp he'
    · exact h.path e' hold
    · obtain ⟨i, hpath, hk⟩ := hchild e' hb
      rw [hpath]
      exact .step (h.path e hhead) hk
  · rw [List.map_append, List.map_singleton, List.nodup_append]
    refine ⟨h.nodup, List.nodup_singleton _, fun a ha b hb ↦ ?_⟩
    rw [List.mem_singleton.mp hb]
    exact fun hsame ↦ hnew (hsame ▸ ha)
  · intro e' he' q hq
    obtain hold | hlast := List.mem_append.mp he'
    · exact h.least e' hold q hq
    · rw [List.mem_singleton.mp hlast] at hq ⊢
      exact h.head_least hnew hq
  · exact fun i k hk ↦ hmore (h.from_start i k hk)
  · intro e' he' i k hk
    obtain hold | hlast := List.mem_append.mp he'
    · exact hmore (h.from_seen e' hold i k hk)
    · rw [List.mem_singleton.mp hlast] at hk ⊢
      refine ⟨e.2 ++ [i], ?_, le_rfl⟩
      apply List.mem_append_right
      apply List.mem_append_right
      exact List.mem_map.mpr ⟨(k, i), List.mem_zipIdx_iff_getElem?.mpr hk, rfl⟩
  · -- the last turn of a path in the queue was taken from a key that was seen before its head
    have hdrop : ∀ a ∈ rest ++ (out (found e.1)).zipIdx.map fun child ↦ (child.1, e.2 ++ [child.2]),
        place a.2.dropLast ≤ place e.2 := by
      intro a ha
      obtain hrest | hnewer := List.mem_append.mp ha
      · exact (h.tails a (List.mem_cons_of_mem e hrest) e List.mem_cons_self).le
      · obtain ⟨i, hpath, -⟩ := hchild a hnewer
        rw [hpath, List.dropLast_concat]
    have hlater : ∀ b ∈ rest ++ (out (found e.1)).zipIdx.map fun child ↦ (child.1, e.2 ++ [child.2]),
        place e.2 < place b.2 := by
      intro b hb
      obtain hrest | hnewer := List.mem_append.mp hb
      · exact (List.pairwise_cons.mp hqueue).1 b hrest
      · obtain ⟨i, hpath, -⟩ := hchild b hnewer
        rw [hpath]
        exact place_lt_append _ i
    exact fun a ha b hb ↦ lt_of_le_of_lt (hdrop a ha) (hlater b hb)
  · intro pre e' post hsplit
    obtain rfl | ⟨post', b, rfl⟩ := post.eq_nil_or_concat
    · obtain ⟨rfl, hlast⟩ := List.append_inj' hsplit rfl
      obtain rfl := (List.cons.inj hlast).1
      exact hlook
    · rw [List.concat_eq_append, ← List.cons_append, ← List.append_assoc] at hsplit
      exact h.looked pre e' post' (List.append_inj' hsplit rfl).1

/-- The search keeps its paths when each new key is found to be what `found` says. -/
theorem annotated_of_explore [DecidableEq κ]
    (hstep : ∀ seen e rest, Annotated look out start found seen (e :: rest) → e.1 ∉ seen.map Prod.fst →
      seen.map Prod.fst ++ [e.1] <+: visits → look (seen.map Prod.fst) e.1 = found e.1)
    (hinv : Annotated look out start found seen rest)
    (h : explore look out fuel (seen.map Prod.fst) (rest.map Prod.fst) = some visits) :
    ∃ annotated, Annotated look out start found annotated [] ∧ annotated.map Prod.fst = visits := by
  induction fuel generalizing seen rest with
  | zero =>
    cases rest with
    | nil => exact ⟨seen, hinv, Option.some.inj h⟩
    | cons e rest => cases h
  | succ fuel ih =>
    cases rest with
    | nil => exact ⟨seen, hinv, Option.some.inj h⟩
    | cons e rest =>
      rw [List.map_cons, explore] at h
      split at h
      · next hold => exact ih (hinv.skip hold) h
      · next hnew =>
        have hlook := hstep seen e rest hinv hnew (explore_starts h)
        apply ih (hinv.visit hnew hlook)
        have hchildren : ((out (found e.1)).zipIdx.map fun child ↦ (child.1, e.2 ++ [child.2])).map Prod.fst =
            out (found e.1) := by
          rw [List.map_map]
          exact List.zipIdx_map_fst 0 _
        rw [List.map_append, List.map_append, hchildren, ← hlook]
        exact h

/-- The keys in the order in which they are seen. -/
structure InOrder (look : List κ → κ → β) (out : β → List κ) (start : List κ) (found : κ → β)
    (visits : List κ) : Prop where
  nodup : visits.Nodup
  mem_iff : ∀ k, k ∈ visits ↔ ∃ p, PathTo (out ∘ found) start p k
  pairwise : visits.Pairwise (ReachedBefore (out ∘ found) start)
  looked : ∀ pre k post, visits = pre ++ k :: post → look pre k = found k

theorem Annotated.inOrder (h : Annotated look out start found annotated []) :
    InOrder look out start found (annotated.map Prod.fst) where
  nodup := h.nodup
  mem_iff k := by
    constructor
    · intro hk
      obtain ⟨e, he, rfl⟩ := List.mem_map.mp hk
      exact ⟨e.2, h.path e (List.mem_append_left _ he)⟩
    · rintro ⟨q, hq⟩
      obtain ⟨p, hp, -⟩ | ⟨e, he, -⟩ := h.reach hq
      · exact List.mem_map_of_mem hp
      · exact absurd he List.not_mem_nil
  pairwise := by
    rw [List.pairwise_map]
    have hincreasing := (List.pairwise_append.mp h.increasing).1
    apply hincreasing.imp_of_mem
    exact fun {a b} ha hb hlt ↦ ⟨a.2, h.path a (List.mem_append_left _ ha),
      fun q hq ↦ lt_of_lt_of_le hlt (h.least b hb q hq)⟩
  looked := by
    intro pre k post hsplit
    obtain ⟨pre', rest', rfl, rfl, hrest⟩ := List.map_eq_append_iff.mp hsplit
    obtain ⟨e, post', rfl, rfl, -⟩ := List.map_eq_cons_iff.mp hrest
    exact h.looked pre' e post' rfl

theorem inOrder_of_step [DecidableEq κ]
    (hstep : ∀ seen e rest, Annotated look out start found seen (e :: rest) → e.1 ∉ seen.map Prod.fst →
      seen.map Prod.fst ++ [e.1] <+: visits → look (seen.map Prod.fst) e.1 = found e.1)
    (h : explore look out fuel [] start = some visits) : InOrder look out start found visits := by
  have hstart : (start.zipIdx.map fun e ↦ (e.1, [e.2])).map Prod.fst = start := by
    rw [List.map_map]
    exact List.zipIdx_map_fst 0 start
  rw [← hstart] at h
  obtain ⟨annotated, hend, rfl⟩ := annotated_of_explore hstep .init h
  exact hend.inOrder

/-- Where what is found for a key is given by what is reached before it, the search goes in this order. -/
theorem inOrder_of_explore [DecidableEq κ] (hfound : Consistent look out start found)
    (h : explore look out fuel [] start = some visits) : InOrder look out start found visits := by
  apply inOrder_of_step _ h
  intro seen e rest hinv hnew _
  obtain ⟨hsorted, hmem⟩ := hinv.history hnew
  have hpath := hinv.path e (List.mem_append_right _ List.mem_cons_self)
  exact (hfound e.1 ⟨e.2, hpath⟩ _ hsorted hmem).symm

/-- The keys before a key are those that are reached before it. -/
theorem InOrder.mem_pre {pre post : List κ} (h : InOrder look out start found visits)
    (hsplit : visits = pre ++ k :: post) : x ∈ pre ↔ ReachedBefore (out ∘ found) start x k := by
  have hpairwise := h.pairwise
  rw [hsplit] at hpairwise
  obtain ⟨-, hlater, hcross⟩ := List.pairwise_append.mp hpairwise
  constructor
  · exact fun hx ↦ hcross x hx k List.mem_cons_self
  · intro hbefore
    obtain ⟨p, hp, -⟩ := id hbefore
    have hvisited := (h.mem_iff x).mpr ⟨p, hp⟩
    rw [hsplit] at hvisited
    obtain hpre | hrest := List.mem_append.mp hvisited
    · exact hpre
    · obtain rfl | hpost := List.mem_cons.mp hrest
      · exact absurd hbefore hbefore.asymm
      · exact absurd hbefore ((List.pairwise_cons.mp hlater).1 x hpost).asymm

theorem InOrder.consistent (h : InOrder look out start found visits) : Consistent look out start found := by
  intro k hk history hsorted hmem
  obtain ⟨pre, post, hsplit⟩ := List.append_of_mem ((h.mem_iff k).mpr hk)
  have hpairwise := h.pairwise
  have hnodup := h.nodup
  rw [hsplit] at hpairwise hnodup
  have hdistinct : history.Nodup := by
    apply hsorted.imp
    rintro x _ hbefore rfl
    exact hbefore.asymm hbefore
  have hperm : history.Perm pre := by
    rw [List.perm_ext_iff_of_nodup hdistinct (List.nodup_append.mp hnodup).1]
    intro x
    rw [h.mem_pre hsplit, hmem]
  have hsame : history = pre := hperm.eq_of_pairwise (fun a b _ _ hab hba ↦ absurd hba hab.asymm) hsorted
    (List.pairwise_append.mp hpairwise).1
  rw [hsame]
  exact (h.looked pre k post hsplit).symm

/-- What the search finds is such. -/
theorem exists_consistent [DecidableEq κ] (h : explore look out fuel [] start = some visits) :
    ∃ found, Consistent look out start found := by
  have horder : InOrder look out start (fun k ↦ look (visits.takeWhile fun x ↦ x ≠ k) k) visits := by
    apply inOrder_of_step _ h
    rintro seen e rest - hnew ⟨post, rfl⟩
    congr 1
    rw [List.append_assoc, List.takeWhile_append_of_pos, List.singleton_append, List.takeWhile_cons_of_neg,
      List.append_nil]
    · simp
    · intro x hx
      exact decide_eq_true fun hsame ↦ hnew (hsame ▸ hx)
  exact ⟨_, horder.consistent⟩

end Search

end Electra.Foundations.BreadthFirst

namespace Electra.Foundations.TreeSearch

variable {α ρ κ : Type*}

/-- The search, which ends early where `visit` says so. -/
def search (visit : α → Except ρ (List α)) : ℕ → List α → Option (Except ρ Unit)
  | _, [] => some (.ok ())
  | 0, _ :: _ => none
  | fuel + 1, a :: queue =>
      match visit a with
      | .error result => some (.error result)
      | .ok children => search visit fuel (queue ++ children)

variable {visit : α → Except ρ (List α)} {fuel : ℕ} {queue : List α} {a b : α} {S : Set α}

/-- `b` is a child of `a`. -/
def IsChild (visit : α → Except ρ (List α)) (b a : α) : Prop := ∃ children, visit a = .ok children ∧ b ∈ children

/-- A size of items that exceeds the sizes of the children together. -/
theorem exists_weight (hwf : WellFounded fun b a ↦ a ∈ S ∧ IsChild visit b a) :
    ∃ weight : α → ℕ, ∀ a ∈ S, ∀ children, visit a = .ok children →
      (children.map weight).sum < weight a := by
  classical
  let next : (a : α) → ((b : α) → (a ∈ S ∧ IsChild visit b a) → ℕ) → ℕ := fun a size ↦
    1 + (((visit a).toOption.getD []).map fun b ↦
      if h : a ∈ S ∧ IsChild visit b a then size b h else 0).sum
  refine ⟨hwf.fix next, fun a ha children hchildren ↦ ?_⟩
  have hmap : ((visit a).toOption.getD []).map (fun b ↦
      if a ∈ S ∧ IsChild visit b a then hwf.fix next b else 0) = children.map (hwf.fix next) := by
    rw [hchildren]
    apply List.map_congr_left
    exact fun b hb ↦ if_pos ⟨ha, children, hchildren, hb⟩
  calc (children.map (hwf.fix next)).sum
      < 1 + (children.map (hwf.fix next)).sum := Nat.lt_add_of_pos_left Nat.zero_lt_one
    _ = next a fun b _ ↦ hwf.fix next b := by rw [← hmap]; rfl
    _ = hwf.fix next a := (hwf.fix_eq next a).symm

/-- With no infinite path from `S`, enough fuel gives one result. -/
theorem search_ends (hwf : WellFounded fun b a ↦ a ∈ S ∧ IsChild visit b a)
    (hclosed : ∀ a ∈ S, ∀ b, IsChild visit b a → b ∈ S) (hqueue : ∀ a ∈ queue, a ∈ S) :
    ∃ result bound, ∀ fuel, bound ≤ fuel → search visit fuel queue = some result := by
  obtain ⟨weight, hweight⟩ := exists_weight hwf
  induction hsize : (queue.map weight).sum using Nat.strongRecOn generalizing queue with
  | ind n ih =>
    cases queue with
    | nil => exact ⟨.ok (), 0, fun fuel _ ↦ by rw [search]⟩
    | cons a queue =>
      have ha : a ∈ S := hqueue a List.mem_cons_self
      cases hvisit : visit a with
      | error result =>
        refine ⟨.error result, 1, fun fuel hfuel ↦ ?_⟩
        obtain ⟨fuel, rfl⟩ := Nat.exists_eq_succ_of_ne_zero (Nat.ne_of_gt hfuel)
        rw [search, hvisit]
      | ok children =>
        have hsmaller : ((queue ++ children).map weight).sum < n := by
          rw [List.map_cons, List.sum_cons] at hsize
          rw [List.map_append, List.sum_append]
          have hlt := hweight a ha children hvisit
          omega
        have hnext : ∀ b ∈ queue ++ children, b ∈ S := by
          intro b hb
          apply (List.mem_append.mp hb).elim
          · exact fun hold ↦ hqueue b (List.mem_cons_of_mem a hold)
          · exact fun hnew ↦ hclosed a ha b ⟨children, hvisit, hnew⟩
        obtain ⟨result, bound, hresult⟩ := ih _ hsmaller hnext rfl
        refine ⟨result, bound + 1, fun fuel hfuel ↦ ?_⟩
        obtain ⟨fuel, rfl⟩ := Nat.exists_eq_succ_of_ne_zero (Nat.ne_of_gt (Nat.lt_of_lt_of_le
          (Nat.succ_pos bound) hfuel))
        rw [search, hvisit]
        exact hresult fuel (Nat.le_of_succ_le_succ hfuel)

/-- Paths that go from names to names in a finite set, without a cycle, end. -/
theorem wellFounded_of_acyclic {name : α → κ} {r : κ → κ → Prop} {names : Set κ} (hfinite : names.Finite)
    (hacyclic : ∀ k, ¬ Relation.TransGen r k k) (hnames : ∀ a ∈ S, name a ∈ names)
    (hclosed : ∀ a ∈ S, ∀ b, IsChild visit b a → b ∈ S)
    (hchild : ∀ a ∈ S, ∀ b, IsChild visit b a → r (name a) (name b)) :
    WellFounded fun b a ↦ a ∈ S ∧ IsChild visit b a := by
  let later : κ → κ → Prop := fun k' k ↦ Relation.TransGen r k k'
  have horder : IsStrictOrder κ later :=
    { irrefl := hacyclic
      trans := fun _ _ _ h h' ↦ Relation.TransGen.trans h' h }
  have hwf := Set.wellFoundedOn_iff.mp (hfinite.wellFoundedOn (r := later))
  apply Subrelation.wf _ (InvImage.wf name hwf)
  intro b a hba
  exact ⟨.single (hchild a hba.1 b hba.2), hnames b (hclosed a hba.1 b hba.2), hnames a hba.1⟩

/-- The search visits all that paths from its queue lead to. -/
theorem search_visits (h : search visit fuel queue = some (.ok ())) (ha : a ∈ queue)
    (hpath : Relation.ReflTransGen (fun a b ↦ IsChild visit b a) a b) : ∃ children, visit b = .ok children := by
  induction fuel generalizing queue a with
  | zero =>
    cases queue with
    | nil => exact absurd ha List.not_mem_nil
    | cons first queue => cases h
  | succ fuel ih =>
    cases queue with
    | nil => exact absurd ha List.not_mem_nil
    | cons first queue =>
      rw [search] at h
      cases hvisit : visit first with
      | error result =>
        rw [hvisit] at h
        cases h
      | ok children =>
        rw [hvisit] at h
        obtain rfl | hrest := List.mem_cons.mp ha
        · cases hpath.cases_head with
          | inl hsame => exact ⟨children, hsame ▸ hvisit⟩
          | inr hstep =>
            obtain ⟨child, ⟨found, hfound, hmem⟩, htail⟩ := hstep
            have heq : found = children := Except.ok.inj (hfound.symm.trans hvisit)
            exact ih h (List.mem_append_right queue (heq ▸ hmem)) htail
        · exact ih h (List.mem_append_left children hrest) hpath

end Electra.Foundations.TreeSearch
