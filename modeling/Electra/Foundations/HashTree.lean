import Mathlib.Data.List.Nodup
import Mathlib.Data.Nat.Bitwise
import Mathlib.Data.Set.Function

/-!
# Hash trees

The levels of a tree over a list: neighbours are paired, and an odd last element is paired with itself.
If the pairs that are hashed do not collide, two lists below one root are equal, one of them is a level
above the other one, or one of them has a duplicate.
-/

namespace Electra.Foundations.HashTree

variable {α : Type*} (pair : α → α → α)

def levelPairs : List α → List (α × α)
  | [] => []
  | [x] => [(x, x)]
  | x :: y :: rest => (x, y) :: levelPairs rest

def level (xs : List α) : List α := (levelPairs xs).map fun p ↦ pair p.1 p.2

/-- A level of the tree over a list; the tree ends where a level has one element. -/
def Above : List α → List α → Prop :=
  Relation.ReflTransGen fun us vs ↦ 1 < us.length ∧ vs = level pair us

/-- The pairs that are hashed for the tree over a list. -/
def hashedPairs (xs : List α) : Set (α × α) :=
  {p | ∃ us, Above pair xs us ∧ 1 < us.length ∧ p ∈ levelPairs us}

theorem length_levelPairs : ∀ xs : List α, (levelPairs xs).length = (xs.length + 1) / 2
  | [] => by simp [levelPairs]
  | [_] => by simp [levelPairs]
  | _ :: _ :: rest => by
    simp only [levelPairs, List.length_cons, length_levelPairs rest]
    omega

theorem length_level (xs : List α) : (level pair xs).length = (xs.length + 1) / 2 := by
  rw [level, List.length_map, length_levelPairs]

/-- The left elements of the pairs are elements of the list, in their order. -/
theorem map_fst_levelPairs_sublist : ∀ xs : List α, ((levelPairs xs).map Prod.fst).Sublist xs
  | [] => .slnil
  | [x] => .refl [x]
  | x :: y :: rest => ((map_fst_levelPairs_sublist rest).cons y).cons_cons x

/-- The pairs determine a list up to a duplicate at its end. -/
theorem eq_or_not_nodup_of_levelPairs_eq :
    ∀ xs ys : List α, levelPairs xs = levelPairs ys → xs = ys ∨ ¬ xs.Nodup ∨ ¬ ys.Nodup
  | [], [], _ => .inl rfl
  | [], [_], h => by cases h
  | [], _ :: _ :: _, h => by cases h
  | [_], [], h => by cases h
  | _ :: _ :: _, [], h => by cases h
  | [x], [y], h => by
    obtain ⟨hpair, -⟩ := List.cons.inj h
    exact .inl (congrArg (fun p ↦ [p.1]) hpair)
  | [x], y :: z :: rest, h => by
    obtain ⟨hpair, -⟩ := List.cons.inj h
    obtain ⟨rfl, rfl⟩ := Prod.mk.inj hpair
    exact .inr (.inr (by simp))
  | x :: y :: rest, [z], h => by
    obtain ⟨hpair, -⟩ := List.cons.inj h
    obtain ⟨rfl, rfl⟩ := Prod.mk.inj hpair
    exact .inr (.inl (by simp))
  | x :: y :: rest, z :: w :: rest', h => by
    obtain ⟨hpair, hrest⟩ := List.cons.inj h
    obtain ⟨rfl, rfl⟩ := Prod.mk.inj hpair
    rcases eq_or_not_nodup_of_levelPairs_eq rest rest' hrest with rfl | hdup | hdup
    · exact .inl rfl
    · exact .inr (.inl fun hnodup ↦ hdup hnodup.of_cons.of_cons)
    · exact .inr (.inr fun hnodup ↦ hdup hnodup.of_cons.of_cons)

/-- The hashed pairs, level by level. -/
theorem mem_hashedPairs_iff {xs : List α} {p : α × α} : p ∈ hashedPairs pair xs ↔
    1 < xs.length ∧ (p ∈ levelPairs xs ∨ p ∈ hashedPairs pair (level pair xs)) := by
  constructor
  · rintro ⟨us, habove, hus, hp⟩
    rcases Relation.ReflTransGen.cases_head habove with rfl | ⟨vs, ⟨hlong, rfl⟩, hrest⟩
    · exact ⟨hus, .inl hp⟩
    · exact ⟨hlong, .inr ⟨us, hrest, hus, hp⟩⟩
  · rintro ⟨hlong, hp | ⟨us, habove, hus, hp⟩⟩
    · exact ⟨xs, .refl, hlong, hp⟩
    · exact ⟨us, .head ⟨hlong, rfl⟩ habove, hus, hp⟩

section Branches

/-- The elements that an element is paired with on its way to the root. -/
inductive IsBranch : List α → ℕ → List α → Prop
  | root {x} : IsBranch [x] 0 []
  | step {xs i y branch} (hlong : 1 < xs.length) (hi : i < xs.length)
      (hother : xs[min (i ^^^ 1) (xs.length - 1)]? = some y)
      (hrest : IsBranch (level pair xs) (i / 2) branch) : IsBranch xs i (y :: branch)

/-- Hash an element with its branch, on the side that its index tells. -/
def climb : α → List α → ℕ → α
  | x, [], _ => x
  | x, y :: branch, i => climb (if i % 2 = 1 then pair y x else pair x y) branch (i / 2)

variable {pair} {xs : List α} {i : ℕ} {x y : α}

theorem getElem?_levelPairs : ∀ {xs : List α} {k : ℕ}, xs[2 * k]? = some x →
    xs[min (2 * k + 1) (xs.length - 1)]? = some y → (levelPairs xs)[k]? = some (x, y)
  | [], _, hx, _ => by cases hx
  | [z], k, hx, hy => by
    have hk : 2 * k < 1 := (List.getElem?_eq_some_iff.mp hx).1
    obtain rfl : k = 0 := by omega
    cases hx
    cases hy
    rfl
  | z :: w :: rest, 0, hx, hy => by
    cases hx
    rw [List.length_cons, List.length_cons, min_eq_left (by omega)] at hy
    cases hy
    rfl
  | z :: w :: rest, k + 1, hx, hy => by
    have hindex : min (2 * (k + 1) + 1) ((z :: w :: rest).length - 1) =
        min (2 * k + 1) (rest.length - 1) + 2 := by
      have hlt : 2 * (k + 1) < (z :: w :: rest).length := (List.getElem?_eq_some_iff.mp hx).1
      rw [List.length_cons, List.length_cons] at hlt ⊢
      omega
    rw [hindex] at hy
    exact @getElem?_levelPairs rest _ hx hy

/-- An element and the one it is paired with make the element above them. -/
theorem getElem?_level (hx : xs[i]? = some x)
    (hy : xs[min (i ^^^ 1) (xs.length - 1)]? = some y) :
    (level pair xs)[i / 2]? = some (if i % 2 = 1 then pair y x else pair x y) := by
  have hlt : i < xs.length := (List.getElem?_eq_some_iff.mp hx).1
  have hpairs : (levelPairs xs)[i / 2]? = some (if i % 2 = 1 then (y, x) else (x, y)) := by
    obtain heven | hodd := Nat.even_or_odd i
    · have hmod : i % 2 = 0 := Nat.even_iff.mp heven
      have hdouble : 2 * (i / 2) = i := by omega
      rw [Nat.xor_one_of_even heven] at hy
      rw [if_neg (by omega)]
      apply getElem?_levelPairs
      · rw [hdouble]
        exact hx
      · rw [hdouble]
        exact hy
    · have hmod : i % 2 = 1 := Nat.odd_iff.mp hodd
      have hdouble : 2 * (i / 2) = i - 1 := by omega
      rw [Nat.xor_one_of_odd hodd, min_eq_left (by omega)] at hy
      rw [if_pos hmod]
      apply getElem?_levelPairs
      · rw [hdouble]
        exact hy
      · have hindex : min (2 * (i / 2) + 1) (xs.length - 1) = i := by omega
        rw [hindex]
        exact hx
  rw [level, List.getElem?_map, hpairs, Option.map_some]
  split <;> rfl

/-- A branch leads from its element to the root. -/
theorem climb_eq_root {branch : List α} {r : α} (h : IsBranch pair xs i branch)
    (hx : xs[i]? = some x) (hroot : Above pair xs [r]) : climb pair x branch i = r := by
  induction h generalizing x with
  | root =>
    rcases Relation.ReflTransGen.cases_head hroot with heq | ⟨us, ⟨hlong, -⟩, -⟩
    · cases heq
      cases hx
      rfl
    · exact absurd hlong (lt_irrefl 1)
  | step hlong hi hother hrest ih =>
    rcases Relation.ReflTransGen.cases_head hroot with heq | ⟨us, ⟨-, rfl⟩, habove⟩
    · rw [heq] at hlong
      exact absurd hlong (lt_irrefl 1)
    · exact ih (getElem?_level hx hother) habove

end Branches

section Collisions

variable {pair} {S : Set (α × α)} {xs ys us : List α}

theorem levelPairs_subset (hsub : hashedPairs pair xs ⊆ S) (habove : Above pair xs us)
    (hlength : 1 < us.length) : ∀ p ∈ levelPairs us, p ∈ S :=
  fun _ hp ↦ hsub ⟨us, habove, hlength, hp⟩

theorem hashedPairs_level_subset (hsub : hashedPairs pair xs ⊆ S) (hlength : 1 < xs.length) :
    hashedPairs pair (level pair xs) ⊆ S := by
  rintro p ⟨us, habove, hus, hp⟩
  exact hsub ⟨us, .head ⟨hlength, rfl⟩ habove, hus, hp⟩

/-- Without collisions a level without duplicates has no duplicates above it. -/
theorem nodup_level (hinj : Set.InjOn (fun p ↦ pair p.1 p.2) S) (hsub : ∀ p ∈ levelPairs xs, p ∈ S)
    (h : xs.Nodup) : (level pair xs).Nodup := by
  have hpairs : (levelPairs xs).Nodup := (h.sublist (map_fst_levelPairs_sublist xs)).of_map Prod.fst
  exact hpairs.map_on fun p hp q hq heq ↦ hinj (hsub p hp) (hsub q hq) heq

theorem nodup_of_above (hinj : Set.InjOn (fun p ↦ pair p.1 p.2) S) (hsub : hashedPairs pair xs ⊆ S)
    (habove : Above pair xs us) (h : xs.Nodup) : us.Nodup := by
  induction habove with
  | refl => exact h
  | tail hbelow hstep ih =>
    obtain ⟨hlength, rfl⟩ := hstep
    exact nodup_level hinj (levelPairs_subset hsub hbelow hlength) ih

theorem eq_of_map_eq {β γ : Type*} {f : β → γ} {T : Set β} (hinj : T.InjOn f) :
    ∀ {l l' : List β}, (∀ b ∈ l, b ∈ T) → (∀ b ∈ l', b ∈ T) → l.map f = l'.map f → l = l'
  | [], [], _, _, _ => rfl
  | [], _ :: _, _, _, h => by cases h
  | _ :: _, [], _, _, h => by cases h
  | b :: l, b' :: l', hl, hl', h => by
    obtain ⟨hb, hrest⟩ := List.cons.inj h
    have htail : l = l' := eq_of_map_eq hinj (fun c hc ↦ hl c (List.mem_cons_of_mem b hc))
      (fun c hc ↦ hl' c (List.mem_cons_of_mem b' hc)) hrest
    rw [hinj (hl b List.mem_cons_self) (hl' b' List.mem_cons_self) hb, htail]

/-- Without collisions a level determines the one below it, up to duplicates. -/
theorem eq_or_not_nodup_of_level_eq (hinj : Set.InjOn (fun p ↦ pair p.1 p.2) S)
    (hxs : ∀ p ∈ levelPairs xs, p ∈ S) (hys : ∀ p ∈ levelPairs ys, p ∈ S)
    (h : level pair xs = level pair ys) : xs = ys ∨ ¬ xs.Nodup ∨ ¬ ys.Nodup := by
  apply eq_or_not_nodup_of_levelPairs_eq
  exact eq_of_map_eq hinj hxs hys h

/-- If a list's second level is above the second level of another list, the list is above that one. -/
theorem above_of_level_above_level (hinj : Set.InjOn (fun p ↦ pair p.1 p.2) S)
    (hxs : hashedPairs pair xs ⊆ S) (hys : hashedPairs pair ys ⊆ S) (hlong : 1 < xs.length)
    (hlong' : 1 < ys.length) (h : Above pair (level pair xs) (level pair ys)) :
    Above pair xs ys ∨ ¬ xs.Nodup ∨ ¬ ys.Nodup := by
  have hself : ∀ p ∈ levelPairs ys, p ∈ S := levelPairs_subset hys .refl hlong'
  have hstep : Above pair xs (level pair xs) := .single ⟨hlong, rfl⟩
  rcases Relation.ReflTransGen.cases_tail h with heq | ⟨us, hbelow, hus, heq⟩
  · rcases eq_or_not_nodup_of_level_eq hinj (levelPairs_subset hxs .refl hlong) hself heq.symm
      with rfl | hdup
    · exact .inl .refl
    · exact .inr hdup
  · have habove : Above pair xs us := hstep.trans hbelow
    rcases eq_or_not_nodup_of_level_eq hinj (levelPairs_subset hxs habove hus) hself heq.symm
      with rfl | hdup | hdup
    · exact .inl habove
    · exact .inr (.inl fun hnodup ↦ hdup (nodup_of_above hinj hxs habove hnodup))
    · exact .inr (.inr hdup)

/-- Two lists below one root are levels of one tree, up to duplicates. -/
theorem above_of_root_eq (hinj : Set.InjOn (fun p ↦ pair p.1 p.2) S) {r : α}
    (hxs : hashedPairs pair xs ⊆ S) (hys : hashedPairs pair ys ⊆ S) (hroot : Above pair xs [r])
    (hroot' : Above pair ys [r]) :
    Above pair xs ys ∨ Above pair ys xs ∨ ¬ xs.Nodup ∨ ¬ ys.Nodup := by
  induction hroot using Relation.ReflTransGen.head_induction_on generalizing ys with
  | refl => exact .inr (.inl hroot')
  | head hstep habove ih =>
    rename_i us vs
    obtain ⟨hlong, rfl⟩ := hstep
    rcases Relation.ReflTransGen.cases_head hroot' with rfl | ⟨ws, ⟨hlong', rfl⟩, habove'⟩
    · exact .inl (.head ⟨hlong, rfl⟩ habove)
    · have hup : us.Nodup → (level pair us).Nodup :=
        nodup_level hinj (levelPairs_subset hxs .refl hlong)
      have hup' : ys.Nodup → (level pair ys).Nodup :=
        nodup_level hinj (levelPairs_subset hys .refl hlong')
      rcases ih (hashedPairs_level_subset hxs hlong) (hashedPairs_level_subset hys hlong') habove'
        with hlevel | hlevel | hdup | hdup
      · rcases above_of_level_above_level hinj hxs hys hlong hlong' hlevel with h | hdup
        · exact .inl h
        · exact .inr (.inr hdup)
      · rcases above_of_level_above_level hinj hys hxs hlong' hlong hlevel with h | hdup | hdup
        · exact .inr (.inl h)
        · exact .inr (.inr (.inr hdup))
        · exact .inr (.inr (.inl hdup))
      · exact .inr (.inr (.inl fun hnodup ↦ hdup (hup hnodup)))
      · exact .inr (.inr (.inr fun hnodup ↦ hdup (hup' hnodup)))

/-- A list above another one and different from it holds the hash of a pair. -/
theorem eq_or_exists_pair_of_above (h : Above pair xs ys) :
    xs = ys ∨ ∃ p ∈ hashedPairs pair xs, pair p.1 p.2 ∈ ys := by
  rcases Relation.ReflTransGen.cases_tail h with rfl | ⟨us, habove, hlong, rfl⟩
  · exact .inl rfl
  · match us, hlong with
    | x :: y :: rest, hlong =>
      have hmem : (x, y) ∈ levelPairs (x :: y :: rest) := List.mem_cons_self
      exact .inr ⟨(x, y), ⟨_, habove, hlong, hmem⟩, List.mem_map_of_mem hmem⟩

/-- Two lists of leaves below one root are equal, or one of them has a duplicate. -/
theorem eq_or_not_nodup_of_root_eq (hinj : Set.InjOn (fun p ↦ pair p.1 p.2) S) {r : α}
    (hxs : hashedPairs pair xs ⊆ S) (hys : hashedPairs pair ys ⊆ S)
    (hleaf : ∀ p ∈ S, pair p.1 p.2 ∉ xs ∧ pair p.1 p.2 ∉ ys) (hroot : Above pair xs [r])
    (hroot' : Above pair ys [r]) : xs = ys ∨ ¬ xs.Nodup ∨ ¬ ys.Nodup := by
  rcases above_of_root_eq hinj hxs hys hroot hroot' with habove | habove | hdup
  · rcases eq_or_exists_pair_of_above habove with heq | ⟨p, hp, hmem⟩
    · exact .inl heq
    · exact absurd hmem (hleaf p (hxs hp)).2
  · rcases eq_or_exists_pair_of_above habove with heq | ⟨p, hp, hmem⟩
    · exact .inl heq.symm
    · exact absurd hmem (hleaf p (hys hp)).1
  · exact .inr hdup

end Collisions

end Electra.Foundations.HashTree
