import Mathlib.Data.Set.Function
import Std.Data.TreeMap.Lemmas

/-!
# A directory of items

A map that has, for each item of a list, its value under its address, and nothing else.  Two items
that share an address would overwrite each other, so the addresses are assumed to be different.
-/

namespace Electra.Foundations

open Std (TreeMap TransCmp LawfulEqCmp)

variable {ι κ β : Type*} {cmp : κ → κ → Ordering}

def Directory (address : ι → κ) (value : ι → β) (items : List ι) (map : TreeMap κ β cmp) : Prop :=
  ∀ key b, map[key]? = some b ↔ ∃ item ∈ items, address item = key ∧ value item = b

namespace Directory

variable {address : ι → κ} {value : ι → β} {items items' : List ι} {map : TreeMap κ β cmp}

theorem of_isEmpty [TransCmp cmp] (hmap : map.isEmpty = true) :
    Directory address value [] map := by
  intro key b
  simp [TreeMap.getElem?_of_isEmpty hmap]

theorem isEmpty_nil [TransCmp cmp] [LawfulEqCmp cmp] (h : Directory address value [] map) :
    map.isEmpty = true := by
  rw [← TreeMap.isEmpty_toList, List.isEmpty_iff, List.eq_nil_iff_forall_not_mem]
  rintro ⟨key, b⟩ hentry
  obtain ⟨item, hitem, -⟩ := (h key b).mp (TreeMap.mem_toList_iff_getElem?_eq_some.mp hentry)
  cases hitem

theorem congr (h : Directory address value items map)
    (hitems : ∀ item, item ∈ items ↔ item ∈ items') : Directory address value items' map := by
  intro key b
  rw [h key b]
  simp only [hitems]

theorem insert [TransCmp cmp] [LawfulEqCmp cmp] {item : ι}
    (h : Directory address value items map)
    (hinj : ∀ other ∈ items, address other = address item → other = item) :
    Directory address value (item :: items) (map.insert (address item) (value item)) := by
  intro key b
  rw [TreeMap.getElem?_insert]
  by_cases hkey : address item = key
  · subst hkey
    have hself : cmp (address item) (address item) = .eq := Std.ReflCmp.compare_self
    rw [if_pos hself]
    constructor
    · intro hb
      exact ⟨item, List.mem_cons_self, rfl, Option.some_inj.mp hb⟩
    · rintro ⟨other, hother, haddress, rfl⟩
      rcases List.mem_cons.mp hother with rfl | hother
      · rfl
      · rw [hinj other hother haddress]
  · have hne : cmp (address item) key ≠ .eq := fun heq ↦ hkey (Std.LawfulEqCmp.eq_of_compare heq)
    rw [if_neg hne, h key b]
    constructor
    · rintro ⟨other, hother, hvalue⟩
      exact ⟨other, List.mem_cons_of_mem item hother, hvalue⟩
    · rintro ⟨other, hother, haddress, hvalue⟩
      rcases List.mem_cons.mp hother with rfl | hother
      · exact absurd haddress hkey
      · exact ⟨other, hother, haddress, hvalue⟩

theorem getElem? (h : Directory address value items map) {item : ι} (hitem : item ∈ items) :
    map[address item]? = some (value item) :=
  (h _ _).mpr ⟨item, hitem, rfl, rfl⟩

/-- The entries, in the order of their addresses, are those of some of the items. -/
theorem exists_toList [TransCmp cmp] [LawfulEqCmp cmp] (h : Directory address value items map) :
    ∃ ordered : List ι, map.toList = ordered.map (fun item ↦ (address item, value item)) ∧
      ∀ item ∈ ordered, item ∈ items := by
  have hentries : ∀ entry ∈ map.toList, ∃ item ∈ items, (address item, value item) = entry := by
    rintro ⟨key, b⟩ hentry
    obtain ⟨item, hitem, rfl, rfl⟩ := (h key b).mp (TreeMap.mem_toList_iff_getElem?_eq_some.mp hentry)
    exact ⟨item, hitem, rfl⟩
  generalize map.toList = entries at hentries
  induction entries with
  | nil => exact ⟨[], rfl, by simp⟩
  | cons entry entries ih =>
      obtain ⟨item, hitem, hentry⟩ := hentries entry List.mem_cons_self
      obtain ⟨ordered, hordered, hmem⟩ :=
        ih fun other hother ↦ hentries other (List.mem_cons_of_mem entry hother)
      refine ⟨item :: ordered, ?_, ?_⟩
      · rw [List.map_cons, hentry, hordered]
      · exact List.forall_mem_cons.mpr ⟨hitem, hmem⟩

/-- Where addresses differ, they are the entries of all items. -/
theorem mem_of_toList [TransCmp cmp] [LawfulEqCmp cmp] (h : Directory address value items map)
    {ordered : List ι} (htoList : map.toList = ordered.map (fun item ↦ (address item, value item)))
    (hinj : ∀ other ∈ ordered, ∀ item ∈ items, address other = address item → other = item)
    {item : ι} (hitem : item ∈ items) : item ∈ ordered := by
  have hentry := TreeMap.mem_toList_iff_getElem?_eq_some.mpr (h.getElem? hitem)
  rw [htoList] at hentry
  obtain ⟨other, hother, heq⟩ := List.mem_map.mp hentry
  rw [← hinj other hother item hitem (Prod.ext_iff.mp heq).1]
  exact hother

theorem toList_ne_nil [TransCmp cmp] [LawfulEqCmp cmp]
    (h : Directory address value items map) (hitems : items ≠ []) : map.toList ≠ [] := by
  obtain ⟨item, hitem⟩ := List.exists_mem_of_ne_nil items hitems
  have hentry := TreeMap.mem_toList_iff_getElem?_eq_some.mpr (h.getElem? hitem)
  exact List.ne_nil_of_mem hentry

end Directory

/-! ## Maps with one entry -/

section Single

variable {map : TreeMap κ β cmp} [TransCmp cmp] [BEq κ] [Std.LawfulBEqCmp cmp]

theorem toList_insert_of_isEmpty (hmap : map.isEmpty = true) (key : κ) (b : β) :
    (map.insert key b).toList = [(key, b)] := by
  have hnil : map.toList = [] := by
    rw [← List.isEmpty_iff, TreeMap.isEmpty_toList, hmap]
  have hperm := TreeMap.toList_insert_perm (t := map) (k := key) (v := b)
  rw [hnil, List.filter_nil] at hperm
  exact List.perm_singleton.mp hperm

/-- Writing to the only key there is. -/
theorem toList_insert_of_single {key : κ} {b : β} (hmap : map.toList = [(key, b)]) (b' : β) :
    (map.insert key b').toList = [(key, b')] := by
  have hself : (key == key) = true :=
    Std.LawfulBEqCmp.compare_eq_iff_beq.mp (Std.ReflCmp.compare_self : cmp key key = .eq)
  have hperm := TreeMap.toList_insert_perm (t := map) (k := key) (v := b')
  rw [hmap, List.filter_cons_of_neg (by simp [hself]), List.filter_nil] at hperm
  exact List.perm_singleton.mp hperm

end Single

end Electra.Foundations
