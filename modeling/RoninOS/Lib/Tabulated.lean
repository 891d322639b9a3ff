/-
RoninOS.Lib.Tabulated — finite maps that a list of slots holds.

`Tabulates l key val m` says that the slots of `l` have distinct keys and that
`m` is the map from their keys to their values. A slot that is added, changed
or taken out of the list inserts or erases its key, and the map has as many
keys as the list has slots.
-/
import Mathlib.Data.Finmap
import Mathlib.Data.Finset.Card

namespace RoninOS.Lib

variable {ι K V : Type*} [DecidableEq K]

/-- The map from the keys of the slots to their values. -/
structure Tabulates (l : List ι) (key : ι → K) (val : ι → V) (m : Finmap fun _ : K => V) :
    Prop where
  nodup : (l.map key).Nodup
  lookup_iff : ∀ k v, m.lookup k = some v ↔ ∃ i ∈ l, key i = k ∧ val i = v

namespace Tabulates

variable {l : List ι} {key key' : ι → K} {val val' : ι → V} {m : Finmap fun _ : K => V}

theorem nil : Tabulates [] key val ∅ where
  nodup := List.nodup_nil
  lookup_iff k v := by simp

/-- Distinct slots have distinct keys. -/
theorem inj (h : Tabulates l key val m) {i j : ι} (hi : i ∈ l) (hj : j ∈ l)
    (hkey : key i = key j) : i = j :=
  List.inj_on_of_nodup_map h.nodup hi hj hkey

theorem lookup_of_mem (h : Tabulates l key val m) {i : ι} (hi : i ∈ l) :
    m.lookup (key i) = some (val i) :=
  (h.lookup_iff _ _).mpr ⟨i, hi, rfl, rfl⟩

theorem lookup_of_absent (h : Tabulates l key val m) {k : K} (hk : ∀ i ∈ l, key i ≠ k) :
    m.lookup k = none := by
  cases hv : m.lookup k with
  | none => rfl
  | some v =>
      obtain ⟨i, hi, hkey, -⟩ := (h.lookup_iff k v).mp hv
      exact absurd hkey (hk i hi)

theorem mem_iff (h : Tabulates l key val m) {k : K} : k ∈ m ↔ ∃ i ∈ l, key i = k := by
  rw [Finmap.mem_iff]
  constructor
  · rintro ⟨v, hv⟩
    obtain ⟨i, hi, hkey, -⟩ := (h.lookup_iff k v).mp hv
    exact ⟨i, hi, hkey⟩
  · rintro ⟨i, hi, rfl⟩
    exact ⟨_, h.lookup_of_mem hi⟩

/-- The map has as many keys as there are slots. -/
theorem card_keys (h : Tabulates l key val m) : m.keys.card = l.length := by
  have hkeys : m.keys = (l.map key).toFinset := by
    ext k
    rw [Finmap.mem_keys, h.mem_iff, List.mem_toFinset, List.mem_map]
  rw [hkeys, List.toFinset_card_of_nodup h.nodup, List.length_map]

/-- Only the keys and values of the slots of the list matter. -/
theorem congr (h : Tabulates l key val m) (hkey : ∀ i ∈ l, key' i = key i)
    (hval : ∀ i ∈ l, val' i = val i) : Tabulates l key' val' m where
  nodup := by
    rw [List.map_congr_left hkey]
    exact h.nodup
  lookup_iff k v := by
    rw [h.lookup_iff]
    constructor
    · rintro ⟨i, hi, hk, hv⟩
      exact ⟨i, hi, (hkey i hi).trans hk, (hval i hi).trans hv⟩
    · rintro ⟨i, hi, hk, hv⟩
      exact ⟨i, hi, (hkey i hi).symm.trans hk, (hval i hi).symm.trans hv⟩

/-- The order of the slots does not matter. -/
theorem perm {l' : List ι} (h : Tabulates l key val m) (hperm : l.Perm l') :
    Tabulates l' key val m where
  nodup := (hperm.map key).nodup_iff.mp h.nodup
  lookup_iff k v := by
    rw [h.lookup_iff]
    simp only [hperm.mem_iff]

/-- A slot with a new key. -/
theorem cons (h : Tabulates l key val m) {j : ι} (hnew : ∀ i ∈ l, key i ≠ key j) :
    Tabulates (j :: l) key val (m.insert (key j) (val j)) where
  nodup := by
    rw [List.map_cons, List.nodup_cons, List.mem_map]
    exact ⟨fun ⟨i, hi, hkey⟩ => hnew i hi hkey, h.nodup⟩
  lookup_iff k v := by
    by_cases hk : k = key j
    · subst hk
      rw [Finmap.lookup_insert, Option.some.injEq]
      constructor
      · rintro rfl
        exact ⟨j, List.mem_cons_self .., rfl, rfl⟩
      · rintro ⟨i, hi, hkey, hval⟩
        rcases List.mem_cons.mp hi with rfl | hi
        · exact hval
        · exact absurd hkey (hnew i hi)
    · rw [Finmap.lookup_insert_of_ne _ hk, h.lookup_iff]
      constructor
      · rintro ⟨i, hi, hkey, hval⟩
        exact ⟨i, List.mem_cons_of_mem _ hi, hkey, hval⟩
      · rintro ⟨i, hi, hkey, hval⟩
        rcases List.mem_cons.mp hi with rfl | hi
        · exact absurd hkey.symm hk
        · exact ⟨i, hi, hkey, hval⟩

/-- A slot with another value. -/
theorem set (h : Tabulates l key val m) {j : ι} (hj : j ∈ l)
    (hval : ∀ i ∈ l, i ≠ j → val' i = val i) :
    Tabulates l key val' (m.insert (key j) (val' j)) where
  nodup := h.nodup
  lookup_iff k v := by
    by_cases hk : k = key j
    · subst hk
      rw [Finmap.lookup_insert, Option.some.injEq]
      constructor
      · rintro rfl
        exact ⟨j, hj, rfl, rfl⟩
      · rintro ⟨i, hi, hkey, hv⟩
        rw [h.inj hi hj hkey] at hv
        exact hv
    · rw [Finmap.lookup_insert_of_ne _ hk, h.lookup_iff]
      have hne : ∀ i, key i = k → i ≠ j := fun i hi hij => hk (by rw [← hi, hij])
      constructor
      · rintro ⟨i, hi, hkey, hv⟩
        exact ⟨i, hi, hkey, (hval i hi (hne i hkey)).trans hv⟩
      · rintro ⟨i, hi, hkey, hv⟩
        exact ⟨i, hi, hkey, (hval i hi (hne i hkey)).symm.trans hv⟩

/-- A slot taken out. -/
theorem erase [DecidableEq ι] (h : Tabulates l key val m) {j : ι} (hj : j ∈ l) :
    Tabulates (l.erase j) key val (m.erase (key j)) where
  nodup := h.nodup.sublist (List.erase_sublist.map key)
  lookup_iff k v := by
    have hnodup : l.Nodup := h.nodup.of_map
    by_cases hk : k = key j
    · subst hk
      rw [Finmap.lookup_erase]
      constructor
      · intro hv
        cases hv
      · rintro ⟨i, hi, hkey, -⟩
        obtain ⟨hij, hi⟩ := hnodup.mem_erase_iff.mp hi
        exact absurd (h.inj hi hj hkey) hij
    · rw [Finmap.lookup_erase_ne hk, h.lookup_iff]
      constructor
      · rintro ⟨i, hi, hkey, hval⟩
        refine ⟨i, hnodup.mem_erase_iff.mpr ⟨?_, hi⟩, hkey, hval⟩
        rintro rfl
        exact hk hkey.symm
      · rintro ⟨i, hi, hkey, hval⟩
        exact ⟨i, (hnodup.mem_erase_iff.mp hi).2, hkey, hval⟩

end Tabulates

end RoninOS.Lib
