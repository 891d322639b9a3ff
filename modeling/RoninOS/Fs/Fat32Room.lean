/-
RoninOS.Fs.Fat32Room — a formatted volume never runs out of clusters.

`fat32_format` writes the first sector of each FAT, but not the rest, so that
clusters from 128 on may stay marked for ever. The 125 data clusters of the first
sector are enough: on a device that works each one that is marked is that of a
file (`LowOwned`), and the root directory has 16 entries.
-/
import RoninOS.Fs.Fat32Accounting
import RoninOS.Fs.Fat32Map
import Mathlib.Data.Finset.Card
import Mathlib.Order.Interval.Finset.Nat

namespace RoninOS.Fs

open RoninOS.Lib

/-! ## The invariant -/

/-- Every marked data cluster with its entry in the first sector of the FAT is that of
a file. -/
def LowOwned (fs : Fat32Fs) (s : Nat → Mem) (slots : List (Option RootFile)) : Prop :=
  ∀ c, 3 ≤ c → c < 128 → fatEntry fs s c ≠ 0 →
    ∃ (i : Nat) (f : RootFile), slots[i]? = some (some f) ∧ f.cluster = c

/-- A volume whose first clusters are not lost, and that has as many of them. -/
structure Roomy (fs : Fat32Fs) (s : Nat → Mem) (slots : List (Option RootFile)) : Prop where
  ok : VolOk fs s slots
  owned : LowOwned fs s slots
  enough : 128 ≤ fs.totalClusters + 2

section Keep

variable {fs : Fat32Fs} {s : Nat → Mem} {slots : List (Option RootFile)} {i c : Nat}

/-- Emptying a slot without a file loses no owner. -/
theorem LowOwned.vacate (h : LowOwned fs s slots) (hi : i ≤ slots.length)
    (hempty : ∀ f : RootFile, slots[i]? ≠ some (some f)) : LowOwned fs s (putSlot slots i none) := by
  intro c h3 hc hmarked
  obtain ⟨j, f, hj, hcluster⟩ := h c h3 hc hmarked
  refine ⟨j, f, (getElem?_putSlot_none hi).mpr ⟨?_, hj⟩, hcluster⟩
  intro heq
  exact hempty f (heq ▸ hj)

section Volume

variable (hg : Geometry fs) (henough : 128 ≤ fs.totalClusters + 2)
include hg henough

/-- The data area may change. -/
theorem LowOwned.data {lba : Nat} {m : Mem} (h : LowOwned fs s slots)
    (hlba : fs.dataStartLba ≤ lba) : LowOwned fs (Function.update s lba m) slots := by
  intro c h3 hc hmarked
  rw [fatEntry_data hg (by omega) hlba] at hmarked
  exact h c h3 hc hmarked

/-- The entry of another cluster in the first sector after `fat_set`. -/
theorem fatEntry_setBoth_low {k v : Nat} (hc : c < 128 * fs.sectorsPerFat)
    (hc2 : c < fs.totalClusters + 2) (hk : k < 128) (hv : v < 2 ^ 32) :
    fatEntry fs (setBoth fs s c v) k = if k = c then v &&& 0x0FFFFFFF else fatEntry fs s k := by
  have hpos := hg.fat_pos
  exact fatEntry_setBoth hg hc hc2 (by omega) (by omega) hv

/-- Freeing the cluster of a file that leaves its slot. -/
theorem LowOwned.free {f : RootFile} (h : LowOwned fs s slots) (hok : VolOk fs s slots)
    (hf : slots[i]? = some (some f)) :
    LowOwned fs (setBoth fs s f.cluster 0) (putSlot slots i none) := by
  obtain ⟨hfc, hfc2⟩ := hok.files.cluster_lt i f hf
  intro k h3 hk hmarked
  rw [fatEntry_setBoth_low hg henough hfc hfc2 hk (by decide)] at hmarked
  split at hmarked
  · exact absurd rfl hmarked
  · rename_i hne
    obtain ⟨j, g, hj, rfl⟩ := h k h3 hk hmarked
    refine ⟨j, g, (getElem?_putSlot_none (slot_lt hf).le).mpr ⟨?_, hj⟩, rfl⟩
    intro heq
    rw [heq] at hj
    obtain rfl : f = g := Option.some.inj (Option.some.inj (hf.symm.trans hj))
    exact hne rfl

/-- Marking the cluster of a file that enters a slot. -/
theorem LowOwned.enter {sec m : Mem} {name83 : List UInt8} {len n : Nat}
    (h : LowOwned fs s (putSlot slots i none)) (hfat : FatOk fs s) (hi : i ≤ slots.length)
    (hfirst : FirstFree fs n s c) :
    LowOwned fs
      (Function.update (enterSectors fs s sec (32 * i) name83 c len) (clusterToLba fs c) m)
      (putSlot slots i (some ⟨name83, c, len⟩)) := by
  obtain ⟨h3, hc, hc2⟩ := hfirst.data_cluster hfat
  have hmarked : LowOwned fs (setBoth fs s c fat32Eoc) (putSlot slots i (some ⟨name83, c, len⟩)) := by
    intro k hk3 hk hne
    rw [fatEntry_setBoth_low hg henough hc hc2 hk (by decide)] at hne
    split at hne
    · rename_i heq
      exact ⟨i, _, by rw [getElem?_putSlot hi, if_pos rfl], heq.symm⟩
    · obtain ⟨j, f, hj, hcluster⟩ := h k hk3 hk hne
      obtain ⟨hother, hslot⟩ := (getElem?_putSlot_none hi).mp hj
      exact ⟨j, f, by rw [getElem?_putSlot hi, if_neg hother]; exact hslot, hcluster⟩
  exact (hmarked.data hg henough (le_refl _)).data hg henough
    (hg.dataStart_lt_clusterToLba h3 hc2).le

end Volume

/-! ## The reserved sectors -/

/-- The sectors before the FATs are the same. -/
def SameReserved (s s' : Nat → Mem) : Prop := ∀ lba < 32, s' lba = s lba

section Reserved

variable (hg : Geometry fs)
include hg

theorem sameReserved_data {s' : Nat → Mem} {lba : Nat} {m : Mem} (h : SameReserved s s')
    (hlba : fs.dataStartLba ≤ lba) : SameReserved s (Function.update s' lba m) := by
  intro k hk
  have hstart := hg.dataStart
  rw [Function.update_of_ne (by omega)]
  exact h k hk

theorem sameReserved_setBoth {v : Nat} (hc2 : c < fs.totalClusters + 2) :
    SameReserved s (setBoth fs s c v) := by
  intro k hk
  have heq := hg.fatLba_eq hc2
  rw [setBoth, setFirst, Function.update_of_ne (by omega), Function.update_of_ne (by omega)]

theorem sameReserved_enter {s' : Nat → Mem} {sec m : Mem} {off len n : Nat} {name83 : List UInt8}
    (h : SameReserved s s') (hfat : FatOk fs s') (hfirst : FirstFree fs n s' c) :
    SameReserved s
      (Function.update (enterSectors fs s' sec off name83 c len) (clusterToLba fs c) m) := by
  obtain ⟨h3, -, hc2⟩ := hfirst.data_cluster hfat
  have hmarked : SameReserved s (setBoth fs s' c fat32Eoc) := by
    intro k hk
    rw [sameReserved_setBoth hg hc2 k hk]
    exact h k hk
  exact sameReserved_data hg (sameReserved_data hg hmarked (le_refl _))
    (hg.dataStart_lt_clusterToLba h3 hc2).le

end Reserved

/-! ## One call -/

section Calls

variable (hg : Geometry fs) (hworks : ∀ n, fs.dev.fails n = false)
include hg hworks

/-- `fat32_write_file`, on a device that works. -/
theorem Roomy.write {d : Disk} (h : Roomy fs d.sectors slots) (name data : List UInt8) :
    (∃ slots', Roomy fs (fat32WriteFile fs name data d).2.sectors slots') ∧
      SameReserved d.sectors (fat32WriteFile fs name data d).2.sectors := by
  have hsame : SameReserved d.sectors d.sectors := fun _ _ => rfl
  by_cases haccepted : data.length ≤ 512 ∧ ∃ name83, makeName83 name = some name83
  · obtain ⟨hlen, name83, hname⟩ := haccepted
    have hgood := makeName83_good hname
    have houtcome := fat32WriteFile_outcome hg h.ok.shape hname hlen
    generalize fat32WriteFile fs name data d = r at houtcome
    cases houtcome with
    | unread hfail => simp [hworks] at hfail
    | full _ _ _ _ hsectors => exact ⟨⟨slots, hsectors ▸ h⟩, fun lba _ => congrFun hsectors lba⟩
    | @fresh i _ _ hmiss hi hi16 hempty _ hr =>
        rcases hr.works hworks with ⟨c, hfirst, -, hsectors⟩ | ⟨-, -, hsectors⟩
        · have habsent := hmiss.resolve_left (by simp [hworks])
          obtain ⟨h3, -, hc2⟩ := hfirst.data_cluster h.ok.fat
          have hok := VolOk.enter hg h.ok.fat h.ok.dir (h.ok.files.vacate hi) hi hi16 hgood hlen
            hfirst fun j f _ hj => habsent j f hj
          rw [hsectors]
          exact ⟨⟨_, hok.data hg (hg.dataStart_lt_clusterToLba h3 hc2),
            (h.owned.vacate hi hempty).enter hg h.enough h.ok.fat hi hfirst, h.enough⟩,
            sameReserved_enter hg hsame h.ok.fat hfirst⟩
        · exact ⟨⟨slots, hsectors ▸ h⟩, fun lba _ => congrFun hsectors lba⟩
    | unfreed _ _ _ _ hfail => simp [hworks] at hfail
    | halfFreed _ _ _ _ _ _ hfail => simp [hworks] at hfail
    | @freed i f _ _ _ hf hname _ _ _ hr =>
        obtain ⟨hfc, hfc2⟩ := h.ok.files.cluster_lt i f hf
        have hthree := h.ok.files.three_le i f hf
        have hi := slot_lt hf
        have hfat := h.ok.fat.setBoth hg hthree hfc hfc2 (show 0 < 2 ^ 32 by decide)
        rcases hr.works hworks with ⟨c, hfirst, -, hsectors⟩ | ⟨hnone, -, -⟩
        · obtain ⟨h3, -, hc2⟩ := hfirst.data_cluster hfat
          have hok := VolOk.enter hg hfat h.ok.dir (h.ok.files.free hg hf) hi.le
            (Nat.lt_of_lt_of_le hi h.ok.dir.length_le) hgood hlen hfirst
            fun j g hne hj heq => hne (h.ok.same_slot hj hf heq hname)
          rw [hsectors]
          exact ⟨⟨_, hok.data hg (hg.dataStart_lt_clusterToLba h3 hc2),
            (h.owned.free hg h.enough h.ok hf).enter hg h.enough hfat hi.le hfirst, h.enough⟩,
            sameReserved_enter hg (sameReserved_setBoth hg hfc2) hfat hfirst⟩
        · exact absurd (fatEntry_freed hg hfc hfc2) (hnone _ (by omega) hfc2)
  · obtain ⟨e, hrefused⟩ := fat32WriteFile_refused hg haccepted
    rw [hrefused]
    exact ⟨⟨slots, h⟩, hsame⟩

/-- `fat32_delete_file`, on a device that works. -/
theorem Roomy.delete {d : Disk} (h : Roomy fs d.sectors slots) (name : List UInt8) :
    (∃ slots', Roomy fs (fat32DeleteFile fs name d).2.sectors slots') ∧
      SameReserved d.sectors (fat32DeleteFile fs name d).2.sectors := by
  have hsame : SameReserved d.sectors d.sectors := fun _ _ => rfl
  cases hname : makeName83 name with
  | none =>
      rw [fat32DeleteFile, hname]
      exact ⟨⟨slots, h⟩, hsame⟩
  | some name83 =>
      have houtcome := fat32DeleteFile_outcome hg h.ok.shape hname
      generalize fat32DeleteFile fs name d = r at houtcome
      cases houtcome with
      | missing _ hsectors => exact ⟨⟨slots, hsectors ▸ h⟩, fun lba _ => congrFun hsectors lba⟩
      | unfreed _ _ hfail => simp [hworks] at hfail
      | halfFreed _ _ _ hfail => simp [hworks] at hfail
      | unmarked _ _ _ hfail => simp [hworks] at hfail
      | @deleted i f _ hf _ _ hsectors =>
          rw [hsectors]
          exact ⟨⟨_, h.ok.delete hg hf,
            (h.owned.free hg h.enough h.ok hf).data hg h.enough (le_refl _), h.enough⟩,
            sameReserved_data hg (sameReserved_setBoth hg (h.ok.files.cluster_lt i f hf).2)
              (le_refl _)⟩

/-- A call keeps the invariant and the reserved sectors. -/
theorem Roomy.op {d : Disk} (h : Roomy fs d.sectors slots) (op : FatOp) :
    (∃ slots', Roomy fs (runOp fs op d).2.sectors slots') ∧
      SameReserved d.sectors (runOp fs op d).2.sectors := by
  cases op with
  | write name data => exact h.write hg hworks name data
  | delete name => exact h.delete hg hworks name

/-- 16 files do not take 125 clusters. -/
theorem Roomy.someFree {d : Disk} (h : Roomy fs d.sectors slots) : someFree fs d = true := by
  rw [someFree_iff hg hworks]
  by_contra hnone
  have henough := h.enough
  have hslot : ∀ c ∈ Finset.Ico 3 128,
      ∃ (i : Nat) (f : RootFile), slots[i]? = some (some f) ∧ f.cluster = c := by
    intro c hc
    obtain ⟨h3, hlt⟩ := Finset.mem_Ico.mp hc
    exact h.owned c h3 hlt fun hfree => hnone ⟨c, by omega, by omega, hfree⟩
  choose! slotOf file hfile hcluster using hslot
  have hcard := Finset.card_le_card_of_injOn (s := Finset.Ico 3 128) (t := Finset.range rootEntries)
    slotOf (fun c hc => ?_) fun c hc c' hc' heq => ?_
  · rw [Nat.card_Ico, Finset.card_range] at hcard
    exact absurd hcard (by decide)
  · exact Finset.mem_coe.mpr (Finset.mem_range.mpr
      (Nat.lt_of_lt_of_le (slot_lt (hfile c hc)) h.ok.dir.length_le))
  · have hsame := hfile c' hc'
    rw [← heq, hfile c hc] at hsame
    rw [← hcluster c hc, ← hcluster c' hc', Option.some.inj (Option.some.inj hsame)]

end Calls

end Keep

/-! ## A fresh volume -/

/-- A fresh volume has 125 clusters in the first sector of its FAT, and all are free. -/
theorem Formatted.roomy {dev : BlockDev} {before d : Disk} {fs : Fat32Fs}
    (h : Formatted dev before fs d) (hhigh : dev.sectorCount ≤ fatSizeLimit) :
    Roomy fs d.sectors [] := by
  have henough : 128 ≤ fs.totalClusters + 2 := by
    obtain ⟨hg, hdev, htotal, -⟩ := h.spec hhigh
    obtain ⟨spf, hspf, rfl, -⟩ := h.layout
    obtain ⟨mid, hformat, -⟩ := h
    obtain ⟨-, -, hlow, -⟩ := fat32Format_some hformat
    obtain ⟨spf', hspf', -, hsmall, -⟩ := sizeFat_spec hlow hhigh
    obtain rfl := Option.some.inj (hspf.symm.trans hspf')
    have hfat : (formattedFs dev spf).sectorsPerFat = spf := rfl
    rw [hfat] at htotal
    omega
  refine ⟨h.volOk hhigh, fun c h3 hc hmarked => ?_, henough⟩
  rw [h.fatEntry_first hhigh hc (by omega), if_neg (by omega), if_neg (by omega)] at hmarked
  exact absurd rfl hmarked

end RoninOS.Fs
