/-
RoninOS.Fs.Fat32Damage — which sectors a call changes where the root directory
and the FAT hold anything.

`fat_set` makes a sector number of the cluster in the entry and compares it with
nothing. Everything else that a call writes goes to the FATs, to the root
directory's sector or to the sector of the cluster that it allocates; so a call
is `Confined` exactly where no sector behind the root directory's is among the
two that `fat_set` changes for the entry's cluster, the allocated cluster's
sector apart.
-/
import RoninOS.Fs.Fat32Faults
import RoninOS.Fs.Fat32Sizing

namespace RoninOS.Fs

open RoninOS.Lib

/-! ## The allocated cluster -/

/-- `fat32_write_file` up to `alloc_cluster`: the name, the slot and the
directory sector with which it goes on, unless it stops before. -/
def writeTarget (fs : Fat32Fs) (name data : List UInt8) (d : Disk) :
    Option (List UInt8 × Nat × Mem) × Disk :=
  if data.length > mul32 512 fs.sectorsPerCluster then (none, d)
  else
    match makeName83 name with
    | none => (none, d)
    | some name83 =>
        match fat32IoRead fs.dev (rootLba fs) d with
        | (none, d) => (none, d)
        | (some sec, d) =>
            match findRootEntry fs name83 d with
            | (some (_, off), d) =>
                if entryCluster sec off ≥ 2 then
                  match fatSet fs (entryCluster sec off) 0 d with
                  | (none, d) => (none, d)
                  | (some (), d) => (some (name83, off, sec), d)
                else (some (name83, off, sec), d)
            | (none, d) => ((freeSlotFrom sec rootEntries 0).map fun off => (name83, off, sec), d)

/-- The cluster that `alloc_cluster` returns in a call. -/
def opAllocates (fs : Fat32Fs) : FatOp → Disk → Option Nat
  | .write name data, d =>
      match writeTarget fs name data d with
      | (none, _) => none
      | (some _, d) => (allocCluster fs d).1
  | .delete _, _ => none

/-- `fat32_write_file` goes on from there with `writeEntry`, or it has stopped
before it copies anything. -/
theorem fat32WriteFile_branches (fs : Fat32Fs) (name data : List UInt8) (d : Disk) :
    (∃ name83 off sec d', writeTarget fs name data d = (some (name83, off, sec), d') ∧
      fat32WriteFile fs name data d = writeEntry fs name83 data (rootLba fs) off sec d') ∨
    (∃ msg d', writeTarget fs name data d = (none, d') ∧
      fat32WriteFile fs name data d = (.error msg, d') ∧ msg ≠ "write file data failed") := by
  unfold fat32WriteFile writeTarget
  split
  · exact Or.inr ⟨_, _, rfl, rfl, by decide⟩
  cases makeName83 name with
  | none => exact Or.inr ⟨_, _, rfl, rfl, by decide⟩
  | some name83 =>
      simp only
      rcases fat32IoRead fs.dev (rootLba fs) d with ⟨sec | sec, d₁⟩
      · exact Or.inr ⟨_, _, rfl, rfl, by decide⟩
      simp only [orFail_some]
      cases hfind : findRootEntry fs name83 d₁ with
      | mk found d₂ =>
          cases found with
          | none =>
              simp only
              cases freeSlotFrom sec rootEntries 0 with
              | none => exact Or.inr ⟨_, _, rfl, rfl, by decide⟩
              | some off => exact Or.inl ⟨_, _, _, _, rfl, rfl⟩
          | some entry =>
              obtain ⟨lba, off⟩ := entry
              obtain ⟨-, rfl, -, -⟩ := findRootEntry_some hfind
              simp only
              split
              · rcases fatSet fs (entryCluster sec off) 0 d₂ with ⟨_ | _, d₃⟩
                · exact Or.inr ⟨_, _, rfl, rfl, by decide⟩
                · exact Or.inl ⟨_, _, _, _, rfl, rfl⟩
              · exact Or.inl ⟨_, _, _, _, rfl, rfl⟩

theorem fat32WriteFile_target (fs : Fat32Fs) (name data : List UInt8) (d : Disk) :
    (fat32WriteFile fs name data d).2 =
      match writeTarget fs name data d with
      | (none, d) => d
      | (some (name83, off, sec), d) => (writeEntry fs name83 data (rootLba fs) off sec d).2 := by
  rcases fat32WriteFile_branches fs name data d with
    ⟨_, _, _, _, htarget, hrun⟩ | ⟨_, _, htarget, hrun, -⟩
  · rw [htarget, hrun]
  · rw [htarget, hrun]

/-! ## What a call may change -/

/-- A sector of the FATs. -/
def InFats (fs : Fat32Fs) (lba : Nat) : Prop :=
  fs.fatStartLba ≤ lba ∧ lba < fs.fatStartLba + fs.fatCount * fs.sectorsPerFat

/-- A sector that a call may change: one of the FATs, the root directory's or
that of the cluster which the call allocates. -/
def MayChange (fs : Fat32Fs) (op : FatOp) (d : Disk) (lba : Nat) : Prop :=
  InFats fs lba ∨ lba = rootLba fs ∨
    ∃ c, opAllocates fs op d = some c ∧ 2 ≤ c ∧ c < fs.totalClusters + 2 ∧ lba = clusterToLba fs c

/-- The bytes of two sectors differ. -/
def Differ (m m' : Mem) : Prop := ∃ b < 512, m b ≠ m' b

/-- The call changes no other sector. -/
def Confined (fs : Fat32Fs) (op : FatOp) (d : Disk) : Prop :=
  ∀ lba, Differ ((runOp fs op d).2.sectors lba) (d.sectors lba) → MayChange fs op d lba

/-! ## The cluster of the entry -/

/-- The name of a call. -/
def FatOp.name : FatOp → List UInt8
  | .write name _ => name
  | .delete name => name

/-- The data of a call fits a cluster. -/
def FatOp.Fits : FatOp → Prop
  | .write _ data => data.length ≤ 512
  | .delete _ => True

/-- The call gets as far as freeing cluster `k`, which is that of the entry it finds. -/
structure Frees (fs : Fat32Fs) (op : FatOp) (d : Disk) (k : Nat) : Prop where
  fits : op.Fits
  first : fs.dev.Serves (rootLba fs) d.requests
  second : fs.dev.Serves (rootLba fs) (d.requests + 1)
  entry : ∃ name83 off, makeName83 op.name = some name83 ∧
    findEntryFrom (d.sectors (rootLba fs)) name83 rootEntries 0 = some off ∧
    entryCluster (d.sectors (rootLba fs)) off = k
  cluster : 2 ≤ k

/-- From request `n` on, `alloc_cluster` returns cluster `c`. -/
structure Takes (fs : Fat32Fs) (n : Nat) (s : Nat → Mem) (c : Nat) : Prop
    extends Marks fs n s c where
  mirror : fs.dev.fails (n + c + 1) = false

/-- The sector with the entry of cluster `k` cleared, as `fat_set` writes it to
both copies. -/
def clearedSector (fs : Fat32Fs) (s : Nat → Mem) (k : Nat) : Mem :=
  st32 (s (fatLba fs k)) (fatOffset k) 0

/-- After freeing cluster `k`, a write takes the cluster of this sector. -/
def Retakes (fs : Fat32Fs) (d : Disk) (k lba : Nat) : FatOp → Prop
  | .write _ _ => fs.dev.Serves (fatLba fs k + fs.sectorsPerFat) (d.requests + 4) ∧
      ∃ c, Takes fs (d.requests + 5) d.sectors c ∧ lba = clusterToLba fs c
  | .delete _ => False

/-- Freeing cluster `k` changes a sector behind the root directory's, at the place
of the first copy or of the second, that the call does not take for its data. -/
def Redirects (fs : Fat32Fs) (op : FatOp) (d : Disk) (k : Nat) : Prop :=
  fs.dev.Serves (fatLba fs k) (d.requests + 2) ∧ fs.dev.Serves (fatLba fs k) (d.requests + 3) ∧
  ((rootLba fs < fatLba fs k ∧
      Differ (clearedSector fs d.sectors k) (d.sectors (fatLba fs k)) ∧
      ¬ Retakes fs d k (fatLba fs k) op) ∨
    (fs.dev.Serves (fatLba fs k + fs.sectorsPerFat) (d.requests + 4) ∧
      rootLba fs < fatLba fs k + fs.sectorsPerFat ∧
      Differ (clearedSector fs d.sectors k) (d.sectors (fatLba fs k + fs.sectorsPerFat)) ∧
      ¬ Retakes fs d k (fatLba fs k + fs.sectorsPerFat) op))

section Steps

variable {fs : Fat32Fs} {d : Disk} {name data : List UInt8} {k lba : Nat}

theorem not_differ_self (m : Mem) : ¬ Differ m m := by
  rintro ⟨b, -, hb⟩
  exact hb rfl

/-! ## Up to the release of the old cluster -/

/-- A write that frees an old cluster goes on behind `fat_set`. -/
theorem writeTarget_frees (hmax : mul32 512 fs.sectorsPerCluster = 512)
    (h : Frees fs (.write name data) d k) : ∃ target,
    writeTarget fs name data d
      = ((fatSet fs k 0 (d.tick 2)).1.map fun _ => target, (fatSet fs k 0 (d.tick 2)).2) := by
  obtain ⟨name83, off, hname, hfind, rfl⟩ := h.entry
  have hlen : data.length ≤ 512 := h.fits
  have hread : fat32IoRead fs.dev (rootLba fs) d = (some (d.sectors (rootLba fs)), d.tick 1) :=
    BlockDev.read_ok h.first
  have hlookup : findRootEntry fs name83 (d.tick 1) = (some (rootLba fs, off), d.tick 2) :=
    findRootEntry_found h.second hfind
  have hname : makeName83 name = some name83 := hname
  refine ⟨(name83, off, d.sectors (rootLba fs)), ?_⟩
  rw [writeTarget, hmax, if_neg (by omega), hname]
  simp only [hread, hlookup, if_pos h.cluster]
  rcases fatSet fs _ 0 (d.tick 2) with ⟨_ | _, d'⟩ <;> rfl

/-- A write that frees none has written nothing so far. -/
theorem writeTarget_keeps (hmax : mul32 512 fs.sectorsPerCluster = 512)
    (h : ∀ k, ¬ Frees fs (.write name data) d k) :
    (writeTarget fs name data d).2.sectors = d.sectors := by
  unfold writeTarget
  split
  · rfl
  rename_i hlen
  cases hname : makeName83 name with
  | none => rfl
  | some name83 =>
      simp only
      cases hread : fat32IoRead fs.dev (rootLba fs) d with
      | mk sec d₁ =>
          cases sec with
          | none => exact (congrArg (·.2.sectors) hread).symm.trans (BlockDev.read_sectors _ _ d)
          | some sec =>
              obtain ⟨hfirst, rfl, rfl⟩ := fat32IoRead_some hread
              have hsectors := findRootEntry_sectors fs name83 (d.tick 1)
              simp only
              cases hfind : findRootEntry fs name83 (d.tick 1) with
              | mk found d₂ =>
                  rw [hfind] at hsectors
                  cases found with
                  | none => exact hsectors
                  | some entry =>
                      obtain ⟨lba, off⟩ := entry
                      obtain ⟨hsecond, -, hentry, -⟩ := findRootEntry_some hfind
                      simp only
                      split
                      · rename_i hcluster
                        exact absurd ⟨by rw [hmax] at hlen; exact Nat.not_lt.mp hlen, hfirst, hsecond,
                          ⟨name83, off, hname, hentry, rfl⟩, hcluster⟩ (h _)
                      · exact hsectors

/-- A delete that frees a cluster changes, the root directory's sector apart,
what `fat_set` does. -/
theorem fat32DeleteFile_frees (h : Frees fs (.delete name) d k) (hlba : lba ≠ rootLba fs) :
    (fat32DeleteFile fs name d).2.sectors lba = (fatSet fs k 0 (d.tick 2)).2.sectors lba := by
  obtain ⟨name83, off, hname, hfind, rfl⟩ := h.entry
  have hlookup : findRootEntry fs name83 d = (some (rootLba fs, off), d.tick 1) :=
    findRootEntry_found h.first hfind
  have hread : fat32IoRead fs.dev (rootLba fs) (d.tick 1)
      = (some (d.sectors (rootLba fs)), d.tick 2) := BlockDev.read_ok h.second
  have hname : makeName83 name = some name83 := hname
  rw [fat32DeleteFile, hname]
  simp only [hlookup, orFail_some, hread, if_pos h.cluster]
  rcases fatSet fs _ 0 (d.tick 2) with ⟨_ | _, d'⟩
  · rfl
  · rw [orFail_some]
    exact orFail_keeps (P := fun d₁ => d₁.sectors lba = d'.sectors lba)
      (fat32IoWrite_of_ne hlba _ d') fun _ _ hkeeps => hkeeps

/-- A delete that frees none changes the root directory's sector at most. -/
theorem fat32DeleteFile_keeps (h : ∀ k, ¬ Frees fs (.delete name) d k) (hlba : lba ≠ rootLba fs) :
    (fat32DeleteFile fs name d).2.sectors lba = d.sectors lba := by
  unfold fat32DeleteFile
  cases hname : makeName83 name with
  | none => rfl
  | some name83 =>
      have hsectors := findRootEntry_sectors fs name83 d
      simp only
      cases hfind : findRootEntry fs name83 d with
      | mk found d₁ =>
          rw [hfind] at hsectors
          cases found with
          | none => exact congrFun hsectors lba
          | some entry =>
              obtain ⟨lba', off⟩ := entry
              obtain ⟨hfirst, rfl, hentry, rfl⟩ := findRootEntry_some hfind
              simp only [orFail_some]
              cases hread : fat32IoRead fs.dev (rootLba fs) (d.tick 1) with
              | mk sec d₂ =>
                  cases sec with
                  | none =>
                      have := BlockDev.read_sectors fs.dev (rootLba fs) (d.tick 1)
                      exact congrFun ((congrArg (·.2.sectors) hread).symm.trans this) lba
                  | some sec =>
                      obtain ⟨hsecond, rfl, rfl⟩ := fat32IoRead_some hread
                      simp only [orFail_some]
                      split
                      · rename_i hcluster
                        exact absurd ⟨trivial, hfirst, hsecond, ⟨name83, off, hname, hentry, rfl⟩,
                          hcluster⟩ (h _)
                      · exact orFail_keeps (P := fun d₁ => d₁.sectors lba = d.sectors lba)
                          (fat32IoWrite_of_ne hlba _ _) fun _ _ hkeeps => hkeeps

/-! ## From the allocation on -/

section Volume

/-- Clusters without an entry in the first FAT do not read as free. -/
def TailMarked (fs : Fat32Fs) (s : Nat → Mem) : Prop :=
  ∀ c, 128 * fs.sectorsPerFat ≤ c → c < fs.totalClusters + 2 → fatEntry fs s c ≠ 0

theorem FatCovers.tailMarked (hcovers : FatCovers fs) (s : Nat → Mem) : TailMarked fs s := by
  intro c h1 h2
  have hentries : fs.totalClusters + 2 ≤ 128 * fs.sectorsPerFat := hcovers
  omega

/-- The cluster that a scan takes has an entry there. -/
theorem FirstFree.lt_entries {n c : Nat} {s : Nat → Mem} (h : FirstFree fs n s c)
    (htail : TailMarked fs s) : c < 128 * fs.sectorsPerFat := by
  by_contra hhigh
  exact htail c (Nat.not_lt.mp hhigh) h.lt h.free.2

variable (hg : Geometry fs) (hcovers : FatCovers fs)
include hg

/-- The sectors that are not of the FATs lie before or behind them. -/
theorem inFats_iff : InFats fs lba ↔ 32 ≤ lba ∧ lba < fs.dataStartLba := by
  rw [InFats, hg.fatStart, hg.fatCount, hg.dataStart]

/-- `fat_set` on a cluster of the volume writes to the FATs only. -/
theorem setBoth_outside {s : Nat → Mem} {c v : Nat} (hc : c < 128 * fs.sectorsPerFat)
    (hc2 : c < fs.totalClusters + 2) (hlba : ¬ InFats fs lba) :
    setFirst fs s c v lba = s lba ∧ setBoth fs s c v lba = s lba := by
  rw [inFats_iff hg, hg.dataStart] at hlba
  have heq := hg.fatLba_eq hc2
  have hfirst : setFirst fs s c v lba = s lba := Function.update_of_ne (by omega) _ _
  exact ⟨hfirst, (Function.update_of_ne (by omega) _ _).trans hfirst⟩

/-- The clusters that `alloc_cluster` returns. -/
theorem allocCluster_iff {c : Nat} (htail : TailMarked fs d.sectors) :
    (allocCluster fs d).1 = some c ↔ Takes fs d.requests d.sectors c := by
  rcases hg.allocCluster_scan d with ⟨c', hfirst, heq⟩ | ⟨hnone, heq⟩
  · rw [heq, hg.takeCluster_eq hfirst.two_le (hfirst.lt_entries htail) hfirst.lt]
    constructor
    · intro h
      split_ifs at h with h1 h2 h3
      obtain rfl := Option.some.inj h
      exact ⟨⟨hfirst, by simpa using h1, by simpa using h2⟩, by simpa using h3⟩
    · intro h
      obtain rfl := h.first.unique hfirst
      simp [h.read, h.write, h.mirror]
  · rw [heq]
    refine iff_of_false (by simp) fun h => ?_
    exact hnone c h.first.two_le h.first.lt h.first.free

/-- `alloc_cluster` writes to the FATs only. -/
theorem allocCluster_outside (htail : TailMarked fs d.sectors) (hlba : ¬ InFats fs lba) :
    (allocCluster fs d).2.sectors lba = d.sectors lba := by
  rcases hg.allocCluster_scan d with ⟨c, hfirst, heq⟩ | ⟨hnone, heq⟩
  · have hc := hfirst.lt_entries htail
    obtain ⟨hset, hset'⟩ := @setBoth_outside _ _ hg d.sectors _ fat32Eoc hc hfirst.lt hlba
    rw [heq, hg.takeCluster_eq hfirst.two_le hc hfirst.lt]
    split_ifs
    · rfl
    · rfl
    · exact hset
    · exact hset'
  · rw [heq]

/-- `writeEntry` writes to the FATs, the root directory's sector and that of the
cluster it allocates. -/
theorem writeEntry_outside {name83 : List UInt8} {off : Nat} {sec : Mem}
    (htail : TailMarked fs d.sectors) (hlba : ¬ InFats fs lba) (hroot : lba ≠ rootLba fs)
    (hdata : ∀ c, (allocCluster fs d).1 = some c → lba ≠ clusterToLba fs c) :
    (writeEntry fs name83 data (rootLba fs) off sec d).2.sectors lba = d.sectors lba := by
  have halloc := allocCluster_outside hg htail hlba
  unfold writeEntry
  cases hr : allocCluster fs d with
  | mk found d₁ =>
      rw [hr] at halloc hdata
      cases found with
      | none => exact halloc
      | some c =>
          rw [orFail_some]
          refine orFail_keeps (P := fun d' => d'.sectors lba = d.sectors lba)
            ((fat32IoWrite_of_ne hroot _ d₁).trans halloc) fun _ d₂ h₂ => ?_
          exact orFail_keeps (P := fun d' => d'.sectors lba = d.sectors lba)
            ((fat32IoWrite_of_ne (hdata c rfl) _ d₂).trans h₂) fun _ _ h₃ => h₃

/-! ## The whole call -/

/-- A call that frees no cluster is confined. -/
theorem runOp_keeps_outside {op : FatOp} (h : ∀ k, ¬ Frees fs op d k)
    (htail : TailMarked fs d.sectors) (hlba : ¬ MayChange fs op d lba) : (runOp fs op d).2.sectors lba = d.sectors lba := by
  simp only [MayChange, not_or, not_exists, not_and] at hlba
  obtain ⟨hfats, hroot, hdata⟩ := hlba
  cases op with
  | delete name => exact fat32DeleteFile_keeps h hroot
  | write name data =>
      have htarget := writeTarget_keeps hg.cluster_bytes h
      rw [runOp, fat32WriteFile_target]
      simp only [opAllocates] at hdata
      generalize writeTarget fs name data d = target at htarget hdata ⊢
      obtain ⟨_ | ⟨name83, off, sec⟩, d'⟩ := target
      · exact congrFun htarget lba
      · have htail' : TailMarked fs d'.sectors := by
          rw [htarget]
          exact htail
        refine (writeEntry_outside hg htail' hfats hroot fun c hc => ?_).trans (congrFun htarget lba)
        have hfirst := ((allocCluster_iff hg htail').mp hc).first
        exact hdata c hc hfirst.two_le hfirst.lt

/-- A call that frees a cluster changes, outside of what it may, what `fat_set` does. -/
theorem runOp_frees_outside {op : FatOp} (h : Frees fs op d k)
    (htail : TailMarked fs (fatSet fs k 0 (d.tick 2)).2.sectors) (hlba : ¬ MayChange fs op d lba) :
    (runOp fs op d).2.sectors lba = (fatSet fs k 0 (d.tick 2)).2.sectors lba := by
  simp only [MayChange, not_or, not_exists, not_and] at hlba
  obtain ⟨hfats, hroot, hdata⟩ := hlba
  cases op with
  | delete name => exact fat32DeleteFile_frees h hroot
  | write name data =>
      obtain ⟨⟨name83, off, sec⟩, htarget⟩ := writeTarget_frees hg.cluster_bytes h
      rw [runOp, fat32WriteFile_target]
      simp only [opAllocates, htarget] at hdata ⊢
      generalize fatSet fs k 0 (d.tick 2) = freed at htail hdata ⊢
      obtain ⟨_ | _, d'⟩ := freed
      · rfl
      · refine writeEntry_outside hg htail hfats hroot fun c hc => ?_
        have hfirst := ((allocCluster_iff hg htail).mp hc).first
        exact hdata c hc hfirst.two_le hfirst.lt

omit hg in
/-- A scan sees the FAT entries only. -/
theorem Takes.congr {s s' : Nat → Mem} {n c : Nat} (h : Takes fs n s c)
    (heq : ∀ c < fs.totalClusters + 2, fatEntry fs s' c = fatEntry fs s c) : Takes fs n s' c := by
  obtain ⟨⟨⟨h2, hc, hfree, hfirst⟩, hread, hwrite⟩, hmirror⟩ := h
  refine ⟨⟨⟨h2, hc, ⟨hfree.1, (heq c hc).trans hfree.2⟩, fun k hk2 hk hk' => ?_⟩, hread, hwrite⟩,
    hmirror⟩
  exact hfirst k hk2 hk ⟨hk'.1, (heq k (by omega)).symm.trans hk'.2⟩

include hcovers

/-- Freeing a cluster whose entry lies behind the first FAT leaves its entries. -/
theorem fatEntry_setBoth_outside {s : Nat → Mem} (hk : rootLba fs < fatLba fs k + fs.sectorsPerFat)
    (c : Nat) (hc : c < fs.totalClusters + 2) :
    fatEntry fs (setBoth fs s k 0) c = fatEntry fs s c := by
  have hentries : fs.totalClusters + 2 ≤ 128 * fs.sectorsPerFat := hcovers
  have heq := hg.fatLba_eq hc
  rw [hg.rootLba_eq, hg.dataStart] at hk
  rw [fatEntry, fatEntry, setBoth, setFirst, Function.update_of_ne (by omega),
    Function.update_of_ne (by omega)]

/-- Where the freed entry lies behind the first FAT, the allocated cluster is the
one that the directory and the FAT before the call lead to. -/
theorem retakes_iff {op : FatOp} (h : Frees fs op d k)
    (hread : fs.dev.Serves (fatLba fs k) (d.requests + 2))
    (hwrite : fs.dev.Serves (fatLba fs k) (d.requests + 3))
    (hk : rootLba fs < fatLba fs k + fs.sectorsPerFat) :
    (∃ c, opAllocates fs op d = some c ∧ 2 ≤ c ∧ c < fs.totalClusters + 2 ∧
      lba = clusterToLba fs c) ↔ Retakes fs d k lba op := by
  have hentries := @fatEntry_setBoth_outside _ k hg hcovers d.sectors hk
  cases op with
  | delete name => exact iff_of_false (fun ⟨c, hc, _⟩ => by cases hc) id
  | write name data =>
      obtain ⟨target, htarget⟩ := writeTarget_frees hg.cluster_bytes h
      simp only [opAllocates, htarget]
      rw [hg.fatSet_serves, Disk.requests_tick, if_neg (not_not.mpr hread),
        if_neg (not_not.mpr hwrite)]
      by_cases hmirror : fs.dev.Serves (fatLba fs k + fs.sectorsPerFat) (d.requests + 4)
      · rw [if_neg (not_not.mpr hmirror)]
        simp only [Option.map_some, allocCluster_iff hg (hcovers.tailMarked _)]
        constructor
        · rintro ⟨c, htakes, -, -, hlba⟩
          exact ⟨hmirror, c, htakes.congr fun c hc => (hentries c hc).symm, hlba⟩
        · rintro ⟨-, c, htakes, hlba⟩
          exact ⟨c, htakes.congr hentries, htakes.first.two_le, htakes.first.lt, hlba⟩
      · rw [if_pos hmirror]
        exact iff_of_false (fun ⟨c, hc, _⟩ => by cases hc) fun ⟨h, _⟩ => hmirror h

omit hcovers in
/-- The sectors that freeing a cluster changes. -/
theorem freed_differ_iff : Differ ((fatSet fs k 0 (d.tick 2)).2.sectors lba) (d.sectors lba) ↔
    fs.dev.Serves (fatLba fs k) (d.requests + 2) ∧ fs.dev.Serves (fatLba fs k) (d.requests + 3) ∧
    ((lba = fatLba fs k ∧ Differ (clearedSector fs d.sectors k) (d.sectors lba)) ∨
      (fs.dev.Serves (fatLba fs k + fs.sectorsPerFat) (d.requests + 4) ∧
        lba = fatLba fs k + fs.sectorsPerFat ∧
        Differ (clearedSector fs d.sectors k) (d.sectors lba))) := by
  have hpos := hg.fat_pos
  have hsame := not_differ_self (d.sectors lba)
  have hfirst : setFirst fs d.sectors k 0 (fatLba fs k) = clearedSector fs d.sectors k :=
    Function.update_self _ _ _
  have hmirror : setBoth fs d.sectors k 0 (fatLba fs k + fs.sectorsPerFat)
      = clearedSector fs d.sectors k := Function.update_self _ _ _
  have hkeeps : lba ≠ fatLba fs k → setFirst fs d.sectors k 0 lba = d.sectors lba :=
    fun hne => Function.update_of_ne hne _ _
  have hkeeps' : lba ≠ fatLba fs k + fs.sectorsPerFat →
      setBoth fs d.sectors k 0 lba = setFirst fs d.sectors k 0 lba :=
    fun hne => Function.update_of_ne hne _ _
  rw [hg.fatSet_serves]
  simp only [Disk.requests_tick, Disk.sectors_tick, Nat.add_assoc, Nat.reduceAdd]
  by_cases hread : fs.dev.Serves (fatLba fs k) (d.requests + 2)
  swap
  · simp [hread, hsame]
  by_cases hwrite : fs.dev.Serves (fatLba fs k) (d.requests + 3)
  swap
  · simp [hread, hwrite, hsame]
  by_cases hplace : lba = fatLba fs k
  · subst hplace
    have hother : fatLba fs k ≠ fatLba fs k + fs.sectorsPerFat := by omega
    by_cases hserves : fs.dev.Serves (fatLba fs k + fs.sectorsPerFat) (d.requests + 4)
    · simp [hread, hwrite, hserves, hkeeps' hother, hfirst]
    · simp [hread, hwrite, hserves, hfirst]
  · by_cases hserves : fs.dev.Serves (fatLba fs k + fs.sectorsPerFat) (d.requests + 4)
    · by_cases hplace' : lba = fatLba fs k + fs.sectorsPerFat
      · subst hplace'
        simp [hread, hwrite, hserves, hmirror]
      · simp [hread, hwrite, hserves, hplace, hplace', hkeeps' hplace', hkeeps hplace, hsame]
    · simp [hread, hwrite, hserves, hplace, hkeeps hplace, hsame]

omit hcovers in
/-- Behind the FATs and the root directory a sector may change only as that of
the allocated cluster. -/
theorem mayChange_iff {op : FatOp} (hlba : 32 ≤ lba) : MayChange fs op d lba ↔
    lba ≤ rootLba fs ∨ ∃ c, opAllocates fs op d = some c ∧ 2 ≤ c ∧ c < fs.totalClusters + 2 ∧
      lba = clusterToLba fs c := by
  rw [MayChange, inFats_iff hg, hg.rootLba_eq, ← or_assoc]
  refine or_congr ⟨fun h => by omega, fun h => by omega⟩ Iff.rfl

omit hcovers in
theorem le_fatLba (k : Nat) : 32 ≤ fatLba fs k := by
  have hmul := mul32_lt k 4
  rw [fatLba, hg.fatStart, add32_of_lt (by omega)]
  omega

/-- A call that frees a cluster is confined unless that redirects it. -/
theorem confined_frees_iff {op : FatOp} (h : Frees fs op d k) :
    Confined fs op d ↔ ¬ Redirects fs op d k := by
  have hlow := le_fatLba hg k
  constructor
  · -- a redirected sector is one that the call may not change
    have hstray : ∀ {lba}, 32 ≤ lba → rootLba fs < lba →
        fs.dev.Serves (fatLba fs k) (d.requests + 2) → fs.dev.Serves (fatLba fs k) (d.requests + 3) →
        rootLba fs < fatLba fs k + fs.sectorsPerFat → ¬ Retakes fs d k lba op →
        ¬ MayChange fs op d lba := by
      intro lba h32 hlba hread hwrite hk hretakes hmay
      rcases (mayChange_iff hg h32).mp hmay with hle | halloc
      · omega
      · exact hretakes ((retakes_iff hg hcovers h hread hwrite hk).mp halloc)
    rintro hconfined ⟨hread, hwrite, ⟨hlba, hdiffer, hretakes⟩ | ⟨hserves, hlba, hdiffer, hretakes⟩⟩
    · have hstays := hstray hlow hlba hread hwrite (by omega) hretakes
      refine hstays (hconfined _ ?_)
      rw [runOp_frees_outside hg h (hcovers.tailMarked _) hstays, freed_differ_iff hg]
      exact ⟨hread, hwrite, Or.inl ⟨rfl, hdiffer⟩⟩
    · have hstays := hstray (by omega) hlba hread hwrite hlba hretakes
      refine hstays (hconfined _ ?_)
      rw [runOp_frees_outside hg h (hcovers.tailMarked _) hstays, freed_differ_iff hg]
      exact ⟨hread, hwrite, Or.inr ⟨hserves, rfl, hdiffer⟩⟩
  · intro hno lba hdiffer
    by_contra hstays
    rw [runOp_frees_outside hg h (hcovers.tailMarked _) hstays, freed_differ_iff hg] at hdiffer
    obtain ⟨hread, hwrite, hplace⟩ := hdiffer
    have h32 : 32 ≤ lba := by
      rcases hplace with ⟨rfl, -⟩ | ⟨-, rfl, -⟩ <;> omega
    have hlba : rootLba fs < lba := by
      by_contra hle
      exact hstays ((mayChange_iff hg h32).mpr (Or.inl (Nat.not_lt.mp hle)))
    have hretakes : rootLba fs < fatLba fs k + fs.sectorsPerFat → ¬ Retakes fs d k lba op :=
      fun hk hre => hstays ((mayChange_iff hg h32).mpr
        (Or.inr ((retakes_iff hg hcovers h hread hwrite hk).mpr hre)))
    rcases hplace with ⟨rfl, hdiffer⟩ | ⟨hserves, rfl, hdiffer⟩
    · exact hno ⟨hread, hwrite, Or.inl ⟨hlba, hdiffer, hretakes (by omega)⟩⟩
    · exact hno ⟨hread, hwrite, Or.inr ⟨hserves, hlba, hdiffer, hretakes hlba⟩⟩

end Volume

end Steps

/-- On a volume with the geometry of `fat32_format` and a FAT for all clusters,
whatever the root directory and the FAT hold and whatever requests fail, a call
is confined exactly where freeing the old cluster does not redirect it. -/
theorem confined_iff {fs : Fat32Fs} (hg : Geometry fs) (hcovers : FatCovers fs) (op : FatOp)
    (d : Disk) : Confined fs op d ↔ ∀ k, Frees fs op d k → ¬ Redirects fs op d k := by
  constructor
  · intro hconfined k h
    exact (confined_frees_iff hg hcovers h).mp hconfined
  · intro hno
    by_cases hfrees : ∃ k, Frees fs op d k
    · obtain ⟨k, h⟩ := hfrees
      exact (confined_frees_iff hg hcovers h).mpr (hno k h)
    · intro lba hdiffer
      by_contra hstays
      rw [runOp_keeps_outside hg (not_exists.mp hfrees) (hcovers.tailMarked _) hstays] at hdiffer
      exact not_differ_self _ hdiffer

theorem exampleFs_geometry : Geometry (formattedFs exampleDev 2) :=
  @geometry_formattedFs exampleDev 2 rfl (by decide) (by decide) (by decide) (by decide) (by decide)

/-- A disk whose root directory holds "A" with this cluster, and `0xFF` bytes
behind it. -/
def entryDisk (cluster : Nat) : Disk :=
  ⟨fun lba => if lba = 36 then putEntry zeroSector 0 (ascii "A          ") cluster 1
    else if lba < 36 then zeroSector else fun _ => 0xFF, 0⟩

/-- With a cluster of the volume the delete is confined. -/
theorem confined_entryDisk :
    Confined (formattedFs exampleDev 2) (.delete (ascii "A")) (entryDisk 3) := by
  refine (confined_iff exampleFs_geometry (by decide) _ _).mpr fun k h hredirects => ?_
  have hname : makeName83 (ascii "A") = some (ascii "A          ") := by decide
  have hfind : findEntryFrom ((entryDisk 3).sectors 36) (ascii "A          ") rootEntries 0 = some 0 := by
    decide +kernel
  have hcluster : entryCluster ((entryDisk 3).sectors 36) 0 = 3 := by decide +kernel
  obtain ⟨name83, off, hname', hfind', rfl⟩ := h.entry
  obtain rfl := Option.some.inj (hname.symm.trans hname')
  obtain rfl := Option.some.inj (hfind.symm.trans hfind')
  have hroot : rootLba (formattedFs exampleDev 2) = 36 := by decide
  rw [hroot, hcluster] at hredirects
  obtain ⟨-, -, ⟨hlba, -⟩ | ⟨-, hlba, -⟩⟩ := hredirects
  · exact absurd hlba (by decide)
  · exact absurd hlba (by decide)

/-- With cluster 640 `fat_set` clears four bytes of sector 37, which is the data
of cluster 3. -/
theorem delete_redirected : Geometry (formattedFs exampleDev 2) ∧ FatCovers (formattedFs exampleDev 2) ∧
    ¬ Confined (formattedFs exampleDev 2) (.delete (ascii "A")) (entryDisk 640) := by
  refine ⟨exampleFs_geometry, by decide, fun h => ?_⟩
  rcases h 37 ⟨0, by decide, by decide +kernel⟩ with ⟨-, hlt⟩ | heq | ⟨c, hc, -⟩
  · exact absurd hlt (by decide)
  · exact absurd heq (by decide)
  · cases hc

end RoninOS.Fs
