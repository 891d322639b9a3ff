/-
RoninOS.Fs.Fat32Faults — volumes on a disk whose requests fail.

`NoCrossLinks` says, in the bytes of the root sector and the FAT, that the live
entries have names and clusters of their own, none of them the root's and all
of them marked. `OpSafe` says for one call, from the volume before it and the
requests that fail, when the call keeps that: a lookup whose read fails must
not go on to make a second entry of the name, and once the first FAT has lost
an old cluster the directory must get as far as not naming it any more.
-/
import RoninOS.Fs.Fat32Volume

namespace RoninOS.Fs

open RoninOS.Lib

/-! ## The property -/

/-- The live root entries have clusters and names of their own; none has the
root cluster, and none a cluster whose FAT entry is free. -/
structure NoCrossLinks (fs : Fat32Fs) (s : Nat → Mem) : Prop where
  clusters : ∀ i j, SlotLive (s (rootLba fs)) i → SlotLive (s (rootLba fs)) j →
    entryCluster (s (rootLba fs)) (32 * i) = entryCluster (s (rootLba fs)) (32 * j) → i = j
  names : ∀ i j, SlotLive (s (rootLba fs)) i → SlotLive (s (rootLba fs)) j →
    bytesAt (s (rootLba fs)) (32 * i) 11 = bytesAt (s (rootLba fs)) (32 * j) 11 → i = j
  not_root : ∀ i, SlotLive (s (rootLba fs)) i →
    entryCluster (s (rootLba fs)) (32 * i) ≠ fs.rootCluster
  allocated : ∀ i, SlotLive (s (rootLba fs)) i →
    fatEntry fs s (entryCluster (s (rootLba fs)) (32 * i)) ≠ 0

/-- A call on the volume. -/
inductive FatOp
  | write (name data : List UInt8)
  | delete (name : List UInt8)

/-- What a call returns and leaves. -/
def runOp (fs : Fat32Fs) : FatOp → Disk → Except String Unit × Disk
  | .write name data, d => fat32WriteFile fs name data d
  | .delete name, d => fat32DeleteFile fs name d

/-! ## Safe calls -/

/-- Overwriting a file of cluster `old`, once its name is found: the first FAT
does not lose the cluster, or the scan takes a cluster and marks it, and that
cluster is the old one or the entry is rewritten. -/
def OverwriteSafe (fs : Fat32Fs) (d : Disk) (old : Nat) : Prop :=
  fs.dev.fails (d.requests + 2) = true ∨ fs.dev.fails (d.requests + 3) = true ∨
  (fs.dev.fails (d.requests + 4) = false ∧
    ∃ c, Marks fs (d.requests + 5) (setBoth fs d.sectors old 0) c ∧
      (c = old ∨ Enters fs (d.requests + 5) (setBoth fs d.sectors old 0) c))

/-- Writing to an existing name: nothing is read, or the lookup fails and no
second entry comes of it, or the overwrite is safe. -/
def WriteSafe (fs : Fat32Fs) (d : Disk) (name83 : List UInt8) : Prop :=
  ∀ i, SlotLive (d.sectors (rootLba fs)) i →
    bytesAt (d.sectors (rootLba fs)) (32 * i) 11 = name83 →
    fs.dev.fails d.requests = true ∨
    (fs.dev.fails (d.requests + 1) = true ∧
      (freeSlotFrom (d.sectors (rootLba fs)) rootEntries 0 = none ∨
        ∀ c, ¬ Enters fs (d.requests + 2) d.sectors c)) ∨
    (fs.dev.fails (d.requests + 1) = false ∧
      OverwriteSafe fs d (entryCluster (d.sectors (rootLba fs)) (32 * i)))

/-- Deleting an existing name: a request up to the first FAT's write fails, or
the two after it do not. -/
def DeleteSafe (fs : Fat32Fs) (d : Disk) (name83 : List UInt8) : Prop :=
  ∀ i, SlotLive (d.sectors (rootLba fs)) i →
    bytesAt (d.sectors (rootLba fs)) (32 * i) 11 = name83 →
    (∃ k < 4, fs.dev.fails (d.requests + k) = true) ∨
    (fs.dev.fails (d.requests + 4) = false ∧ fs.dev.fails (d.requests + 5) = false)

/-- The call cannot cross-link files. -/
def OpSafe (fs : Fat32Fs) (d : Disk) : FatOp → Prop
  | .write name data => data.length ≤ 512 →
      ∀ name83, makeName83 name = some name83 → WriteSafe fs d name83
  | .delete name => ∀ name83, makeName83 name = some name83 → DeleteSafe fs d name83

section Steps

variable {fs : Fat32Fs} (hg : Geometry fs) {s : Nat → Mem} {d : Disk}
  {slots : List (Option RootFile)} {name name83 data : List UInt8}

/-! ## The property and the invariant -/

/-- Another file of the same name is the same file. -/
theorem VolOk.same_slot (hok : VolOk fs s slots) {i j : Nat} {f g : RootFile}
    (hf : slots[i]? = some (some f)) (hgj : slots[j]? = some (some g)) (hname : f.name83 = name83)
    (hname' : g.name83 = name83) : i = j :=
  hok.files.name_inj i j f g hf hgj (hname.trans hname'.symm)

include hg

/-- The invariant implies the property. -/
theorem VolOk.noCrossLinks (hok : VolOk fs s slots) : NoCrossLinks fs s := by
  constructor
  · intro i j hi hj heq
    rw [hg.rootLba_eq] at hi hj heq
    obtain ⟨f, hf⟩ := hok.dir.slotLive_iff.mp hi
    obtain ⟨g, hgj⟩ := hok.dir.slotLive_iff.mp hj
    rw [(hok.dir.file i f hf).cluster, (hok.dir.file j g hgj).cluster] at heq
    exact hok.files.cluster_inj i j f g hf hgj heq
  · intro i j hi hj heq
    rw [hg.rootLba_eq] at hi hj heq
    obtain ⟨f, hf⟩ := hok.dir.slotLive_iff.mp hi
    obtain ⟨g, hgj⟩ := hok.dir.slotLive_iff.mp hj
    rw [(hok.dir.file i f hf).name, (hok.dir.file j g hgj).name] at heq
    exact hok.files.name_inj i j f g hf hgj heq
  · intro i hi
    rw [hg.rootLba_eq] at hi ⊢
    obtain ⟨f, hf⟩ := hok.dir.slotLive_iff.mp hi
    rw [(hok.dir.file i f hf).cluster, hg.rootCluster]
    have := hok.files.three_le i f hf
    omega
  · intro i hi
    rw [hg.rootLba_eq] at hi ⊢
    obtain ⟨f, hf⟩ := hok.dir.slotLive_iff.mp hi
    rw [(hok.dir.file i f hf).cluster]
    exact hok.files.marked i f hf

/-- A live entry of a free cluster breaks it. -/
theorem not_noCrossLinks_of_free {i : Nat} {f : RootFile}
    (hdir : DirOk (s fs.dataStartLba) slots) (hf : slots[i]? = some (some f))
    (hfree : fatEntry fs s f.cluster = 0) : ¬ NoCrossLinks fs s := by
  intro h
  refine h.allocated i ?_ ?_
  · rw [hg.rootLba_eq]
    exact hdir.slotLive_iff.mpr ⟨f, hf⟩
  · rw [hg.rootLba_eq, (hdir.file i f hf).cluster]
    exact hfree

/-- Two entries of one name break it. -/
theorem not_noCrossLinks_of_names {i j : Nat} {f g : RootFile}
    (hdir : DirOk (s fs.dataStartLba) slots) (hf : slots[i]? = some (some f))
    (hgj : slots[j]? = some (some g)) (hname : f.name83 = g.name83) (hne : i ≠ j) :
    ¬ NoCrossLinks fs s := by
  intro h
  refine hne (h.names i j ?_ ?_ ?_)
  · rw [hg.rootLba_eq]
    exact hdir.slotLive_iff.mpr ⟨f, hf⟩
  · rw [hg.rootLba_eq]
    exact hdir.slotLive_iff.mpr ⟨g, hgj⟩
  · rw [hg.rootLba_eq, (hdir.file i f hf).name, (hdir.file j g hgj).name, hname]

/-! ## The conditions in terms of slots -/

theorem writeSafe_iff (hok : VolOk fs d.sectors slots) : WriteSafe fs d name83 ↔
    ∀ (i : Nat) (f : RootFile), slots[i]? = some (some f) → f.name83 = name83 →
      fs.dev.fails d.requests = true ∨
      (fs.dev.fails (d.requests + 1) = true ∧
        (freeSlotFrom (d.sectors fs.dataStartLba) rootEntries 0 = none ∨
          ∀ c, ¬ Enters fs (d.requests + 2) d.sectors c)) ∨
      (fs.dev.fails (d.requests + 1) = false ∧ OverwriteSafe fs d f.cluster) := by
  unfold WriteSafe
  rw [hg.rootLba_eq]
  constructor
  · intro h i f hf hname
    have hfile := hok.dir.file i f hf
    have := h i (hok.dir.slotLive_iff.mpr ⟨f, hf⟩) (hfile.name.trans hname)
    rwa [hfile.cluster] at this
  · intro h i hi hname
    obtain ⟨f, hf⟩ := hok.dir.slotLive_iff.mp hi
    have hfile := hok.dir.file i f hf
    rw [hfile.cluster]
    exact h i f hf (hfile.name.symm.trans hname)

theorem deleteSafe_iff (hok : VolOk fs d.sectors slots) : DeleteSafe fs d name83 ↔
    ∀ (i : Nat) (f : RootFile), slots[i]? = some (some f) → f.name83 = name83 →
      (∃ k < 4, fs.dev.fails (d.requests + k) = true) ∨
      (fs.dev.fails (d.requests + 4) = false ∧ fs.dev.fails (d.requests + 5) = false) := by
  unfold DeleteSafe
  rw [hg.rootLba_eq]
  constructor
  · intro h i f hf hname
    exact h i (hok.dir.slotLive_iff.mpr ⟨f, hf⟩) ((hok.dir.file i f hf).name.trans hname)
  · intro h i hi hname
    obtain ⟨f, hf⟩ := hok.dir.slotLive_iff.mp hi
    exact h i f hf ((hok.dir.file i f hf).name.symm.trans hname)

/-! ## One call -/

/-- What a call does to the invariant and the property, given its condition. -/
def Keeps (fs : Fat32Fs) (s : Nat → Mem) (safe : Prop) : Prop :=
  (safe → ∃ slots, VolOk fs s slots) ∧ (¬ safe → ¬ NoCrossLinks fs s)

omit hg in
theorem Keeps.of_safe {safe : Prop} (hsafe : safe) (hok : VolOk fs s slots) : Keeps fs s safe :=
  ⟨fun _ => ⟨slots, hok⟩, fun h => absurd hsafe h⟩

omit hg in
theorem Keeps.of_unsafe {safe : Prop} (hsafe : ¬ safe) (hbad : ¬ NoCrossLinks fs s) :
    Keeps fs s safe :=
  ⟨fun h => absurd h hsafe, fun _ => hbad⟩

/-- `writeEntry` in a slot without a file, after a lookup that found nothing. -/
theorem writeEntry_keeps_fresh {i : Nat} {r : Except String Unit × Disk}
    (hok : VolOk fs d.sectors slots) (hgood : GoodName name83) (hlen : data.length ≤ 512)
    (h0 : fs.dev.fails d.requests = false) (hmiss : Missed fs (d.requests + 1) slots name83)
    (hi : i ≤ slots.length) (hi16 : i < rootEntries) (hempty : ∀ f : RootFile, slots[i]? ≠ some (some f))
    (hslot : freeSlotFrom (d.sectors fs.dataStartLba) rootEntries 0 = some (32 * i))
    (hr : EntryOutcome fs (d.requests + 2) d.sectors (d.sectors fs.dataStartLba) (32 * i)
      name83 data r) : Keeps fs r.2.sectors (WriteSafe fs d name83) := by
  -- a file of the name makes the call safe exactly where no entry is written
  have hnone : (∀ c, ¬ Enters fs (d.requests + 2) d.sectors c) → WriteSafe fs d name83 := by
    intro hno
    refine (writeSafe_iff hg hok).mpr fun j f hf hname => ?_
    rcases hmiss with h1 | habsent
    · exact Or.inr (Or.inl ⟨h1, Or.inr hno⟩)
    · exact absurd hname (habsent j f hf)
  -- an entry is written: it is the only one of its name, or the call is not safe
  have hwritten : ∀ {c : Nat} {s' : Nat → Mem}, Enters fs (d.requests + 2) d.sectors c →
      (∀ slots', VolOk fs (enterSectors fs d.sectors (d.sectors fs.dataStartLba) (32 * i) name83 c
        data.length) slots' → VolOk fs s' slots') →
      s' fs.dataStartLba = putEntry (d.sectors fs.dataStartLba) (32 * i) name83 c data.length →
      Keeps fs s' (WriteSafe fs d name83) := by
    intro c s' henters hvol hroot
    by_cases habsent : ∀ (j : Nat) (f : RootFile), slots[j]? = some (some f) → f.name83 ≠ name83
    · have hfresh := @VolOk.enter _ hg _ _ _ _ _ (d.sectors fs.dataStartLba) _ data.length
        hok.fat hok.dir (hok.files.vacate hi) hi hi16 hgood hlen henters.first
        fun j f _ hf => habsent j f hf
      exact Keeps.of_safe ((writeSafe_iff hg hok).mpr fun j f hf hname =>
        absurd hname (habsent j f hf)) (hvol _ hfresh)
    · push Not at habsent
      obtain ⟨j, f, hf, hname⟩ := habsent
      have hji : j ≠ i := by
        rintro rfl
        exact hempty f hf
      have h1 : fs.dev.fails (d.requests + 1) = true :=
        hmiss.resolve_right fun habsent => habsent j f hf hname
      refine Keeps.of_unsafe (fun hsafe => ?_) ?_
      · rcases (writeSafe_iff hg hok).mp hsafe j f hf hname with hc | ⟨-, hc | hc⟩ | ⟨hc, -⟩
        · simp [h0] at hc
        · simp [hslot] at hc
        · exact hc c henters
        · simp [h1] at hc
      · have hlt := hg.cluster_lt henters.first.lt
        have hdir := @DirOk.putEntry _ _ hok.dir _ c data.length _ hi hi16 hgood
          (by omega) (by omega)
        rw [← hroot] at hdir
        refine not_noCrossLinks_of_names hg hdir (i := j) (j := i) (f := f)
          (g := ⟨name83, c, data.length⟩) ?_ ?_ hname hji
        · rw [getElem?_putSlot hi, if_neg hji]
          exact hf
        · rw [getElem?_putSlot hi, if_pos rfl]
  cases hr with
  | nothing hno heq =>
      rw [heq]
      exact Keeps.of_safe (hnone fun c hc => hno c hc.toMarks) hok
  | marked hmarks hno heq =>
      have hsafe := hnone fun c hc => hno (hc.first.unique hmarks.first ▸ hc)
      rcases heq with heq | heq
      · rw [heq]
        exact Keeps.of_safe hsafe (hok.mark hg hmarks.first).1
      · rw [heq]
        exact Keeps.of_safe hsafe (hok.mark hg hmarks.first).2
  | entered henters _ heq =>
      rw [heq]
      exact hwritten henters (fun _ h => h) (Function.update_self _ _ _)
  | written henters _ heq _ =>
      obtain ⟨h3, -, hc2⟩ := henters.first.data_cluster hok.fat
      have hlba := hg.clusterToLba_eq henters.first.two_le hc2
      rw [heq]
      refine hwritten henters (fun _ h => h.data hg (by omega)) ?_
      rw [Function.update_of_ne (by omega)]
      exact Function.update_self _ _ _

/-- `s'` is `s` with cluster `c` marked in the first FAT, and maybe in the second. -/
structure MarkedFat (fs : Fat32Fs) (s : Nat → Mem) (c : Nat) (s' : Nat → Mem) : Prop where
  root : s' fs.dataStartLba = s fs.dataStartLba
  entry : ∀ k, k < 128 * fs.sectorsPerFat → k < fs.totalClusters + 2 →
    fatEntry fs s' k = if k = c then fat32Eoc &&& 0x0FFFFFFF else fatEntry fs s k
  fat : FatOk fs s → FatOk fs s'

/-- A mark that `alloc_cluster` leaves, also where it fails half-way. -/
theorem MarkedFat.of_eq {c : Nat} {s' : Nat → Mem} (h3 : 3 ≤ c) (hc : c < 128 * fs.sectorsPerFat)
    (hc2 : c < fs.totalClusters + 2)
    (heq : s' = setFirst fs s c fat32Eoc ∨ s' = setBoth fs s c fat32Eoc) : MarkedFat fs s c s' := by
  rcases heq with rfl | rfl
  · exact ⟨setFirst_data hg hc hc2 (le_refl _),
      fun k _ hk => fatEntry_setFirst hg hc hc2 hk (by decide),
      fun hfat => hfat.setFirst hg h3 hc hc2 (by decide)⟩
  · exact ⟨setBoth_data hg hc hc2 (le_refl _),
      fun k hk hk2 => fatEntry_setBoth hg hc hc2 hk hk2 (by decide),
      fun hfat => hfat.setBoth hg h3 hc hc2 (by decide)⟩

/-- A file's cluster that was freed and is marked again. -/
theorem VolOk.remarked {i : Nat} {f : RootFile} {s' : Nat → Mem} (hok : VolOk fs s slots)
    (hf : slots[i]? = some (some f))
    (hmarked : MarkedFat fs (setBoth fs s f.cluster 0) f.cluster s') : VolOk fs s' slots := by
  obtain ⟨hc, hc2⟩ := hok.files.cluster_lt i f hf
  have hfat := hok.fat.setBoth hg (hok.files.three_le i f hf) hc hc2 (show 0 < 2 ^ 32 by decide)
  refine ⟨hmarked.fat hfat, ?_, hok.files.withFat fun j g hgj => ?_⟩
  · rw [hmarked.root, setBoth_data hg hc hc2 (le_refl _)]
    exact hok.dir
  · obtain ⟨hj1, hj2⟩ := hok.files.cluster_lt j g hgj
    rw [hmarked.entry _ hj1 hj2]
    split
    · decide
    · rename_i hne
      rw [fatEntry_setBoth hg hc hc2 hj1 hj2 (by decide), if_neg hne]
      exact hok.files.marked j g hgj

/-- `writeEntry` over the entry of a file that has lost its cluster. -/
theorem writeEntry_keeps_freed {i : Nat} {f : RootFile} {r : Except String Unit × Disk}
    (hok : VolOk fs d.sectors slots) (hgood : GoodName name83) (hlen : data.length ≤ 512)
    (h0 : fs.dev.fails d.requests = false) (h1 : fs.dev.fails (d.requests + 1) = false)
    (hf : slots[i]? = some (some f)) (hname : f.name83 = name83)
    (h2 : fs.dev.fails (d.requests + 2) = false) (h3 : fs.dev.fails (d.requests + 3) = false)
    (h4 : fs.dev.fails (d.requests + 4) = false)
    (hr : EntryOutcome fs (d.requests + 5) (setBoth fs d.sectors f.cluster 0)
      (d.sectors fs.dataStartLba) (32 * i) name83 data r) :
    Keeps fs r.2.sectors (WriteSafe fs d name83) := by
  obtain ⟨hc, hc2⟩ := hok.files.cluster_lt i f hf
  have hthree := hok.files.three_le i f hf
  have hilt := slot_lt hf
  have hi16 : i < rootEntries := Nat.lt_of_lt_of_le hilt hok.dir.length_le
  have hfat : FatOk fs (setBoth fs d.sectors f.cluster 0) :=
    hok.fat.setBoth hg hthree hc hc2 (by decide)
  have hsafe_iff : WriteSafe fs d name83 ↔
      ∃ c, Marks fs (d.requests + 5) (setBoth fs d.sectors f.cluster 0) c ∧
        (c = f.cluster ∨ Enters fs (d.requests + 5) (setBoth fs d.sectors f.cluster 0) c) := by
    rw [writeSafe_iff hg hok]
    constructor
    · intro h
      rcases h i f hf hname with hbad | ⟨hbad, -⟩ | ⟨-, hbad | hbad | ⟨-, hsafe⟩⟩
      · simp [h0] at hbad
      · simp [h1] at hbad
      · simp [h2] at hbad
      · simp [h3] at hbad
      · exact hsafe
    · intro hsafe j g hgj hname'
      obtain rfl := hok.same_slot hf hgj hname hname'
      obtain rfl := Option.some.inj (Option.some.inj (hf.symm.trans hgj))
      exact Or.inr (Or.inr ⟨h1, Or.inr (Or.inr ⟨h4, hsafe⟩)⟩)
  have hroot : setBoth fs d.sectors f.cluster 0 fs.dataStartLba = d.sectors fs.dataStartLba :=
    setBoth_data hg hc hc2 (le_refl _)
  have hother : ∀ (j : Nat) (g : RootFile), j ≠ i → slots[j]? = some (some g) →
      g.name83 ≠ name83 :=
    fun j g hne hgj hname' => hne (hok.same_slot hgj hf hname' hname)
  -- a rewritten entry keeps the invariant
  have hwritten : ∀ {c : Nat} {s' : Nat → Mem},
      Enters fs (d.requests + 5) (setBoth fs d.sectors f.cluster 0) c →
      (∀ slots', VolOk fs (enterSectors fs (setBoth fs d.sectors f.cluster 0)
        (d.sectors fs.dataStartLba) (32 * i) name83 c data.length) slots' → VolOk fs s' slots') →
      Keeps fs s' (WriteSafe fs d name83) := by
    intro c s' henters hvol
    have hnew := @VolOk.enter _ hg _ _ _ _ _ (d.sectors fs.dataStartLba) _ data.length hfat
      hok.dir (hok.files.free hg hf) (by omega) hi16 hgood hlen henters.first hother
    exact Keeps.of_safe (hsafe_iff.mpr ⟨c, henters.toMarks, Or.inr henters⟩) (hvol _ hnew)
  cases hr with
  | nothing hno heq =>
      rw [heq]
      refine Keeps.of_unsafe (fun hsafe => ?_) ?_
      · obtain ⟨c, hmarks, -⟩ := hsafe_iff.mp hsafe
        exact hno c hmarks
      · exact not_noCrossLinks_of_free hg (hroot ▸ hok.dir) hf (fatEntry_freed hg hc hc2)
  | @marked c _ _ hmarks hno heq =>
      obtain ⟨hc3, hcc, hcc2⟩ := hmarks.first.data_cluster hfat
      have hmarked := MarkedFat.of_eq hg hc3 hcc hcc2 heq
      by_cases hsame : c = f.cluster
      · -- the old cluster itself is taken again
        subst hsame
        exact Keeps.of_safe (hsafe_iff.mpr ⟨_, hmarks, Or.inl rfl⟩) (hok.remarked hg hf hmarked)
      · refine Keeps.of_unsafe (fun hsafe => ?_) (not_noCrossLinks_of_free hg ?_ hf ?_)
        · obtain ⟨k, hk, hor⟩ := hsafe_iff.mp hsafe
          obtain rfl := hk.first.unique hmarks.first
          exact hor.elim hsame hno
        · rw [hmarked.root, hroot]
          exact hok.dir
        · rw [hmarked.entry _ hc hc2, if_neg (Ne.symm hsame)]
          exact fatEntry_freed hg hc hc2
  | entered henters _ heq =>
      rw [heq]
      exact hwritten henters fun _ h => h
  | written henters _ heq _ =>
      obtain ⟨h3, -, hc2'⟩ := henters.first.data_cluster hfat
      have hlba := hg.clusterToLba_eq henters.first.two_le hc2'
      rw [heq]
      exact hwritten henters fun _ h => h.data hg (by omega)

/-- `fat32_write_file` with an accepted name and data that fits. -/
theorem writeFile_keeps (hok : VolOk fs d.sectors slots) (hname : makeName83 name = some name83)
    (hlen : data.length ≤ 512) :
    Keeps fs (fat32WriteFile fs name data d).2.sectors (WriteSafe fs d name83) := by
  have hgood := makeName83_good hname
  have houtcome := fat32WriteFile_outcome hg hok.shape hname hlen
  generalize fat32WriteFile fs name data d = r at houtcome
  cases houtcome with
  | unread h0 heq =>
      rw [heq]
      exact Keeps.of_safe ((writeSafe_iff hg hok).mpr fun _ _ _ _ => Or.inl h0) hok
  | full h0 hmiss hfull hslot heq =>
      rw [heq]
      refine Keeps.of_safe ((writeSafe_iff hg hok).mpr fun j f hf hname => ?_) hok
      rcases hmiss with h1 | habsent
      · exact Or.inr (Or.inl ⟨h1, Or.inl hslot⟩)
      · exact absurd hname (habsent j f hf)
  | fresh h0 hmiss hi hi16 hempty hslot hr =>
      exact writeEntry_keeps_fresh hg hok hgood hlen h0 hmiss hi hi16 hempty hslot hr
  | unfreed h0 h1 hf hname hfail heq =>
      rw [heq]
      refine Keeps.of_safe ((writeSafe_iff hg hok).mpr fun j g hgj hname' => ?_) hok
      exact Or.inr (Or.inr ⟨h1, hfail.imp_right Or.inl⟩)
  | @halfFreed i f _ _ h0 h1 hf hname h2 h3 h4 heq =>
      obtain ⟨hc, hc2⟩ := hok.files.cluster_lt i f hf
      rw [heq]
      refine Keeps.of_unsafe (fun hsafe => ?_) ?_
      · rcases (writeSafe_iff hg hok).mp hsafe i f hf hname with
          hbad | ⟨hbad, -⟩ | ⟨-, hbad | hbad | ⟨hbad, -⟩⟩
        · simp [h0] at hbad
        · simp [h1] at hbad
        · simp [h2] at hbad
        · simp [h3] at hbad
        · simp [h4] at hbad
      · refine not_noCrossLinks_of_free hg ?_ hf ?_
        · rw [setFirst_data hg hc hc2 (le_refl _)]
          exact hok.dir
        · rw [fatEntry_setFirst hg hc hc2 hc2 (by decide), if_pos rfl]
          rfl
  | freed h0 h1 hf hname h2 h3 h4 hr =>
      exact writeEntry_keeps_freed hg hok hgood hlen h0 h1 hf hname h2 h3 h4 hr

/-- `fat32_delete_file` with an accepted name. -/
theorem deleteFile_keeps (hok : VolOk fs d.sectors slots) (hname : makeName83 name = some name83) :
    Keeps fs (fat32DeleteFile fs name d).2.sectors (DeleteSafe fs d name83) := by
  have houtcome := fat32DeleteFile_outcome hg hok.shape hname
  generalize fat32DeleteFile fs name d = r at houtcome
  cases houtcome with
  | missing hmiss heq =>
      rw [heq]
      refine Keeps.of_safe ((deleteSafe_iff hg hok).mpr fun j f hf hname => ?_) hok
      rcases hmiss with h0 | habsent
      · exact Or.inl ⟨0, by decide, h0⟩
      · exact absurd hname (habsent j f hf)
  | unfreed hf hname hfail heq =>
      rw [heq]
      refine Keeps.of_safe ((deleteSafe_iff hg hok).mpr fun j g hgj hname' => Or.inl ?_) hok
      rcases hfail with h1 | h2 | h3
      · exact ⟨1, by decide, h1⟩
      · exact ⟨2, by decide, h2⟩
      · exact ⟨3, by decide, h3⟩
  | @halfFreed i f _ _ hf hname hfour h4 heq =>
      obtain ⟨hc, hc2⟩ := hok.files.cluster_lt i f hf
      rw [heq]
      refine Keeps.of_unsafe (fun hsafe => ?_) ?_
      · rcases (deleteSafe_iff hg hok).mp hsafe i f hf hname with ⟨k, hk, hbad⟩ | ⟨hbad, -⟩
        · simp [hfour k hk] at hbad
        · simp [h4] at hbad
      · refine not_noCrossLinks_of_free hg ?_ hf ?_
        · rw [setFirst_data hg hc hc2 (le_refl _)]
          exact hok.dir
        · rw [fatEntry_setFirst hg hc hc2 hc2 (by decide), if_pos rfl]
          rfl
  | @unmarked i f _ _ hf hname hfive h5 heq =>
      obtain ⟨hc, hc2⟩ := hok.files.cluster_lt i f hf
      rw [heq]
      refine Keeps.of_unsafe (fun hsafe => ?_) ?_
      · rcases (deleteSafe_iff hg hok).mp hsafe i f hf hname with ⟨k, hk, hbad⟩ | ⟨-, hbad⟩
        · simp [hfive k (by omega)] at hbad
        · simp [h5] at hbad
      · refine not_noCrossLinks_of_free hg ?_ hf (fatEntry_freed hg hc hc2)
        rw [setBoth_data hg hc hc2 (le_refl _)]
        exact hok.dir
  | @deleted i f _ hf hname hsix heq =>
      rw [heq]
      exact Keeps.of_safe ((deleteSafe_iff hg hok).mpr fun j g hgj hname' =>
        Or.inr ⟨hsix 4 (by decide), hsix 5 (by decide)⟩) (hok.delete hg hf)

/-- One call keeps the invariant if it is safe, and breaks the property if not. -/
theorem runOp_keeps (hok : VolOk fs d.sectors slots) (op : FatOp) :
    Keeps fs (runOp fs op d).2.sectors (OpSafe fs d op) := by
  cases op with
  | write name data =>
      by_cases haccepted : data.length ≤ 512 ∧ ∃ name83, makeName83 name = some name83
      · obtain ⟨hlen, name83, hname⟩ := haccepted
        have hkeeps := writeFile_keeps hg hok hname hlen
        have hsafe : OpSafe fs d (.write name data) ↔ WriteSafe fs d name83 := by
          simp [OpSafe, hlen, hname]
        rwa [Keeps, hsafe]
      · obtain ⟨e, hrefused⟩ := fat32WriteFile_refused hg haccepted
        rw [runOp, hrefused]
        exact Keeps.of_safe (fun hlen name83 hname => absurd ⟨hlen, name83, hname⟩ haccepted) hok
  | delete name =>
      cases hname : makeName83 name with
      | none =>
          rw [runOp, fat32DeleteFile, hname]
          exact Keeps.of_safe (fun name83 h => by simp [hname] at h) hok
      | some name83 =>
          have hkeeps := deleteFile_keeps hg hok hname
          have hsafe : OpSafe fs d (.delete name) ↔ DeleteSafe fs d name83 := by
            simp [OpSafe, hname]
          rwa [Keeps, hsafe]

end Steps

/-! ## Runs -/

/-- The disks that safe calls reach from a formatted and mounted one. -/
inductive SafeReach (dev : BlockDev) (before : Disk) (fs : Fat32Fs) : Disk → Prop
  | start {d : Disk} : Formatted dev before fs d → SafeReach dev before fs d
  | call {d : Disk} {op : FatOp} : SafeReach dev before fs d → OpSafe fs d op →
      SafeReach dev before fs (runOp fs op d).2

/-- Safe calls keep the invariant. -/
theorem SafeReach.volOk {dev : BlockDev} {before : Disk} {fs : Fat32Fs} {d : Disk}
    (hreach : SafeReach dev before fs d) (hhigh : dev.sectorCount ≤ fatSizeLimit) :
    Geometry fs ∧ ∃ slots, VolOk fs d.sectors slots := by
  induction hreach with
  | start h => exact ⟨h.geometry hhigh, [], h.volOk hhigh⟩
  | call _ hsafe ih =>
      obtain ⟨hg, slots, hok⟩ := ih
      exact ⟨hg, (runOp_keeps hg hok _).1 hsafe⟩

/-- No run of safe calls cross-links files, whatever requests fail; and any
other call does, as the next of such a run. -/
theorem noCrossLinks_iff {dev : BlockDev} {before : Disk} {fs : Fat32Fs} {d : Disk}
    (hhigh : dev.sectorCount ≤ fatSizeLimit) (hreach : SafeReach dev before fs d) :
    NoCrossLinks fs d.sectors ∧
      ∀ op, NoCrossLinks fs (runOp fs op d).2.sectors ↔ OpSafe fs d op := by
  obtain ⟨hg, slots, hok⟩ := hreach.volOk hhigh
  refine ⟨hok.noCrossLinks hg, fun op => ⟨fun h => ?_, fun hsafe => ?_⟩⟩
  · by_contra hbreaks
    exact (runOp_keeps hg hok op).2 hbreaks h
  · obtain ⟨slots', hok'⟩ := (runOp_keeps hg hok op).1 hsafe
    exact hok'.noCrossLinks hg

/-- The first write on an empty volume finds no file to replace. -/
theorem Formatted.opSafe_first {dev : BlockDev} {before d : Disk} {fs : Fat32Fs}
    (h : Formatted dev before fs d) (hhigh : dev.sectorCount ≤ fatSizeLimit)
    (name data : List UInt8) : OpSafe fs d (.write name data) := by
  intro _ name83 _ i hi
  rw [(h.geometry hhigh).rootLba_eq] at hi
  obtain ⟨f, hf⟩ := (h.dirOk hhigh).slotLive_iff.mp hi
  cases hf

/-- The device of `exampleDev` with request 23 failing. -/
def stoppedDev : BlockDev := { exampleDev with fails := (· == 23) }

theorem stoppedDev_formatted :
    Formatted stoppedDev ⟨fun _ => zeroSector, 0⟩ (formattedFs stoppedDev 2)
      ((fat32Format stoppedDev ⟨fun _ => zeroSector, 0⟩).2.tick 1) :=
  formatted_of_isOk (by decide) (by decide +kernel) (by decide +kernel)

/-- A file, and a delete that fails at the write to the first FAT: nothing is lost. -/
theorem noCrossLinks_stoppedDev : ∃ d,
    Formatted stoppedDev ⟨fun _ => zeroSector, 0⟩ (formattedFs stoppedDev 2) d ∧
      let written := (runOp (formattedFs stoppedDev 2) (.write (ascii "A") (ascii "x")) d).2
      let deleted := runOp (formattedFs stoppedDev 2) (.delete (ascii "A")) written
      deleted.1.toBool = false ∧ SlotLive (deleted.2.sectors 36) 0 ∧
        NoCrossLinks (formattedFs stoppedDev 2) deleted.2.sectors := by
  refine ⟨_, stoppedDev_formatted, by decide +kernel,
    ⟨by decide, by decide +kernel, by decide +kernel, by decide +kernel⟩, ?_⟩
  have hwritten : SafeReach stoppedDev ⟨fun _ => zeroSector, 0⟩ (formattedFs stoppedDev 2)
      (runOp (formattedFs stoppedDev 2) (.write (ascii "A") (ascii "x"))
        ((fat32Format stoppedDev ⟨fun _ => zeroSector, 0⟩).2.tick 1)).2 :=
    .call (.start stoppedDev_formatted) (stoppedDev_formatted.opSafe_first (by decide) _ _)
  refine ((noCrossLinks_iff (by decide) hwritten).2 _).mpr ?_
  intro name83 _ i _ _
  exact Or.inl ⟨3, by decide, by decide +kernel⟩

/-! ## A delete that stops halfway -/

/-- The device of `exampleDev` with one request that fails. -/
def faultyDev : BlockDev := { exampleDev with fails := (· == 24) }

theorem faultyDev_formatted :
    Formatted faultyDev ⟨fun _ => zeroSector, 0⟩ (formattedFs faultyDev 2)
      ((fat32Format faultyDev ⟨fun _ => zeroSector, 0⟩).2.tick 1) :=
  formatted_of_isOk (by decide) (by decide +kernel) (by decide +kernel)

/-- The write to the second FAT fails: the entry stays, and its cluster is free
in the first. -/
theorem delete_frees_live_cluster : ∃ d,
    Formatted faultyDev ⟨fun _ => zeroSector, 0⟩ (formattedFs faultyDev 2) d ∧
    ¬ NoCrossLinks (formattedFs faultyDev 2)
      (runOp (formattedFs faultyDev 2) (.delete (ascii "A"))
        (runOp (formattedFs faultyDev 2) (.write (ascii "A") (ascii "x")) d).2).2.sectors := by
  refine ⟨_, faultyDev_formatted, fun h => ?_⟩
  have hmarked := h.allocated 0
    ⟨by decide, by decide +kernel, by decide +kernel, by decide +kernel⟩
  exact hmarked (by decide +kernel)

end RoninOS.Fs
