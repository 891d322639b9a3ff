/-
RoninOS.Fs.Fat32Dir — the root directory as a list of slots.

A slot in use is a file or a deleted entry. `DirOk sec slots` says that the
sector holds these slots and that the byte at every later slot is the end
marker; the three directory loops are then searches of the list, and writing
an entry or a delete marker changes one slot. `SlotLive` says in terms of the
sector's bytes which slots the loops see as files.
-/
import RoninOS.Fs.Fat32Layout

namespace RoninOS.Fs

open RoninOS.Lib

/-! ## Names -/

/-- The bytes of an accepted name: eleven, none of them NUL or above 7-bit ASCII. -/
structure GoodName (name83 : List UInt8) : Prop where
  length_eq : name83.length = 11
  bytes : ∀ b ∈ name83, b ≠ 0 ∧ b < 0x80

theorem nameByte_ok {c : UInt8} (h : (65 ≤ c ∧ c ≤ 90) ∨ (48 ≤ c ∧ c ≤ 57) ∨ c = 95) :
    c ≠ 0 ∧ c < 0x80 := by
  simp only [UInt8.le_iff_toNat_le, UInt8.lt_iff_toNat_lt, ne_eq, ← UInt8.toNat_inj,
    UInt8.reduceToNat] at h ⊢
  omega

theorem GoodName.set {out11 : List UInt8} (h : GoodName out11) {pos : Nat} {c : UInt8}
    (hc : c ≠ 0 ∧ c < 0x80) : GoodName (out11.set pos c) := by
  refine ⟨by rw [List.length_set, h.length_eq], fun b hb => ?_⟩
  rcases List.mem_or_eq_of_mem_set hb with hb | rfl
  · exact h.bytes b hb
  · exact hc

theorem makeName83Loop_good : ∀ {name : List UInt8} {pos : Nat} {out11 out : List UInt8},
    GoodName out11 → makeName83Loop name pos out11 = some out → GoodName out
  | [], _, _, _, hgood, h => by
      obtain rfl := Option.some.inj h
      exact hgood
  | c :: rest, pos, out11, out, hgood, h => by
      rw [makeName83Loop] at h
      dsimp only at h
      generalize (if 97 ≤ c ∧ c ≤ 122 then c - 32 else c) = upper at h
      split at h
      · split at h
        · simp at h
        · exact makeName83Loop_good hgood h
      · split at h
        · simp at h
        · rename_i hbyte
          have hc := nameByte_ok (not_not.mp hbyte)
          split at h
          · exact makeName83Loop_good (hgood.set hc) h
          · split at h
            · exact makeName83Loop_good (hgood.set hc) h
            · simp at h

/-- `make_name83` returns only good names. -/
theorem makeName83_good {name name83 : List UInt8} (h : makeName83 name = some name83) :
    GoodName name83 := by
  unfold makeName83 at h
  split at h
  · simp at h
  · refine makeName83Loop_good ⟨List.length_replicate, fun b hb => ?_⟩ h
    rw [List.eq_of_mem_replicate hb]
    decide

/-- `strncmp` over eleven bytes compares names. -/
theorem strncmp_name {a name83 : List UInt8} (ha : a.length = 11) (h : GoodName name83) :
    strncmp a name83 11 = 0 ↔ a = name83 := by
  rw [strncmp_eq_zero_iff_of_length (by omega) (by rw [h.length_eq])
    (fun h0 => (h.bytes 0 h0).1 rfl), List.take_of_length_le (by omega),
    List.take_of_length_le (by rw [h.length_eq])]

/-! ## Entries -/

/-- What a directory entry says about a file. -/
structure RootFile where
  name83 : List UInt8
  cluster : Nat
  size : Nat

/-- The entry at `off` is that of file `f`. -/
structure FileAt (sec : Mem) (off : Nat) (f : RootFile) : Prop where
  good : GoodName f.name83
  name : bytesAt sec off 11 = f.name83
  attr : sec (off + 11) = fat32AttrArchive
  cluster : entryCluster sec off = f.cluster
  size : ld32 sec (off + 28) = f.size

theorem FileAt.first {sec : Mem} {off : Nat} {f : RootFile} (h : FileAt sec off f) :
    sec off ≠ 0 ∧ sec off ≠ 0xE5 := by
  have hmem : sec off ∈ f.name83 := by
    rw [← h.name]
    exact List.mem_map.mpr ⟨0, by simp, by simp⟩
  obtain ⟨h0, hlt⟩ := h.good.bytes _ hmem
  refine ⟨h0, fun heq => ?_⟩
  rw [heq] at hlt
  exact absurd hlt (by decide)

/-- The attribute of a file is not that of a long name. -/
theorem FileAt.not_long {sec : Mem} {off : Nat} {f : RootFile} (h : FileAt sec off f) :
    sec (off + 11) &&& 0x0F ≠ 0x0F := by
  rw [h.attr]
  decide

/-- An entry depends on its own 32 bytes only. -/
theorem FileAt.congr {sec sec' : Mem} {off : Nat} {f : RootFile} (h : FileAt sec off f)
    (heq : ∀ k < 32, sec' (off + k) = sec (off + k)) : FileAt sec' off f := by
  refine ⟨h.good, ?_, ?_, ?_, ?_⟩
  · rw [bytesAt_congr fun k hk => heq k (by omega)]
    exact h.name
  · rw [heq 11 (by decide)]
    exact h.attr
  · unfold entryCluster
    have hhigh : ld16 sec' (off + 20) = ld16 sec (off + 20) :=
      ld16_congr fun k hk => by rw [Nat.add_assoc]; exact heq (20 + k) (by omega)
    have hlow : ld16 sec' (off + 26) = ld16 sec (off + 26) :=
      ld16_congr fun k hk => by rw [Nat.add_assoc]; exact heq (26 + k) (by omega)
    rw [hhigh, hlow]
    exact h.cluster
  · have hsize : ld32 sec' (off + 28) = ld32 sec (off + 28) :=
      ld32_congr fun k hk => by rw [Nat.add_assoc]; exact heq (28 + k) (by omega)
    rw [hsize]
    exact h.size

section PutEntry

variable {sec : Mem} {off cluster len : Nat} {name83 : List UInt8}

/-- `putEntry` writes 32 bytes. -/
theorem putEntry_of_disjoint (hname : name83.length = 11) {x : Nat}
    (hx : x < off ∨ off + 32 ≤ x) : putEntry sec off name83 cluster len x = sec x := by
  simp only [putEntry]
  rw [st32, if_neg (by omega), if_neg (by omega), if_neg (by omega), if_neg (by omega),
    st16_of_disjoint _ _ (by omega), st16_of_disjoint _ _ (by omega),
    Function.update_of_ne (by omega), stBytes_of_disjoint _ (by omega),
    stBytes_of_disjoint _ (by simp only [List.length_replicate]; omega)]

/-- The two halves of a cluster number. -/
theorem cluster_halves (hc : cluster < 2 ^ 32) :
    ((cluster >>> 16) &&& 0xFFFF) <<< 16 ||| (cluster &&& 0xFFFF) = cluster := by
  have hlow : cluster &&& 0xFFFF = cluster % 2 ^ 16 := and_mask 16 cluster
  have hhigh : (cluster >>> 16) &&& 0xFFFF = cluster / 2 ^ 16 := by
    rw [show 0xFFFF = 2 ^ 16 - 1 from rfl, and_mask, Nat.shiftRight_eq_div_pow]
    omega
  rw [hlow, hhigh, Nat.shiftLeft_eq, mul_two_pow_or (by omega)]
  omega

/-- The entry reads back. -/
theorem putEntry_fileAt (hname : GoodName name83) (hc : cluster < 2 ^ 32) (hlen : len < 2 ^ 32) :
    FileAt (putEntry sec off name83 cluster len) off ⟨name83, cluster, len⟩ := by
  have hlength := hname.length_eq
  have hhigh : (cluster >>> 16) &&& 0xFFFF < 2 ^ 16 := by
    rw [show 0xFFFF = 2 ^ 16 - 1 from rfl, and_mask]
    omega
  have hlow : cluster &&& 0xFFFF < 2 ^ 16 := by
    rw [show 0xFFFF = 2 ^ 16 - 1 from rfl, and_mask]
    omega
  refine ⟨hname, ?_, ?_, ?_, ?_⟩
  · -- the later stores lie behind the name
    have hbytes := bytesAt_stBytes_self (stBytes sec off (List.replicate 32 0)) off name83
    rw [hlength] at hbytes
    refine (bytesAt_congr fun k hk => ?_).trans hbytes
    simp only [putEntry]
    rw [st32_of_disjoint _ _ (by omega), st16_of_disjoint _ _ (by omega),
      st16_of_disjoint _ _ (by omega), Function.update_of_ne (by omega)]
  · simp only [putEntry]
    rw [st32_of_disjoint _ _ (by omega), st16_of_disjoint _ _ (by omega),
      st16_of_disjoint _ _ (by omega), Function.update_self]
  · have hfirst : ld16 (putEntry sec off name83 cluster len) (off + 20)
        = (cluster >>> 16) &&& 0xFFFF := by
      simp only [putEntry]
      rw [ld16_congr fun k hk => st32_of_disjoint _ _ (by omega),
        ld16_congr fun k hk => st16_of_disjoint _ _ (by omega), ld16_st16_self _ _ hhigh]
    have hsecond : ld16 (putEntry sec off name83 cluster len) (off + 26) = cluster &&& 0xFFFF := by
      simp only [putEntry]
      rw [ld16_congr fun k hk => st32_of_disjoint _ _ (by omega), ld16_st16_self _ _ hlow]
    rw [entryCluster, hfirst, hsecond]
    exact cluster_halves hc
  · simp only [putEntry]
    exact ld32_st32_self _ _ hlen

end PutEntry

/-! ## The sector as slots -/

/-- The slots of a directory sector up to the end marker: a file, or `none` for
a deleted entry. -/
structure DirOk (sec : Mem) (slots : List (Option RootFile)) : Prop where
  length_le : slots.length ≤ rootEntries
  file : ∀ i f, slots[i]? = some (some f) → FileAt sec (32 * i) f
  deleted : ∀ i, slots[i]? = some none → sec (32 * i) = 0xE5
  rest : ∀ i, slots.length ≤ i → i < rootEntries → sec (32 * i) = 0

/-- The slots with another one at `i`, which may be the first unused one. -/
def putSlot (slots : List (Option RootFile)) (i : Nat) (x : Option RootFile) :
    List (Option RootFile) :=
  slots.take i ++ x :: slots.drop (i + 1)

theorem getElem?_putSlot {slots : List (Option RootFile)} {i : Nat} (hi : i ≤ slots.length)
    (x : Option RootFile) (j : Nat) :
    (putSlot slots i x)[j]? = if j = i then some x else slots[j]? := by
  have hlen : (slots.take i).length = i := by rw [List.length_take]; omega
  unfold putSlot
  rcases Nat.lt_trichotomy j i with hlt | rfl | hlt
  · rw [if_neg (by omega), List.getElem?_append_left (by omega), List.getElem?_take_of_lt hlt]
  · rw [if_pos rfl, List.getElem?_append_right (by omega), hlen, Nat.sub_self]
    rfl
  · obtain ⟨k, rfl⟩ : ∃ k, j = i + 1 + k := ⟨j - i - 1, by omega⟩
    rw [if_neg (by omega), List.getElem?_append_right (by omega), hlen,
      show i + 1 + k - i = k + 1 by omega, List.getElem?_cons_succ, List.getElem?_drop]

/-- A file behind a change of slot `i` is the one put there or an old one. -/
theorem file_of_putSlot {slots : List (Option RootFile)} {i j : Nat} (hi : i ≤ slots.length)
    {x : Option RootFile} {f : RootFile} (hf : (putSlot slots i x)[j]? = some (some f)) :
    x = some f ∨ slots[j]? = some (some f) := by
  rw [getElem?_putSlot hi] at hf
  split at hf
  · exact Or.inl (Option.some.inj hf)
  · exact Or.inr hf

theorem length_putSlot {slots : List (Option RootFile)} {i : Nat} (hi : i ≤ slots.length)
    (x : Option RootFile) : (putSlot slots i x).length = max slots.length (i + 1) := by
  unfold putSlot
  rw [List.length_append, List.length_take, List.length_cons, List.length_drop]
  omega

/-- The empty sector. -/
theorem dirOk_zeroSector : DirOk zeroSector [] :=
  ⟨Nat.zero_le _, fun _ _ h => by simp at h, fun _ h => by simp at h, fun _ _ _ => rfl⟩

theorem slot_lt {slots : List (Option RootFile)} {i : Nat} {x : Option RootFile}
    (h : slots[i]? = some x) : i < slots.length := (List.getElem?_eq_some_iff.mp h).1

/-- Slot `i` is the first from slot `k` on that has a file of this name. -/
structure FirstEntry (slots : List (Option RootFile)) (name83 : List UInt8) (k i : Nat)
    (f : RootFile) : Prop where
  le : k ≤ i
  slot : slots[i]? = some (some f)
  name : f.name83 = name83
  first : ∀ (j : Nat) (g : RootFile), k ≤ j → j < i → slots[j]? = some (some g) →
    g.name83 ≠ name83

section DirOk

variable {sec : Mem} {slots : List (Option RootFile)} (hok : DirOk sec slots)
include hok

/-- Writing a sector that differs only in slot `i`. -/
theorem DirOk.put {sec' : Mem} {i : Nat} {x : Option RootFile} (hi : i ≤ slots.length)
    (hi16 : i < rootEntries)
    (hother : ∀ a, a < 32 * i ∨ 32 * i + 32 ≤ a → sec' a = sec a)
    (hfile : ∀ f, x = some f → FileAt sec' (32 * i) f)
    (hdeleted : x = none → sec' (32 * i) = 0xE5) : DirOk sec' (putSlot slots i x) := by
  have hlen := length_putSlot hi x
  refine ⟨by have := hok.length_le; omega, fun j f hj => ?_, fun j hj => ?_, fun j h1 h2 => ?_⟩
  · rw [getElem?_putSlot hi] at hj
    split at hj
    · rename_i heq
      exact heq ▸ hfile f (Option.some.inj hj)
    · rename_i hne
      exact (hok.file j f hj).congr fun k hk => hother _ (by omega)
  · rw [getElem?_putSlot hi] at hj
    split at hj
    · rename_i heq
      exact heq ▸ hdeleted (Option.some.inj hj)
    · rename_i hne
      rw [hother _ (by omega)]
      exact hok.deleted j hj
  · rw [hother _ (by omega)]
    exact hok.rest j (by omega) h2

/-- A new entry. -/
theorem DirOk.putEntry {i cluster len : Nat} {name83 : List UInt8} (hi : i ≤ slots.length)
    (hi16 : i < rootEntries) (hname : GoodName name83) (hc : cluster < 2 ^ 32)
    (hlen : len < 2 ^ 32) :
    DirOk (putEntry sec (32 * i) name83 cluster len)
      (putSlot slots i (some ⟨name83, cluster, len⟩)) := by
  refine hok.put hi hi16 (fun a ha => putEntry_of_disjoint hname.length_eq ha) (fun f hf => ?_)
    (fun h => by simp at h)
  obtain rfl := Option.some.inj hf
  exact putEntry_fileAt hname hc hlen

/-- A delete marker. -/
theorem DirOk.delete {i : Nat} (hi : i < slots.length) :
    DirOk (Function.update sec (32 * i) 0xE5) (putSlot slots i none) := by
  have hlen := hok.length_le
  exact hok.put (by omega) (by omega) (fun a ha => Function.update_of_ne (by omega) _ _)
    (fun f hf => by simp at hf) (fun _ => Function.update_self _ _ _)

/-! ## The directory loops -/

/-- The entries from slot `k` on that `find_root_entry` looks at. -/
theorem DirOk.findEntryFrom_cases {name83 : List UInt8} (hname : GoodName name83) :
    ∀ {rounds k : Nat}, k + rounds = rootEntries →
    (∃ i f, FirstEntry slots name83 k i f ∧
      findEntryFrom sec name83 rounds (32 * k) = some (32 * i)) ∨
    ((∀ i f, k ≤ i → slots[i]? = some (some f) → f.name83 ≠ name83) ∧
      findEntryFrom sec name83 rounds (32 * k) = none)
  | 0, k, hk => by
      refine Or.inr ⟨fun i f hi hf => ?_, rfl⟩
      have hlt := slot_lt hf
      have hlen := hok.length_le
      omega
  | rounds + 1, k, hk => by
      have hnext : 32 * k + 32 = 32 * (k + 1) := by omega
      -- the search goes on behind slot `k`
      have hskip : (∀ f, slots[k]? = some (some f) → f.name83 ≠ name83) →
          (∃ i f, FirstEntry slots name83 k i f ∧
            findEntryFrom sec name83 rounds (32 * (k + 1)) = some (32 * i)) ∨
          ((∀ i f, k ≤ i → slots[i]? = some (some f) → f.name83 ≠ name83) ∧
            findEntryFrom sec name83 rounds (32 * (k + 1)) = none) := by
        intro hthis
        have hfrom : ∀ {i f}, k ≤ i → slots[i]? = some (some f) → f.name83 = name83 → k + 1 ≤ i := by
          intro i f hi hf heq
          rcases Nat.eq_or_lt_of_le hi with rfl | hlt
          · exact absurd heq (hthis f hf)
          · exact hlt
        rcases @DirOk.findEntryFrom_cases _ hname rounds (k + 1) (by omega) with
          ⟨i, f, hentry, heq⟩ | ⟨hnone, heq⟩
        · refine Or.inl ⟨i, f, ⟨by have := hentry.le; omega, hentry.slot, hentry.name,
            fun j g hj hji hg hgname => ?_⟩, heq⟩
          exact hentry.first j g (hfrom hj hg hgname) hji hg hgname
        · exact Or.inr ⟨fun i f hi hf hfname => hnone i f (hfrom hi hf hfname) hf hfname, heq⟩
      rw [findEntryFrom, hnext]
      cases hslot : slots[k]? with
      | none =>
          have hlen := List.getElem?_eq_none_iff.mp hslot
          rw [if_pos (hok.rest k hlen (by omega))]
          refine Or.inr ⟨fun i f hi hf => ?_, rfl⟩
          have hlt := slot_lt hf
          omega
      | some x =>
          cases x with
          | none =>
              have hbyte := hok.deleted k hslot
              rw [if_neg (by rw [hbyte]; decide), if_pos hbyte]
              exact hskip fun f hf => by rw [hslot] at hf; simp at hf
          | some g =>
              have hfile := hok.file k g hslot
              rw [if_neg hfile.first.1, if_neg hfile.first.2, if_neg hfile.not_long]
              by_cases heq : g.name83 = name83
              · rw [if_pos ((strncmp_name (length_bytesAt _ _ _) hname).mpr
                  (hfile.name.trans heq))]
                exact Or.inl ⟨k, g, ⟨le_refl k, hslot, heq, fun j _ h1 h2 => by omega⟩, rfl⟩
              · rw [if_neg fun h => heq (hfile.name.symm.trans
                  ((strncmp_name (length_bytesAt _ _ _) hname).mp h))]
                refine hskip fun f hf => ?_
                rw [hslot] at hf
                obtain rfl := Option.some.inj (Option.some.inj hf)
                exact heq

/-- The free slot that `fat32_write_file` finds from slot `k` on. -/
theorem DirOk.freeSlotFrom_cases : ∀ {rounds k : Nat}, k + rounds = rootEntries →
    k ≤ slots.length →
    (∃ i, i ≤ slots.length ∧ i < rootEntries ∧ (∀ f, slots[i]? ≠ some (some f)) ∧
      freeSlotFrom sec rounds (32 * k) = some (32 * i)) ∨
    ((∀ i, k ≤ i → i < rootEntries → ∃ f, slots[i]? = some (some f)) ∧
      freeSlotFrom sec rounds (32 * k) = none)
  | 0, k, hk, _ => Or.inr ⟨fun i h1 h2 => by omega, rfl⟩
  | rounds + 1, k, hk, hle => by
      rw [freeSlotFrom]
      cases hslot : slots[k]? with
      | none =>
          have hlen := List.getElem?_eq_none_iff.mp hslot
          rw [if_pos (Or.inl (hok.rest k hlen (by omega)))]
          exact Or.inl ⟨k, hle, by omega, fun f => by rw [hslot]; simp, rfl⟩
      | some x =>
          have hlt := slot_lt hslot
          cases x with
          | none =>
              rw [if_pos (Or.inr (hok.deleted k hslot))]
              exact Or.inl ⟨k, hle, by omega, fun f => by rw [hslot]; simp, rfl⟩
          | some g =>
              have hfile := hok.file k g hslot
              rw [if_neg (by simp [hfile.first]), show 32 * k + 32 = 32 * (k + 1) by omega]
              rcases @DirOk.freeSlotFrom_cases rounds (k + 1) (by omega) hlt with
                hfound | ⟨hnone, heq⟩
              · exact Or.inl hfound
              · refine Or.inr ⟨fun i h1 h2 => ?_, heq⟩
                rcases Nat.eq_or_lt_of_le h1 with rfl | hgt
                · exact ⟨g, hslot⟩
                · exact hnone i hgt h2

/-- What `fat32_list_root` says about a file. -/
def RootFile.dirent (f : RootFile) : Fat32Dirent where
  name83 := f.name83 ++ [0]
  size := f.size

/-- The files of a directory, in order. -/
def liveFiles (slots : List (Option RootFile)) : List RootFile := slots.filterMap id

/-- The entries that `fat32_list_root` reports from slot `k` on. -/
theorem DirOk.listFrom_eq : ∀ {rounds k room : Nat}, k + rounds = rootEntries →
    listFrom sec rounds (32 * k) room =
      ((liveFiles (slots.drop k)).map RootFile.dirent).take room
  | 0, k, room, hk => by
      have hlen := hok.length_le
      rw [listFrom, List.drop_of_length_le (by omega)]
      simp [liveFiles]
  | rounds + 1, k, room, hk => by
      have hlen := hok.length_le
      rw [listFrom]
      by_cases hroom : room = 0
      · rw [if_pos hroom, hroom, List.take_zero]
      rw [if_neg hroom, show 32 * k + 32 = 32 * (k + 1) by omega]
      cases hslot : slots[k]? with
      | none =>
          have hle := List.getElem?_eq_none_iff.mp hslot
          rw [if_pos (hok.rest k hle (by omega)), List.drop_of_length_le hle]
          simp [liveFiles]
      | some x =>
          have hdrop : slots.drop k = x :: slots.drop (k + 1) := by
            obtain ⟨hlt, rfl⟩ := List.getElem?_eq_some_iff.mp hslot
            exact List.drop_eq_getElem_cons hlt
          have ih := fun room => @DirOk.listFrom_eq rounds (k + 1) room
            (by omega)
          cases x with
          | none =>
              have hbyte := hok.deleted k hslot
              rw [if_neg (by rw [hbyte]; decide), if_pos hbyte, ih, hdrop]
              simp [liveFiles]
          | some g =>
              have hfile := hok.file k g hslot
              obtain ⟨m, rfl⟩ : ∃ m, room = m + 1 := ⟨room - 1, by omega⟩
              rw [if_neg hfile.first.1, if_neg hfile.first.2, if_neg hfile.not_long, ih, hdrop,
                hfile.name, hfile.size]
              simp [liveFiles, RootFile.dirent]

end DirOk

/-- A lookup that finds an entry read the root sector. -/
theorem findRootEntry_some {fs : Fat32Fs} {name83 : List UInt8} {lba off : Nat} {d d' : Disk}
    (h : findRootEntry fs name83 d = (some (lba, off), d')) :
    fs.dev.Serves (rootLba fs) d.requests ∧ lba = rootLba fs ∧
      findEntryFrom (d.sectors (rootLba fs)) name83 rootEntries 0 = some off ∧ d' = d.tick 1 := by
  unfold findRootEntry at h
  split at h
  · simp at h
  · rename_i sec d₁ hread
    obtain ⟨hserves, rfl, rfl⟩ := fat32IoRead_some hread
    obtain ⟨hmap, rfl⟩ := Prod.mk.inj h
    obtain ⟨off', hfind, heq⟩ := Option.map_eq_some_iff.mp hmap
    obtain ⟨rfl, rfl⟩ := Prod.mk.inj heq
    exact ⟨hserves, rfl, hfind, rfl⟩

/-- A lookup that is served and finds an entry. -/
theorem findRootEntry_found {fs : Fat32Fs} {name83 : List UInt8} {off : Nat} {d : Disk}
    (hserves : fs.dev.Serves (rootLba fs) d.requests)
    (hfind : findEntryFrom (d.sectors (rootLba fs)) name83 rootEntries 0 = some off) :
    findRootEntry fs name83 d = (some (rootLba fs, off), d.tick 1) := by
  rw [findRootEntry, fat32IoRead, BlockDev.read_ok hserves]
  simp only [hfind, Option.map_some]

/-- A lookup writes nothing. -/
theorem findRootEntry_sectors (fs : Fat32Fs) (name83 : List UInt8) (d : Disk) :
    (findRootEntry fs name83 d).2.sectors = d.sectors := by
  have hread := BlockDev.read_sectors fs.dev (rootLba fs) d
  unfold findRootEntry fat32IoRead
  generalize fs.dev.read (rootLba fs) d = r at hread
  obtain ⟨o, d'⟩ := r
  cases o <;> exact hread

/-! ## Live slots -/

/-- Slot `i` of the sector is one that the directory loops see as a file. -/
structure SlotLive (sec : Mem) (i : Nat) : Prop where
  lt : i < rootEntries
  reached : ∀ j ≤ i, sec (32 * j) ≠ 0x00
  not_deleted : sec (32 * i) ≠ 0xE5
  not_long : sec (32 * i + 11) &&& 0x0F ≠ 0x0F

/-- The live slots are the files. -/
theorem DirOk.slotLive_iff {sec : Mem} {slots : List (Option RootFile)} (hok : DirOk sec slots)
    {i : Nat} : SlotLive sec i ↔ ∃ f, slots[i]? = some (some f) := by
  constructor
  · intro h
    cases hslot : slots[i]? with
    | none =>
        have hlen := List.getElem?_eq_none_iff.mp hslot
        exact absurd (hok.rest i hlen h.lt) (h.reached i (le_refl _))
    | some x =>
        cases x with
        | none => exact absurd (hok.deleted i hslot) h.not_deleted
        | some f => exact ⟨f, rfl⟩
  · rintro ⟨f, hf⟩
    have hlt := slot_lt hf
    have hlen := hok.length_le
    have hfile := hok.file i f hf
    refine ⟨by omega, fun j hj => ?_, hfile.first.2, hfile.not_long⟩
    obtain ⟨x, hx⟩ : ∃ x, slots[j]? = some x := ⟨_, List.getElem?_eq_getElem (by omega)⟩
    cases x with
    | none =>
        rw [hok.deleted j hx]
        decide
    | some g => exact (hok.file j g hx).first.1

end RoninOS.Fs
