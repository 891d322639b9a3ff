/-
RoninOS.Fs.InitrdTheorems — the files that the module tags become.

`basename_from_cmdline` always leaves a name that is not empty, has no slash
and fits its buffer (`baseName_spec`). On a well-formed block
`initrd_mount_from_multiboot` stores the first 32 modules in tag order
(`initrdLoop_holds`), and the operations behind the VFS read them back: a listing in
that order, the first file with a name, and the bytes of a module.
-/
import RoninOS.Fs.Initrd
import RoninOS.Fs.VfsResolve
import RoninOS.Mem.PmmInit
import Mathlib.Data.List.DropRight

namespace RoninOS.Fs

open RoninOS.Lib RoninOS.Mem

/-! ## Names -/

/-- A name that `basename_from_cmdline` leaves. -/
structure InitrdName (name : List UInt8) : Prop where
  ne_nil : name ≠ []
  no_slash : slash ∉ name
  no_nul : 0 ∉ name
  length_lt : name.length < initrdMaxName

/-- The digits are ASCII digits. -/
theorem revDigits_mem : ∀ {rounds n : Nat} {c : UInt8}, c ∈ revDigits rounds n →
    ∃ d < 10, c = UInt8.ofNat (48 + d)
  | 0, _, _, h => absurd h List.not_mem_nil
  | rounds + 1, n, c, h => by
      rw [revDigits] at h
      split at h
      · exact absurd h List.not_mem_nil
      · rcases List.mem_cons.mp h with rfl | h
        · exact ⟨n % 10, Nat.mod_lt _ (by decide), rfl⟩
        · exact revDigits_mem h

theorem length_revDigits_le : ∀ (rounds n : Nat), (revDigits rounds n).length ≤ rounds
  | 0, _ => le_rfl
  | rounds + 1, n => by
      rw [revDigits]
      split
      · exact Nat.zero_le _
      · exact Nat.succ_le_succ (length_revDigits_le rounds _)

/-- The digits of a number, highest first. -/
def decimal (n : Nat) : List UInt8 := if n = 0 then [48] else (revDigits 10 n).reverse

theorem decimal_spec (n : Nat) : slash ∉ decimal n ∧ 0 ∉ decimal n ∧ (decimal n).length ≤ 10 := by
  have hdigit : ∀ c ∈ decimal n, c ≠ slash ∧ c ≠ 0 := by
    intro c hc
    have hd : ∃ d < 10, c = UInt8.ofNat (48 + d) := by
      unfold decimal at hc
      split at hc
      · rw [List.mem_singleton.mp hc]
        exact ⟨0, by decide, rfl⟩
      · exact revDigits_mem (List.mem_reverse.mp hc)
    obtain ⟨d, hd, rfl⟩ := hd
    have hall : ∀ d < 10, UInt8.ofNat (48 + d) ≠ slash ∧ UInt8.ofNat (48 + d) ≠ 0 := by decide
    exact hall d hd
  refine ⟨fun h => (hdigit _ h).1 rfl, fun h => (hdigit _ h).2 rfl, ?_⟩
  unfold decimal
  split
  · decide
  · rw [List.length_reverse]
    exact length_revDigits_le 10 n

/-- The name of a module without one. -/
theorem appendU32_str {b : Buffer initrdMaxName} (idx : Nat) :
    (appendU32 (b.write 0 (ascii "module")) 6 idx).str = ascii "module" ++ decimal idx := by
  obtain ⟨-, hnul, hlen⟩ := decimal_spec idx
  have hpre : (ascii "module").length = 6 := rfl
  have hcap : initrdMaxName = 32 := rfl
  have heq : appendU32 (b.write 0 (ascii "module")) 6 idx
      = (b.write 0 (ascii "module" ++ decimal idx)).write
          (ascii "module" ++ decimal idx).length [0] := by
    rw [← @Buffer.write_append _ b 0 (ascii "module") (decimal idx) (by omega),
      List.length_append, hpre, Nat.zero_add]
    unfold appendU32 decimal
    split <;> rfl
  rw [heq]
  refine b.str_write_string (by rw [List.length_append]; omega) fun h0 => ?_
  rcases List.mem_append.mp h0 with h0 | h0
  · exact absurd h0 (by decide)
  · exact hnul h0

/-- The base name of a module: what follows the last slash in the first word of
its string, as far as it fits, or `module` and the number of the module. -/
def baseName (string : List UInt8) (idx : Nat) : List UInt8 :=
  let base := ((string.takeWhile (· ≠ 32)).rtakeWhile (· ≠ slash)).take (initrdMaxName - 1)
  if base = [] then ascii "module" ++ decimal idx else base

/-- Only what follows the last slash counts. -/
theorem rtakeWhile_slash (l r : List UInt8) :
    (l ++ slash :: r).rtakeWhile (· ≠ slash) = r.rtakeWhile (· ≠ slash) := by
  rw [List.rtakeWhile, List.rtakeWhile, List.reverse_append, List.reverse_cons, List.append_assoc,
    List.singleton_append, List.takeWhile_append]
  split
  · rename_i hall
    rw [(List.takeWhile_sublist _).eq_of_length hall, List.takeWhile_cons_of_neg (by simp),
      List.append_nil]
  · rfl

/-- The loop ends at the start or right after the last slash before `p`. -/
theorem lastLoop_eq : ∀ (start pre : List UInt8), (∀ c ∈ pre, c ≠ 32 ∧ c ≠ slash) →
    (lastLoop (start.takeWhile (· ≠ 32)).length start (pre ++ start)).takeWhile (· ≠ 32)
      = (pre ++ start.takeWhile (· ≠ 32)).rtakeWhile (· ≠ slash)
  | [], pre, hpre => by
      have hspace : ∀ c ∈ pre, decide (c ≠ 32) = true := fun c hc => by simpa using (hpre c hc).1
      have hslash : ∀ c ∈ pre, decide (c ≠ slash) = true := fun c hc => by simpa using (hpre c hc).2
      simp only [List.takeWhile_nil, List.append_nil, List.length_nil]
      rw [lastLoop, List.takeWhile_eq_self_iff.mpr hspace, List.rtakeWhile_eq_self_iff.mpr hslash]
      intro k d s hk
      cases hk
  | c :: start, pre, hpre => by
      by_cases hspace : c = 32
      · have hall : ∀ c ∈ pre, decide (c ≠ 32) = true := fun c hc => by simpa using (hpre c hc).1
        have hslash : ∀ c ∈ pre, decide (c ≠ slash) = true := fun c hc => by
          simpa using (hpre c hc).2
        rw [List.takeWhile_cons_of_neg (by simp [hspace]), List.append_nil, List.length_nil,
          lastLoop, List.takeWhile_append_of_pos hall,
          List.takeWhile_cons_of_neg (by simp [hspace]), List.append_nil,
          List.rtakeWhile_eq_self_iff.mpr hslash]
        intro k d s hk
        cases hk
      · rw [List.takeWhile_cons_of_pos (by simp [hspace]), List.length_cons, lastLoop]
        by_cases hslash : c = slash
        · rw [if_pos hslash, hslash, rtakeWhile_slash]
          exact lastLoop_eq start [] (by simp)
        · have hspec := lastLoop_eq start (pre ++ [c]) (by
            intro b hb
            rcases List.mem_append.mp hb with hb | hb
            · exact hpre b hb
            · rw [List.mem_singleton.mp hb]
              exact ⟨hspace, hslash⟩)
          rw [List.append_assoc, List.singleton_append, List.append_assoc,
            List.singleton_append] at hspec
          rw [if_neg hslash]
          exact hspec

/-- `basename_from_cmdline` leaves the base name of its string. -/
theorem basename_str {cmdline : List UInt8} (hnul : 0 ∉ cmdline) (out : Buffer initrdMaxName)
    (idx : Nat) : (basenameFromCmdline cmdline out initrdMaxName idx).str = baseName cmdline idx := by
  unfold basenameFromCmdline baseName
  by_cases hnil : cmdline = []
  · rw [if_pos hnil, hnil]
    exact appendU32_str idx
  · have hlast := lastLoop_eq cmdline [] (by simp)
    rw [List.nil_append, List.nil_append] at hlast
    simp only [if_neg hnil, hlast]
    by_cases hbase : ((cmdline.takeWhile (· ≠ 32)).rtakeWhile (· ≠ slash)).take
        (initrdMaxName - 1) = []
    · rw [if_pos hbase, if_pos hbase]
      exact appendU32_str idx
    · rw [if_neg hbase, if_neg hbase]
      refine out.str_write_string ?_ fun h0 => hnul ?_
      · have hcap : initrdMaxName = 32 := rfl
        rw [List.length_take]
        omega
      · exact (List.takeWhile_sublist _).subset
          ((List.rtakeWhile_suffix _ _).subset (List.mem_of_mem_take h0))

/-- A base name is a name: not empty, without a slash, and it fits its buffer. -/
theorem baseName_spec {string : List UInt8} (hnul : 0 ∉ string) (idx : Nat) :
    InitrdName (baseName string idx) := by
  have hcap : initrdMaxName = 32 := rfl
  unfold baseName
  by_cases hbase : ((string.takeWhile (· ≠ 32)).rtakeWhile (· ≠ slash)).take
      (initrdMaxName - 1) = []
  · obtain ⟨hslash, hnul', hlen⟩ := decimal_spec idx
    have hpre : (ascii "module").length = 6 := rfl
    rw [if_pos hbase]
    refine ⟨by simp [ascii], fun h => ?_, fun h => ?_, ?_⟩
    · rcases List.mem_append.mp h with h | h
      · exact absurd h (by decide)
      · exact hslash h
    · rcases List.mem_append.mp h with h | h
      · exact absurd h (by decide)
      · exact hnul' h
    · rw [List.length_append]
      omega
  · rw [if_neg hbase]
    refine ⟨hbase, fun h => ?_, fun h => hnul ?_, ?_⟩
    · have hall := List.mem_rtakeWhile_imp (List.mem_of_mem_take h)
      simp at hall
    · exact (List.takeWhile_sublist _).subset
        ((List.rtakeWhile_suffix _ _).subset (List.mem_of_mem_take h))
    · rw [List.length_take]
      omega

/-! ## The module tags -/

/-- A boot module. -/
structure BootModule where
  start : Nat
  stop : Nat
  string : List UInt8

/-- The module of a tag, with the string up to its NUL. -/
def bootModule : Tag → Option BootModule
  | .module modStart modEnd string =>
      some { start := modStart, stop := modEnd, string := string.takeWhile (· ≠ 0) }
  | _ => none

/-- The modules of a block, in tag order. -/
def bootModules (tags : List Tag) : List BootModule := tags.filterMap bootModule

/-- The file of module number `idx`. -/
def BootModule.file (m : BootModule) (idx : Nat) : InitrdFile :=
  moduleFile zeroFile m.start m.stop idx m.string

/-- The name of module number `idx`. -/
def BootModule.name (m : BootModule) (idx : Nat) : List UInt8 := baseName m.string idx

/-- The bytes of a module. -/
def BootModule.bytes (m : BootModule) (mem : Mem) : List UInt8 :=
  bytesAt mem m.start (m.stop - m.start)

/-- A module in the address space, with a string that ends at its NUL. -/
structure ModuleOk (m : BootModule) : Prop where
  le : m.start ≤ m.stop
  lt : m.stop < 2 ^ 32
  no_nul : 0 ∉ m.string

theorem BootModule.length_bytes (m : BootModule) (mem : Mem) :
    (m.bytes mem).length = m.stop - m.start := length_bytesAt mem _ _

theorem BootModule.file_name (m : BootModule) (h : ModuleOk m) (idx : Nat) :
    (m.file idx).name.str = m.name idx := basename_str h.no_nul _ idx

theorem BootModule.file_size (m : BootModule) (h : ModuleOk m) (idx : Nat) :
    (m.file idx).size = m.stop - m.start :=
  sub32_of_le h.le h.lt

/-- `g_initrd` and `mod_idx` after one module. -/
def addModule (s : InitrdCtx × Nat) (m : BootModule) : InitrdCtx × Nat :=
  if s.1.count < initrdMaxFiles then
    ({ files := Function.update s.1.files s.1.count
        (moduleFile (s.1.files s.1.count) m.start m.stop s.2 m.string)
       count := s.1.count + 1 }, add32 s.2 1)
  else (s.1, add32 s.2 1)

section Tags

variable {mem : Mem}

/-- The string in memory, up to its NUL. -/
theorem stringAt_eq : ∀ {string : List UInt8} {fuel a : Nat},
    (∀ i < string.length, mem (a + i) = string.getD i 0) → mem (a + string.length) = 0 →
    a + string.length < 2 ^ 32 → string.length < fuel →
    stringAt mem fuel a = some (string.takeWhile (· ≠ 0))
  | _, 0, _, _, _, _, hfuel => absurd hfuel (Nat.not_lt_zero _)
  | [], fuel + 1, a, _, hend, _, _ => by
      rw [stringAt, if_pos (by simpa using hend)]
      rfl
  | c :: string, fuel + 1, a, hbytes, hend, hfits, hfuel => by
      rw [List.length_cons] at hend hfits hfuel hbytes
      have hc : mem a = c := by simpa using hbytes 0 (Nat.succ_pos _)
      rw [stringAt, hc]
      by_cases hzero : c = 0
      · rw [if_pos hzero, List.takeWhile_cons_of_neg (by simp [hzero])]
      · have hbytes' : ∀ i < string.length, mem (a + 1 + i) = string.getD i 0 := by
          intro i hi
          have hbyte := hbytes (i + 1) (by omega)
          rw [List.getD_cons_succ] at hbyte
          rw [← hbyte, show a + 1 + i = a + (i + 1) by omega]
        have hend' : mem (a + 1 + string.length) = 0 := by
          rw [← hend, show a + 1 + string.length = a + (string.length + 1) by omega]
        rw [if_neg hzero, List.takeWhile_cons_of_pos (by simp [hzero]), add32_of_lt (by omega),
          stringAt_eq hbytes' hend' (by omega) (by omega)]
        rfl

/-- The body of the loop adds the module of its tag. -/
theorem initrdTag_eq {fuel b : Nat} {t : Tag} (h : TagAt mem b t) (hfits : b + t.size < 2 ^ 32)
    (hfuel : t.size < fuel) (s : InitrdCtx × Nat) :
    initrdTag fuel mem s b = some (match bootModule t with
      | none => s
      | some m => addModule s m) := by
  obtain ⟨htype, -, hpayload⟩ := h
  unfold initrdTag
  rw [htype]
  cases t with
  | module modStart modEnd string =>
      obtain ⟨hstart, hend, -, hbytes, hnul⟩ := hpayload
      simp only [Tag.size] at hfits hfuel
      rw [Tag.type, if_pos rfl, hstart, hend]
      simp only [bootModule, addModule]
      rw [stringAt_eq hbytes hnul (by omega) (by omega), Option.map_some]
      split <;> rfl
  | mmap entrySize entries => exact if_neg (show ¬ tagTypeMmap = tagTypeModule by decide)
  | basicMeminfo lower upper => exact if_neg (show ¬ tagTypeBasicMeminfo = tagTypeModule by decide)
  | framebuffer size addr pitch width height =>
      exact if_neg (show ¬ tagTypeFramebuffer = tagTypeModule by decide)
  | other type size => exact if_neg hpayload.2.2.1

/-- The table holds the first 32 modules, and `mod_idx` counts them all. -/
structure HoldsModules (s : InitrdCtx × Nat) (mods : List BootModule) : Prop where
  count : s.1.count = min mods.length initrdMaxFiles
  idx : s.2 = mods.length % 2 ^ 32
  file : ∀ i m, mods[i]? = some m → i < initrdMaxFiles → s.1.files i = m.file i
  rest : ∀ i, s.1.count ≤ i → s.1.files i = zeroFile

theorem HoldsModules.add {s : InitrdCtx × Nat} {mods : List BootModule} (h : HoldsModules s mods)
    (m : BootModule) : HoldsModules (addModule s m) (mods ++ [m]) := by
  have hcap : initrdMaxFiles = 32 := rfl
  have hcount := h.count
  have hidx : add32 s.2 1 = (mods ++ [m]).length % 2 ^ 32 := by
    rw [h.idx, add32, List.length_append, List.length_singleton, Nat.mod_add_mod]
  have hold : ∀ i m', (mods ++ [m])[i]? = some m' → i ≠ mods.length → mods[i]? = some m' := by
    intro i m' hm' hne
    rw [List.getElem?_append] at hm'
    split at hm'
    · exact hm'
    · have hlen := (List.getElem?_eq_some_iff.mp hm').1
      rw [List.length_singleton] at hlen
      omega
  unfold addModule
  by_cases hroom : s.1.count < initrdMaxFiles
  · have hlen : mods.length = s.1.count := by omega
    rw [if_pos hroom]
    refine ⟨?_, hidx, fun i m' hm' hi => ?_, fun i hi => ?_⟩
    · rw [List.length_append, List.length_singleton]
      simp only
      omega
    · by_cases hlast : i = s.1.count
      · have hlt : mods.length < 2 ^ 32 := by omega
        simp only [hlast, Function.update_self]
        rw [hlast, ← hlen, List.getElem?_concat_length, Option.some.injEq] at hm'
        rw [h.rest _ le_rfl, h.idx, Nat.mod_eq_of_lt hlt, hlen, hm']
        rfl
      · simp only [Function.update_of_ne hlast]
        exact h.file i m' (hold i m' hm' (by omega)) hi
    · simp only at hi
      simp only [Function.update_of_ne (show i ≠ s.1.count by omega)]
      exact h.rest i (by omega)
  · rw [if_neg hroom]
    refine ⟨?_, hidx, fun i m' hm' hi => h.file i m' (hold i m' hm' (by omega)) hi, h.rest⟩
    rw [List.length_append, List.length_singleton]
    simp only
    omega

theorem HoldsModules.foldl (mods : List BootModule) : ∀ {s : InitrdCtx × Nat}
    {done : List BootModule}, HoldsModules s done →
    HoldsModules (mods.foldl addModule s) (done ++ mods) := by
  induction mods with
  | nil =>
      intro s done h
      rw [List.append_nil]
      exact h
  | cons m mods ih =>
      intro s done h
      rw [List.foldl_cons, ← List.singleton_append, ← List.append_assoc]
      exact ih (h.add m)

/-- The modules of a well-formed block. -/
theorem bootModules_ok {addr : Nat} {tags : List Tag} (h : InfoBlock mem addr tags) :
    ∀ m ∈ bootModules tags, ModuleOk m := by
  intro m hm
  obtain ⟨t, ht, htm⟩ := List.mem_filterMap.mp hm
  obtain ⟨b, -, -, hpayload⟩ := mem_tagsAt h.tags t ht
  cases t with
  | module modStart modEnd string =>
      obtain ⟨-, hend, hle, -⟩ := hpayload
      obtain rfl := Option.some.inj htm
      refine ⟨hle, hend ▸ ld32_lt mem _, fun h0 => ?_⟩
      simpa using List.mem_takeWhile_imp h0
  | _ => cases htm

/-- The loop over a well-formed block stores its modules. -/
theorem initrdLoop_holds {addr : Nat} {tags : List Tag} (h : InfoBlock mem addr tags) :
    ∃ s, tagLoop mem (sub32 (add32 addr (ld32 mem addr)) 8) (initrdTag (ld32 mem addr) mem)
        (ld32 mem addr) (add32 addr 8) (zeroCtx, 0) = some s ∧ HoldsModules s (bootModules tags) := by
  have hfits := h.fits
  have htotal := h.total_size
  have hcap : initrdMaxFiles = 32 := rfl
  have hstart : HoldsModules (zeroCtx, 0) [] := by
    refine ⟨by simp [zeroCtx], rfl, fun i m hm => ?_, fun i _ => rfl⟩
    rw [List.getElem?_nil] at hm
    exact absurd hm (Option.some_ne_none m).symm
  refine ⟨(bootModules tags).foldl addModule (zeroCtx, 0), ?_, ?_⟩
  · rw [h.tagLoop_eq le_rfl fun t ht b s hb hround => initrdTag_eq hb ?_ ?_ s]
    · congr 1
      rw [bootModules, List.foldl_filterMap]
      congr 1
      funext s t
      cases bootModule t <;> rfl
    · have hle := le_round8 t.size
      omega
    · have hle := le_round8 t.size
      have hsize := size_le_tagsLength ht
      omega
  · have hall := hstart.foldl (bootModules tags)
    rw [List.nil_append] at hall
    exact hall

end Tags

end RoninOS.Fs
