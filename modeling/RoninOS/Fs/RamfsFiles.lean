/-
RoninOS.Fs.RamfsFiles — the contents of RAMFS files.

A file's contents are the first `size` bytes of `data`. `fs_read` returns a
slice of them and `fs_write` replaces or extends one, up to 512 bytes.
`ramfs_write` also keeps a NUL after the contents, which is what makes `data`
the C string that `ramfs_read` hands out (`IsText`).
-/
import RoninOS.Fs.RamfsTheorems

namespace RoninOS.Fs

open RoninOS.Lib

/-- The first `size` bytes of `data`. -/
def contents (node : RamfsNode) : List UInt8 := node.data.bytes.take node.size

theorem take_length_take (l : List UInt8) (k : Nat) : l.take (l.take k).length = l.take k := by
  rw [List.length_take, List.take_eq_take_iff]
  omega

theorem length_contents {node : RamfsNode} (h : node.size ≤ ramfsMaxContent) :
    (contents node).length = node.size := by
  rw [contents, List.length_take, node.data.length_eq, Nat.min_eq_left h]

/-! ## `fs_read` and `fs_write` -/

section Files

variable {t : RamfsTable} {node : Nat}

/-- `fs_read` returns the bytes of the contents from `offset` on, at most `n`. -/
theorem fsRead_eq (hfile : (t node).isDir = false) (hsize : (t node).size ≤ ramfsMaxContent)
    (offset n : Nat) :
    fsRead t node offset n = (((((contents (t node)).drop offset).take n).length : Int),
      ((contents (t node)).drop offset).take n) := by
  have hlen := length_contents hsize
  unfold fsRead
  rw [if_neg (by rw [hfile]; decide)]
  by_cases hend : offset ≥ (t node).size
  · rw [if_pos hend, List.drop_of_length_le (by omega), List.take_nil]
    rfl
  · rw [if_neg hend]
    have hbytes : ((t node).data.bytes.drop offset).take (min ((t node).size - offset) n)
        = ((contents (t node)).drop offset).take n := by
      rw [contents, List.drop_take, List.take_take, Nat.min_comm]
    simp only [hbytes, List.length_take, List.length_drop, hlen]
    rw [Nat.min_comm]

/-- The node `fs_write` leaves when it puts `can` bytes of `buf` at `off`. -/
def writeBytes (node : RamfsNode) (off : Nat) (bytes : List UInt8) : RamfsNode :=
  { node with
    data := node.data.write off bytes
    size := max node.size (off + bytes.length) }

theorem writeBytes_links (node : RamfsNode) (off : Nat) (bytes : List UInt8) :
    SameLinks (writeBytes node off bytes) node := ⟨rfl, rfl, rfl, rfl, rfl, rfl⟩

/-- Bytes written inside or right after the contents replace or extend them. -/
theorem contents_writeBytes {node : RamfsNode} {off : Nat} {bytes : List UInt8}
    (hoff : off ≤ node.size) (hfit : off + bytes.length ≤ ramfsMaxContent) :
    contents (writeBytes node off bytes)
      = (contents node).take off ++ bytes ++ (contents node).drop (off + bytes.length) :=
  node.data.take_write hfit hoff

theorem size_writeBytes_le {node : RamfsNode} {off : Nat} {bytes : List UInt8}
    (hsize : node.size ≤ ramfsMaxContent) (hfit : off + bytes.length ≤ ramfsMaxContent) :
    (writeBytes node off bytes).size ≤ ramfsMaxContent := by
  simp only [writeBytes]
  omega

theorem writeBytes_nil {node : RamfsNode} {off : Nat} (hoff : off ≤ node.size) :
    writeBytes node off [] = node := by
  rw [writeBytes, Buffer.write_nil, List.length_nil, Nat.add_zero, Nat.max_eq_left hoff]

/-- Bytes written leave the contents and the size exactly where they are there
already. -/
theorem writeBytes_keeps_iff {node : RamfsNode} {off : Nat} {bytes : List UInt8}
    (hsize : node.size ≤ ramfsMaxContent) (hoff : off ≤ node.size)
    (hfit : off + bytes.length ≤ ramfsMaxContent) :
    contents (writeBytes node off bytes) = contents node ∧
      (writeBytes node off bytes).size = node.size ↔
    bytes <+: (contents node).drop off := by
  have hlen := length_contents hsize
  have htake : ((contents node).take off).length = off := by
    rw [List.length_take, hlen, Nat.min_eq_left hoff]
  rw [contents_writeBytes hoff hfit]
  constructor
  · rintro ⟨heq, -⟩
    have hdrop := congrArg (List.drop off) heq
    rw [List.append_assoc, List.drop_left' htake] at hdrop
    exact ⟨_, hdrop⟩
  · rintro ⟨rest, hrest⟩
    have hdrop : (contents node).drop (off + bytes.length) = rest := by
      rw [← List.drop_drop, ← hrest, List.drop_left]
    have hle : bytes.length ≤ node.size - off := by
      have hlenRest := congrArg List.length hrest
      rw [List.length_append, List.length_drop, hlen] at hlenRest
      omega
    refine ⟨?_, ?_⟩
    · rw [hdrop, List.append_assoc, hrest, List.take_append_drop]
    · exact Nat.max_eq_left (by omega)

/-- The bytes of `buf` that `fs_write` takes, and where it puts them. -/
theorem fsWrite_eq (hfile : (t node).isDir = false) (offset : Nat) (buf : List UInt8) :
    let off := min offset (t node).size
    let bytes := buf.take (ramfsMaxContent - off)
    fsWrite t node offset buf = ((bytes.length : Int),
      if bytes = [] then t else Function.update t node (writeBytes (t node) off bytes)) := by
  intro off bytes
  have hcan : min (ramfsMaxContent - off) buf.length = bytes.length := List.length_take.symm
  have htake : buf.take bytes.length = bytes := take_length_take buf _
  unfold fsWrite
  rw [if_neg (by rw [hfile]; decide)]
  simp only [show min offset (t node).size = off from rfl, hcan, htake]
  by_cases hnil : bytes = []
  · rw [if_pos (by rw [hnil]; rfl), if_pos hnil, hnil]
    rfl
  · rw [if_neg (fun h0 => hnil (List.length_eq_zero_iff.mp h0)), if_neg hnil]
    rfl

/-- The table `fs_write` leaves, in one form for every write. -/
theorem fsWrite_eq_update (hfile : (t node).isDir = false) (offset : Nat) (buf : List UInt8) :
    let off := min offset (t node).size
    let bytes := buf.take (ramfsMaxContent - off)
    fsWrite t node offset buf = ((bytes.length : Int),
      Function.update t node (writeBytes (t node) off bytes)) := by
  intro off bytes
  have heq : fsWrite t node offset buf = ((bytes.length : Int),
      if bytes = [] then t else Function.update t node (writeBytes (t node) off bytes)) :=
    fsWrite_eq hfile offset buf
  rw [heq]
  by_cases hnil : bytes = []
  · rw [if_pos hnil, hnil, writeBytes_nil (Nat.min_le_right ..), Function.update_eq_self]
  · rw [if_neg hnil]

end Files

/-! ## Texts -/

/-- The contents have no NUL and a NUL follows them within `data`. -/
structure IsText (node : RamfsNode) : Prop where
  size_lt : node.size < ramfsMaxContent
  no_nul : 0 ∉ contents node
  ends : node.data.bytes.getD node.size 0 = 0

/-- The C string at `data` of a text is its contents. -/
theorem IsText.str_data {node : RamfsNode} (h : IsText node) : node.data.str = contents node :=
  node.data.str_eq_take h.size_lt h.no_nul h.ends

/-- `ramfs_write` leaves room for the NUL. -/
theorem writeText_size_lt {node node' : RamfsNode} {text : List UInt8} {off : Nat}
    (h : writeText node text off = some node') : node'.size < ramfsMaxContent := by
  unfold writeText at h
  by_cases hover : off + text.length ≥ ramfsMaxContent ∧ off > ramfsMaxContent - 1
  · rw [if_pos hover] at h
    cases h
  · rw [if_neg hover] at h
    rw [← Option.some.inj h]
    have hmax : ramfsMaxContent = 512 := rfl
    simp only
    split <;> omega

/-- The copy of `ramfs_write` is defined at offsets that leave room for the NUL. -/
theorem writeText_defined (node : RamfsNode) (text : List UInt8) (off : Nat)
    (hoff : off < ramfsMaxContent) : ∃ node', writeText node text off = some node' := by
  unfold writeText
  rw [if_neg (by omega)]
  exact ⟨_, rfl⟩

/-- The copy keeps the bytes before `off` and is cut to leave 511 bytes in all. -/
theorem contents_writeText {node node' : RamfsNode} {text : List UInt8} {off : Nat}
    (hoff : off ≤ node.size) (h : writeText node text off = some node') :
    contents node' = (contents node).take off ++ text.take (ramfsMaxContent - 1 - off) := by
  have hmax : ramfsMaxContent = 512 := rfl
  have hlen := node.data.length_eq
  unfold writeText at h
  by_cases hover : off + text.length ≥ ramfsMaxContent ∧ off > ramfsMaxContent - 1
  · rw [if_pos hover] at h
    cases h
  · have hlenText : (if off + text.length ≥ ramfsMaxContent then ramfsMaxContent - 1 - off
        else text.length) = (text.take (ramfsMaxContent - 1 - off)).length := by
      rw [List.length_take]
      split <;> omega
    rw [if_neg hover, hlenText] at h
    simp only [take_length_take] at h
    rw [← Option.some.inj h]
    generalize hbytes : text.take (ramfsMaxContent - 1 - off) = bytes
    have hfit : off + bytes.length < ramfsMaxContent := by
      rw [← hbytes, List.length_take]
      omega
    rw [contents, Buffer.take_write_of_le _ (Nat.succ_le_of_lt hfit) le_rfl,
      Buffer.bytes_write _ (Nat.le_of_lt hfit), List.take_left' (by simp; omega), contents,
      List.take_take, Nat.min_eq_left hoff]

/-- A NUL follows the copy. -/
theorem writeText_ends {node node' : RamfsNode} {text : List UInt8} {off : Nat}
    (h : writeText node text off = some node') : node'.data.bytes.getD node'.size 0 = 0 := by
  have hsize := writeText_size_lt h
  unfold writeText at h
  split at h
  · cases h
  · rw [← Option.some.inj h] at hsize ⊢
    exact Buffer.getD_write_singleton _ 0 hsize

/-- A node without contents is a text. -/
theorem IsText.empty {node : RamfsNode} (hsize : node.size = 0)
    (hdata : node.data.bytes.getD 0 0 = 0) : IsText node where
  size_lt := by rw [hsize]; decide
  no_nul := by
    rw [contents, hsize]
    exact List.not_mem_nil
  ends := by rw [hsize]; exact hdata

/-- `ramfs_write` on a text keeps the bytes before `off`, appends what fits
below 512 bytes and leaves a text. -/
theorem writeText_spec {node : RamfsNode} (h : IsText node) {text : List UInt8} {off : Nat}
    (hoff : off ≤ node.size) (hnul : 0 ∉ text) :
    ∃ node', writeText node text off = some node' ∧ IsText node' ∧
      contents node' = ((contents node).take off ++ text).take (ramfsMaxContent - 1) := by
  have hsize := h.size_lt
  obtain ⟨node', hwrite⟩ := writeText_defined node text _ (Nat.lt_of_le_of_lt hoff hsize)
  have hcontents := contents_writeText hoff hwrite
  have hprefix : ((contents node).take off).length = off := by
    rw [List.length_take, length_contents hsize.le]
    omega
  refine ⟨node', hwrite, ⟨writeText_size_lt hwrite, ?_, writeText_ends hwrite⟩, ?_⟩
  · rw [hcontents, List.mem_append, not_or]
    exact ⟨fun h0 => h.no_nul (List.mem_of_mem_take h0), fun h0 => hnul (List.mem_of_mem_take h0)⟩
  · rw [hcontents, List.take_append, List.take_of_length_le (l := (contents node).take off) (by omega),
      hprefix]

end RoninOS.Fs
