/-
RoninOS.Lib.Buffer — C arrays of bytes.

A `Buffer n` is an array of exactly `n` bytes. `write` is `memcpy` into it; the
bytes of the source that would pass the end are dropped, so a caller that
cares shows that there are none. `str` is the C string that starts at the
buffer.
-/
import Mathlib.Data.List.Basic
import Mathlib.Data.List.TakeDrop
import Mathlib.Data.List.TakeWhile

namespace RoninOS.Lib

/-- An array of `n` bytes. -/
structure Buffer (n : Nat) where
  bytes : List UInt8
  length_eq : bytes.length = n

namespace Buffer

variable {n : Nat}

/-- The array of a static variable, or after `memset(b, 0, n)`. -/
def zero (n : Nat) : Buffer n := ⟨List.replicate n 0, List.length_replicate⟩

/-- `memcpy(b + off, src, src.length)`. -/
def write (b : Buffer n) (off : Nat) (src : List UInt8) : Buffer n where
  bytes := (b.bytes.take off ++ src ++ b.bytes.drop (off + src.length)).take n
  length_eq := by
    have hlen := b.length_eq
    simp only [List.length_take, List.length_append, List.length_drop]
    omega

/-- The bytes up to the first NUL. -/
def str (b : Buffer n) : List UInt8 := b.bytes.takeWhile (· ≠ 0)

/-! ## Reading after a write -/

/-- A write that fits replaces its own bytes only. -/
theorem bytes_write (b : Buffer n) {off : Nat} {src : List UInt8} (h : off + src.length ≤ n) :
    (b.write off src).bytes = b.bytes.take off ++ src ++ b.bytes.drop (off + src.length) := by
  have hlen := b.length_eq
  refine List.take_of_length_le ?_
  simp only [List.length_append, List.length_take, List.length_drop]
  omega

/-- Writing nothing. -/
theorem write_nil (b : Buffer n) (off : Nat) : b.write off [] = b := by
  obtain ⟨bytes, hlen⟩ := b
  simp only [write, List.append_nil, List.length_nil, Nat.add_zero, List.take_append_drop, mk.injEq]
  exact List.take_of_length_le hlen.le

/-- Two writes one after the other are one write. -/
theorem write_append (b : Buffer n) {off : Nat} {src src' : List UInt8}
    (h : off + src.length + src'.length ≤ n) :
    (b.write off src).write (off + src.length) src' = b.write off (src ++ src') := by
  have hlen := b.length_eq
  have heq : ((b.write off src).write (off + src.length) src').bytes
      = (b.write off (src ++ src')).bytes := by
    have htake : (b.bytes.take off).length = off := by
      rw [List.length_take]
      omega
    have hfit : off + (src ++ src').length ≤ n := by
      rw [List.length_append]
      omega
    have hlong : (b.bytes.take off ++ src).length = off + src.length := by
      rw [List.length_append, htake]
    rw [bytes_write _ h, bytes_write b (by omega), bytes_write b hfit, List.take_left' hlong,
      ← List.drop_drop, List.drop_left' hlong, List.drop_drop, List.length_append,
      List.append_assoc (b.bytes.take off), ← Nat.add_assoc]
  cases hw : (b.write off src).write (off + src.length) src'
  cases hw' : b.write off (src ++ src')
  rw [hw, hw'] at heq
  simpa using heq

/-- The first `k` bytes after a write at or before `k` that fits. -/
theorem take_write (b : Buffer n) {off k : Nat} {src : List UInt8} (h : off + src.length ≤ n)
    (hk : off ≤ k) :
    (b.write off src).bytes.take (max k (off + src.length))
      = (b.bytes.take k).take off ++ src ++ (b.bytes.take k).drop (off + src.length) := by
  have hlen := b.length_eq
  rw [bytes_write b h, List.append_assoc, List.append_assoc, List.take_append,
    List.length_take, Nat.min_eq_left (by omega),
    List.take_of_length_le (by rw [List.length_take]; omega),
    List.take_append, List.take_of_length_le (i := max k (off + src.length) - off) (by omega),
    List.take_take, Nat.min_eq_left hk, List.drop_take]
  congr 3
  omega

/-- The bytes before a write stay. -/
theorem take_write_of_le (b : Buffer n) {off k : Nat} {src : List UInt8}
    (h : off + src.length ≤ n) (hk : k ≤ off) :
    (b.write off src).bytes.take k = b.bytes.take k := by
  have hlen := b.length_eq
  rw [bytes_write b h, List.append_assoc, List.take_append_of_le_length (by simp; omega),
    List.take_take, Nat.min_eq_left hk]

/-- The bytes after a write stay. -/
theorem getD_write_of_le (b : Buffer n) {off k : Nat} {src : List UInt8}
    (h : off + src.length ≤ n) (hk : off + src.length ≤ k) :
    (b.write off src).bytes.getD k 0 = b.bytes.getD k 0 := by
  have hlen := b.length_eq
  rw [bytes_write b h, List.getD_eq_getElem?_getD, List.getD_eq_getElem?_getD,
    List.getElem?_append_right (by rw [List.length_append, List.length_take]; omega),
    List.getElem?_drop]
  congr 2
  simp only [List.length_append, List.length_take]
  omega

/-- The byte of a one-byte write. -/
theorem getD_write_singleton (b : Buffer n) {off : Nat} (c : UInt8) (h : off < n) :
    (b.write off [c]).bytes.getD off 0 = c := by
  have hlen := b.length_eq
  rw [bytes_write b (Nat.succ_le_of_lt h), List.getD_eq_getElem?_getD, List.append_assoc,
    List.getElem?_append_right (by rw [List.length_take]; omega)]
  simp [Nat.min_eq_left (by omega : off ≤ b.bytes.length)]

/-! ## C strings -/

/-- A buffer whose first `k` bytes are not NUL and whose byte `k` is holds the
string of those bytes. -/
theorem str_eq_take (b : Buffer n) {k : Nat} (hk : k < n) (hnul : 0 ∉ b.bytes.take k)
    (hend : b.bytes.getD k 0 = 0) : b.str = b.bytes.take k := by
  have hlen := b.length_eq
  have hget : b.bytes[k]? = some 0 := by
    rw [List.getD_eq_getElem?_getD, List.getElem?_eq_getElem (by omega)] at hend
    rw [List.getElem?_eq_getElem (by omega)]
    exact congrArg some hend
  obtain ⟨hlt, hget⟩ := List.getElem?_eq_some_iff.mp hget
  have hsplit : b.bytes = b.bytes.take k ++ 0 :: b.bytes.drop (k + 1) := by
    rw [← hget, ← List.drop_eq_getElem_cons hlt, List.take_append_drop]
  rw [str]
  conv_lhs => rw [hsplit]
  rw [List.takeWhile_append_of_pos (by
    intro c hc
    simpa using fun h0 : c = 0 => hnul (h0 ▸ hc))]
  simp

/-- A string of a buffer has no NUL. -/
theorem no_nul_str (b : Buffer n) : 0 ∉ b.str := by
  intro h
  simpa using List.mem_takeWhile_imp h

/-- The string of a buffer with a NUL is shorter than the buffer. -/
theorem length_str_lt (b : Buffer n) (h : 0 ∈ b.bytes) : b.str.length < n := by
  have hne : b.str ≠ b.bytes := fun heq => b.no_nul_str (by rw [heq]; exact h)
  have htaken : b.str <+: b.bytes := List.takeWhile_prefix _
  have hle := htaken.length_le
  rw [b.length_eq] at hle
  rcases Nat.lt_or_eq_of_le hle with hlt | heq
  · exact hlt
  · exact absurd (htaken.eq_of_length (heq.trans b.length_eq.symm)) hne

/-- A string and its terminator, written at the start of a buffer. -/
theorem str_write_string (b : Buffer n) {s : List UInt8} (hs : s.length < n) (hnul : 0 ∉ s) :
    ((b.write 0 s).write s.length [0]).str = s := by
  have htake : ((b.write 0 s).write s.length [0]).bytes.take s.length = s := by
    rw [take_write_of_le _ (Nat.succ_le_of_lt hs) le_rfl, bytes_write b (by omega)]
    simp
  rw [str_eq_take _ hs (by rw [htake]; exact hnul) (getD_write_singleton _ 0 hs), htake]

/-- A byte of the buffer that is NUL is in it. -/
theorem nul_mem_of_getD (b : Buffer n) {k : Nat} (hk : k < n) (h : b.bytes.getD k 0 = 0) :
    0 ∈ b.bytes := by
  rw [List.getD_eq_getElem?_getD, List.getElem?_eq_getElem (by rw [b.length_eq]; exact hk),
    Option.getD_some] at h
  rw [← h]
  exact List.getElem_mem _

theorem nul_mem_write_singleton (b : Buffer n) {k : Nat} (hk : k < n) :
    0 ∈ (b.write k [0]).bytes :=
  nul_mem_of_getD _ hk (b.getD_write_singleton 0 hk)

end Buffer

end RoninOS.Lib
