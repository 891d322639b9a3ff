/-
RoninOS.Lib.Memory — byte-addressed memory with little-endian words.

A memory gives every address its byte. `ld16`, `ld32`, `st16` and `st32` read
and write words, lowest byte first; `stBytes` stores a list of bytes and
`copyBytes` is the forward byte loop of `memcpy`. The lemmas say what a store
leaves alone: every word and byte outside the bytes it writes.
-/
import Mathlib.Logic.Function.Basic
import Mathlib.Tactic.Ring

namespace RoninOS.Lib

/-! ## Little-endian words -/

/-- The value of four bytes, lowest first. -/
def le32 (b0 b1 b2 b3 : UInt8) : Nat :=
  b0.toNat + b1.toNat * 2 ^ 8 + b2.toNat * 2 ^ 16 + b3.toNat * 2 ^ 24

/-- Byte `k` of a word. -/
def byteOf (v k : Nat) : UInt8 := UInt8.ofNat (v / 2 ^ (8 * k))

theorem toNat_byteOf (v k : Nat) : (byteOf v k).toNat = v / 2 ^ (8 * k) % 256 := by
  simp [byteOf]

theorem le32_lt (b0 b1 b2 b3 : UInt8) : le32 b0 b1 b2 b3 < 2 ^ 32 := by
  have h0 := b0.toNat_lt
  have h1 := b1.toNat_lt
  have h2 := b2.toNat_lt
  have h3 := b3.toNat_lt
  unfold le32
  omega

/-- The four bytes of a word give it back. -/
theorem le32_byteOf {v : Nat} (hv : v < 2 ^ 32) :
    le32 (byteOf v 0) (byteOf v 1) (byteOf v 2) (byteOf v 3) = v := by
  simp only [le32, toNat_byteOf]
  omega

/-! ## Memories -/

/-- The byte at every address. -/
abbrev Mem := Nat → UInt8

/-- The 32-bit word at `a`. -/
def ld32 (m : Mem) (a : Nat) : Nat := le32 (m a) (m (a + 1)) (m (a + 2)) (m (a + 3))

/-- The 64-bit word at `a`. -/
def ld64 (m : Mem) (a : Nat) : Nat := ld32 m a + ld32 m (a + 4) * 2 ^ 32

/-- The memory after writing the 32-bit word `v` at `a`. -/
def st32 (m : Mem) (a v : Nat) : Mem := fun x =>
  if x = a then byteOf v 0
  else if x = a + 1 then byteOf v 1
  else if x = a + 2 then byteOf v 2
  else if x = a + 3 then byteOf v 3
  else m x

/-- A word is read off its bytes. -/
theorem ld32_of_bytes {m : Mem} {a v : Nat} (hv : v < 2 ^ 32) (h0 : m a = byteOf v 0)
    (h1 : m (a + 1) = byteOf v 1) (h2 : m (a + 2) = byteOf v 2) (h3 : m (a + 3) = byteOf v 3) :
    ld32 m a = v := by
  rw [ld32, h0, h1, h2, h3, le32_byteOf hv]

theorem ld32_lt (m : Mem) (a : Nat) : ld32 m a < 2 ^ 32 := le32_lt _ _ _ _

/-- A word depends on its own four bytes only. -/
theorem ld32_congr {m m' : Mem} {a : Nat} (h : ∀ k < 4, m' (a + k) = m (a + k)) :
    ld32 m' a = ld32 m a := by
  have h0 := h 0 (by decide)
  have h1 := h 1 (by decide)
  have h2 := h 2 (by decide)
  have h3 := h 3 (by decide)
  simp only [Nat.add_zero] at h0
  simp only [ld32, h0, h1, h2, h3]

/-- A store leaves the bytes outside its word alone. -/
theorem st32_of_disjoint (m : Mem) {a x : Nat} (v : Nat) (h : x < a ∨ a + 4 ≤ x) :
    st32 m a v x = m x := by
  unfold st32
  rw [if_neg (by omega), if_neg (by omega), if_neg (by omega), if_neg (by omega)]

/-- A stored word reads back. -/
theorem ld32_st32_self (m : Mem) (a : Nat) {v : Nat} (hv : v < 2 ^ 32) :
    ld32 (st32 m a v) a = v := by
  simp [ld32, st32, le32_byteOf hv]

/-- A store leaves every word that does not overlap it alone. -/
theorem ld32_st32_of_disjoint (m : Mem) {a b : Nat} (v : Nat) (h : b + 4 ≤ a ∨ a + 4 ≤ b) :
    ld32 (st32 m a v) b = ld32 m b :=
  ld32_congr fun _ _ => st32_of_disjoint m v (by omega)

/-! ## Half words and byte strings -/

/-- The 16-bit word at `a`. -/
def ld16 (m : Mem) (a : Nat) : Nat := (m a).toNat + (m (a + 1)).toNat * 2 ^ 8

/-- The memory after writing the 16-bit word `v` at `a`. -/
def st16 (m : Mem) (a v : Nat) : Mem := fun x =>
  if x = a then byteOf v 0 else if x = a + 1 then byteOf v 1 else m x

/-- The memory after writing the bytes `bs` at `a`. -/
def stBytes (m : Mem) (a : Nat) (bs : List UInt8) : Mem := fun x =>
  if a ≤ x ∧ x < a + bs.length then bs.getD (x - a) 0 else m x

/-- The `n` bytes at `a`. -/
def bytesAt (m : Mem) (a n : Nat) : List UInt8 := (List.range n).map fun i => m (a + i)

theorem ld16_of_bytes {m : Mem} {a : Nat} {b0 b1 : UInt8} (h0 : m a = b0) (h1 : m (a + 1) = b1) :
    ld16 m a = b0.toNat + b1.toNat * 2 ^ 8 := by
  rw [ld16, h0, h1]

theorem ld16_lt (m : Mem) (a : Nat) : ld16 m a < 2 ^ 16 := by
  have h0 := (m a).toNat_lt
  have h1 := (m (a + 1)).toNat_lt
  unfold ld16
  omega

theorem ld16_congr {m m' : Mem} {a : Nat} (h : ∀ k < 2, m' (a + k) = m (a + k)) :
    ld16 m' a = ld16 m a := by
  have h0 := h 0 (by decide)
  have h1 := h 1 (by decide)
  simp only [Nat.add_zero] at h0
  simp only [ld16, h0, h1]

theorem st16_of_disjoint (m : Mem) {a x : Nat} (v : Nat) (h : x < a ∨ a + 2 ≤ x) :
    st16 m a v x = m x := by
  unfold st16
  rw [if_neg (by omega), if_neg (by omega)]

theorem ld16_st16_self (m : Mem) (a : Nat) {v : Nat} (hv : v < 2 ^ 16) :
    ld16 (st16 m a v) a = v := by
  simp only [ld16, st16, if_true, if_neg (show a + 1 ≠ a by omega), toNat_byteOf]
  omega

theorem stBytes_of_disjoint (m : Mem) {a x : Nat} {bs : List UInt8}
    (h : x < a ∨ a + bs.length ≤ x) : stBytes m a bs x = m x := by
  unfold stBytes
  rw [if_neg (by omega)]

theorem stBytes_nil (m : Mem) (a : Nat) : stBytes m a [] = m := by
  funext x
  exact if_neg (by simp)

/-- Bytes are stored one after another. -/
theorem stBytes_cons (m : Mem) (a : Nat) (b : UInt8) (bs : List UInt8) :
    stBytes m a (b :: bs) = stBytes (Function.update m a b) (a + 1) bs := by
  funext x
  unfold stBytes
  rw [List.length_cons]
  by_cases hx : x = a
  · subst hx
    rw [if_pos (by omega), if_neg (by omega), Function.update_self, Nat.sub_self,
      List.getD_cons_zero]
  · rw [Function.update_of_ne hx]
    by_cases hin : a + 1 ≤ x ∧ x < a + 1 + bs.length
    · rw [if_pos (by omega), if_pos hin, show x - a = x - (a + 1) + 1 by omega,
        List.getD_cons_succ]
    · rw [if_neg (by omega), if_neg hin]

@[simp] theorem length_bytesAt (m : Mem) (a n : Nat) : (bytesAt m a n).length = n := by
  simp [bytesAt]

theorem bytesAt_add (m : Mem) (a n k : Nat) :
    bytesAt m a (n + k) = bytesAt m a n ++ bytesAt m (a + n) k := by
  simp only [bytesAt, List.range_add, List.map_append, List.map_map]
  congr 1
  exact List.map_congr_left fun i _ => by rw [Function.comp_apply, Nat.add_assoc]

theorem bytesAt_succ (m : Mem) (a n : Nat) : bytesAt m a (n + 1) = m a :: bytesAt m (a + 1) n := by
  rw [Nat.add_comm n 1, bytesAt_add]
  simp [bytesAt]

/-- A byte string depends on its own bytes only. -/
theorem bytesAt_congr {m m' : Mem} {a n : Nat} (h : ∀ k < n, m' (a + k) = m (a + k)) :
    bytesAt m' a n = bytesAt m a n := by
  simp only [bytesAt]
  exact List.map_congr_left fun k hk => h k (List.mem_range.mp hk)

/-- Stored bytes read back. -/
theorem bytesAt_stBytes_self (m : Mem) (a : Nat) (bs : List UInt8) :
    bytesAt (stBytes m a bs) a bs.length = bs := by
  apply List.ext_getElem
  · simp
  · intro i h1 h2
    simp [bytesAt, stBytes, h2]

/-! ## Copying -/

/-- `memcpy`: byte `i` of the source is stored at byte `i` of the destination,
for `i` from 0 to `n - 1`. -/
def copyBytes (m : Mem) (dst src : Nat) : Nat → Mem
  | 0 => m
  | n + 1 =>
      let m' := copyBytes m dst src n
      Function.update m' (dst + n) (m' (src + n))

/-- A copy leaves the bytes outside the destination alone. -/
theorem copyBytes_of_disjoint (m : Mem) (dst src : Nat) {x : Nat} : ∀ {n : Nat},
    (x < dst ∨ dst + n ≤ x) → copyBytes m dst src n x = m x
  | 0, _ => rfl
  | n + 1, h => by
      rw [copyBytes, Function.update_of_ne (by omega)]
      exact copyBytes_of_disjoint m dst src (by omega)

/-- A copy between disjoint ranges reads back as the source. -/
theorem copyBytes_of_lt (m : Mem) {dst src : Nat} : ∀ {n : Nat},
    (dst + n ≤ src ∨ src + n ≤ dst) → ∀ {i : Nat}, i < n →
    copyBytes m dst src n (dst + i) = m (src + i)
  | 0, _, i, hi => by omega
  | n + 1, hdisj, i, hi => by
      rw [copyBytes]
      by_cases hin : i = n
      · subst hin
        rw [Function.update_self]
        exact copyBytes_of_disjoint m dst src (by omega)
      · rw [Function.update_of_ne (by omega)]
        exact copyBytes_of_lt m (by omega) (by omega)

end RoninOS.Lib
