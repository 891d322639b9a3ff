/-
RoninOS.Mem.Paging — the two-level page tables of `kernel/mem/paging.c`.

`g_page_directory` and the tables of `g_table_pool` are functions from indices
to 32-bit words; a table is found by its physical address, as `get_table` finds
it. The TLB flush, `cr0`, `cr3` and the messages have no state here. A panic
(the table pool is exhausted, or an identity map fails) is `none`.
-/
import RoninOS.Lib.Word32
import Mathlib.Logic.Function.Basic

namespace RoninOS.Mem

open RoninOS.Lib

/-- `PAGE_PRESENT`. -/
def pagePresent : Nat := 0x001
/-- `PAGE_WRITE`. -/
def pageWrite : Nat := 0x002
/-- `MAX_BOOTSTRAP_TABLES`. -/
def maxBootstrapTables : Nat := 256

/-- Where the linker puts `g_table_pool`. -/
structure TablePool where
  base : Nat
  aligned : base % 4096 = 0
  pos : 0 < base
  fits : base + maxBootstrapTables * 4096 ≤ 2 ^ 32

/-- The globals of `paging.c`; `tables` gives the words of the table at an address. -/
structure Paging where
  directory : Nat → Nat
  tables : Nat → Nat → Nat
  tablesUsed : Nat
  enabled : Bool

/-! ## Tables -/

/-- `(virt >> 22) & 0x3FF`. -/
def pdIndex (virt : Nat) : Nat := virt >>> 22 &&& 0x3FF

/-- `(virt >> 12) & 0x3FF`. -/
def ptIndex (virt : Nat) : Nat := virt >>> 12 &&& 0x3FF

/-- `alloc_table`: the next table of the pool, zeroed. -/
def allocTable (pool : TablePool) (p : Paging) : Option (Nat × Paging) :=
  if p.tablesUsed ≥ maxBootstrapTables then none
  else
    let table := pool.base + 4096 * p.tablesUsed
    some (table, { p with
      tables := Function.update p.tables table fun _ => 0
      tablesUsed := p.tablesUsed + 1 })

/-- `get_table(virt, 0)`: the table's address, or 0. -/
def findTable (p : Paging) (virt : Nat) : Nat :=
  if p.directory (pdIndex virt) &&& pagePresent = 0 then 0
  else p.directory (pdIndex virt) &&& 0xFFFFF000

/-- `get_table(virt, 1)`. -/
def getTable (pool : TablePool) (p : Paging) (virt : Nat) : Option (Nat × Paging) :=
  if p.directory (pdIndex virt) &&& pagePresent = 0 then
    (allocTable pool p).map fun (table, p) =>
      (table, { p with
        directory := Function.update p.directory (pdIndex virt)
          (table ||| pagePresent ||| pageWrite) })
  else some (p.directory (pdIndex virt) &&& 0xFFFFF000, p)

/-- `table[index] = word`. -/
def Paging.setEntry (p : Paging) (table index word : Nat) : Paging :=
  { p with tables := Function.update p.tables table (Function.update (p.tables table) index word) }

/-! ## Pages -/

/-- `map_page`: the return value and the state. -/
def mapPage (pool : TablePool) (p : Paging) (virt phys flags : Nat) : Option (Int × Paging) :=
  if virt &&& 0xFFF ≠ 0 ∨ phys &&& 0xFFF ≠ 0 then some (-1, p)
  else
    (getTable pool p virt).map fun (table, p) =>
      (0, p.setEntry table (ptIndex virt)
        (phys &&& 0xFFFFF000 ||| flags &&& 0xFFF ||| pagePresent))

/-- `unmap_page`. -/
def unmapPage (p : Paging) (virt : Nat) : Paging :=
  if virt &&& 0xFFF ≠ 0 then p
  else
    let table := findTable p virt
    if table = 0 then p else p.setEntry table (ptIndex virt) 0

/-- `translate`. -/
def translate (p : Paging) (virt : Nat) : Nat :=
  let table := findTable p virt
  if table = 0 then 0
  else if p.tables table (ptIndex virt) &&& pagePresent = 0 then 0
  else (p.tables table (ptIndex virt) &&& 0xFFFFF000) ||| (virt &&& 0xFFF)

/-! ## Identity maps and `paging_init` -/

/-- The loop of `map_range_identity`, `rounds` pages from `addr` on. -/
def mapPagesIdentity (pool : TablePool) (flags : Nat) : Nat → Nat → Paging → Option (Int × Paging)
  | 0, _, p => some (0, p)
  | rounds + 1, addr, p =>
      (mapPage pool p addr addr flags).bind fun (ret, p) =>
        if ret ≠ 0 then some (-1, p)
        else mapPagesIdentity pool flags rounds (add32 addr 4096) p

/-- `map_range_identity`; `start` and `end` are page-aligned, so the loop runs
`(end - start) / 4096` times. -/
def mapRangeIdentity (pool : TablePool) (p : Paging) (physStart bytes flags : Nat) :
    Option (Int × Paging) :=
  let start := physStart &&& 0xFFFFF000
  if bytes = 0 then some (0, p)
  else
    let end_ := add32 (add32 physStart bytes) 0xFFF &&& 0xFFFFF000
    if end_ < start then some (-1, p)
    else mapPagesIdentity pool flags ((end_ - start) / 4096) start p

/-- What `console_get_framebuffer` reports: a 64-bit address, pitch and height. -/
structure Framebuffer where
  addr : Nat
  pitch : Nat
  height : Nat

/-- `paging_init`; `fb` is the console's framebuffer, if it has one. The tables
of the pool keep what they held. -/
def pagingInit (pool : TablePool) (tables : Nat → Nat → Nat) (physLimit : Nat)
    (fb : Option Framebuffer) : Option Paging :=
  let p : Paging := { directory := fun _ => 0, tables, tablesUsed := 0, enabled := false }
  (mapRangeIdentity pool p 0 physLimit pageWrite).bind fun (ret, p) =>
    if ret ≠ 0 then none
    else
      match fb with
      | none => some { p with enabled := true }
      | some fb =>
          let bytes64 := fb.pitch * fb.height
          if fb.addr > 0xFFFFFFFF ∨ bytes64 > 0xFFFFFFFF then some { p with enabled := true }
          else
            (mapRangeIdentity pool p fb.addr bytes64 pageWrite).bind fun (ret, p) =>
              if ret ≠ 0 then none else some { p with enabled := true }

end RoninOS.Mem
