/-
RoninOS.Drivers.AtaPio — the disk driver `kernel/drivers/ata_pio.c` and the
register of block devices, `kernel/block/blockdev.c`.

A request takes the ports and leaves them with its accesses in the trace. The
loops of `ata_identify` that wait for the status get a number of rounds and are
`none` when it runs out; the one of `ata_poll_ready` has its own bound. A
buffer of sectors is its words. Messages on the console are left out.
-/
import RoninOS.Lib.PortIo
import RoninOS.Lib.CString
import RoninOS.Lib.Word32

namespace RoninOS.Drivers

open RoninOS.Lib

/-! ## Constants -/

/-- `ATA_SR_BSY`. -/
def ataSrBsy : UInt8 := 0x80
/-- `ATA_SR_DRDY`. -/
def ataSrDrdy : UInt8 := 0x40
/-- `ATA_SR_DRQ`. -/
def ataSrDrq : UInt8 := 0x08
/-- `ATA_SR_ERR`. -/
def ataSrErr : UInt8 := 0x01

/-- `ATA_CMD_READ_PIO`. -/
def ataCmdReadPio : UInt8 := 0x20
/-- `ATA_CMD_WRITE_PIO`. -/
def ataCmdWritePio : UInt8 := 0x30
/-- `ATA_CMD_CACHE_FLUSH`. -/
def ataCmdCacheFlush : UInt8 := 0xE7
/-- `ATA_CMD_IDENTIFY`. -/
def ataCmdIdentify : UInt8 := 0xEC

/-- `ATA_PRIMARY_IO`. -/
def ataPrimaryIo : Nat := 0x1F0
/-- `ATA_SECONDARY_IO`. -/
def ataSecondaryIo : Nat := 0x170
/-- `ATA_PRIMARY_CTRL`. -/
def ataPrimaryCtrl : Nat := 0x3F6
/-- `ATA_SECONDARY_CTRL`. -/
def ataSecondaryCtrl : Nat := 0x376

/-- `ATA_SEL_MASTER`. -/
def ataSelMaster : UInt8 := 0xA0
/-- `ATA_SEL_SLAVE`. -/
def ataSelSlave : UInt8 := 0xB0

/-! ## Devices -/

/-- `ata_ctx_t`. -/
structure AtaCtx where
  io : Nat
  ctrl : Nat
  slave : Bool
  deriving DecidableEq

/-- `ctx->slave ? ATA_SEL_SLAVE : ATA_SEL_MASTER`. -/
def AtaCtx.sel (ctx : AtaCtx) : UInt8 := if ctx.slave then ataSelSlave else ataSelMaster

/-- `blockdev_t` as `ata_pio.c` fills it; no `ctx` is a null pointer. -/
structure AtaDev where
  name : List UInt8
  sectorSize : Nat
  sectorCount : Nat
  ctx : Option AtaCtx
  deriving DecidableEq

/-- `BLOCKDEV_MAX`. -/
def blockdevMax : Nat := 8

/-- `block_register`, with the devices so far. -/
def blockRegister (devs : List AtaDev) (dev : AtaDev) : Int × List AtaDev :=
  if dev.sectorSize = 0 ∨ dev.sectorCount = 0 then (-1, devs)
  else if devs.length ≥ blockdevMax then (-1, devs)
  else (0, devs ++ [dev])

/-! ## Status -/

/-- `io_delay_400ns`. -/
def ioDelay400ns (ctrl : Nat) (p : PortIo) : PortIo :=
  let p := (p.inb ctrl).2
  let p := (p.inb ctrl).2
  let p := (p.inb ctrl).2
  (p.inb ctrl).2

/-- `timeout` of `ata_poll_ready`. -/
def ataTimeout : Nat := 1000000

/-- The loop of `ata_poll_ready`. -/
def pollLoop (io : Nat) : Nat → PortIo → Int × PortIo
  | 0, p => (-1, p)
  | timeout + 1, p =>
      let (status, p) := p.inb (io + 7)
      if status &&& ataSrBsy = 0 then
        if status &&& ataSrErr ≠ 0 then (-1, p)
        else if status &&& ataSrDrq ≠ 0 then (0, p)
        else if status &&& ataSrDrdy ≠ 0 then (0, p)
        else pollLoop io timeout p
      else pollLoop io timeout p

/-- `ata_poll_ready`. -/
def ataPollReady (io ctrl : Nat) (p : PortIo) : Int × PortIo :=
  pollLoop io ataTimeout (ioDelay400ns ctrl p)

/-! ## Identification -/

/-- `while ((status & ATA_SR_BSY) != 0) status = inb(ctx->io + 7);`. -/
def waitNotBusy (io : Nat) : Nat → UInt8 → PortIo → Option (UInt8 × PortIo)
  | 0, _, _ => none
  | rounds + 1, status, p =>
      if status &&& ataSrBsy ≠ 0 then
        let (status, p) := p.inb (io + 7)
        waitNotBusy io rounds status p
      else some (status, p)

/-- The loop that waits for `ATA_SR_DRQ`: whether it ends without an error. -/
def waitDrq (io : Nat) : Nat → UInt8 → PortIo → Option (Bool × PortIo)
  | 0, _, _ => none
  | rounds + 1, status, p =>
      if status &&& ataSrDrq = 0 then
        if status &&& ataSrErr ≠ 0 then some (false, p)
        else
          let (status, p) := p.inb (io + 7)
          waitDrq io rounds status p
      else some (true, p)

/-- `buf[at + i] = inw16(io)`, for `rounds` words from word `at`. -/
def readWords (io : Nat) : Nat → Nat → (Nat → UInt16) → PortIo → (Nat → UInt16) × PortIo
  | 0, _, buf, p => (buf, p)
  | rounds + 1, i, buf, p =>
      let (word, p) := p.inw io
      readWords io rounds (i + 1) (Function.update buf i word) p

/-- The words of `identify` and the number of sectors in them. -/
def readIdentify (io : Nat) (identify : Nat → UInt16) (p : PortIo) : Int × Nat × PortIo :=
  let r := readWords io 256 0 identify p
  let sectors := (r.1 61).toNat <<< 16 ||| (r.1 60).toNat
  (if sectors > 0 then 0 else -1, sectors, r.2)

/-- `ata_identify`; `identify` is the array before the words are read. -/
def ataIdentify (rounds : Nat) (ctx : AtaCtx) (identify : Nat → UInt16) (p : PortIo) :
    Option (Int × Nat × PortIo) :=
  let p := p.outb (ctx.io + 6) (ctx.sel ||| 0x40)
  let p := ioDelay400ns ctx.ctrl p
  let p := p.outb (ctx.io + 2) 0
  let p := p.outb (ctx.io + 3) 0
  let p := p.outb (ctx.io + 4) 0
  let p := p.outb (ctx.io + 5) 0
  let p := p.outb (ctx.io + 7) ataCmdIdentify
  let (status, p) := p.inb (ctx.io + 7)
  if status = 0 then some (-1, 0, p)
  else
    (waitNotBusy ctx.io rounds status p).bind fun (status, p) =>
      let (high, p) := p.inb (ctx.io + 4)
      if high ≠ 0 then some (-1, 0, p)
      else
        let (higher, p) := p.inb (ctx.io + 5)
        if higher ≠ 0 then some (-1, 0, p)
        else
          (waitDrq ctx.io rounds status p).map fun (ok, p) =>
            if ok then readIdentify ctx.io identify p else (-1, 0, p)

/-! ## Requests -/

/-- The checks of `ata_pio_read` and `ata_pio_write`; they return the context. -/
def checkRequest {Buf : Type} (dev : Option AtaDev) (buf : Option Buf) (lba count : Nat) :
    Option (AtaCtx × Buf) := do
  let dev ← dev
  let buf ← buf
  if count = 0 then none
  else if dev.sectorSize ≠ 512 then none
  else if add32 lba count > dev.sectorCount then none
  else if count > 255 then none
  else
    let ctx ← dev.ctx
    some (ctx, buf)

/-- The registers of a request, and its command. -/
def issueCommand (ctx : AtaCtx) (lba count : Nat) (cmd : UInt8) (p : PortIo) : PortIo :=
  let p := p.outb ctx.ctrl 0x00
  let p := p.outb (ctx.io + 6) (ctx.sel ||| UInt8.ofNat (lba >>> 24 &&& 0x0F))
  let p := p.outb (ctx.io + 2) (UInt8.ofNat count)
  let p := p.outb (ctx.io + 3) (UInt8.ofNat (lba &&& 0xFF))
  let p := p.outb (ctx.io + 4) (UInt8.ofNat (lba >>> 8 &&& 0xFF))
  let p := p.outb (ctx.io + 5) (UInt8.ofNat (lba >>> 16 &&& 0xFF))
  p.outb (ctx.io + 7) cmd

/-- The loop over the sectors, from sector `s` on: each is polled for and then
transferred. -/
def sectorLoop {Buf : Type} (ctx : AtaCtx) (transfer : Nat → Buf → PortIo → Buf × PortIo) :
    Nat → Nat → Buf → PortIo → Int × Buf × PortIo
  | 0, _, buf, p => (0, buf, p)
  | rounds + 1, s, buf, p =>
      let (rc, p) := ataPollReady ctx.io ctx.ctrl p
      if rc ≠ 0 then (-1, buf, p)
      else
        let (buf, p) := transfer s buf p
        sectorLoop ctx transfer rounds (s + 1) buf (ioDelay400ns ctx.ctrl p)

/-- `for (i = 0; i < 256; i++) out[s * 256u + i] = inw16(ctx->io);`. -/
def readSector (io s : Nat) (out : Nat → UInt16) (p : PortIo) : (Nat → UInt16) × PortIo :=
  readWords io 256 (s * 256) out p

/-- `ata_pio_read`. -/
def ataPioRead (dev : Option AtaDev) (lba count : Nat) (buf : Option (Nat → UInt16))
    (p : PortIo) : Int × Option (Nat → UInt16) × PortIo :=
  match checkRequest dev buf lba count with
  | none => (-1, buf, p)
  | some (ctx, out) =>
      let (rc, out, p) := sectorLoop ctx (readSector ctx.io) count 0 out
        (issueCommand ctx lba count ataCmdReadPio p)
      (rc, some out, p)

/-- `outw(io, in[i])` for `rounds` words from word `i` on. -/
def writeWords (io : Nat) (words : Nat → UInt16) : Nat → Nat → PortIo → PortIo
  | 0, _, p => p
  | rounds + 1, i, p => writeWords io words rounds (i + 1) (p.outw io (words i))

/-- `for (i = 0; i < 256; i++) outw(ctx->io, in[s * 256u + i]);`. -/
def writeSector (io s : Nat) (words : Nat → UInt16) (p : PortIo) : (Nat → UInt16) × PortIo :=
  (words, writeWords io words 256 (s * 256) p)

/-- `ata_pio_write`. -/
def ataPioWrite (dev : Option AtaDev) (lba count : Nat) (buf : Option (Nat → UInt16))
    (p : PortIo) : Int × PortIo :=
  match checkRequest dev buf lba count with
  | none => (-1, p)
  | some (ctx, words) =>
      let (rc, _, p) := sectorLoop ctx (writeSector ctx.io) count 0 words
        (issueCommand ctx lba count ataCmdWritePio p)
      if rc ≠ 0 then (-1, p)
      else
        let p := p.outb (ctx.io + 7) ataCmdCacheFlush
        let (rc, p) := ataPollReady ctx.io ctx.ctrl p
        if rc ≠ 0 then (-1, p) else (0, p)

/-! ## Discovery -/

/-- `detect_one`, with the devices registered so far. -/
def detectOne (rounds : Nat) (ctx : AtaCtx) (identify : Nat → UInt16) (devs : List AtaDev)
    (p : PortIo) : Option (List AtaDev × PortIo) :=
  (ataIdentify rounds ctx identify p).map fun (rc, sectors, p) =>
    if rc ≠ 0 then (devs, p)
    else
      let dev : AtaDev :=
        { name := ascii "hd" ++ [UInt8.ofNat (48 + devs.length)]
          sectorSize := 512
          sectorCount := sectors
          ctx := some ctx }
      ((blockRegister devs dev).2, p)

/-- The four drives of `ata_pio_discover`. -/
def ataDrives : List AtaCtx :=
  [⟨ataPrimaryIo, ataPrimaryCtrl, false⟩, ⟨ataPrimaryIo, ataPrimaryCtrl, true⟩,
    ⟨ataSecondaryIo, ataSecondaryCtrl, false⟩, ⟨ataSecondaryIo, ataSecondaryCtrl, true⟩]

/-- `ata_pio_discover`; `identify` is the array before the words of each drive. -/
def ataPioDiscover (rounds : Nat) (identify : Nat → UInt16) (devs : List AtaDev) (p : PortIo) :
    Option (List AtaDev × PortIo) :=
  ataDrives.foldlM (fun (devs, p) ctx => detectOne rounds ctx identify devs p) (devs, p)

end RoninOS.Drivers
