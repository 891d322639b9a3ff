/-
RoninOS.Drivers.AtaDetection — when the detection of the disks ends.

`ata_identify` waits in two loops without a bound, for BSY to clear and then for
DRQ or ERR. Both go through one stream of statuses, so it returns exactly if
the drive gives a status of each kind in this order (`ataIdentify_returns_iff`),
or is found to be none before. The four drives of `ata_pio_discover` come one
after the other, two of them on the ports of the two before
(`ataPioDiscover_returns_iff`).
-/
import RoninOS.Drivers.AtaPioTheorems
import RoninOS.Lib.Fuel
import RoninOS.Lib.Walks

namespace RoninOS.Drivers

open RoninOS.Lib

/-! ## Drives that answer -/

/-- The first status is 0, or a later one is not busy, and then the signature is
not that of an ATA disk or one from there on has DRQ or ERR. -/
def DriveAnswers (ctx : AtaCtx) (p : PortIo) : Prop :=
  statusOf ctx.io p (p.reads (ctx.io + 7)) = 0 ∨
  ∃ m ≥ p.reads (ctx.io + 7), statusOf ctx.io p m &&& ataSrBsy = 0 ∧
    ((p.answer (ctx.io + 4)).toUInt8 ≠ 0 ∨ (p.answer (ctx.io + 5)).toUInt8 ≠ 0 ∨
      ∃ k ≥ m, statusOf ctx.io p k &&& ataSrDrq ≠ 0 ∨ statusOf ctx.io p k &&& ataSrErr ≠ 0)

/-! ## The loops -/

section Loops

variable {io n rounds : Nat} {p : PortIo} {s : UInt8 × PortIo}

/-- `status = inb(ctx->io + 7)`. -/
def readStatus (io : Nat) (s : UInt8 × PortIo) : UInt8 × PortIo := s.2.inb (io + 7)

/-- The first loop goes on. -/
def Busy (s : UInt8 × PortIo) : Prop := s.1 &&& ataSrBsy ≠ 0

/-- The second loop goes on. -/
def Waits (s : UInt8 × PortIo) : Prop := s.1 &&& ataSrDrq = 0 ∧ s.1 &&& ataSrErr = 0

/-- Status number `n` of those to come from `p` on was the last one read. -/
structure LastStatus (io : Nat) (p : PortIo) (n : Nat) (s : UInt8 × PortIo) : Prop where
  status : s.1 = statusOf io p n
  inputs : s.2.inputs = p.inputs
  reads : s.2.reads (io + 7) = n + 1
  signature : ∀ port, port = io + 4 ∨ port = io + 5 → s.2.reads port = p.reads port

theorem LastStatus.next (h : LastStatus io p n s) : LastStatus io p (n + 1) (readStatus io s) where
  status := by
    show (s.2.inputs (io + 7) (s.2.reads (io + 7))).toUInt8 = _
    rw [h.inputs, h.reads]
    rfl
  inputs := h.inputs
  reads := by
    show Function.update s.2.reads (io + 7) (s.2.reads (io + 7) + 1) (io + 7) = _
    rw [Function.update_self, h.reads]
  signature port hport := by
    have hne : port ≠ io + 7 := by omega
    show Function.update s.2.reads (io + 7) (s.2.reads (io + 7) + 1) port = _
    rw [Function.update_of_ne hne]
    exact h.signature port hport

theorem LastStatus.iterate (h : LastStatus io p n s) (k : Nat) :
    LastStatus io p (n + k) ((readStatus io)^[k] s) := by
  induction k with
  | zero => exact h
  | succ k ih =>
      rw [Function.iterate_succ_apply']
      exact ih.next

/-- Some status from the last one on has the property, if the loop that waits for
it ends. -/
theorem LastStatus.walkEnds_iff (h : LastStatus io p n s) (cond : UInt8 × PortIo → Prop)
    (ends : UInt8 → Prop) (hends : ∀ s, ¬ cond s ↔ ends s.1) :
    WalkEnds cond (readStatus io) s ↔ ∃ m ≥ n, ends (statusOf io p m) := by
  constructor
  · rintro ⟨k, hk⟩
    refine ⟨n + k, Nat.le_add_right n k, ?_⟩
    rw [← (h.iterate k).status]
    exact (hends _).mp hk
  · rintro ⟨m, hm, hend⟩
    refine ⟨m - n, (hends _).mpr ?_⟩
    rw [(h.iterate (m - n)).status, Nat.add_sub_cancel' hm]
    exact hend

theorem waitNotBusy_eq_some_iff {r : UInt8 × PortIo} :
    waitNotBusy io rounds s.1 s.2 = some r ↔ ∃ k < rounds, ¬ Busy ((readStatus io)^[k] s) ∧
      (∀ j < k, Busy ((readStatus io)^[j] s)) ∧ r = (readStatus io)^[k] s := by
  induction rounds generalizing s with
  | zero => exact iff_of_false (by simp [waitNotBusy]) fun ⟨k, hk, _⟩ => absurd hk (by omega)
  | succ rounds ih =>
      by_cases hbusy : Busy s
      · rw [waitNotBusy, if_pos (show s.1 &&& ataSrBsy ≠ 0 from hbusy)]
        show waitNotBusy io rounds (readStatus io s).1 (readStatus io s).2 = some r ↔ _
        rw [ih]
        constructor
        · rintro ⟨k, hk, hexit, hstay, hr⟩
          refine ⟨k + 1, Nat.succ_lt_succ hk, hexit, fun j hj => ?_, hr⟩
          cases j with
          | zero => exact hbusy
          | succ j => exact hstay j (Nat.lt_of_succ_lt_succ hj)
        · rintro ⟨k, hk, hexit, hstay, hr⟩
          cases k with
          | zero => exact absurd hbusy hexit
          | succ k => exact ⟨k, Nat.lt_of_succ_lt_succ hk, hexit,
              fun j hj => hstay (j + 1) (Nat.succ_lt_succ hj), hr⟩
      · rw [waitNotBusy, if_neg (show ¬ s.1 &&& ataSrBsy ≠ 0 from hbusy)]
        constructor
        · intro hr
          exact ⟨0, Nat.succ_pos _, hbusy, fun j hj => absurd hj (Nat.not_lt_zero j),
            (Option.some.inj hr).symm⟩
        · rintro ⟨k, -, -, hstay, hr⟩
          cases k with
          | zero => exact congrArg some hr.symm
          | succ k => exact absurd (hstay 0 (Nat.succ_pos k)) hbusy

theorem waitNotBusy_mono (io : Nat) (s : UInt8 × PortIo) :
    FuelMono fun n => waitNotBusy io n s.1 s.2 := by
  intro n m r hle h
  obtain ⟨k, hk, hrest⟩ := waitNotBusy_eq_some_iff.mp h
  exact waitNotBusy_eq_some_iff.mpr ⟨k, Nat.lt_of_lt_of_le hk hle, hrest⟩

theorem waitDrq_mono (io : Nat) (status : UInt8) (p : PortIo) :
    FuelMono fun n => waitDrq io n status p := by
  intro n m r hle h
  induction n generalizing m status p with
  | zero => cases h
  | succ n ih =>
      obtain ⟨m, rfl⟩ := Nat.exists_eq_add_of_le' (Nat.le_trans (Nat.succ_pos n) hle)
      simp only [waitDrq] at h ⊢
      by_cases hdrq : status &&& ataSrDrq = 0
      · by_cases herr : status &&& ataSrErr ≠ 0
        · rw [if_pos hdrq, if_pos herr] at h ⊢
          exact h
        · rw [if_pos hdrq, if_neg herr] at h ⊢
          exact ih _ _ m (Nat.le_of_succ_le_succ hle) h
      · rw [if_neg hdrq] at h ⊢
        exact h

theorem waitDrq_returns_iff :
    (Returns fun n => waitDrq io n s.1 s.2) ↔ WalkEnds Waits (readStatus io) s := by
  have hsome : ∀ {n : Nat} {s : UInt8 × PortIo},
      (waitDrq io n s.1 s.2).isSome ↔ EndsIn Waits (readStatus io) s n := by
    intro n
    induction n with
    | zero => exact fun {s} => iff_of_false (by simp [waitDrq]) fun ⟨k, hk, _⟩ => absurd hk (by omega)
    | succ n ih =>
        intro s
        rw [waitDrq, endsIn_succ]
        by_cases hdrq : s.1 &&& ataSrDrq = 0
        · by_cases herr : s.1 &&& ataSrErr = 0
          · have hwaits : Waits s := ⟨hdrq, herr⟩
            rw [if_pos hdrq, if_neg (not_not.mpr herr)]
            show (waitDrq io n (readStatus io s).1 (readStatus io s).2).isSome ↔ _
            rw [ih]
            simp [hwaits]
          · have hwaits : ¬ Waits s := fun h => herr h.2
            simp [hdrq, herr, hwaits]
        · have hwaits : ¬ Waits s := fun h => hdrq h.1
          simp [hdrq, hwaits]
  rw [walkEnds_iff_endsIn]
  exact exists_congr fun n => Option.isSome_iff_exists.symm.trans hsome

/-! ## The signature -/

/-- `inb(ctx->io + 4)`. -/
theorem LastStatus.mid_eq (h : LastStatus io p n s) :
    (s.2.inb (io + 4)).1 = (p.answer (io + 4)).toUInt8 := by
  show (s.2.inputs (io + 4) (s.2.reads (io + 4))).toUInt8 = _
  rw [h.inputs, h.signature _ (Or.inl rfl)]
  rfl

/-- `inb(ctx->io + 5)`. -/
theorem LastStatus.high_eq (h : LastStatus io p n s) :
    ((s.2.inb (io + 4)).2.inb (io + 5)).1 = (p.answer (io + 5)).toUInt8 := by
  have hreads : (s.2.inb (io + 4)).2.reads (io + 5) = s.2.reads (io + 5) :=
    Function.update_of_ne (by omega) ..
  show (s.2.inputs (io + 5) ((s.2.inb (io + 4)).2.reads (io + 5))).toUInt8 = _
  rw [hreads, h.inputs, h.signature _ (Or.inr rfl)]
  rfl

/-- The second loop starts with the status that ended the first one. -/
theorem LastStatus.behind_signature (h : LastStatus io p n s) :
    LastStatus io ((s.2.inb (io + 4)).2.inb (io + 5)).2 n
      (s.1, ((s.2.inb (io + 4)).2.inb (io + 5)).2) where
  status := by
    rw [h.status, statusOf, statusOf, ← h.inputs]
    rfl
  inputs := rfl
  reads := by
    have hmid : (s.2.inb (io + 4)).2.reads (io + 7) = s.2.reads (io + 7) :=
      Function.update_of_ne (by omega) ..
    have hhigh : ((s.2.inb (io + 4)).2.inb (io + 5)).2.reads (io + 7)
        = (s.2.inb (io + 4)).2.reads (io + 7) := Function.update_of_ne (by omega) ..
    exact hhigh.trans (hmid.trans h.reads)
  signature _ _ := rfl

end Loops

/-! ## `ata_identify` -/

section Identify

variable {ctx : AtaCtx} {identify : Nat → UInt16} {n : Nat} {p : PortIo} {s : UInt8 × PortIo}

/-- `ata_identify` from the end of its first loop on. -/
def afterBusy (rounds : Nat) (ctx : AtaCtx) (identify : Nat → UInt16) (s : UInt8 × PortIo) :
    Option (Int × Nat × PortIo) :=
  let (mid, p) := s.2.inb (ctx.io + 4)
  if mid ≠ 0 then some (-1, 0, p)
  else
    let (high, p) := p.inb (ctx.io + 5)
    if high ≠ 0 then some (-1, 0, p)
    else
      (waitDrq ctx.io rounds s.1 p).map fun (ok, p) =>
        if ok then readIdentify ctx.io identify p else (-1, 0, p)

/-- `ata_identify` from its first status on. -/
def afterCommand (rounds : Nat) (ctx : AtaCtx) (identify : Nat → UInt16) (s : UInt8 × PortIo) :
    Option (Int × Nat × PortIo) :=
  if s.1 = 0 then some (-1, 0, s.2)
  else (waitNotBusy ctx.io rounds s.1 s.2).bind (afterBusy rounds ctx identify)

/-- The first read of the status in `ata_identify`. -/
def firstStatus (ctx : AtaCtx) (p : PortIo) : UInt8 × PortIo :=
  let p := ioDelay400ns ctx.ctrl (p.outb (ctx.io + 6) (ctx.sel ||| 0x40))
  let p := (((p.outb (ctx.io + 2) 0).outb (ctx.io + 3) 0).outb (ctx.io + 4) 0).outb (ctx.io + 5) 0
  (p.outb (ctx.io + 7) ataCmdIdentify).inb (ctx.io + 7)

theorem ataIdentify_eq (rounds : Nat) (ctx : AtaCtx) (identify : Nat → UInt16) (p : PortIo) :
    ataIdentify rounds ctx identify p = afterCommand rounds ctx identify (firstStatus ctx p) := rfl

/-- The delay before it reads another port. -/
theorem firstStatus_last (hctrl : ctx.io + 7 < ctx.ctrl) (p : PortIo) :
    LastStatus ctx.io p (p.reads (ctx.io + 7)) (firstStatus ctx p) := by
  have hdelay : ∀ (q : PortIo) (port : Nat), port ≤ ctx.io + 7 →
      (ioDelay400ns ctx.ctrl q).reads port = q.reads port := by
    intro q port hport
    have hread : ∀ q : PortIo, (q.inb ctx.ctrl).2.reads port = q.reads port :=
      fun q => Function.update_of_ne (by omega) ..
    exact ((hread _).trans (hread _)).trans ((hread _).trans (hread q))
  refine ⟨?_, rfl, ?_, fun port hport => ?_⟩
  · show (p.inputs (ctx.io + 7) ((ioDelay400ns ctx.ctrl _).reads (ctx.io + 7))).toUInt8 = _
    rw [hdelay _ _ le_rfl]
    rfl
  · show Function.update (ioDelay400ns ctx.ctrl _).reads (ctx.io + 7)
      ((ioDelay400ns ctx.ctrl _).reads (ctx.io + 7) + 1) (ctx.io + 7) = _
    rw [Function.update_self, hdelay _ _ le_rfl]
    rfl
  · have hne : port ≠ ctx.io + 7 := by omega
    show Function.update (ioDelay400ns ctx.ctrl _).reads (ctx.io + 7) _ port = _
    rw [Function.update_of_ne hne, hdelay _ _ (by omega)]
    rfl

theorem afterBusy_mono (ctx : AtaCtx) (identify : Nat → UInt16) (s : UInt8 × PortIo) :
    FuelMono fun n => afterBusy n ctx identify s := by
  unfold afterBusy
  simp only
  split
  · exact fun n m a _ h => h
  · split
    · exact fun n m a _ h => h
    · exact (waitDrq_mono ctx.io s.1 _).map _

theorem afterCommand_mono (ctx : AtaCtx) (identify : Nat → UInt16) (s : UInt8 × PortIo) :
    FuelMono fun n => afterCommand n ctx identify s := by
  unfold afterCommand
  split
  · exact fun n m a _ h => h
  · exact (waitNotBusy_mono ctx.io s).bind (afterBusy_mono ctx identify)

/-- `ata_identify` returns the same with more rounds. -/
theorem ataIdentify_mono (ctx : AtaCtx) (identify : Nat → UInt16) (p : PortIo) :
    FuelMono fun n => ataIdentify n ctx identify p := by
  simp only [ataIdentify_eq]
  exact afterCommand_mono ctx identify _

/-- The second loop ends exactly if a status ends it, once it is come to. -/
theorem LastStatus.afterBusy_returns_iff (h : LastStatus ctx.io p n s) :
    (Returns fun rounds => afterBusy rounds ctx identify s) ↔
      (p.answer (ctx.io + 4)).toUInt8 ≠ 0 ∨ (p.answer (ctx.io + 5)).toUInt8 ≠ 0 ∨
      ∃ k ≥ n, statusOf ctx.io p k &&& ataSrDrq ≠ 0 ∨ statusOf ctx.io p k &&& ataSrErr ≠ 0 := by
  have hends := h.behind_signature.walkEnds_iff Waits
    (fun status => status &&& ataSrDrq ≠ 0 ∨ status &&& ataSrErr ≠ 0)
    fun s => not_and_or
  have hstatus : statusOf ctx.io ((s.2.inb (ctx.io + 4)).2.inb (ctx.io + 5)).2
      = statusOf ctx.io p := by
    unfold statusOf
    rw [← h.inputs]
    rfl
  rw [hstatus, ← waitDrq_returns_iff] at hends
  rw [← h.mid_eq, ← h.high_eq, ← hends]
  unfold afterBusy
  by_cases hmid : (s.2.inb (ctx.io + 4)).1 ≠ 0
  · exact iff_of_true ⟨0, _, if_pos hmid⟩ (Or.inl hmid)
  · by_cases hhigh : ((s.2.inb (ctx.io + 4)).2.inb (ctx.io + 5)).1 ≠ 0
    · exact iff_of_true ⟨0, _, by simp only [if_neg hmid, if_pos hhigh]; rfl⟩ (Or.inr (Or.inl hhigh))
    · simp only [hmid, hhigh, if_false, false_or]
      exact returns_map_iff _

/-- `ata_identify` returns exactly if the drive answers. -/
theorem ataIdentify_returns_iff (hctrl : ctx.io + 7 < ctx.ctrl) (identify : Nat → UInt16)
    (p : PortIo) : (Returns fun rounds => ataIdentify rounds ctx identify p) ↔
      DriveAnswers ctx p := by
  have hs := firstStatus_last hctrl p
  simp only [ataIdentify_eq]
  generalize firstStatus ctx p = s at hs ⊢
  simp only [DriveAnswers, ← hs.status]
  unfold afterCommand
  by_cases hzero : s.1 = 0
  · simp only [if_pos hzero]
    exact iff_of_true ⟨0, _, rfl⟩ (Or.inl hzero)
  · simp only [hzero, if_false, false_or]
    rw [(waitNotBusy_mono ctx.io s).returns_bind_iff (afterBusy_mono ctx identify)]
    constructor
    · rintro ⟨s', ⟨rounds, hwait⟩, hreturns⟩
      obtain ⟨k, -, hexit, -, rfl⟩ := waitNotBusy_eq_some_iff.mp hwait
      have hlast := hs.iterate k
      refine ⟨_, Nat.le_add_right _ k, ?_, hlast.afterBusy_returns_iff.mp hreturns⟩
      rw [← hlast.status]
      exact not_not.mp hexit
    · rintro ⟨m, hm, hbusy, hends⟩
      -- the first loop ends no later than at status `m`
      have hwalk : WalkEnds Busy (readStatus ctx.io) s :=
        (hs.walkEnds_iff Busy (fun status => status &&& ataSrBsy = 0) fun s => not_not).mpr
          ⟨m, hm, hbusy⟩
      obtain ⟨rounds, k, hk, hexit, hstay⟩ := walkEnds_iff_endsIn.mp hwalk
      have hkm : p.reads (ctx.io + 7) + k ≤ m := by
        by_contra hlt
        have hstill := hstay (m - p.reads (ctx.io + 7)) (by omega)
        rw [Busy, (hs.iterate _).status, Nat.add_sub_cancel' hm] at hstill
        exact hstill hbusy
      refine ⟨_, ⟨rounds, waitNotBusy_eq_some_iff.mpr ⟨k, hk, hexit, hstay, rfl⟩⟩,
        (hs.iterate k).afterBusy_returns_iff.mpr (hends.imp_right (Or.imp_right ?_))⟩
      rintro ⟨k', hk', hstatus⟩
      exact ⟨k', hkm.trans hk', hstatus⟩

end Identify

/-! ## Detection -/

/-- Each drive that the detection comes to answers. -/
def DrivesAnswer (identify : Nat → UInt16) (devs : List AtaDev) (p : PortIo) : Prop :=
  EachReached (fun n s ctx => detectOne n ctx identify s.1 s.2) (fun s ctx => DriveAnswers ctx s.2)
    ataDrives (devs, p)

theorem detectOne_mono (ctx : AtaCtx) (identify : Nat → UInt16) (devs : List AtaDev) (p : PortIo) :
    FuelMono fun n => detectOne n ctx identify devs p := by
  unfold detectOne
  exact (ataIdentify_mono ctx identify p).map _

theorem detectOne_returns_iff (ctx : AtaCtx) (identify : Nat → UInt16) (devs : List AtaDev)
    (p : PortIo) : (Returns fun n => detectOne n ctx identify devs p) ↔
      Returns fun n => ataIdentify n ctx identify p := by
  unfold detectOne
  exact returns_map_iff _

theorem ataPioDiscover_eq (n : Nat) (identify : Nat → UInt16) (devs : List AtaDev) (p : PortIo) :
    ataPioDiscover n identify devs p
      = ataDrives.foldlM (fun s ctx => detectOne n ctx identify s.1 s.2) (devs, p) := rfl

/-- `ata_identify` returns exactly on a drive that answers, and the detection
exactly where all that it comes to do. -/
theorem detection_returns_iff (identify : Nat → UInt16) :
    (∀ ctx ∈ ataDrives, ∀ p, (Returns fun n => ataIdentify n ctx identify p) ↔
      DriveAnswers ctx p) ∧
    ∀ devs p, (Returns fun n => ataPioDiscover n identify devs p) ↔
      DrivesAnswer identify devs p := by
  have hports : ∀ ctx ∈ ataDrives, ctx.io + 7 < ctx.ctrl := by decide
  have hidentify : ∀ ctx ∈ ataDrives, ∀ p, (Returns fun n => ataIdentify n ctx identify p) ↔
      DriveAnswers ctx p := fun ctx hctx p => ataIdentify_returns_iff (hports ctx hctx) identify p
  refine ⟨hidentify, fun devs p => ?_⟩
  simp only [ataPioDiscover_eq]
  unfold DrivesAnswer
  apply foldlM_returns_iff
  · exact fun s ctx => detectOne_mono ctx identify s.1 s.2
  · intro ctx hctx s
    rw [detectOne_returns_iff]
    exact hidentify ctx hctx s.2

/-- A drive that is busy for two reads of its status, then ready, and raises DRQ two
reads later. -/
def slowDrive (port n : Nat) : UInt16 :=
  if port = ataPrimaryIo + 7 then if n < 2 then 0x80 else if n < 4 then 0x40 else 0x48
  else if port = ataPrimaryIo then 1
  else 0

/-- Both loops go round, and end: the disk is found. -/
theorem detection_returns_slowDrive :
    (Returns fun n => ataIdentify n ⟨ataPrimaryIo, ataPrimaryCtrl, false⟩ (fun _ => 0)
      (PortIo.start slowDrive)) ∧
    (ataIdentify 2 ⟨ataPrimaryIo, ataPrimaryCtrl, false⟩ (fun _ => 0)
      (PortIo.start slowDrive)).isNone = true ∧
    (ataIdentify 3 ⟨ataPrimaryIo, ataPrimaryCtrl, false⟩ (fun _ => 0)
      (PortIo.start slowDrive)).map (·.1) = some 0 := by
  refine ⟨((detection_returns_iff fun _ => 0).1 _ (by decide) _).mpr (Or.inr ?_), by decide,
    by decide +kernel⟩
  exact ⟨2, by decide, by decide, Or.inr (Or.inr ⟨4, by decide, Or.inl (by decide)⟩)⟩

/-- On an empty bus, where every read gives 0xFF, the first loop never ends. -/
theorem emptyBus_hangs :
    ¬ Returns fun n => ataIdentify n ⟨ataPrimaryIo, ataPrimaryCtrl, false⟩ (fun _ => 0)
      (PortIo.start fun _ _ => 0xFF) := by
  rw [ataIdentify_returns_iff (by decide)]
  rintro (hzero | ⟨m, -, hbusy, -⟩)
  · exact absurd hzero (show (0xFF : UInt16).toUInt8 ≠ 0 by decide)
  · exact absurd hbusy (show (0xFF : UInt16).toUInt8 &&& ataSrBsy ≠ 0 by decide)

end RoninOS.Drivers
