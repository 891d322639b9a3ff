/-
RoninOS.Drivers.AtaPioTheorems — what the requests of `ata_pio.c` do on the ports.

A request writes the task file, and then polls the status and transfers a
sector, once for each. The address is the right one up to 2^28 sectors
(`requests_address_iff`). A sector is transferred after a status with DRQ unless
the drive answers a poll with DRDY alone, which `ata_poll_ready` takes for ready
(`transfers_on_demand_iff`). Both hold for every device that the discovery
registers and every answer of the drive.
-/
import RoninOS.Drivers.AtaPio
import RoninOS.Lib.Runs

namespace RoninOS.Drivers

open RoninOS.Lib

/-! ## Registered devices -/

/-- A device that the discovery registers, for some answers of the drives. -/
def Registered (dev : AtaDev) : Prop :=
  ∃ rounds identify p devs p', ataPioDiscover rounds identify [] p = some (devs, p') ∧ dev ∈ devs

/-- What the discovery puts into a device. -/
structure FromDrive (dev : AtaDev) (ctx : AtaCtx) : Prop where
  sectorSize : dev.sectorSize = 512
  sectorCount_lt : dev.sectorCount < 2 ^ 32
  io_lt : ctx.io + 7 < ctx.ctrl
  ctx_eq : dev.ctx = some ctx

/-- The words of `identify` give a 32-bit number of sectors. -/
theorem readIdentify_lt (io : Nat) (identify : Nat → UInt16) (p : PortIo) :
    (readIdentify io identify p).2.1 < 2 ^ 32 := by
  unfold readIdentify
  generalize readWords io 256 0 identify p = r
  have hhigh := (r.1 61).toNat_lt
  have hlow := (r.1 60).toNat_lt
  refine Nat.or_lt_two_pow ?_ (by omega)
  rw [Nat.shiftLeft_eq]
  omega

/-- `ata_identify` reports a 32-bit number of sectors. -/
theorem ataIdentify_lt {rounds : Nat} {ctx : AtaCtx} {identify : Nat → UInt16} {p p' : PortIo}
    {rc : Int} {sectors : Nat} (h : ataIdentify rounds ctx identify p = some (rc, sectors, p')) :
    sectors < 2 ^ 32 := by
  have hzero : ∀ {rc' : Int} {p₁ : PortIo}, some (rc', 0, p₁) = some (rc, sectors, p') →
      sectors < 2 ^ 32 := by
    intro rc' p₁ heq
    obtain ⟨-, rfl, -⟩ := by simpa using heq
    decide
  unfold ataIdentify at h
  simp only at h
  split at h
  · exact hzero h
  · obtain ⟨⟨status, p₁⟩, -, h⟩ := Option.bind_eq_some_iff.mp h
    simp only at h
    split at h
    · exact hzero h
    · split at h
      · exact hzero h
      · obtain ⟨⟨ok, p₂⟩, -, h⟩ := Option.map_eq_some_iff.mp h
        split at h
        · have hlt := readIdentify_lt ctx.io identify p₂
          rw [h] at hlt
          exact hlt
        · exact hzero (congrArg some h)

theorem detectOne_fromDrive {rounds : Nat} {ctx : AtaCtx} {identify : Nat → UInt16}
    {devs devs' : List AtaDev} {p p' : PortIo} (hctx : ctx.io + 7 < ctx.ctrl)
    (hold : ∀ dev ∈ devs, ∃ ctx, FromDrive dev ctx)
    (h : detectOne rounds ctx identify devs p = some (devs', p')) :
    ∀ dev ∈ devs', ∃ ctx, FromDrive dev ctx := by
  obtain ⟨⟨rc, sectors, p₁⟩, hidentify, h⟩ := Option.map_eq_some_iff.mp h
  simp only at h
  split at h
  · obtain ⟨rfl, -⟩ := Prod.mk.inj h
    exact hold
  · obtain ⟨rfl, -⟩ := Prod.mk.inj h
    intro dev hdev
    unfold blockRegister at hdev
    split at hdev
    · exact hold dev hdev
    · split at hdev
      · exact hold dev hdev
      · rcases List.mem_append.mp hdev with hdev | hdev
        · exact hold dev hdev
        · obtain rfl := List.mem_singleton.mp hdev
          exact ⟨ctx, rfl, ataIdentify_lt hidentify, hctx, rfl⟩

theorem Registered.fromDrive {dev : AtaDev} (h : Registered dev) : ∃ ctx, FromDrive dev ctx := by
  obtain ⟨rounds, identify, p, devs, p', hrun, hdev⟩ := h
  have hports : ∀ ctx ∈ ataDrives, ctx.io + 7 < ctx.ctrl := by decide
  have hall : AllCalls (fun s ctx => detectOne rounds ctx identify s.1 s.2)
      (fun _ ctx => ctx.io + 7 < ctx.ctrl) ataDrives ([], p) :=
    allCalls_of_mem (fun ctx hctx _ => hports ctx hctx) _
  refine hall.invariant (fun s => ∀ dev ∈ s.1, ∃ ctx, FromDrive dev ctx) ?_
    (fun dev hdev => absurd hdev List.not_mem_nil) hrun dev hdev
  rintro s ctx ⟨devs₁, p₁⟩ hold hports hone
  exact detectOne_fromDrive hports hold hone

/-! ## The phases of a request -/

/-- A run that adds `n` accesses of one kind to the trace. The answers stay the
same, and the status register is not read. -/
structure Phase (io : Nat) (Kind : PortEvent → Prop) (n : Nat) (p p' : PortIo) : Prop where
  trace : ∃ events, p'.trace = events ++ p.trace ∧ events.length = n ∧ ∀ e ∈ events, Kind e
  inputs : p'.inputs = p.inputs
  reads : p'.reads (io + 7) = p.reads (io + 7)

/-- A read of a port that is not the status register. -/
theorem Phase.read {io port : Nat} (hport : io + 7 ≠ port) (p : PortIo) (e : PortEvent)
    {Kind : PortEvent → Prop} (he : Kind e) : Phase io Kind 1 p (p.afterRead port e) where
  trace := ⟨[e], rfl, rfl, fun _ he' => List.mem_singleton.mp he' ▸ he⟩
  inputs := rfl
  reads := Function.update_of_ne hport ..

theorem Phase.trans {io n m : Nat} {Kind : PortEvent → Prop} {p p' p'' : PortIo}
    (h : Phase io Kind n p p') (h' : Phase io Kind m p' p'') : Phase io Kind (m + n) p p'' where
  trace := by
    obtain ⟨events, htrace, hlength, hall⟩ := h.trace
    obtain ⟨events', htrace', hlength', hall'⟩ := h'.trace
    refine ⟨events' ++ events, by rw [htrace', htrace, List.append_assoc],
      by rw [List.length_append, hlength, hlength'], fun e he => ?_⟩
    exact (List.mem_append.mp he).elim (hall' e) (hall e)
  inputs := h'.inputs.trans h.inputs
  reads := h'.reads.trans h.reads

/-- A transfer of a word. -/
def IsData (io : Nat) : PortEvent → Prop
  | .inw port _ => port = io
  | .outw port _ => port = io
  | _ => False

instance (io : Nat) : DecidablePred (IsData io)
  | .inw port _ => inferInstanceAs (Decidable (port = io))
  | .outw port _ => inferInstanceAs (Decidable (port = io))
  | .inb _ _ => inferInstanceAs (Decidable False)
  | .outb _ _ => inferInstanceAs (Decidable False)

/-- A read of a byte. -/
def IsRead : PortEvent → Prop
  | .inb _ _ => True
  | _ => False

theorem ioDelay400ns_phase {io ctrl : Nat} (hctrl : io + 7 < ctrl) (p : PortIo) :
    Phase io IsRead 4 p (ioDelay400ns ctrl p) := by
  have hread : ∀ p : PortIo, Phase io IsRead 1 p (p.inb ctrl).2 := fun p =>
    Phase.read (by omega) p _ trivial
  exact ((hread p).trans (hread _)).trans (hread _) |>.trans (hread _)

theorem readWords_phase (io : Nat) : ∀ (rounds i : Nat) (buf : Nat → UInt16) (p : PortIo),
    Phase io (IsData io) rounds p (readWords io rounds i buf p).2
  | 0, _, _, p => ⟨⟨[], rfl, rfl, fun _ he => absurd he List.not_mem_nil⟩, rfl, rfl⟩
  | rounds + 1, i, buf, p => by
      have hword : Phase io (IsData io) 1 p (p.inw io).2 :=
        Phase.read (show io + 7 ≠ io by omega) p _ rfl
      exact hword.trans (readWords_phase io rounds (i + 1) _ _)

theorem writeWords_phase (io : Nat) (words : Nat → UInt16) : ∀ (rounds i : Nat) (p : PortIo),
    Phase io (IsData io) rounds p (writeWords io words rounds i p)
  | 0, _, p => ⟨⟨[], rfl, rfl, fun _ he => absurd he List.not_mem_nil⟩, rfl, rfl⟩
  | rounds + 1, i, p => by
      have hword : Phase io (IsData io) 1 p (p.outw io (words i)) :=
        ⟨⟨[_], rfl, rfl, fun e he => List.mem_singleton.mp he ▸ rfl⟩, rfl, rfl⟩
      exact hword.trans (writeWords_phase io words rounds (i + 1) _)

theorem readSector_phase (io s : Nat) (out : Nat → UInt16) (p : PortIo) :
    Phase io (IsData io) 256 p (readSector io s out p).2 := by
  rw [readSector]
  exact readWords_phase io 256 (s * 256) out p

theorem writeSector_phase (io s : Nat) (words : Nat → UInt16) (p : PortIo) :
    Phase io (IsData io) 256 p (writeSector io s words p).2 := by
  simp only [writeSector]
  exact writeWords_phase io words 256 (s * 256) p

/-! ## Polling -/

/-- The answer to read number `n` of the status register. -/
def statusOf (io : Nat) (p : PortIo) (n : Nat) : UInt8 := (p.inputs (io + 7) n).toUInt8

/-- A status that ends a poll. -/
def Decisive (status : UInt8) : Prop :=
  status &&& ataSrBsy = 0 ∧
    (status &&& ataSrErr ≠ 0 ∨ status &&& ataSrDrq ≠ 0 ∨ status &&& ataSrDrdy ≠ 0)

instance (status : UInt8) : Decidable (Decisive status) := inferInstanceAs (Decidable (_ ∧ _))

/-- Answer `n` is the first to end a poll that starts at answer `k`, and comes in time. -/
structure EndsPoll (status : Nat → UInt8) (rounds k n : Nat) : Prop where
  start_le : k ≤ n
  in_time : n < k + rounds
  none_before : ∀ m, k ≤ m → m < n → ¬ Decisive (status m)
  decisive : Decisive (status n)

/-- What a poll can do that starts at answer `k`. -/
inductive PollOutcome (io rounds : Nat) (p : PortIo) : Int × PortIo → Prop
  | timeout {p' : PortIo} : (∀ n, ¬ EndsPoll (statusOf io p) rounds (p.reads (io + 7)) n) →
      (∃ events, p'.trace = events ++ p.trace ∧ ∀ e ∈ events, IsRead e) →
      PollOutcome io rounds p (-1, p')
  | ended {p' : PortIo} {n : Nat} : EndsPoll (statusOf io p) rounds (p.reads (io + 7)) n →
      (∃ events, p'.trace = .inb (io + 7) (statusOf io p n) :: events ++ p.trace ∧
        ∀ e ∈ events, IsRead e) → p'.inputs = p.inputs → p'.reads (io + 7) = n + 1 →
      PollOutcome io rounds p (if statusOf io p n &&& ataSrErr ≠ 0 then -1 else 0, p')

theorem pollLoop_succ (io rounds : Nat) (p : PortIo) :
    pollLoop io (rounds + 1) p = if Decisive (statusOf io p (p.reads (io + 7))) then
        (if statusOf io p (p.reads (io + 7)) &&& ataSrErr ≠ 0 then -1 else 0, (p.inb (io + 7)).2)
      else pollLoop io rounds (p.inb (io + 7)).2 := by
  rw [pollLoop]
  show _ = if Decisive (p.inb (io + 7)).1 then
      (if (p.inb (io + 7)).1 &&& ataSrErr ≠ 0 then -1 else 0, (p.inb (io + 7)).2)
    else pollLoop io rounds (p.inb (io + 7)).2
  obtain ⟨status, next⟩ := p.inb (io + 7)
  unfold Decisive
  by_cases hbsy : status &&& ataSrBsy = 0
  · by_cases herr : status &&& ataSrErr ≠ 0
    · simp [hbsy, herr]
    · by_cases hdrq : status &&& ataSrDrq ≠ 0
      · simp [hbsy, herr, hdrq]
      · by_cases hdrdy : status &&& ataSrDrdy ≠ 0
        · simp [hbsy, herr, hdrq, hdrdy]
        · simp [hbsy, herr, hdrq, hdrdy]
  · simp [hbsy]

theorem pollLoop_outcome (io : Nat) : ∀ (rounds : Nat) (p : PortIo),
    PollOutcome io rounds p (pollLoop io rounds p)
  | 0, p => .timeout (fun n h => by have := h.start_le; have := h.in_time; omega)
      ⟨[], rfl, fun _ he => absurd he List.not_mem_nil⟩
  | rounds + 1, p => by
      rw [pollLoop_succ]
      generalize hk : p.reads (io + 7) = k
      have hreads : (p.inb (io + 7)).2.reads (io + 7) = k + 1 := by
        rw [← hk]
        exact Function.update_self ..
      by_cases hdec : Decisive (statusOf io p k)
      · rw [if_pos hdec]
        refine .ended ⟨le_of_eq hk, by omega, fun m hm hlt => by omega, hdec⟩
          ⟨[], ?_, fun _ he => absurd he List.not_mem_nil⟩ rfl hreads
        rw [← hk]
        rfl
      · rw [if_neg hdec]
        -- the rest of the poll starts at the next answer
        have hends : ∀ n, EndsPoll (statusOf io p) rounds (k + 1) n ↔
            EndsPoll (statusOf io p) (rounds + 1) k n := by
          intro n
          constructor
          · rintro ⟨hle, htime, hnone, hn⟩
            refine ⟨by omega, by omega, fun m hm hlt => ?_, hn⟩
            by_cases hmk : m = k
            · exact hmk ▸ hdec
            · exact hnone m (by omega) hlt
          · rintro ⟨hle, htime, hnone, hn⟩
            have hnk : n ≠ k := fun hnk => hdec (hnk ▸ hn)
            exact ⟨by omega, by omega, fun m hm hlt => hnone m (by omega) hlt, hn⟩
        have hfirst : (p.inb (io + 7)).2.trace = [.inb (io + 7) (statusOf io p k)] ++ p.trace := by
          rw [← hk]
          rfl
        have hrest : ∀ events : List PortEvent, (∀ e ∈ events, IsRead e) →
            ∀ e ∈ events ++ [.inb (io + 7) (statusOf io p k)], IsRead e := by
          intro events hall e he
          rcases List.mem_append.mp he with he | he
          · exact hall e he
          · exact List.mem_singleton.mp he ▸ trivial
        have ih := pollLoop_outcome io rounds (p.inb (io + 7)).2
        generalize pollLoop io rounds (p.inb (io + 7)).2 = r at ih
        cases ih with
        | timeout hnone htrace =>
            obtain ⟨events, htrace, hall⟩ := htrace
            rw [hreads] at hnone
            refine .timeout (fun n hn => hnone n ((hends n).mpr (hk ▸ hn)))
              ⟨_, ?_, hrest events hall⟩
            rw [htrace, hfirst, List.append_assoc]
        | @ended p' n hn htrace hinputs hreads' =>
            obtain ⟨events, htrace, hall⟩ := htrace
            rw [hreads] at hn
            refine .ended (hk ▸ (hends n).mp hn) ⟨_, ?_, hrest events hall⟩ hinputs hreads'
            rw [htrace, hfirst]
            simp only [List.cons_append, List.append_assoc]
            rfl

/-- `ata_poll_ready` polls after a delay. -/
theorem ataPollReady_outcome {io ctrl : Nat} (hctrl : io + 7 < ctrl) (p : PortIo) :
    PollOutcome io ataTimeout p (ataPollReady io ctrl p) := by
  have hdelay := ioDelay400ns_phase hctrl p
  obtain ⟨reads, htrace, -, hreads⟩ := hdelay.trace
  have hstatus : statusOf io (ioDelay400ns ctrl p) = statusOf io p := by
    unfold statusOf
    rw [hdelay.inputs]
  have hall : ∀ events : List PortEvent, (∀ e ∈ events, IsRead e) →
      ∀ e ∈ events ++ reads, IsRead e :=
    fun events h e he => (List.mem_append.mp he).elim (h e) (hreads e)
  have houtcome := pollLoop_outcome io ataTimeout (ioDelay400ns ctrl p)
  unfold ataPollReady
  generalize pollLoop io ataTimeout (ioDelay400ns ctrl p) = r at houtcome
  cases houtcome with
  | timeout hnone hevents =>
      obtain ⟨events, hevents, hpoll⟩ := hevents
      rw [hstatus, hdelay.reads] at hnone
      exact .timeout hnone ⟨_, by rw [hevents, htrace, List.append_assoc], hall events hpoll⟩
  | ended hends hevents hinputs hcount =>
      obtain ⟨events, hevents, hpoll⟩ := hevents
      rw [hstatus, hdelay.reads] at hends
      rw [hstatus] at hevents ⊢
      refine .ended hends ⟨events ++ reads, ?_, hall events hpoll⟩ (hinputs.trans hdelay.inputs)
        hcount
      rw [hevents, htrace, List.cons_append, List.cons_append, List.append_assoc]

theorem EndsPoll.unique {status : Nat → UInt8} {rounds k n n' : Nat}
    (h : EndsPoll status rounds k n) (h' : EndsPoll status rounds k n') : n = n' := by
  by_contra hne
  rcases Nat.lt_or_gt_of_ne hne with hlt | hlt
  · exact h'.none_before n h.start_le hlt h.decisive
  · exact h.none_before n' h'.start_le hlt h'.decisive

/-! ## Transfers -/

/-- A status with which the drive asks for data. -/
def Asks (status : UInt8) : Prop :=
  status &&& ataSrBsy = 0 ∧ status &&& ataSrErr = 0 ∧ status &&& ataSrDrq ≠ 0

/-- The trace ends in a status that asks for data, and fewer words than a sector has. -/
def Requested (io : Nat) (trace : List PortEvent) : Prop :=
  ∃ words status before, trace = words ++ .inb (io + 7) status :: before ∧ Asks status ∧
    (∀ e ∈ words, IsData io e) ∧ words.length < 256

/-- Every word is transferred after the drive has asked for its sector. -/
def AskedFor (io : Nat) (trace : List PortEvent) : Prop :=
  EveryEvent (fun e before => IsData io e → Requested io before) trace

/-- Reads and commands change nothing about the transfers. -/
theorem askedFor_append_iff {io : Nat} {later before : List PortEvent}
    (h : ∀ e ∈ later, ¬ IsData io e) : AskedFor io (later ++ before) ↔ AskedFor io before :=
  everyEvent_append_iff fun e he _ hdata => absurd hdata (h e he)

theorem IsRead.not_data {io : Nat} {e : PortEvent} (h : IsRead e) : ¬ IsData io e := by
  cases e with
  | inb _ _ => exact fun hdata => hdata
  | inw _ _ => exact fun _ => h
  | outb _ _ => exact fun hdata => hdata
  | outw _ _ => exact fun _ => h

/-- The words of a sector after a status that asks for them. -/
theorem askedFor_words {io : Nat} {status : UInt8} {before : List PortEvent} (hasks : Asks status)
    (h : AskedFor io before) : ∀ {words : List PortEvent}, (∀ e ∈ words, IsData io e) →
      words.length ≤ 256 → AskedFor io (words ++ .inb (io + 7) status :: before)
  | [], _, _ => ⟨fun hdata => hdata.elim, h⟩
  | e :: words, hall, hlength => by
      have hrest : ∀ e ∈ words, IsData io e := fun e he => hall e (List.mem_cons_of_mem _ he)
      rw [List.length_cons] at hlength
      exact ⟨fun _ => ⟨words, status, before, rfl, hasks, hrest, by omega⟩,
        askedFor_words hasks h hrest (by omega)⟩

/-- A word after any other status. -/
theorem not_askedFor_words {io : Nat} {status : UInt8} {before words : List PortEvent}
    (hasks : ¬ Asks status) (hall : ∀ e ∈ words, IsData io e) (hlength : words ≠ []) :
    ¬ AskedFor io (words ++ .inb (io + 7) status :: before) := by
  intro h
  -- the first word that was transferred
  obtain ⟨later, e, rfl⟩ := List.eq_nil_or_concat words |>.resolve_left hlength
  rw [List.concat_eq_append, List.append_assoc] at h
  have hdata := hall e (by simp)
  obtain ⟨block, status', before', heq, hasks', hblock, -⟩ := h.of_append.1 hdata
  cases block with
  | nil =>
      obtain ⟨he, -⟩ := List.cons.inj heq
      obtain ⟨-, rfl⟩ := PortEvent.inb.inj he
      exact hasks hasks'
  | cons e' block =>
      obtain ⟨rfl, -⟩ := List.cons.inj heq
      exact hblock _ (List.mem_cons_self ..)

/-! ## The loop over the sectors -/

section Loop

variable {Buf : Type} {ctx : AtaCtx} {transfer : Nat → Buf → PortIo → Buf × PortIo}

/-- No poll for a sector ends with a status that has neither DRQ nor ERR. -/
def DrqAnswers (status : Nat → UInt8) : Nat → Nat → Prop
  | 0, _ => True
  | sectors + 1, k => ∀ n, EndsPoll status ataTimeout k n → status n &&& ataSrErr = 0 →
      status n &&& ataSrDrq ≠ 0 ∧ DrqAnswers status sectors (n + 1)

/-- What a round of the loop can do. -/
inductive LoopStep (ctx : AtaCtx) (transfer : Nat → Buf → PortIo → Buf × PortIo) (rounds s : Nat)
    (p : PortIo) : Int × Buf × PortIo → Prop
  /-- The poll fails. -/
  | stopped {buf : Buf} {p' : PortIo} {reads : List PortEvent} :
      (∀ n, EndsPoll (statusOf ctx.io p) ataTimeout (p.reads (ctx.io + 7)) n →
        statusOf ctx.io p n &&& ataSrErr ≠ 0) →
      p'.trace = reads ++ p.trace → (∀ e ∈ reads, IsRead e) →
      LoopStep ctx transfer rounds s p (-1, buf, p')
  /-- A sector is transferred, and the loop goes on. -/
  | transferred {n : Nat} {buf : Buf} {p' : PortIo} {delay words reads : List PortEvent} :
      EndsPoll (statusOf ctx.io p) ataTimeout (p.reads (ctx.io + 7)) n →
      statusOf ctx.io p n &&& ataSrErr = 0 →
      p'.trace = delay ++ (words ++ .inb (ctx.io + 7) (statusOf ctx.io p n) :: (reads ++ p.trace)) →
      (∀ e ∈ delay, IsRead e) → (∀ e ∈ words, IsData ctx.io e) → words.length = 256 →
      (∀ e ∈ reads, IsRead e) → p'.inputs = p.inputs → p'.reads (ctx.io + 7) = n + 1 →
      LoopStep ctx transfer rounds s p (sectorLoop ctx transfer rounds (s + 1) buf p')

theorem sectorLoop_step (hctrl : ctx.io + 7 < ctx.ctrl)
    (htransfer : ∀ s buf p, Phase ctx.io (IsData ctx.io) 256 p (transfer s buf p).2)
    (rounds s : Nat) (buf : Buf) (p : PortIo) :
    LoopStep ctx transfer rounds s p (sectorLoop ctx transfer (rounds + 1) s buf p) := by
  have houtcome := ataPollReady_outcome hctrl p
  rw [sectorLoop]
  generalize ataPollReady ctx.io ctx.ctrl p = r at houtcome
  cases houtcome with
  | timeout hnone hevents =>
      obtain ⟨events, htrace, hall⟩ := hevents
      exact .stopped (fun n hn => absurd hn (hnone n)) htrace hall
  | @ended p₁ n hends hevents hinputs hreads =>
      obtain ⟨events, htrace, hall⟩ := hevents
      by_cases herr : statusOf ctx.io p n &&& ataSrErr ≠ 0
      · simp only [if_pos herr]
        have htrace' : p₁.trace = (.inb (ctx.io + 7) (statusOf ctx.io p n) :: events) ++ p.trace :=
          htrace
        refine .stopped (fun n' hn' => hn'.unique hends ▸ herr) htrace' fun e he => ?_
        rcases List.mem_cons.mp he with rfl | he
        · trivial
        · exact hall e he
      · simp only [if_neg herr]
        obtain ⟨words, hwords, hlength, hdata⟩ := (htransfer s buf p₁).trace
        have hdelay := ioDelay400ns_phase hctrl (transfer s buf p₁).2
        obtain ⟨delay, hdelayed, -, hdelays⟩ := hdelay.trace
        refine .transferred hends (not_not.mp herr) ?_ hdelays hdata hlength hall
          ((hdelay.inputs.trans (htransfer s buf p₁).inputs).trans hinputs)
          ((hdelay.reads.trans (htransfer s buf p₁).reads).trans hreads)
        rw [hdelayed, hwords, htrace, List.cons_append]

/-- The loop only adds to the trace. -/
theorem sectorLoop_later (hctrl : ctx.io + 7 < ctx.ctrl)
    (htransfer : ∀ s buf p, Phase ctx.io (IsData ctx.io) 256 p (transfer s buf p).2) :
    ∀ (rounds s : Nat) (buf : Buf) (p : PortIo), ∃ later,
      (sectorLoop ctx transfer rounds s buf p).2.2.trace = later ++ p.trace ∧
      ∀ e ∈ later, IsRead e ∨ IsData ctx.io e
  | 0, _, _, _ => ⟨[], rfl, fun _ he => absurd he List.not_mem_nil⟩
  | rounds + 1, s, buf, p => by
      have hstep := sectorLoop_step hctrl htransfer rounds s buf p
      generalize sectorLoop ctx transfer (rounds + 1) s buf p = r at hstep
      cases hstep with
      | stopped _ htrace hall => exact ⟨_, htrace, fun e he => Or.inl (hall e he)⟩
      | @transferred n buf' p' delay words reads _ _ htrace hdelay hwords _ hreads _ _ =>
          obtain ⟨later, hlater, hall⟩ := sectorLoop_later hctrl htransfer rounds (s + 1) buf' p'
          refine ⟨later ++ delay ++ words ++ .inb (ctx.io + 7) (statusOf ctx.io p n) :: reads, ?_,
            fun e he => ?_⟩
          · rw [hlater, htrace]
            simp
          · simp only [List.mem_append, List.mem_cons] at he
            rcases he with ((he | he) | he) | rfl | he
            · exact hall e he
            · exact Or.inl (hdelay e he)
            · exact Or.inr (hwords e he)
            · exact Or.inl trivial
            · exact Or.inl (hreads e he)

/-- The drive asks for every sector exactly where every poll that goes well ends with DRQ. -/
theorem sectorLoop_askedFor_iff (hctrl : ctx.io + 7 < ctx.ctrl)
    (htransfer : ∀ s buf p, Phase ctx.io (IsData ctx.io) 256 p (transfer s buf p).2) :
    ∀ (rounds s : Nat) (buf : Buf) (p : PortIo), AskedFor ctx.io p.trace →
      (AskedFor ctx.io (sectorLoop ctx transfer rounds s buf p).2.2.trace ↔
        DrqAnswers (statusOf ctx.io p) rounds (p.reads (ctx.io + 7)))
  | 0, _, _, _, h => iff_of_true h trivial
  | rounds + 1, s, buf, p, h => by
      have hstep := sectorLoop_step hctrl htransfer rounds s buf p
      generalize sectorLoop ctx transfer (rounds + 1) s buf p = r at hstep
      cases hstep with
      | stopped herr htrace hall =>
          refine iff_of_true ?_ fun n hn hok => absurd hok (herr n hn)
          rw [htrace, askedFor_append_iff fun e he => (hall e he).not_data]
          exact h
      | @transferred n buf' p' delay words reads hends hok htrace hdelay hwords hlength hreads
          hinputs hcount =>
          have hbefore : AskedFor ctx.io (reads ++ p.trace) :=
            (askedFor_append_iff fun e he => (hreads e he).not_data).mpr h
          have hstatus : statusOf ctx.io p' = statusOf ctx.io p := by
            unfold statusOf
            rw [hinputs]
          by_cases hdrq : statusOf ctx.io p n &&& ataSrDrq ≠ 0
          · have hasks : Asks (statusOf ctx.io p n) := ⟨hends.decisive.1, hok, hdrq⟩
            have hnow : AskedFor ctx.io p'.trace := by
              rw [htrace, askedFor_append_iff fun e he => (hdelay e he).not_data]
              exact askedFor_words hasks hbefore hwords hlength.le
            rw [sectorLoop_askedFor_iff hctrl htransfer rounds (s + 1) buf' p' hnow, hstatus,
              hcount]
            constructor
            · intro hrest n' hn' _
              rw [hn'.unique hends]
              exact ⟨hdrq, hrest⟩
            · exact fun hall => (hall n hends hok).2
          · refine iff_of_false (fun hasked => ?_) fun hall => hdrq (hall n hends hok).1
            obtain ⟨later, hlater, -⟩ := sectorLoop_later hctrl htransfer rounds (s + 1) buf' p'
            rw [hlater, htrace] at hasked
            refine not_askedFor_words (fun hasks => hdrq hasks.2.2) hwords ?_
              hasked.of_append.of_append
            rintro rfl
            cases hlength

/-- A loop that ends well has transferred every sector. -/
theorem sectorLoop_count (hctrl : ctx.io + 7 < ctx.ctrl)
    (htransfer : ∀ s buf p, Phase ctx.io (IsData ctx.io) 256 p (transfer s buf p).2) :
    ∀ (rounds s : Nat) (buf : Buf) (p : PortIo),
      (sectorLoop ctx transfer rounds s buf p).1 = 0 →
      (sectorLoop ctx transfer rounds s buf p).2.2.trace.countP (IsData ctx.io ·)
        = 256 * rounds + p.trace.countP (IsData ctx.io ·)
  | 0, _, _, p, _ => by simp [sectorLoop]
  | rounds + 1, s, buf, p, hrc => by
      have hstep := sectorLoop_step hctrl htransfer rounds s buf p
      generalize sectorLoop ctx transfer (rounds + 1) s buf p = r at hstep hrc
      cases hstep with
      | stopped _ _ _ => exact absurd hrc (show ¬ (-1 : Int) = 0 by decide)
      | @transferred n buf' p' delay words reads _ _ htrace hdelay hwords hlength hreads _ _ =>
          have hnone : ∀ l : List PortEvent, (∀ e ∈ l, IsRead e) →
              l.countP (IsData ctx.io ·) = 0 := by
            intro l hl
            rw [List.countP_eq_zero]
            intro e he
            simpa using (hl e he).not_data
          have hall : words.countP (IsData ctx.io ·) = 256 := by
            rw [← hlength, List.countP_eq_length]
            intro e he
            simpa using hwords e he
          rw [sectorLoop_count hctrl htransfer rounds (s + 1) buf' p' hrc, htrace,
            ← List.cons_append, List.countP_append, List.countP_append, List.countP_append, hnone delay hdelay,
            hnone (.inb _ _ :: reads) (List.forall_mem_cons.mpr ⟨trivial, hreads⟩), hall]
          omega

end Loop

/-! ## Addresses -/

/-- The 28-bit address in the task file. -/
def taskAddress (io : Nat) (trace : List PortEvent) : Nat :=
  (lastOut (io + 3) trace).toNat + (lastOut (io + 4) trace).toNat * 2 ^ 8 +
    (lastOut (io + 5) trace).toNat * 2 ^ 16 + (lastOut (io + 6) trace).toNat % 16 * 2 ^ 24

/-- The count in the task file. -/
def taskCount (io : Nat) (trace : List PortEvent) : Nat := (lastOut (io + 2) trace).toNat

/-- A command to read or write is in range, and the task file says where. -/
def CommandRight (dev : AtaDev) (lba count : Nat) (e : PortEvent) (before : List PortEvent) : Prop :=
  ∀ ctx cmd, dev.ctx = some ctx → e = .outb (ctx.io + 7) cmd →
    cmd = ataCmdReadPio ∨ cmd = ataCmdWritePio →
    lba + count ≤ dev.sectorCount ∧ taskAddress ctx.io before = lba ∧ taskCount ctx.io before = count

/-- Whatever the drive answers, the commands of a request are right. -/
def AddressesRight (dev : AtaDev) (lba count : Nat) : Prop :=
  ∀ inputs buf,
    EveryEvent (CommandRight dev lba count)
      (ataPioRead (some dev) lba count (some buf) (PortIo.start inputs)).2.2.trace ∧
    EveryEvent (CommandRight dev lba count)
      (ataPioWrite (some dev) lba count (some buf) (PortIo.start inputs)).2.trace

/-- The checks let the request through. -/
def Accepted (dev : AtaDev) (lba count : Nat) : Prop :=
  0 < count ∧ add32 lba count ≤ dev.sectorCount ∧ count ≤ 255

instance (dev : AtaDev) (lba count : Nat) : Decidable (Accepted dev lba count) :=
  inferInstanceAs (Decidable (_ ∧ _))

theorem FromDrive.checkRequest_eq {dev : AtaDev} {ctx : AtaCtx} (h : FromDrive dev ctx) {Buf : Type}
    (buf : Buf) (lba count : Nat) : checkRequest (some dev) (some buf) lba count
      = if Accepted dev lba count then some (ctx, buf) else none := by
  unfold checkRequest
  simp only [Option.bind_eq_bind, Option.bind_some, h.sectorSize, h.ctx_eq]
  by_cases hzero : count = 0
  · rw [if_pos hzero, if_neg fun hacc => by have := hacc.1; omega]
  · rw [if_neg hzero, if_neg (not_not.mpr rfl)]
    by_cases hrange : add32 lba count > dev.sectorCount
    · rw [if_pos hrange, if_neg fun hacc => by have := hacc.2.1; omega]
    · rw [if_neg hrange]
      by_cases hmany : count > 255
      · rw [if_pos hmany, if_neg fun hacc => by have := hacc.2.2; omega]
      · rw [if_neg hmany, if_pos ⟨by omega, by omega, by omega⟩]

/-- The low bits of the device register are the top bits of the address. -/
theorem sel_or_toNat (ctx : AtaCtx) {k : Nat} (hk : k < 16) :
    (ctx.sel ||| UInt8.ofNat k).toNat % 16 = k := by
  have hall : ∀ slave : Bool, ∀ k < 16,
      ((if slave then ataSelSlave else ataSelMaster) ||| UInt8.ofNat k).toNat % 16 = k := by
    decide
  exact hall ctx.slave k hk

/-- What the task file of a request holds when the command is given. -/
theorem issueCommand_lastOut (ctx : AtaCtx) (lba count : Nat) (cmd : UInt8) (p : PortIo) :
    ∃ before, (issueCommand ctx lba count cmd p).trace = .outb (ctx.io + 7) cmd :: before ∧
      lastOut (ctx.io + 2) before = UInt8.ofNat count ∧
      lastOut (ctx.io + 3) before = UInt8.ofNat (lba &&& 0xFF) ∧
      lastOut (ctx.io + 4) before = UInt8.ofNat (lba >>> 8 &&& 0xFF) ∧
      lastOut (ctx.io + 5) before = UInt8.ofNat (lba >>> 16 &&& 0xFF) ∧
      lastOut (ctx.io + 6) before = (ctx.sel ||| UInt8.ofNat (lba >>> 24 &&& 0x0F)) ∧
      ∀ e ∈ before, e ∈ p.trace ∨
        ∃ port v, e = .outb port v ∧ (port < ctx.io + 7 ∨ port = ctx.ctrl) := by
  refine ⟨_, rfl, ?_, ?_, ?_, ?_, ?_, ?_⟩
  · simp [lastOut, PortIo.outb]
  · simp [lastOut, PortIo.outb]
  · simp [lastOut, PortIo.outb]
  · simp [lastOut, PortIo.outb]
  · simp [lastOut, PortIo.outb]
  · intro e he
    simp only [PortIo.outb, List.mem_cons] at he
    rcases he with rfl | rfl | rfl | rfl | rfl | rfl | he
    · exact Or.inr ⟨_, _, rfl, Or.inl (by omega)⟩
    · exact Or.inr ⟨_, _, rfl, Or.inl (by omega)⟩
    · exact Or.inr ⟨_, _, rfl, Or.inl (by omega)⟩
    · exact Or.inr ⟨_, _, rfl, Or.inl (by omega)⟩
    · exact Or.inr ⟨_, _, rfl, Or.inl (by omega)⟩
    · exact Or.inr ⟨_, _, rfl, Or.inr rfl⟩
    · exact Or.inl he

/-- The task file of a request has the low 28 bits of the address. -/
theorem issueCommand_address (ctx : AtaCtx) (lba count : Nat) (cmd : UInt8) (p : PortIo) :
    ∃ before, (issueCommand ctx lba count cmd p).trace = .outb (ctx.io + 7) cmd :: before ∧
      taskAddress ctx.io before = lba % 2 ^ 28 ∧ taskCount ctx.io before = count % 2 ^ 8 ∧
      ∀ e ∈ before, e ∈ p.trace ∨
        ∃ port v, e = .outb port v ∧ (port < ctx.io + 7 ∨ port = ctx.ctrl) := by
  obtain ⟨before, htrace, h2, h3, h4, h5, h6, hports⟩ := issueCommand_lastOut ctx lba count cmd p
  have hbyte : ∀ x, (UInt8.ofNat (x &&& 0xFF)).toNat = x % 2 ^ 8 := by
    intro x
    rw [Nat.and_two_pow_sub_one_eq_mod x 8, UInt8.toNat_ofNat', Nat.mod_mod]
  have hnibble : lba >>> 24 &&& 0x0F = lba >>> 24 % 16 := Nat.and_two_pow_sub_one_eq_mod _ 4
  refine ⟨before, htrace, ?_, ?_, hports⟩
  · rw [taskAddress, h3, h4, h5, h6, hbyte, hbyte, hbyte, hnibble,
      sel_or_toNat ctx (Nat.mod_lt _ (by decide)), Nat.shiftRight_eq_div_pow,
      Nat.shiftRight_eq_div_pow, Nat.shiftRight_eq_div_pow]
    omega
  · rw [taskCount, h2, UInt8.toNat_ofNat']

/-! ## Requests -/

section Requests

variable {dev : AtaDev} {ctx : AtaCtx} {lba count : Nat}

/-- The command of a request is right exactly where the address has 28 bits. -/
theorem FromDrive.issueCommand_right_iff (h : FromDrive dev ctx) {cmd : UInt8}
    (hcmd : cmd = ataCmdReadPio ∨ cmd = ataCmdWritePio) (inputs : Nat → Nat → UInt16) :
    EveryEvent (CommandRight dev lba count)
        (issueCommand ctx lba count cmd (PortIo.start inputs)).trace ↔
      lba + count ≤ dev.sectorCount ∧ lba % 2 ^ 28 = lba ∧ count % 2 ^ 8 = count := by
  have hctrl := h.io_lt
  obtain ⟨before, htrace, haddress, hcount, hports⟩ :=
    issueCommand_address ctx lba count cmd (PortIo.start inputs)
  have hbefore : EveryEvent (CommandRight dev lba count) before := by
    have hsetup : EveryEvent (CommandRight dev lba count) (before ++ []) ↔
        EveryEvent (CommandRight dev lba count) [] := by
      refine everyEvent_append_iff fun e he trace ctx' cmd' hctx heq _ => ?_
      obtain rfl := Option.some.inj (h.ctx_eq.symm.trans hctx)
      rcases hports e he with hnone | ⟨port, v, rfl, hport⟩
      · exact absurd hnone List.not_mem_nil
      · obtain ⟨rfl, -⟩ := PortEvent.outb.inj heq
        omega
    rw [List.append_nil] at hsetup
    exact hsetup.mpr trivial
  rw [htrace, EveryEvent, and_iff_left hbefore]
  constructor
  · intro hright
    have hcommand := hright ctx cmd h.ctx_eq rfl hcmd
    rwa [haddress, hcount] at hcommand
  · rintro hright ctx' cmd' hctx - -
    obtain rfl := Option.some.inj (h.ctx_eq.symm.trans hctx)
    rwa [haddress, hcount]

/-- A read is its command and the loop. -/
theorem FromDrive.ataPioRead_eq (h : FromDrive dev ctx) (hacc : Accepted dev lba count)
    (buf : Nat → UInt16) (p : PortIo) :
    let r := sectorLoop ctx (readSector ctx.io) count 0 buf
      (issueCommand ctx lba count ataCmdReadPio p)
    ataPioRead (some dev) lba count (some buf) p = (r.1, some r.2.1, r.2.2) := by
  intro r
  rw [ataPioRead, h.checkRequest_eq, if_pos hacc]

/-- The cache flush at the end of a write: the last status is clear of BSY and ERR. -/
def Flushed (io : Nat) (flush : List PortEvent) : Prop :=
  ∃ status reads, flush = .inb (io + 7) status :: reads ++ [.outb (io + 7) ataCmdCacheFlush] ∧
    (∀ e ∈ reads, IsRead e) ∧ status &&& ataSrBsy = 0 ∧ status &&& ataSrErr = 0

/-- A write is its command and the loop, and then the flush. -/
theorem FromDrive.ataPioWrite_flush (h : FromDrive dev ctx) (hacc : Accepted dev lba count)
    (buf : Nat → UInt16) (p : PortIo) :
    let r := sectorLoop ctx (writeSector ctx.io) count 0 buf
      (issueCommand ctx lba count ataCmdWritePio p)
    ∃ flush, (ataPioWrite (some dev) lba count (some buf) p).2.trace = flush ++ r.2.2.trace ∧
      (∀ e ∈ flush, IsRead e ∨ e = .outb (ctx.io + 7) ataCmdCacheFlush) ∧
      ((ataPioWrite (some dev) lba count (some buf) p).1 = 0 → r.1 = 0 ∧ Flushed ctx.io flush) := by
  intro r
  rw [ataPioWrite, h.checkRequest_eq, if_pos hacc]
  simp only
  rw [show sectorLoop ctx (writeSector ctx.io) count 0 buf
    (issueCommand ctx lba count ataCmdWritePio p) = r from rfl]
  clear_value r
  obtain ⟨rc, buf', p'⟩ := r
  by_cases hrc : rc ≠ 0
  · simp only [if_pos hrc]
    exact ⟨[], rfl, fun _ he => absurd he List.not_mem_nil, fun h0 => absurd h0 (by decide)⟩
  · have houtcome := ataPollReady_outcome h.io_lt (p'.outb (ctx.io + 7) ataCmdCacheFlush)
    simp only [if_neg hrc]
    generalize ataPollReady ctx.io ctx.ctrl (p'.outb (ctx.io + 7) ataCmdCacheFlush) = poll
      at houtcome
    have hkind : ∀ reads : List PortEvent, (∀ e ∈ reads, IsRead e) →
        ∀ e ∈ reads ++ [.outb (ctx.io + 7) ataCmdCacheFlush],
          IsRead e ∨ e = .outb (ctx.io + 7) ataCmdCacheFlush := by
      intro reads hreads e he
      rcases List.mem_append.mp he with he | he
      · exact Or.inl (hreads e he)
      · exact Or.inr (List.mem_singleton.mp he)
    cases houtcome with
    | @timeout p'' _ hevents =>
        obtain ⟨events, htrace, hall⟩ := hevents
        simp only [if_pos (show (-1 : Int) ≠ 0 by decide)]
        refine ⟨events ++ [.outb (ctx.io + 7) ataCmdCacheFlush], ?_, hkind events hall,
          fun h0 => absurd h0 (by decide)⟩
        rw [htrace, List.append_assoc]
        rfl
    | @ended p'' n hends hevents _ _ =>
        obtain ⟨events, htrace, hall⟩ := hevents
        have hdone := hends.decisive.1
        generalize statusOf ctx.io (p'.outb (ctx.io + 7) ataCmdCacheFlush) n = status at *
        have hreads : ∀ e ∈ PortEvent.inb (ctx.io + 7) status :: events, IsRead e :=
          List.forall_mem_cons.mpr ⟨trivial, hall⟩
        have htrace' : p''.trace = (.inb (ctx.io + 7) status :: events ++
            [.outb (ctx.io + 7) ataCmdCacheFlush]) ++ p'.trace := by
          rw [htrace, List.append_assoc]
          rfl
        by_cases herr : status &&& ataSrErr ≠ 0
        · simp only [if_pos herr, if_pos (show (-1 : Int) ≠ 0 by decide)]
          exact ⟨_, htrace', hkind _ hreads, fun h0 => absurd h0 (by decide)⟩
        · simp only [if_neg herr, if_neg (show ¬ (0 : Int) ≠ 0 by decide)]
          exact ⟨_, htrace', hkind _ hreads, fun _ => ⟨not_not.mp hrc, status, events, rfl, hall,
            hdone, not_not.mp herr⟩⟩

/-- What follows the command of a request is no other command. -/
theorem commandRight_later (io : Nat) {e : PortEvent} (h : IsRead e ∨ IsData io e ∨
    ∃ port, e = .outb port ataCmdCacheFlush) (before : List PortEvent) :
    CommandRight dev lba count e before := by
  rintro ctx cmd - rfl hcmd
  rcases h with hread | hdata | ⟨port, heq⟩
  · exact hread.elim
  · exact hdata.elim
  · obtain ⟨-, rfl⟩ := PortEvent.outb.inj heq
    exact absurd hcmd (by decide)

/-- The requests of a device are addressed right exactly where accepted ones
have a 28-bit address. -/
theorem FromDrive.addressesRight_iff (h : FromDrive dev ctx) :
    AddressesRight dev lba count ↔ (Accepted dev lba count → lba < 2 ^ 28) := by
  by_cases hacc : Accepted dev lba count
  · -- both requests add to their command what is no command
    have hread : ∀ inputs buf, EveryEvent (CommandRight dev lba count)
        (ataPioRead (some dev) lba count (some buf) (PortIo.start inputs)).2.2.trace ↔
          lba + count ≤ dev.sectorCount ∧ lba % 2 ^ 28 = lba ∧ count % 2 ^ 8 = count := by
      intro inputs buf
      obtain ⟨later, hlater, hall⟩ := sectorLoop_later h.io_lt (readSector_phase ctx.io) count 0 buf
        (issueCommand ctx lba count ataCmdReadPio (PortIo.start inputs))
      rw [h.ataPioRead_eq hacc]
      simp only
      rw [hlater, everyEvent_append_iff fun e he before =>
        commandRight_later ctx.io ((hall e he).imp_right Or.inl) before]
      exact h.issueCommand_right_iff (Or.inl rfl) inputs
    have hwrite : ∀ inputs buf, EveryEvent (CommandRight dev lba count)
        (ataPioWrite (some dev) lba count (some buf) (PortIo.start inputs)).2.trace ↔
          lba + count ≤ dev.sectorCount ∧ lba % 2 ^ 28 = lba ∧ count % 2 ^ 8 = count := by
      intro inputs buf
      obtain ⟨later, hlater, hall⟩ := sectorLoop_later h.io_lt (writeSector_phase ctx.io) count 0
        buf (issueCommand ctx lba count ataCmdWritePio (PortIo.start inputs))
      obtain ⟨flush, hflush, hkind, -⟩ := h.ataPioWrite_flush hacc buf (PortIo.start inputs)
      rw [hflush, everyEvent_append_iff fun e he before =>
          commandRight_later ctx.io ((hkind e he).imp_right fun heq => Or.inr ⟨_, heq⟩) before,
        hlater, everyEvent_append_iff fun e he before =>
          commandRight_later ctx.io ((hall e he).imp_right Or.inl) before]
      exact h.issueCommand_right_iff (Or.inr rfl) inputs
    have hcount := hacc.2.2
    constructor
    · intro hright _
      have haddress := ((hread (fun _ _ => 0) fun _ => 0).mp (hright _ _).1).2.1
      omega
    · intro hlba inputs buf
      have hrange := hacc.2.1
      rw [add32, Nat.mod_eq_of_lt (by have := hlba hacc; omega)] at hrange
      have hright : lba + count ≤ dev.sectorCount ∧ lba % 2 ^ 28 = lba ∧ count % 2 ^ 8 = count :=
        ⟨hrange, Nat.mod_eq_of_lt (hlba hacc), Nat.mod_eq_of_lt (by omega)⟩
      exact ⟨(hread inputs buf).mpr hright, (hwrite inputs buf).mpr hright⟩
  · refine iff_of_true (fun inputs buf => ?_) fun hacc' => absurd hacc' hacc
    simp only [ataPioRead, ataPioWrite, h.checkRequest_eq, if_neg hacc]
    exact ⟨trivial, trivial⟩

/-- A read transfers on demand: the drive asks for every sector, and a read that
returns 0 has transferred them all. -/
def ReadOnDemand (dev : AtaDev) (ctx : AtaCtx) (lba count : Nat) (inputs : Nat → Nat → UInt16)
    (buf : Nat → UInt16) : Prop :=
  let r := ataPioRead (some dev) lba count (some buf) (PortIo.start inputs)
  AskedFor ctx.io r.2.2.trace ∧
    (r.1 = 0 → r.2.2.trace.countP (IsData ctx.io ·) = 256 * count)

/-- So does a write, and one that returns 0 has flushed the cache after that. -/
def WriteOnDemand (dev : AtaDev) (ctx : AtaCtx) (lba count : Nat) (inputs : Nat → Nat → UInt16)
    (buf : Nat → UInt16) : Prop :=
  let r := ataPioWrite (some dev) lba count (some buf) (PortIo.start inputs)
  AskedFor ctx.io r.2.trace ∧
    (r.1 = 0 → ∃ flush before, r.2.trace = flush ++ before ∧ Flushed ctx.io flush ∧
      before.countP (IsData ctx.io ·) = 256 * count)

/-- The command itself transfers nothing. -/
theorem issueCommand_noData (cmd : UInt8) (inputs : Nat → Nat → UInt16) :
    ∀ e ∈ (issueCommand ctx lba count cmd (PortIo.start inputs)).trace, ¬ IsData ctx.io e := by
  obtain ⟨before, htrace, -, -, hports⟩ :=
    issueCommand_address ctx lba count cmd (PortIo.start inputs)
  rw [htrace]
  intro e he
  rcases List.mem_cons.mp he with rfl | he
  · exact fun hdata => hdata
  · rcases hports e he with hnone | ⟨port, v, rfl, -⟩
    · exact absurd hnone List.not_mem_nil
    · exact fun hdata => hdata

/-- What the loop of an accepted request transfers. -/
theorem FromDrive.loop_onDemand (h : FromDrive dev ctx) (lba count : Nat)
    {transfer : Nat → (Nat → UInt16) → PortIo → (Nat → UInt16) × PortIo}
    (htransfer : ∀ s buf p, Phase ctx.io (IsData ctx.io) 256 p (transfer s buf p).2)
    (cmd : UInt8) (inputs : Nat → Nat → UInt16) (buf : Nat → UInt16) :
    let r := sectorLoop ctx transfer count 0 buf
      (issueCommand ctx lba count cmd (PortIo.start inputs))
    (AskedFor ctx.io r.2.2.trace ↔
      DrqAnswers (fun n => (inputs (ctx.io + 7) n).toUInt8) count 0) ∧
    (r.1 = 0 → r.2.2.trace.countP (IsData ctx.io ·) = 256 * count) := by
  intro r
  have hnone : ∀ e ∈ (issueCommand ctx lba count cmd (PortIo.start inputs)).trace,
      ¬ IsData ctx.io e := issueCommand_noData cmd inputs
  have hstart : AskedFor ctx.io (issueCommand ctx lba count cmd (PortIo.start inputs)).trace := by
    rw [← List.append_nil (issueCommand ctx lba count cmd (PortIo.start inputs)).trace]
    exact (askedFor_append_iff hnone).mpr trivial
  refine ⟨sectorLoop_askedFor_iff h.io_lt htransfer count 0 buf _ hstart, fun hrc => ?_⟩
  have hzero : (issueCommand ctx lba count cmd (PortIo.start inputs)).trace.countP
      (IsData ctx.io ·) = 0 := by
    rw [List.countP_eq_zero]
    intro e he
    simpa using hnone e he
  have hcount := sectorLoop_count h.io_lt htransfer count 0 buf _ hrc
  rwa [hzero, Nat.add_zero] at hcount

theorem FromDrive.readOnDemand_iff (h : FromDrive dev ctx) (hacc : Accepted dev lba count)
    (inputs : Nat → Nat → UInt16) (buf : Nat → UInt16) :
    ReadOnDemand dev ctx lba count inputs buf ↔
      DrqAnswers (fun n => (inputs (ctx.io + 7) n).toUInt8) count 0 := by
  have hloop := h.loop_onDemand lba count (readSector_phase ctx.io)
    ataCmdReadPio inputs buf
  rw [ReadOnDemand, h.ataPioRead_eq hacc]
  exact (and_iff_left hloop.2).trans hloop.1

theorem FromDrive.writeOnDemand_iff (h : FromDrive dev ctx) (hacc : Accepted dev lba count)
    (inputs : Nat → Nat → UInt16) (buf : Nat → UInt16) :
    WriteOnDemand dev ctx lba count inputs buf ↔
      DrqAnswers (fun n => (inputs (ctx.io + 7) n).toUInt8) count 0 := by
  have hloop := h.loop_onDemand lba count (writeSector_phase ctx.io)
    ataCmdWritePio inputs buf
  obtain ⟨flush, htrace, hkind, hflushed⟩ := h.ataPioWrite_flush hacc buf (PortIo.start inputs)
  have hnone : ∀ e ∈ flush, ¬ IsData ctx.io e := by
    intro e he
    rcases hkind e he with hread | rfl
    · exact hread.not_data
    · exact fun hdata => hdata
  rw [WriteOnDemand, and_iff_left fun hrc => ?_, htrace, askedFor_append_iff hnone]
  · exact hloop.1
  · exact ⟨flush, _, htrace, (hflushed hrc).2, hloop.2 (hflushed hrc).1⟩

end Requests

/-- A disk of 65537 sectors as primary master. -/
def primaryDisk : AtaDev where
  name := ascii "hd0"
  sectorSize := 512
  sectorCount := 65537
  ctx := some ⟨ataPrimaryIo, ataPrimaryCtrl, false⟩

/-- Its drive has a word 1 in every place of its identification. -/
theorem primaryDisk_registered : Registered primaryDisk := by
  have hrun : (ataPioDiscover 1 (fun _ => 0) [] (PortIo.start fun port _ =>
      if port = ataPrimaryIo + 7 then 0x48 else if port = ataPrimaryIo then 1 else 0)).map (fun r =>
        decide (primaryDisk ∈ r.1)) = some true := by decide +kernel
  obtain ⟨⟨devs, p'⟩, hrun, hmem⟩ := Option.map_eq_some_iff.mp hrun
  exact ⟨_, _, _, devs, p', hrun, of_decide_eq_true hmem⟩

theorem primaryDisk_fromDrive :
    FromDrive primaryDisk ⟨ataPrimaryIo, ataPrimaryCtrl, false⟩ :=
  ⟨rfl, by decide, by decide, rfl⟩

/-- For a device that the discovery registers, the commands of a request are
within its range and addressed right exactly where the address of an accepted
request has 28 bits. -/
theorem requests_address_iff {dev : AtaDev} (h : Registered dev) (lba count : Nat) :
    AddressesRight dev lba count ↔ (Accepted dev lba count → lba < 2 ^ 28) := by
  obtain ⟨ctx, hdev⟩ := h.fromDrive
  exact hdev.addressesRight_iff

theorem requests_address_primary :
    AddressesRight primaryDisk 3 2 ↔ (Accepted primaryDisk 3 2 → 3 < 2 ^ 28) :=
  requests_address_iff primaryDisk_registered 3 2

/-- The sum of the range check wraps: the last 32-bit address passes it. -/
theorem requests_wrap : Registered primaryDisk ∧ ¬ AddressesRight primaryDisk 0xFFFFFFFF 1 := by
  refine ⟨primaryDisk_registered, fun hright => ?_⟩
  exact absurd (primaryDisk_fromDrive.addressesRight_iff.mp hright) (by decide)

/-- An accepted request transfers its sectors on demand exactly where no poll for
a sector ends with DRDY alone. -/
theorem transfers_on_demand_iff {dev : AtaDev} (h : Registered dev) {ctx : AtaCtx}
    (hctx : dev.ctx = some ctx) {lba count : Nat} (hacc : Accepted dev lba count)
    (inputs : Nat → Nat → UInt16) (buf : Nat → UInt16) :
    (ReadOnDemand dev ctx lba count inputs buf ↔
      DrqAnswers (fun n => (inputs (ctx.io + 7) n).toUInt8) count 0) ∧
    (WriteOnDemand dev ctx lba count inputs buf ↔
      DrqAnswers (fun n => (inputs (ctx.io + 7) n).toUInt8) count 0) := by
  obtain ⟨ctx', hdev⟩ := h.fromDrive
  obtain rfl := Option.some.inj (hdev.ctx_eq.symm.trans hctx)
  exact ⟨hdev.readOnDemand_iff hacc inputs buf, hdev.writeOnDemand_iff hacc inputs buf⟩

theorem transfers_on_demand_primary :
    (ReadOnDemand primaryDisk ⟨ataPrimaryIo, ataPrimaryCtrl, false⟩ 3 2 (fun _ _ => 0x48)
        (fun _ => 0) ↔
      DrqAnswers (fun _ => 0x48) 2 0) ∧
    (WriteOnDemand primaryDisk ⟨ataPrimaryIo, ataPrimaryCtrl, false⟩ 3 2 (fun _ _ => 0x48)
        (fun _ => 0) ↔
      DrqAnswers (fun _ => 0x48) 2 0) :=
  transfers_on_demand_iff primaryDisk_registered rfl (by decide) (fun _ _ => 0x48) fun _ => 0

/-- A drive that answers with DRDY alone, ready but without data, is read. -/
theorem ataPollReady_takes_drdy : Registered primaryDisk ∧ Accepted primaryDisk 0 1 ∧
    ¬ ReadOnDemand primaryDisk ⟨ataPrimaryIo, ataPrimaryCtrl, false⟩ 0 1 (fun _ _ => 0x40)
      fun _ => 0 := by
  refine ⟨primaryDisk_registered, by decide, fun hdemand => ?_⟩
  have hall := (primaryDisk_fromDrive.readOnDemand_iff (by decide) _ _).mp hdemand
  have hends : EndsPoll (fun _ => (0x40 : UInt16).toUInt8) ataTimeout 0 0 :=
    ⟨Nat.le_refl 0, by decide, fun m _ hm => absurd hm (Nat.not_lt_zero m), by decide⟩
  exact absurd (hall 0 hends (by decide)).1 (by decide)

end RoninOS.Drivers
