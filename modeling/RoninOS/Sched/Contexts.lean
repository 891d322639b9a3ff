/-
RoninOS.Sched.Contexts — the invariant of the kernel's threads.

A waiting thread's registers lie in the frame that `thread_switch` left on its
stack, five words with the return address on top. `KernelOk` says where the
stacks are: live heap blocks of `THREAD_STACK_SIZE` bytes, one for each thread
but thread 0, with every waiting thread's frame inside its own. The heap keeps
blocks apart and the code of a thread stores on no waiting stack, so no act
changes a byte of a waiting stack (`StackKept`).
-/
import RoninOS.Kheap.HeapWindow
import RoninOS.Lib.Coroutine
import RoninOS.Sched.Switch

namespace RoninOS.Sched

open RoninOS.Lib RoninOS.Kheap RoninOS.Mem

/-! ## Pushing and popping -/

/-- Pushed words move the stack pointer down and store between it and where it was. -/
theorem foldl_pushWord : ∀ (vs : List Nat) (m : Mem) (sp : Nat), 4 * vs.length ≤ sp → sp < 2 ^ 32 →
    (vs.foldl pushWord (m, sp)).2 = sp - 4 * vs.length ∧
    ∀ a, (a < sp - 4 * vs.length ∨ sp ≤ a) → (vs.foldl pushWord (m, sp)).1 a = m a
  | [], _, _, _, _ => ⟨rfl, fun _ _ => rfl⟩
  | v :: vs, m, sp, hfit, hsp => by
      rw [List.length_cons] at hfit ⊢
      have hsub : sub32 sp 4 = sp - 4 := sub32_of_le (by omega) hsp
      have ih := foldl_pushWord vs (st32 m (sp - 4) v) (sp - 4) (by omega) (by omega)
      rw [List.foldl_cons, pushWord, hsub]
      refine ⟨by rw [ih.1]; omega, fun a ha => ?_⟩
      rw [ih.2 a (by omega)]
      exact st32_of_disjoint m v (by omega)

/-- Pushed word `i` reads back, 4 bytes below the one before it. -/
theorem ld32_foldl_pushWord : ∀ (vs : List Nat) (m : Mem) (sp : Nat), 4 * vs.length ≤ sp →
    sp < 2 ^ 32 → ∀ i (hi : i < vs.length), vs[i] < 2 ^ 32 →
    ld32 (vs.foldl pushWord (m, sp)).1 (sp - 4 * (i + 1)) = vs[i]
  | v :: vs, m, sp, hfit, hsp, i, hi, hv => by
      rw [List.length_cons] at hfit
      have hsub : sub32 sp 4 = sp - 4 := sub32_of_le (by omega) hsp
      rw [List.foldl_cons, pushWord, hsub]
      cases i with
      | zero =>
          have hkept : ld32 (vs.foldl pushWord (st32 m (sp - 4) v, sp - 4)).1 (sp - 4)
              = ld32 (st32 m (sp - 4) v) (sp - 4) :=
            ld32_congr fun k hk =>
              (foldl_pushWord vs _ (sp - 4) (by omega) (by omega)).2 _ (Or.inr (by omega))
          rw [Nat.zero_add, Nat.mul_one, hkept]
          exact ld32_st32_self m _ hv
      | succ i =>
          rw [show sp - 4 * (i + 1 + 1) = sp - 4 - 4 * (i + 1) by omega]
          exact ld32_foldl_pushWord vs _ (sp - 4) (by omega) (by omega) i
            (by simpa using hi) (by simpa using hv)

section PushRegs

variable {m : Mem} {sp : UInt32} {rs : List UInt32}

theorem pushRegs_sp (hfit : 4 * rs.length ≤ sp.toNat) :
    (pushRegs m sp rs).2 = sp.toNat - 4 * rs.length := by
  have h := foldl_pushWord (rs.map UInt32.toNat) m sp.toNat (by simpa using hfit) sp.toNat_lt
  rw [pushRegs, h.1, List.length_map]

theorem pushRegs_off (hfit : 4 * rs.length ≤ sp.toNat) {a : Nat}
    (ha : a < sp.toNat - 4 * rs.length ∨ sp.toNat ≤ a) : (pushRegs m sp rs).1 a = m a := by
  have h := foldl_pushWord (rs.map UInt32.toNat) m sp.toNat (by simpa using hfit) sp.toNat_lt
  exact h.2 a (by simpa using ha)

theorem ld32_pushRegs (hfit : 4 * rs.length ≤ sp.toNat) {i : Nat} (hi : i < rs.length) :
    UInt32.ofNat (ld32 (pushRegs m sp rs).1 (sp.toNat - 4 * (i + 1))) = rs[i] := by
  have h := ld32_foldl_pushWord (rs.map UInt32.toNat) m sp.toNat (by simpa using hfit) sp.toNat_lt
    i (by simpa using hi) (by simpa using rs[i].toNat_lt)
  rw [pushRegs, h, List.getElem_map, UInt32.ofNat_toNat]

/-- Pushing one list after another. -/
theorem pushRegs_append {ts : List UInt32} (hfit : 4 * rs.length ≤ sp.toNat) :
    pushRegs (pushRegs m sp rs).1 (UInt32.ofNat (pushRegs m sp rs).2) ts = pushRegs m sp (rs ++ ts) := by
  have hlt : (pushRegs m sp rs).2 < 2 ^ 32 := by
    have := sp.toNat_lt
    rw [pushRegs_sp hfit]
    omega
  rw [pushRegs, UInt32.toNat_ofNat_of_lt' hlt, pushRegs, pushRegs, List.map_append, List.foldl_append]

end PushRegs

/-- The words that the interrupt stub pushes before it calls the handler. -/
theorem irq0Entry_eq (img : Image) {m : Mem} {r : Regs} (hfit : 48 ≤ r.esp.toNat) :
    ∃ pushed, pushed = pushRegs m r.esp [r.eflags, r.cs, r.eip, r.eax, r.ecx, r.edx, r.ebx,
        UInt32.ofNat (r.esp.toNat - 12), r.ebp, r.esi, r.edi, img.irq0Resume] ∧
      irq0Entry img m r = (pushed.1, { r with
        esp := UInt32.ofNat (r.esp.toNat - 48)
        eip := img.irq0HandlerC
        eflags := r.eflags &&& ~~~0x200 }) := by
  refine ⟨_, rfl, ?_⟩
  have htrap : (pushRegs m r.esp [r.eflags, r.cs, r.eip]).2 = r.esp.toNat - 12 :=
    pushRegs_sp (by simp only [List.length_cons, List.length_nil]; omega)
  have hall : (pushRegs m r.esp [r.eflags, r.cs, r.eip, r.eax, r.ecx, r.edx, r.ebx,
      UInt32.ofNat (r.esp.toNat - 12), r.ebp, r.esi, r.edi, img.irq0Resume]).2 = r.esp.toNat - 48 :=
    pushRegs_sp (by simp only [List.length_cons, List.length_nil]; omega)
  rw [← hall, irq0Entry]
  simp only [htrap]
  have hthree : 4 * [r.eflags, r.cs, r.eip].length ≤ r.esp.toNat := by
    simp only [List.length_cons, List.length_nil]
    omega
  rw [← htrap, pushRegs_append hthree,
    pushRegs_append (by simp only [List.length_append, List.length_cons, List.length_nil]; omega)]
  rfl

theorem irq0Entry_off (img : Image) {m : Mem} {r : Regs} (hfit : 48 ≤ r.esp.toNat) {a : Nat}
    (ha : a < r.esp.toNat - 48 ∨ r.esp.toNat ≤ a) : (irq0Entry img m r).1 a = m a := by
  obtain ⟨pushed, hpushed, heq⟩ := @irq0Entry_eq img m r hfit
  rw [heq]
  show pushed.1 a = m a
  rw [hpushed, pushRegs_off]
  · simp only [List.length_cons, List.length_nil]
    omega
  · simp only [List.length_cons, List.length_nil]
    omega

/-- What `thread_switch` loads from the frame at `e`. -/
theorem switchReturn_eq (m : Mem) {e : Nat} (he : e + 20 < 2 ^ 32) (r : Regs) :
    switchReturn m e r = { r with
      edi := UInt32.ofNat (ld32 m e), esi := UInt32.ofNat (ld32 m (e + 4))
      ebx := UInt32.ofNat (ld32 m (e + 8)), ebp := UInt32.ofNat (ld32 m (e + 12))
      eip := UInt32.ofNat (ld32 m (e + 16)), esp := UInt32.ofNat (e + 20) } := by
  have h1 : add32 e 4 = e + 4 := add32_of_lt (by omega)
  have h2 : add32 (e + 4) 4 = e + 8 := add32_of_lt (by omega)
  have h3 : add32 (e + 8) 4 = e + 12 := add32_of_lt (by omega)
  have h4 : add32 (e + 12) 4 = e + 16 := add32_of_lt (by omega)
  have h5 : add32 (e + 16) 4 = e + 20 := add32_of_lt (by omega)
  simp only [switchReturn, popWord, h1, h2, h3, h4, h5]

/-! ## Contexts -/

/-- What a thread keeps while others run: the registers that a call preserves,
where it goes on, and the bytes of its stack. -/
@[ext] structure Context where
  ebp : UInt32
  ebx : UInt32
  esi : UInt32
  edi : UInt32
  esp : UInt32
  eip : UInt32
  stack : List UInt8

/-- The context of registers whose stack ends at `top`. -/
def Regs.context (r : Regs) (m : Mem) (top : Nat) : Context :=
  ⟨r.ebp, r.ebx, r.esi, r.edi, r.esp, r.eip, bytesAt m r.esp.toNat (top - r.esp.toNat)⟩

/-- What a switch loads depends on the bytes from the frame on. -/
theorem switchReturn_congr (r r' : Regs) {m m' : Mem} {e top : Nat} (hframe : e + 20 ≤ top)
    (hlt : e + 20 < 2 ^ 32) (hmem : ∀ a, e ≤ a → a < top → m' a = m a) :
    (switchReturn m' e r').context m' top = (switchReturn m e r).context m top := by
  have hword : ∀ i, i + 4 ≤ 20 → ld32 m' (e + i) = ld32 m (e + i) :=
    fun i hi => ld32_congr fun j hj => hmem _ (by omega) (by omega)
  have h0 := hword 0 (by decide)
  rw [Nat.add_zero] at h0
  have hsp : (UInt32.ofNat (e + 20)).toNat = e + 20 := UInt32.toNat_ofNat_of_lt' hlt
  rw [switchReturn_eq _ hlt, switchReturn_eq _ hlt]
  simp only [Regs.context, h0, hword 4 (by decide), hword 8 (by decide), hword 12 (by decide),
    hword 16 (by decide), hsp]
  congr 1
  exact bytesAt_congr fun j hj => hmem _ (by omega) (by omega)

/-- Returning from a call: the return address is popped, and the registers that
a call preserves are what they were. -/
def Context.returned (c : Context) : Context :=
  { c with
    eip := UInt32.ofNat (le32 (c.stack.getD 0 0) (c.stack.getD 1 0) (c.stack.getD 2 0)
      (c.stack.getD 3 0))
    esp := c.esp + 4
    stack := c.stack.drop 4 }

namespace Kernel

variable {σ : Type} {A : FrameAllocator σ} {pool : TablePool} {img : Image} {k k' : Kernel σ}

variable (img k) in
/-- The context of the current thread. -/
def runningContext : Context :=
  k.regs.context k.sched.mem (k.stackHi img k.sched.currentTid)

variable (img k) in
/-- The context that a switch to thread `tid` would load. -/
def savedContext (tid : Nat) : Context :=
  (switchReturn k.sched.mem (k.sched.threads tid).esp k.regs).context k.sched.mem (k.stackHi img tid)

variable (img k) in
/-- The contexts of the live threads. -/
def contexts : Coroutines Context where
  ctx tid :=
    if tid < k.sched.threadCount ∧ (k.sched.threads tid).state ≠ .zombie then
      some (if tid = k.sched.currentTid then k.runningContext img else k.savedContext img tid)
    else none
  current := k.sched.currentTid

/-! ## The invariant -/

variable (pool img k) in
/-- The scheduler and the heap are sound; the stacks are live heap blocks, one
for each thread; a waiting thread's frame lies on its stack. -/
structure Ok : Prop where
  sched : SchedOk k.sched
  heap : ∃ cells, HeapOk pool k.heapNow cells ∧ Covers (payloads kheapBase cells) k.live
  stack_live : ∀ tid < k.sched.threadCount, 0 < tid →
    ((k.sched.threads tid).stackBase, threadStackSize) ∈ k.live ∧
      (k.sched.threads tid).stackSize = threadStackSize
  stack_apart : ∀ tid < k.sched.threadCount, ∀ other < k.sched.threadCount, 0 < tid → 0 < other →
    (k.sched.threads tid).stackBase = (k.sched.threads other).stackBase → tid = other
  frame : ∀ tid, k.Waiting tid → k.stackLo img tid ≤ (k.sched.threads tid).esp ∧
    (k.sched.threads tid).esp + 20 ≤ k.stackHi img tid

/-- The block of a thread's stack. -/
theorem Ok.stack_payload (hok : k.Ok pool img) {cells : List Cell}
    (hcov : Covers (payloads kheapBase cells) k.live) {tid : Nat}
    (htid : tid < k.sched.threadCount) (hpos : 0 < tid) :
    ∃ s, ((k.sched.threads tid).stackBase, s) ∈ payloads kheapBase cells ∧
      k.stackLo img tid = (k.sched.threads tid).stackBase ∧
      k.stackHi img tid ≤ (k.sched.threads tid).stackBase + s := by
  obtain ⟨hlive, hsize⟩ := hok.stack_live tid htid hpos
  obtain ⟨s, hs, hle⟩ := hcov.payload _ hlive
  refine ⟨s, hs, if_neg (by omega), ?_⟩
  rw [stackHi, if_neg (by omega), hsize]
  simp only at hle
  omega

theorem Ok.stackHi_lt (hok : k.Ok pool img) {tid : Nat} (htid : tid < k.sched.threadCount) :
    k.stackHi img tid < 2 ^ 32 := by
  have hbase : kheapBase = 0x18000000 := rfl
  obtain ⟨cells, hheap, hcov⟩ := hok.heap
  rcases Nat.eq_zero_or_pos tid with rfl | hpos
  · have := img.stackTop_le
    rw [stackHi, if_pos rfl]
    omega
  · obtain ⟨s, hs, -, hhi⟩ := hok.stack_payload hcov htid hpos
    have hle := (payload_le hs).2
    have hspan := hheap.span_le
    have hend := hheap.end_lt
    omega

/-- The stacks of two threads do not overlap. -/
theorem Ok.stacks_disjoint (hok : k.Ok pool img) {tid other : Nat}
    (htid : tid < k.sched.threadCount) (hother : other < k.sched.threadCount) (hne : tid ≠ other) :
    k.stackHi img tid ≤ k.stackLo img other ∨ k.stackHi img other ≤ k.stackLo img tid := by
  obtain ⟨cells, hheap, hcov⟩ := hok.heap
  have himg := img.stackTop_le
  rcases Nat.eq_zero_or_pos tid with rfl | hpos
  · obtain ⟨s, hs, hlo, -⟩ := hok.stack_payload hcov hother (by omega)
    have hge := (payload_le hs).1
    left
    rw [stackHi, if_pos rfl, hlo]
    omega
  · obtain ⟨s, hs, hlo, hhi⟩ := hok.stack_payload hcov htid hpos
    rcases Nat.eq_zero_or_pos other with rfl | hpos'
    · have hge := (payload_le hs).1
      right
      rw [stackHi, if_pos rfl, hlo]
      omega
    · obtain ⟨s', hs', hlo', hhi'⟩ := hok.stack_payload hcov hother hpos'
      have hapart : (k.sched.threads tid).stackBase ≠ (k.sched.threads other).stackBase :=
        fun h => hne (hok.stack_apart tid htid other hother hpos hpos' h)
      rcases payloads_disjoint hs hs' hapart with h | h
      · exact Or.inl (by omega)
      · exact Or.inr (by omega)

/-- A waiting thread is a thread, and its frame has room below 2^32. -/
theorem Ok.frame_lt (hok : k.Ok pool img) {tid : Nat} (hwait : k.Waiting tid) :
    (k.sched.threads tid).esp + 20 < 2 ^ 32 :=
  Nat.lt_of_le_of_lt (hok.frame tid hwait).2 (hok.stackHi_lt hwait.1)

/-- A saved context is read off the thread's entry and its stack. -/
theorem savedContext_congr {tid : Nat}
    (hesp : (k'.sched.threads tid).esp = (k.sched.threads tid).esp)
    (hhi : k'.stackHi img tid = k.stackHi img tid)
    (hframe : (k.sched.threads tid).esp + 20 ≤ k.stackHi img tid)
    (hlt : (k.sched.threads tid).esp + 20 < 2 ^ 32)
    (hmem : ∀ a, (k.sched.threads tid).esp ≤ a → a < k.stackHi img tid →
      k'.sched.mem a = k.sched.mem a) :
    k'.savedContext img tid = k.savedContext img tid := by
  rw [savedContext, savedContext, hesp, hhi]
  exact switchReturn_congr _ _ hframe hlt hmem

/-! ## Reading the contexts -/

theorem contexts_current : (k.contexts img).current = k.sched.currentTid := rfl

theorem current_live (hok : SchedOk k.sched) : k.sched.currentTid < k.sched.threadCount ∧
    (k.sched.threads k.sched.currentTid).state ≠ .zombie := by
  refine ⟨hok.current_lt, ?_⟩
  rw [(hok.running_iff _ hok.current_lt).mpr rfl]
  decide

theorem ctx_running (hok : SchedOk k.sched) :
    (k.contexts img).ctx k.sched.currentTid = some (k.runningContext img) :=
  (if_pos (current_live hok)).trans (congrArg some (if_pos rfl))

theorem ctx_waiting {tid : Nat} (hwait : k.Waiting tid) :
    (k.contexts img).ctx tid = some (k.savedContext img tid) :=
  (if_pos ⟨hwait.1, by simp [hwait.2.2]⟩).trans (congrArg some (if_neg hwait.2.1))

theorem ctx_dead {tid : Nat}
    (hdead : ¬ (tid < k.sched.threadCount ∧ (k.sched.threads tid).state ≠ .zombie)) :
    (k.contexts img).ctx tid = none := if_neg hdead

/-- A thread is current, waits, or has no context. -/
theorem thread_cases (hok : SchedOk k.sched) (tid : Nat) : tid = k.sched.currentTid ∨
    k.Waiting tid ∨ (tid ≠ k.sched.currentTid ∧
      ¬ (tid < k.sched.threadCount ∧ (k.sched.threads tid).state ≠ .zombie)) := by
  by_cases heq : tid = k.sched.currentTid
  · exact Or.inl heq
  · by_cases hlt : tid < k.sched.threadCount
    · cases hs : (k.sched.threads tid).state with
      | runnable => exact Or.inr (Or.inl ⟨hlt, heq, hs⟩)
      | running => exact absurd ((hok.running_iff tid hlt).mp hs) heq
      | zombie => exact Or.inr (Or.inr ⟨heq, fun h => h.2 rfl⟩)
    · exact Or.inr (Or.inr ⟨heq, fun h => hlt h.1⟩)

end Kernel

end RoninOS.Sched
