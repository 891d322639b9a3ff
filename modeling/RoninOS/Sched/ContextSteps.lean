/-
RoninOS.Sched.ContextSteps — what each act does to the threads' contexts.

Work, the heap calls and the interrupt stub change the current thread's context
at most (`work_spec`, `heapCall_spec`); `thread_create` adds a fresh context
(`create_spec`); a switch stores the current context on its thread's stack and
loads another one (`switchTo_spec`).
-/
import RoninOS.Kheap.HeapData
import RoninOS.Sched.Contexts

namespace RoninOS.Sched

open RoninOS.Lib RoninOS.Kheap RoninOS.Mem

namespace Kernel

variable {σ : Type} {A : FrameAllocator σ} {pool : TablePool} {img : Image} {k k' : Kernel σ}

/-! ## Acts that leave the thread table alone -/

variable (img k k') in
/-- The threads are the same, and so are the bytes in use on waiting stacks. -/
structure StackKept : Prop where
  threads : ∀ tid < k.sched.threadCount, k'.sched.threads tid = k.sched.threads tid
  count : k'.sched.threadCount = k.sched.threadCount
  current : k'.sched.currentTid = k.sched.currentTid
  bytes : ∀ a, k.OnWaitingStack img a → k'.sched.mem a = k.sched.mem a

theorem StackKept.stackHi_eq (h : StackKept img k k') {tid : Nat} (htid : tid < k.sched.threadCount) :
    k'.stackHi img tid = k.stackHi img tid := by rw [stackHi, stackHi, h.threads tid htid]

theorem StackKept.stackLo_eq (h : StackKept img k k') {tid : Nat} (htid : tid < k.sched.threadCount) :
    k'.stackLo img tid = k.stackLo img tid := by rw [stackLo, stackLo, h.threads tid htid]

theorem StackKept.waiting_iff (h : StackKept img k k') (tid : Nat) :
    k'.Waiting tid ↔ k.Waiting tid := by
  rw [Waiting, Waiting, h.count, h.current]
  exact and_congr_right fun htid => by rw [h.threads tid htid]

theorem StackKept.sched_ok (h : StackKept img k k') (hok : SchedOk k.sched) : SchedOk k'.sched where
  count_le := h.count ▸ hok.count_le
  current_lt := by
    rw [h.count, h.current]
    exact hok.current_lt
  running_iff tid htid := by
    rw [h.count] at htid
    rw [h.threads tid htid, h.current]
    exact hok.running_iff tid htid
  tid_eq tid htid := by
    rw [h.count] at htid
    rw [h.threads tid htid]
    exact hok.tid_eq tid htid
  main_alive := by
    rw [h.threads 0 (Nat.lt_of_le_of_lt (Nat.zero_le _) hok.current_lt)]
    exact hok.main_alive

/-- The invariant for acts that keep the waiting stacks. -/
theorem StackKept.ok (h : StackKept img k k') (hok : k.Ok pool img)
    (hheap : ∃ cells, HeapOk pool k'.heapNow cells ∧ Covers (payloads kheapBase cells) k'.live)
    (hlive : ∀ tid < k.sched.threadCount, 0 < tid →
      ((k.sched.threads tid).stackBase, threadStackSize) ∈ k'.live) : k'.Ok pool img where
  sched := h.sched_ok hok.sched
  heap := hheap
  stack_live tid htid hpos := by
    rw [h.count] at htid
    rw [h.threads tid htid]
    exact ⟨hlive tid htid hpos, (hok.stack_live tid htid hpos).2⟩
  stack_apart tid htid other hother := by
    rw [h.count] at htid hother
    rw [h.threads tid htid, h.threads other hother]
    exact hok.stack_apart tid htid other hother
  frame tid hwait := by
    have hwait' := (h.waiting_iff tid).mp hwait
    rw [h.stackLo_eq hwait'.1, h.stackHi_eq hwait'.1, h.threads tid hwait'.1]
    exact hok.frame tid hwait'

theorem StackKept.saved (h : StackKept img k k') (hok : k.Ok pool img) {tid : Nat}
    (hwait : k.Waiting tid) : k'.savedContext img tid = k.savedContext img tid :=
  savedContext_congr (by rw [h.threads tid hwait.1]) (h.stackHi_eq hwait.1)
    (hok.frame tid hwait).2 (hok.frame_lt hwait) fun a h1 h2 => h.bytes a ⟨tid, hwait, h1, h2⟩

/-- The contexts for acts that keep the waiting stacks: only the current one can change. -/
theorem StackKept.contexts (h : StackKept img k k') (hok : k.Ok pool img) :
    (k.contexts img).next Context.returned (.work (k'.runningContext img))
      = some (k'.contexts img) := by
  rw [Coroutines.next, Option.some.injEq]
  refine Coroutines.ext (funext fun tid => ?_) h.current.symm
  simp only [contexts_current]
  rcases thread_cases hok.sched tid with rfl | hwait | ⟨hne, hdead⟩
  · rw [Function.update_self, ← h.current, ctx_running (h.sched_ok hok.sched)]
  · rw [Function.update_of_ne hwait.2.1, ctx_waiting hwait,
      ctx_waiting ((h.waiting_iff tid).mpr hwait)]
    exact congrArg some (h.saved hok hwait).symm
  · rw [Function.update_of_ne hne, ctx_dead hdead, ctx_dead]
    rw [h.count]
    rintro ⟨htid, hlive⟩
    exact hdead ⟨htid, by rwa [h.threads tid htid] at hlive⟩

/-! ## Work -/

theorem work_kept {regs : Regs} {mem : Mem}
    (hallow : k.Allowed img (.work regs mem)) :
    StackKept img k { k with regs, sched := { k.sched with mem } } where
  threads _ _ := rfl
  count := rfl
  current := rfl
  bytes a ha := by
    by_contra hne
    exact (hallow a hne).1 ha

theorem work_ok {regs : Regs} {mem : Mem} (hok : k.Ok pool img)
    (hallow : k.Allowed img (.work regs mem)) :
    Ok pool img { k with regs, sched := { k.sched with mem } } := by
  refine (work_kept hallow).ok hok ?_ fun tid htid hpos => (hok.stack_live tid htid hpos).1
  obtain ⟨cells, hheap, hcov⟩ := hok.heap
  refine ⟨cells, hheap.stores (m := mem) fun a h1 h2 hout => ?_, hcov⟩
  by_contra hne
  rcases (hallow a hne).2 with h | h | ⟨x, hx, hlo, hhi⟩
  · omega
  · exact absurd h2 (Nat.not_lt.mpr h)
  · obtain ⟨s, hs, hle⟩ := hcov.payload x hx
    have := hout _ hs
    simp only at this
    omega

/-! ## Stores on the current stack -/

/-- Stores on the current stack meet neither the block list nor a waiting stack. -/
theorem Ok.own_stack (hok : k.Ok pool img) {mem : Mem}
    (hmem : ∀ a, (a < k.stackLo img k.sched.currentTid ∨ k.stackHi img k.sched.currentTid ≤ a) →
      mem a = k.sched.mem a) :
    (∃ cells, HeapOk pool { k.heapNow with mem } cells ∧ Covers (payloads kheapBase cells) k.live) ∧
      ∀ a, k.OnWaitingStack img a → mem a = k.sched.mem a := by
  constructor
  · obtain ⟨cells, hheap, hcov⟩ := hok.heap
    refine ⟨cells, hheap.stores fun a h1 h2 hout => hmem a ?_, hcov⟩
    -- the stack lies below the heap or in a payload
    rcases Nat.eq_zero_or_pos k.sched.currentTid with hzero | hpos
    · have himg := img.stackTop_le
      rw [stackHi, if_pos hzero]
      omega
    · obtain ⟨s, hs, hlo, hhi⟩ := hok.stack_payload hcov hok.sched.current_lt hpos
      have := hout _ hs
      simp only at this
      omega
  · rintro a ⟨tid, hwait, h1, h2⟩
    have hframe := hok.frame tid hwait
    refine hmem a ?_
    rcases hok.stacks_disjoint hwait.1 hok.sched.current_lt hwait.2.1 with h | h <;> omega

/-! ## Heap calls -/

variable (img k k') in
/-- No byte of a stack has changed, in use or not. -/
def StacksSame : Prop :=
  ∀ tid < k.sched.threadCount, ∀ a, k.stackLo img tid ≤ a → a < k.stackHi img tid →
    k'.sched.mem a = k.sched.mem a

theorem StacksSame.kept (h : StacksSame img k k') (hok : k.Ok pool img) {a : Nat}
    (ha : k.OnWaitingStack img a) : k'.sched.mem a = k.sched.mem a := by
  obtain ⟨tid, hwait, h1, h2⟩ := ha
  exact h tid hwait.1 a (Nat.le_trans (hok.frame tid hwait).1 h1) h2

section HeapCalls

variable {h' : Heap σ} {live' : List (Nat × Nat)} {cells cells' : List Cell}

variable (k cells cells' h') in
/-- What the calls of `heap.c` have in common: the payloads that the stacks lie
in stay, and the memory changes in no kept payload and not below the heap. -/
structure HeapCall : Prop where
  evolves : Evolves k.sched.mem h'.mem cells cells'
  below : SameBelow kheapBase k.sched.mem h'.mem
  payload : ∀ tid < k.sched.threadCount, 0 < tid → ∀ s,
    ((k.sched.threads tid).stackBase, s) ∈ payloads kheapBase cells →
    ((k.sched.threads tid).stackBase, s) ∈ payloads kheapBase cells'

/-- A heap call keeps every stack, the current one too. -/
theorem HeapCall.stacks (h : HeapCall k h' cells cells') (hok : k.Ok pool img)
    (hcov : Covers (payloads kheapBase cells) k.live) :
    StacksSame img k (k.withHeap h' live') := by
  intro tid htid a h1 h2
  rcases Nat.eq_zero_or_pos tid with rfl | hpos
  · have himg := img.stackTop_le
    rw [stackHi, if_pos rfl] at h2
    exact h.below a (by omega)
  · obtain ⟨s, hs, hlo, hhi⟩ := hok.stack_payload hcov htid hpos
    exact h.evolves.same _ hs (h.payload tid htid hpos s hs) a (by simp only; omega)
      (by simp only; omega)

theorem HeapCall.spec (h : HeapCall k h' cells cells') (hok : k.Ok pool img)
    (hcov : Covers (payloads kheapBase cells) k.live) (hheap' : HeapOk pool h' cells')
    (hcov' : Covers (payloads kheapBase cells') live')
    (hlive : ∀ tid < k.sched.threadCount, 0 < tid →
      ((k.sched.threads tid).stackBase, threadStackSize) ∈ live') :
    (k.withHeap h' live').Ok pool img ∧ StackKept img k (k.withHeap h' live') ∧
      StacksSame img k (k.withHeap h' live') := by
  have hsame : StacksSame img k (k.withHeap h' live') := h.stacks hok hcov
  have hkept : StackKept img k (k.withHeap h' live') :=
    ⟨fun _ _ => rfl, rfl, rfl, fun _ ha => hsame.kept hok ha⟩
  exact ⟨hkept.ok hok ⟨cells', hheap', hcov'⟩ hlive, hkept, hsame⟩

end HeapCalls

theorem mem_allocated {live : List (Nat × Nat)} {x : Nat × Nat} (hx : x ∈ live) (p size : Nat) :
    x ∈ allocated live p size := by
  rw [allocated]
  split
  · exact hx
  · exact List.mem_cons_of_mem _ hx

theorem kmalloc_spec (hok : k.Ok pool img) {fuel size p : Nat} {h' : Heap σ}
    (hsize : size ≤ kheapMaxSize) (hrun : Kheap.kmalloc A pool fuel k.heapNow size = some (p, h')) :
    (k.withHeap h' (allocated k.live p size)).Ok pool img ∧
      StackKept img k (k.withHeap h' (allocated k.live p size)) ∧
      StacksSame img k (k.withHeap h' (allocated k.live p size)) := by
  have hmax : kheapMaxSize = 0x1000000 := rfl
  obtain ⟨cells, hheap, hcov⟩ := hok.heap
  obtain ⟨cells', hheap', halloc, hev⟩ := kmalloc_ok hheap (by omega) hrun
  exact HeapCall.spec ⟨hev, kmalloc_below hheap (by omega) hrun, fun _ _ _ _ hs => halloc.mem hs⟩
    hok hcov hheap' (hcov.allocates (payloads_nodup _ _) halloc)
    fun tid htid hpos => mem_allocated (hok.stack_live tid htid hpos).1 p size

theorem kfree_spec (hok : k.Ok pool img) {x : Nat × Nat} (hx : k.Owned x) :
    (k.withHeap (Kheap.kfree k.heapNow x.1) (k.live.erase x)).Ok pool img ∧
      StackKept img k (k.withHeap (Kheap.kfree k.heapNow x.1) (k.live.erase x)) ∧
      StacksSame img k (k.withHeap (Kheap.kfree k.heapNow x.1) (k.live.erase x)) := by
  obtain ⟨hlive, hown⟩ := hx
  obtain ⟨cells, hheap, hcov⟩ := hok.heap
  obtain ⟨s, hs, -⟩ := hcov.payload x hlive
  obtain ⟨cells', hheap', hrel, hev⟩ := kfree_ok hheap hs
  refine HeapCall.spec ⟨hev, kfree_below hheap hs, fun tid htid hpos _ hs =>
    hrel.mem hs (hown tid htid hpos).symm⟩ hok hcov hheap'
    (hcov.releases (payloads_nodup _ _) hlive hrel) fun tid htid hpos => ?_
  exact (mem_erase_key hcov.nodup hlive).mpr
    ⟨(hok.stack_live tid htid hpos).1, (hown tid htid hpos).symm⟩

theorem krealloc_spec (hok : k.Ok pool img) {fuel size p : Nat} {x : Nat × Nat} {h' : Heap σ}
    (hx : k.Owned x) (hsize : size ≤ kheapMaxSize)
    (hrun : Kheap.krealloc A pool fuel k.heapNow x.1 size = some (p, h')) :
    (k.withHeap h' (reallocated k.live x p size)).Ok pool img ∧
      StackKept img k (k.withHeap h' (reallocated k.live x p size)) ∧
      StacksSame img k (k.withHeap h' (reallocated k.live x p size)) := by
  have hmax : kheapMaxSize = 0x1000000 := rfl
  obtain ⟨hlive, hown⟩ := hx
  obtain ⟨cells, hheap, hcov⟩ := hok.heap
  obtain ⟨s, hs, -⟩ := hcov.payload x hlive
  obtain ⟨cells', hheap', hre, hev, -⟩ := krealloc_ok hheap hs (by omega) hrun
  refine HeapCall.spec ⟨hev, krealloc_below hheap hs (by omega) hrun, fun tid htid hpos _ hs =>
    hre.mem hs (hown tid htid hpos).symm⟩ hok hcov hheap'
    (hcov.reallocates (payloads_nodup _ _) hlive hre) fun tid htid hpos => ?_
  have hother := (mem_erase_key hcov.nodup hlive).mpr
    ⟨(hok.stack_live tid htid hpos).1, (hown tid htid hpos).symm⟩
  rw [reallocated]
  split
  · exact hother
  · split
    · exact (hok.stack_live tid htid hpos).1
    · exact List.mem_cons_of_mem _ hother

/-! ## Threads created -/

variable (img) in
/-- The context of a thread that has not run: `thread_bootstrap`, with zeros in
the registers and an empty stack that ends at `top`. -/
def freshContext (top : Nat) : Context where
  ebp := 0
  ebx := 0
  esi := 0
  edi := 0
  esp := UInt32.ofNat top
  eip := img.threadBootstrap
  stack := []

/-- The words that `thread_create` pushes. -/
theorem threadCreate_eq (bootstrap arg : Nat) (name : Option CString) {entry stack : Nat}
    {s : Scheduler} (hentry : entry ≠ 0) (hroom : s.threadCount < threadMax) (hstack : stack ≠ 0)
    (hfit : stack + 4096 < 2 ^ 32) :
    ∃ pushed, pushed = [bootstrap, 0, 0, 0, 0].foldl pushWord (s.mem, stack + 4096) ∧
    threadCreate bootstrap name entry arg stack s = (some s.threadCount, { s with
      threads := Function.update s.threads s.threadCount
        { esp := pushed.2, stackBase := stack, stackSize := threadStackSize, state := .runnable
          name := name.getD ⟨ascii "thread", by decide⟩, tid := s.threadCount, entry, arg }
      mem := pushed.1
      threadCount := s.threadCount + 1 }) := by
  refine ⟨_, rfl, ?_⟩
  have htop : add32 stack threadStackSize = stack + 4096 := add32_of_lt hfit
  simp [threadCreate, hentry, Nat.not_le.mpr hroom, hstack, htop, Scheduler.modify]

variable (img k k') in
/-- One more thread, which waits in a fresh context; the others are as they were. -/
structure Spawned : Prop where
  threads : ∀ tid < k.sched.threadCount, k'.sched.threads tid = k.sched.threads tid
  count : k'.sched.threadCount = k.sched.threadCount + 1
  current : k'.sched.currentTid = k.sched.currentTid
  waiting : (k'.sched.threads k.sched.threadCount).state = .runnable
  fresh : k'.savedContext img k.sched.threadCount
    = freshContext img (k'.stackHi img k.sched.threadCount)
  bytes : ∀ a, k.OnWaitingStack img a → k'.sched.mem a = k.sched.mem a

theorem Spawned.waiting_iff (h : Spawned img k k') (hok : SchedOk k.sched) (tid : Nat) :
    k'.Waiting tid ↔ k.Waiting tid ∨ tid = k.sched.threadCount := by
  have hcurrent := hok.current_lt
  rw [Waiting, Waiting, h.count, h.current]
  constructor
  · rintro ⟨hlt, hne, hstate⟩
    rcases Nat.lt_succ_iff_lt_or_eq.mp hlt with hlt | rfl
    · rw [h.threads tid hlt] at hstate
      exact Or.inl ⟨hlt, hne, hstate⟩
    · exact Or.inr rfl
  · rintro (⟨hlt, hne, hstate⟩ | rfl)
    · refine ⟨by omega, hne, ?_⟩
      rwa [h.threads tid hlt]
    · exact ⟨by omega, by omega, h.waiting⟩

/-- `thread_create` with a stack that `kmalloc` returned and no other thread has. -/
theorem spawn_spec (hok : k.Ok pool img) (name : Option CString) (arg : Nat) {entry stack : Nat}
    (hlive : (stack, threadStackSize) ∈ k.live) (hstack : stack ≠ 0)
    (hfresh : ∀ tid < k.sched.threadCount, 0 < tid → (k.sched.threads tid).stackBase ≠ stack)
    (hentry : entry ≠ 0) (hroom : k.sched.threadCount < threadMax) :
    let r := threadCreate img.threadBootstrap.toNat name entry arg stack k.sched
    r.1 = some k.sched.threadCount ∧ Ok pool img { k with sched := r.2 } ∧
      Spawned img k { k with sched := r.2 } ∧ StacksSame img k { k with sched := r.2 } := by
  have hsize : threadStackSize = 4096 := rfl
  have hbase : kheapBase = 0x18000000 := rfl
  have hcurrent := hok.sched.current_lt
  obtain ⟨cells, hheap, hcov⟩ := hok.heap
  obtain ⟨s, hs, hle⟩ := hcov.payload _ hlive
  simp only [hsize] at hle
  have hs1 := (payload_le hs).1
  have hs2 := (payload_le hs).2
  have hspan := hheap.span_le
  have hend := hheap.end_lt
  have hfit : stack + 4096 < 2 ^ 32 := by omega
  obtain ⟨pushed, hpushed, heq⟩ := threadCreate_eq img.threadBootstrap.toNat arg name hentry hroom hstack hfit
  have hpush := foldl_pushWord [img.threadBootstrap.toNat, 0, 0, 0, 0] k.sched.mem (stack + 4096)
    (by simp only [List.length_cons, List.length_nil]; omega) hfit
  have hword := ld32_foldl_pushWord [img.threadBootstrap.toNat, 0, 0, 0, 0] k.sched.mem
    (stack + 4096) (by simp only [List.length_cons, List.length_nil]; omega) hfit
  rw [← hpushed] at hpush hword
  simp only [List.length_cons, List.length_nil, Nat.zero_add, Nat.reduceAdd, Nat.reduceMul] at hpush
  -- the words lie in the new block, so they are on no other stack
  have hstacks : ∀ tid < k.sched.threadCount, ∀ a, k.stackLo img tid ≤ a → a < k.stackHi img tid →
      pushed.1 a = k.sched.mem a := by
    intro tid htid a h1 h2
    refine hpush.2 a ?_
    rcases Nat.eq_zero_or_pos tid with rfl | hpos
    · have himg := img.stackTop_le
      rw [stackHi, if_pos rfl] at h2
      omega
    · obtain ⟨t, ht, hlo, hhi⟩ := hok.stack_payload hcov htid hpos
      rcases payloads_disjoint ht hs (hfresh tid htid hpos) with h | h <;> omega
  have hchange := threadCreate_change img.threadBootstrap.toNat name entry arg stack k.sched
  simp only
  rw [heq] at hchange ⊢
  have hspawned : Spawned img k { k with sched :=
      { k.sched with
        threads := Function.update k.sched.threads k.sched.threadCount
          { esp := pushed.2, stackBase := stack, stackSize := threadStackSize, state := .runnable
            name := name.getD ⟨ascii "thread", by decide⟩, tid := k.sched.threadCount, entry, arg }
        mem := pushed.1
        threadCount := k.sched.threadCount + 1 } } :=
    { threads := fun tid htid => Function.update_of_ne (by omega) _ _
      count := rfl
      current := rfl
      waiting := by simp
      fresh := by
        have hzero : ∀ i, i < 4 → ld32 pushed.1 (stack + 4076 + 4 * i) = 0 := by
          intro i hi
          have h := hword (4 - i) (by simp only [List.length_cons, List.length_nil]; omega)
          obtain rfl | rfl | rfl | rfl : i = 0 ∨ i = 1 ∨ i = 2 ∨ i = 3 := by omega
          all_goals exact h (by simp)
        have hboot : ld32 pushed.1 (stack + 4076 + 16) = img.threadBootstrap.toNat :=
          hword 0 (by simp) img.threadBootstrap.toNat_lt
        have hesp : pushed.2 = stack + 4076 := by omega
        have hsp : (UInt32.ofNat (stack + 4076 + 20)).toNat = stack + 4096 :=
          UInt32.toNat_ofNat_of_lt' (by omega)
        rw [savedContext, stackHi, if_neg (by omega)]
        simp only [Function.update_self, hesp, hsize]
        rw [switchReturn_eq _ (by omega)]
        simp only [Regs.context, hsp, Nat.sub_self, hboot, hzero 0 (by decide),
          hzero 1 (by decide), hzero 2 (by decide), hzero 3 (by decide), UInt32.ofNat_toNat]
        rfl
      bytes := by
        rintro a ⟨tid, hwait, h1, h2⟩
        exact hstacks tid hwait.1 a (Nat.le_trans (hok.frame tid hwait).1 h1) h2 }
  refine ⟨rfl, ⟨hchange.ok hok.sched, ?_, ?_, ?_, ?_⟩, hspawned, hstacks⟩
  · refine ⟨cells, hheap.stores (m := pushed.1) fun a h1 h2 hout => hpush.2 a ?_, hcov⟩
    have := hout _ hs
    simp only at this
    omega
  · intro tid htid hpos
    by_cases hnew : tid = k.sched.threadCount
    · subst hnew
      simp only [Function.update_self]
      exact ⟨hlive, trivial⟩
    · simp only [Function.update_of_ne hnew]
      exact hok.stack_live tid (by simp only at htid; omega) hpos
  · intro tid htid other hother hpos hpos' hsame
    simp only at htid hother
    by_cases hnew : tid = k.sched.threadCount
    · by_cases hnew' : other = k.sched.threadCount
      · omega
      · subst hnew
        simp only [Function.update_self, Function.update_of_ne hnew'] at hsame
        exact absurd hsame.symm (hfresh other (by omega) hpos')
    · by_cases hnew' : other = k.sched.threadCount
      · subst hnew'
        simp only [Function.update_self, Function.update_of_ne hnew] at hsame
        exact absurd hsame (hfresh tid (by omega) hpos)
      · simp only [Function.update_of_ne hnew, Function.update_of_ne hnew'] at hsame
        exact hok.stack_apart tid (by omega) other (by omega) hpos hpos' hsame
  · intro tid hwait
    rcases (hspawned.waiting_iff hok.sched tid).mp hwait with hwait | rfl
    · have hne : tid ≠ k.sched.threadCount := Nat.ne_of_lt hwait.1
      have hframe := hok.frame tid hwait
      rw [stackLo, stackHi] at hframe ⊢
      simp only [Function.update_of_ne hne]
      exact hframe
    · rw [stackLo, stackHi, if_neg (by omega), if_neg (by omega)]
      simp only [Function.update_self]
      omega

/-! ## `thread_create` -/

theorem Ok.withRegs (hok : k.Ok pool img) (regs : Regs) : Ok pool img { k with regs } :=
  ⟨hok.sched, hok.heap, hok.stack_live, hok.stack_apart, hok.frame⟩

theorem StackKept.withRegs (h : StackKept img k k') (regs : Regs) :
    StackKept img k { k' with regs } := ⟨h.threads, h.count, h.current, h.bytes⟩

theorem Spawned.withRegs (h : Spawned img k k') (regs : Regs) : Spawned img k { k' with regs } :=
  ⟨h.threads, h.count, h.current, h.waiting, h.fresh, h.bytes⟩

theorem StackKept.refl (k : Kernel σ) : StackKept img k k :=
  ⟨fun _ _ => rfl, rfl, rfl, fun _ _ => rfl⟩

theorem StackKept.trans {k'' : Kernel σ} (h : StackKept img k k') (h' : StackKept img k' k'') :
    StackKept img k k'' where
  threads tid htid := (h'.threads tid (h.count ▸ htid)).trans (h.threads tid htid)
  count := h'.count.trans h.count
  current := h'.current.trans h.current
  bytes a ha := by
    refine (h'.bytes a ?_).trans (h.bytes a ha)
    obtain ⟨tid, hwait, h1, h2⟩ := ha
    refine ⟨tid, (h.waiting_iff tid).mpr hwait, ?_, ?_⟩
    · rwa [h.threads tid hwait.1]
    · rwa [h.stackHi_eq hwait.1]

theorem Spawned.after (h : StackKept img k k') {k'' : Kernel σ} (hspawn : Spawned img k' k'') :
    Spawned img k k'' where
  threads tid htid := (hspawn.threads tid (h.count ▸ htid)).trans (h.threads tid htid)
  count := h.count ▸ hspawn.count
  current := hspawn.current.trans h.current
  waiting := h.count ▸ hspawn.waiting
  fresh := h.count ▸ hspawn.fresh
  bytes a ha := by
    refine (hspawn.bytes a ?_).trans (h.bytes a ha)
    obtain ⟨tid, hwait, h1, h2⟩ := ha
    refine ⟨tid, (h.waiting_iff tid).mpr hwait, ?_, ?_⟩
    · rwa [h.threads tid hwait.1]
    · rwa [h.stackHi_eq hwait.1]

/-- The contexts after a thread was created. -/
theorem Spawned.contexts (h : Spawned img k k') (hok : k.Ok pool img) (hok' : SchedOk k'.sched) :
    [Move.spawn k.sched.threadCount (freshContext img (k'.stackHi img k.sched.threadCount)),
      .work (k'.runningContext img)].foldlM (Coroutines.next Context.returned) (k.contexts img)
      = some (k'.contexts img) := by
  have hcurrent := hok.sched.current_lt
  have hnew : (k.contexts img).ctx k.sched.threadCount = none := ctx_dead fun hlive => by omega
  rw [List.foldlM_cons, Coroutines.next, hnew, if_pos (by simp), Option.bind_eq_bind,
    Option.bind_some, List.foldlM_cons, Coroutines.next, Option.bind_eq_bind, Option.bind_some,
    List.foldlM_nil, Option.pure_def, Option.some.injEq]
  refine Coroutines.ext (funext fun tid => ?_) h.current.symm
  simp only [contexts_current]
  rcases thread_cases hok.sched tid with rfl | hwait | ⟨hne, hdead⟩
  · rw [Function.update_self, ← h.current, ctx_running hok']
  · have hwait' := (h.waiting_iff hok.sched tid).mpr (Or.inl hwait)
    have hsame : k'.stackHi img tid = k.stackHi img tid := by
      rw [stackHi, stackHi, h.threads tid hwait.1]
    rw [Function.update_of_ne hwait.2.1, Function.update_of_ne (Nat.ne_of_lt hwait.1),
      ctx_waiting hwait, ctx_waiting hwait']
    exact congrArg some (savedContext_congr (by rw [h.threads tid hwait.1]) hsame
      (hok.frame tid hwait).2 (hok.frame_lt hwait)
      fun a h1 h2 => h.bytes a ⟨tid, hwait, h1, h2⟩).symm
  · rw [Function.update_of_ne hne]
    by_cases htid : tid = k.sched.threadCount
    · subst htid
      rw [Function.update_self, ctx_waiting ((h.waiting_iff hok.sched _).mpr (Or.inr rfl)), h.fresh]
    · rw [Function.update_of_ne htid, ctx_dead hdead, ctx_dead]
      rw [h.count]
      rintro ⟨hlt, hlive⟩
      refine hdead ⟨by omega, ?_⟩
      rwa [h.threads tid (by omega)] at hlive

/-- Without a stack `thread_create` changes the entry behind the last thread only. -/
theorem refused_spec (hok : k.Ok pool img) (bootstrap : Nat) (name : Option CString)
    (entry arg : Nat) :
    Ok pool img { k with sched := (threadCreate bootstrap name entry arg 0 k.sched).2 } ∧
      StackKept img k { k with sched := (threadCreate bootstrap name entry arg 0 k.sched).2 } ∧
      StacksSame img k { k with sched := (threadCreate bootstrap name entry arg 0 k.sched).2 } := by
  have hsched : ∃ f, (threadCreate bootstrap name entry arg 0 k.sched).2 = k.sched ∨
      (threadCreate bootstrap name entry arg 0 k.sched).2 = k.sched.modify k.sched.threadCount f := by
    refine ⟨fun t => { t with stackSize := threadStackSize, stackBase := 0 }, ?_⟩
    rw [threadCreate]
    split
    · exact Or.inl rfl
    · split
      · exact Or.inl rfl
      · exact Or.inr rfl
  obtain ⟨f, hsched⟩ := hsched
  have hkept : StackKept img k
      { k with sched := (threadCreate bootstrap name entry arg 0 k.sched).2 } := by
    rcases hsched with h | h
    · rw [h]
      exact StackKept.refl k
    · rw [h]
      exact ⟨fun tid htid => Function.update_of_ne (Nat.ne_of_lt htid) _ _, rfl, rfl, fun _ _ => rfl⟩
  have hmem : (threadCreate bootstrap name entry arg 0 k.sched).2.mem = k.sched.mem := by
    rcases hsched with h | h
    · rw [h]
    · rw [h]
      rfl
  refine ⟨hkept.ok hok ?_ fun tid htid hpos => (hok.stack_live tid htid hpos).1, hkept,
    fun _ _ a _ _ => congrFun hmem a⟩
  obtain ⟨cells, hheap, hcov⟩ := hok.heap
  refine ⟨cells, ?_, hcov⟩
  rw [heapNow, hmem]
  exact hheap

/-- `thread_create` keeps all stacks; where it succeeds it adds a thread. -/
theorem create_spec (hok : k.Ok pool img) {fuel entry arg : Nat} {name : Option CString}
    (hrun : k.create A pool img fuel name entry arg = some k') :
    k'.Ok pool img ∧ (StackKept img k k' ∨ Spawned img k k') ∧ StacksSame img k k' := by
  rw [create] at hrun
  split at hrun
  · obtain rfl := Option.some.inj hrun
    exact ⟨hok.withRegs _, Or.inl ((StackKept.refl k).withRegs _), fun _ _ _ _ _ => rfl⟩
  · rename_i hcond
    obtain ⟨hentry, hroom⟩ := not_or.mp hcond
    rw [Option.map_eq_some_iff] at hrun
    obtain ⟨⟨stack, h⟩, hmalloc, hrun⟩ := hrun
    have hmax : threadStackSize ≤ kheapMaxSize := by decide
    obtain ⟨hok1, hkept, hsame⟩ := kmalloc_spec hok hmax hmalloc
    obtain rfl := hrun
    by_cases hstack : stack = 0
    · subst hstack
      obtain ⟨hok2, hkept', hsame'⟩ := refused_spec hok1 img.threadBootstrap.toNat name entry arg
      exact ⟨hok2.withRegs _, Or.inl ((hkept.trans hkept').withRegs _), fun tid htid a h1 h2 =>
        (hsame' tid htid a h1 h2).trans (hsame tid htid a h1 h2)⟩
    · have hlive : (stack, threadStackSize) ∈ allocated k.live stack threadStackSize := by
        rw [allocated, if_neg hstack]
        exact List.mem_cons_self ..
      have hfresh : ∀ tid < k.sched.threadCount, 0 < tid →
          (k.sched.threads tid).stackBase ≠ stack := by
        intro tid htid hpos heq
        obtain ⟨cells, -, hcov⟩ := hok1.heap
        have hnodup := hcov.nodup
        simp only [withHeap, allocated, if_neg hstack, List.map_cons, List.nodup_cons] at hnodup
        exact hnodup.1 (List.mem_map.mpr ⟨_, (hok.stack_live tid htid hpos).1, heq⟩)
      obtain ⟨hret, hok2, hspawn, hsame'⟩ := spawn_spec hok1 name arg hlive hstack hfresh hentry
        (Nat.not_le.mp hroom)
      exact ⟨hok2.withRegs _, Or.inr ((Spawned.after hkept hspawn).withRegs _),
        fun tid htid a h1 h2 => (hsame' tid htid a h1 h2).trans (hsame tid htid a h1 h2)⟩

end Kernel

end RoninOS.Sched
