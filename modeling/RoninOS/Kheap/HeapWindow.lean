/-
RoninOS.Kheap.HeapWindow — the heap stays out of the memory below its window.

Every header of the block list lies in the window, and so does every payload.
So whatever lies below `KHEAP_BASE`, such as the kernel image and the boot
stack in it, has the same bytes after a call as before.
-/
import RoninOS.Kheap.HeapTheorems

namespace RoninOS.Kheap

open RoninOS.Lib RoninOS.Mem

/-- The two memories have the same bytes below `a`. -/
def SameBelow (a : Nat) (m m' : Mem) : Prop := ∀ x < a, m' x = m x

theorem SameBelow.refl (a : Nat) (m : Mem) : SameBelow a m m := fun _ _ => rfl

theorem SameBelow.trans {a : Nat} {m m' m'' : Mem} (h : SameBelow a m m')
    (h' : SameBelow a m' m'') : SameBelow a m m'' :=
  fun x hx => (h' x hx).trans (h x hx)

/-- Two payloads share no byte. -/
theorem payloads_disjoint {base p q s t : Nat} {cells : List Cell}
    (hp : (p, s) ∈ payloads base cells) (hq : (q, t) ∈ payloads base cells) (hne : p ≠ q) :
    p + s ≤ q ∨ q + t ≤ p := by
  have hpair : (payloads base cells).Pairwise fun x y => x.1 + x.2 ≤ y.1 ∨ y.1 + y.2 ≤ x.1 :=
    (payloads_pairwise cells base).1.imp fun {x y} h => Or.inl (by omega)
  have : Std.Symm fun x y : Nat × Nat => x.1 + x.2 ≤ y.1 ∨ y.1 + y.2 ≤ x.1 := ⟨fun _ _ => Or.symm⟩
  exact hpair.forall hp hq fun h => hne (Prod.mk.inj h).1

/-- Stores outside the window and inside payloads leave the block list alone. -/
theorem HeapOk.stores {σ : Type} {pool : TablePool} {h : Heap σ} {cells : List Cell}
    (hok : HeapOk pool h cells) {m : Mem}
    (hm : ∀ a, kheapBase ≤ a → a < h.end →
      (∀ y ∈ payloads kheapBase cells, a < y.1 ∨ y.1 + y.2 ≤ a) → m a = h.mem a) :
    HeapOk pool { h with mem := m } cells := by
  refine hok.withMem ⟨?_, hok.layout.aligned, hok.layout.base_aligned, hok.layout.base_pos,
    hok.layout.fits⟩ hok.nonempty hok.span_le
  refine hok.layout.linked.congr_cells fun pre c post hcut => headerAt_congr fun k hk => ?_
  have hspan := hok.span_le
  rw [hcut, span_append, span_cons, blockOverhead] at hspan
  refine hm _ (by omega) (by omega) fun y hy => ?_
  rcases payload_apart (p := y.1) (s := y.2) hy hcut with hbefore | hbehind | ⟨hin, -, -⟩ <;> omega

/-! ## Stores into headers -/

section Layouts

variable {m : Mem} {base : Nat} {pre post : List Cell} {c d : Cell}

theorem offHeader_below {x b : Nat} (hx : x < base) (hb : base ≤ b) : OffHeader b x :=
  Or.inl (Nat.lt_of_lt_of_le hx hb)

theorem base_le_link {rest : Nat} (hrest : base ≤ rest) (hne : link rest post 0 ≠ 0) :
    base ≤ link rest post 0 := by
  rcases link_cases rest post with h | h
  · exact absurd h hne
  · rwa [h]

theorem setFree_below {b : Nat} (m : Mem) (v : Nat) (hb : base ≤ b) :
    SameBelow base m (setFree m b v) :=
  fun _ hx => setFree_off (offHeader_below hx hb)

theorem Layout.splitBlock_below {wanted : Nat} (h : Layout m base (pre ++ c :: post))
    (hwanted : wanted % 16 = 0) (hbig : wanted + 32 < c.size) :
    SameBelow base m (Kheap.splitBlock m (base + span pre) wanted) := by
  obtain ⟨hb, hsize, hfit⟩ := h.cell_addr
  have hlink := link_cases (base + span pre + 16 + c.size) post
  intro x hx
  exact splitBlock_off h.headerAt_cell hb hwanted hbig (by omega) (by omega)
    (offHeader_below hx (Nat.le_add_right _ _)) (offHeader_below hx (by omega))
    fun hne => offHeader_below hx (base_le_link (by omega) hne)

theorem Layout.mergeNext_below (h : Layout m base (pre ++ c :: d :: post)) (hfree : d.free = true) :
    SameBelow base m (Kheap.mergeNext m (base + span pre)) := by
  obtain ⟨hb, hsize, hfit⟩ := h.cell_addr
  rw [span_cons, blockOverhead] at hfit
  have hcut : pre ++ c :: d :: post = (pre ++ [c]) ++ d :: post := by simp
  have hnext : base + span (pre ++ [c]) = base + span pre + 16 + c.size := by
    simp only [span_append, span_cons, span_nil, blockOverhead]
    omega
  have hhead := h.headerAt_cell
  have hhead' := (hcut ▸ h).headerAt_cell
  rw [hnext] at hhead'
  simp only [link] at hhead
  have hlink := link_cases (base + span pre + 16 + c.size + 16 + d.size) post
  intro x hx
  exact mergeNext_off hhead hhead' (flag_ne_zero.mpr hfree) hb rfl (by omega) (by omega)
    (offHeader_below hx (Nat.le_add_right _ _))
    fun hne => offHeader_below hx (base_le_link (by omega) hne)

/-- `merge_next` of any block. -/
theorem Layout.mergeNext_below_all (h : Layout m base (pre ++ c :: post)) :
    SameBelow base m (Kheap.mergeNext m (base + span pre)) := by
  cases post with
  | nil =>
      rw [h.mergeNext_used (by simp)]
      exact SameBelow.refl base m
  | cons d es =>
      cases hd : d.free with
      | true => exact h.mergeNext_below hd
      | false =>
          rw [h.mergeNext_used (by rintro e fs heq; obtain ⟨rfl, -⟩ := List.cons.inj heq; exact hd)]
          exact SameBelow.refl base m

end Layouts

/-! ## Calls -/

section Calls

variable {σ : Type} {A : FrameAllocator σ} {pool : TablePool} {h h' : Heap σ} {cells : List Cell}

theorem heapExpand_below {fuel minBytes : Nat} {ret : Int} (hok : HeapOk pool h cells)
    (hfit : minBytes + 4111 < 2 ^ 32) (hexp : heapExpand A pool fuel h minBytes = some (ret, h')) :
    SameBelow kheapBase h.mem h'.mem := by
  rw [heapExpand, needed_eq hfit, Option.bind_eq_some_iff] at hexp
  obtain ⟨⟨r, h1⟩, hpages, hrest⟩ := hexp
  obtain ⟨-, hend0, -, heq1⟩ := expandPages_ok hok.pages hpages
  have hmem1 : h1.mem = h.mem := by rw [heq1]
  have hhead1 : h1.head = kheapBase := by
    rw [heq1]
    exact hok.head_eq
  simp only at hrest
  by_cases hr : r = 0
  · rw [if_neg (by simpa using hr), Option.map_eq_some_iff, hhead1, hmem1] at hrest
    obtain ⟨tail, hlast, hrest⟩ := hrest
    obtain ⟨mid, c, rfl, rfl⟩ :=
      lastBlock_spec hok.layout.linked hok.layout.base_pos hok.nonempty hlast
    obtain ⟨hb, hc, hfitc⟩ := hok.layout.cell_addr
    have hbase : kheapBase = 0x18000000 := rfl
    have hov : blockOverhead = 16 := rfl
    rw [if_neg (by omega), hok.layout.headerAt_cell] at hrest
    split at hrest
    · obtain ⟨-, rfl⟩ := Prod.mk.inj hrest
      exact fun x hx => setSize_off (offHeader_below hx (Nat.le_add_right _ _))
    · rw [add32_of_lt (by omega : kheapBase + span mid + blockOverhead < 2 ^ 32),
        add32_of_lt (by simp only; omega)] at hrest
      obtain ⟨-, rfl⟩ := Prod.mk.inj hrest
      intro x hx
      have hnb : OffHeader (kheapBase + span mid + blockOverhead + c.size) x :=
        offHeader_below hx (by omega)
      have htail : OffHeader (kheapBase + span mid) x := offHeader_below hx (Nat.le_add_right _ _)
      simp only
      rw [setNext_off htail, setPrev_off hnb, setNext_off hnb, setFree_off hnb, setSize_off hnb]
  · rw [if_pos hr, Option.some.injEq, Prod.mk.injEq] at hrest
    obtain ⟨-, rfl⟩ := hrest
    exact hmem1 ▸ SameBelow.refl _ _

theorem kmallocLoop_below {fuel wanted : Nat} (hwanted : wanted % 16 = 0)
    (hfit : wanted + 4111 < 2 ^ 32) : ∀ {retries : Nat} {h h' : Heap σ} {cells : List Cell} {p : Nat},
    HeapOk pool h cells → kmallocLoop A pool fuel wanted retries h = some (p, h') →
    SameBelow kheapBase h.mem h'.mem
  | 0, _, _, _, _, _, hrun => by simp [kmallocLoop] at hrun
  | retries + 1, h, h', cells, p, hok, hrun => by
      have hbase : kheapBase = 0x18000000 := rfl
      rw [kmallocLoop, Option.bind_eq_some_iff] at hrun
      obtain ⟨cur, hscan, hrun⟩ := hrun
      rw [hok.head_eq] at hscan
      rcases findFree_spec hok.layout hok.nonempty hscan with
        ⟨rfl, -⟩ | ⟨mid, c, post, rfl, rfl, hc, -⟩
      · rw [if_neg (by simp), Option.bind_eq_some_iff] at hrun
        obtain ⟨⟨ret, h1⟩, hexp, hrun⟩ := hrun
        obtain ⟨cells1, hok1, -⟩ := heapExpand_ok hok hwanted hfit hexp
        have hgrow := heapExpand_below hok hfit hexp
        simp only at hrun
        split at hrun
        · exact hgrow.trans (kmallocLoop_below hwanted hfit hok1 hrun)
        · obtain ⟨-, rfl⟩ := Prod.mk.inj (Option.some.inj hrun)
          exact hgrow
      · rw [if_pos (by omega), Option.some.injEq, Prod.mk.injEq] at hrun
        obtain ⟨-, rfl⟩ := hrun
        refine SameBelow.trans ?_ (setFree_below _ 0 (Nat.le_add_right kheapBase (span mid)))
        by_cases hbig : wanted + 32 < c.size
        · exact hok.layout.splitBlock_below hwanted hbig
        · rw [splitBlock_small (by omega)
            (by rw [hok.layout.headerAt_cell]; simp only; omega)]
          exact SameBelow.refl _ _

theorem kmalloc_below {fuel size p : Nat} (hok : HeapOk pool h cells) (hfit : size + 4111 < 2 ^ 32)
    (hrun : kmalloc A pool fuel h size = some (p, h')) : SameBelow kheapBase h.mem h'.mem := by
  rw [kmalloc] at hrun
  split at hrun
  · obtain ⟨-, rfl⟩ := Prod.mk.inj (Option.some.inj hrun)
    exact SameBelow.refl _ _
  · rw [wanted_eq (by omega)] at hrun
    exact kmallocLoop_below (by omega) (by omega) hok hrun

theorem kfree_below {p s : Nat} (hok : HeapOk pool h cells)
    (hp : (p, s) ∈ payloads kheapBase cells) : SameBelow kheapBase h.mem (kfree h p).mem := by
  obtain ⟨pre, c, post, rfl, hfree, rfl, rfl⟩ := mem_payloads hp
  obtain ⟨-, -, hfit⟩ := hok.layout.cell_addr
  have hov : blockOverhead = 16 := rfl
  rw [kfree, if_neg (by simp [hok.ready, hov]), sub32_of_le (by omega) (by omega),
    Nat.add_sub_cancel]
  simp only
  have h1 := hok.layout.setFree true
  rw [show flag true = 1 from rfl] at h1
  have hsame : SameBelow kheapBase h.mem
      (mergeNext (setFree h.mem (kheapBase + span pre) 1) (kheapBase + span pre)) :=
    (setFree_below h.mem 1 (Nat.le_add_right _ _)).trans h1.mergeNext_below_all
  obtain ⟨size, post', hmerged, -⟩ := h1.mergeNext_freed
  generalize mergeNext (setFree h.mem (kheapBase + span pre) 1) (kheapBase + span pre) = m
    at hmerged hsame
  rw [hmerged.headerAt_cell]
  -- the backward merge
  rcases List.eq_nil_or_concat pre with rfl | ⟨pre', d, rfl⟩
  · simpa [lastAddr] using hsame
  · rw [List.concat_eq_append] at *
    rw [lastAddr_concat]
    rw [show pre' ++ [d] ++ ⟨size, true⟩ :: post' = pre' ++ d :: ⟨size, true⟩ :: post' by simp]
      at hmerged
    split
    · exact hsame.trans hmerged.mergeNext_below_all
    · exact hsame

theorem krealloc_below {fuel p s newSize q : Nat} (hok : HeapOk pool h cells)
    (hp : (p, s) ∈ payloads kheapBase cells) (hfit : newSize + 4111 < 2 ^ 32)
    (hrun : krealloc A pool fuel h p newSize = some (q, h')) :
    SameBelow kheapBase h.mem h'.mem := by
  obtain ⟨hp0, -, hsize⟩ := hok.headerAt_payload hp
  rw [krealloc, if_neg hp0] at hrun
  split at hrun
  · obtain ⟨-, rfl⟩ := Prod.mk.inj (Option.some.inj hrun)
    exact kfree_below hok hp
  · simp only [hsize] at hrun
    split at hrun
    · obtain ⟨-, rfl⟩ := Prod.mk.inj (Option.some.inj hrun)
      exact SameBelow.refl _ _
    · rw [Option.map_eq_some_iff] at hrun
      obtain ⟨⟨np, h1⟩, hmalloc, hrun⟩ := hrun
      have hbelow := kmalloc_below hok hfit hmalloc
      obtain ⟨cells1, hok1, halloc, -⟩ := kmalloc_ok hok (by omega) hmalloc
      simp only at hrun
      split at hrun
      · obtain ⟨-, rfl⟩ := Prod.mk.inj hrun
        exact hbelow
      · rename_i hlarge hnp
        obtain ⟨-, rfl⟩ := Prod.mk.inj hrun
        rcases halloc with ⟨hnp0, -⟩ | ⟨-, before, after, s', hs', hold, hnew⟩
        · exact absurd hnp0 hnp
        · obtain ⟨hmem, hold'⟩ := fresh_payload hold hnew
          have hp1 := (hold' _ hp).1
          have hnpBase := (payload_le hmem).1
          rw [(hok1.headerAt_payload hp1).2.2, if_neg (by omega)]
          have hcopy : ∀ x, x < np ∨ np + s' ≤ x → copyBytes h1.mem np p s x = h1.mem x :=
            fun x hx => copyBytes_of_disjoint _ _ _ (by omega)
          have hok2 := hok1.write (m := copyBytes h1.mem np p s) hmem hcopy
          have hcopied : SameBelow kheapBase h1.mem (copyBytes h1.mem np p s) :=
            fun x hx => hcopy x (Or.inl (by omega))
          exact (hbelow.trans hcopied).trans (kfree_below hok2 hp1)

end Calls

end RoninOS.Kheap
