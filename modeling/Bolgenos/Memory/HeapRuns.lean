import Bolgenos.Memory.HeapStart

/-!
# Runs of the kernel heap

`kmalloc`, `kfree`, `alloc_pages` and `free_pages` in any order. Each of them keeps the
invariant of the heap, and what `kfree` does to the slabs and to the page allocator is
exactly the release of the allocation that it is given.
-/

namespace Bolgenos

open ByteMemory FuelLoop LinkedChain Dyadic

namespace Mallocator

variable {lay : Layout} {m m' : Mem} {pa pa' : PageAllocator} {ma : Mallocator}
  {heap : List HeapBlock} {pages : List PageBlock} {F : Set ℕ} {slab : SlabAllocator}
  {i j n : ℕ} {a : HeapBlock}

theorem Inv.search_spec (h : Inv lay m pa ma heap pages F) {k : ℕ} (hk : k ≤ ma.chainLength) :
    (∃ i slab j, k ≤ i ∧ ma.chain[i]? = some slab ∧ j < slab.nelems ∧
        slab.allocationMap.get m j = true ∧
        (∀ i' slab', k ≤ i' → i' < i → ma.chain[i']? = some slab' →
          ∀ j < slab'.nelems, slab'.allocationMap.get m j = false) ∧
        loop .divergence (searchStep ma) budget (k, m) =
          .ok (some i, slab.chunk j, slab.allocationMap.set m j false)) ∨
      (∀ i slab, k ≤ i → ma.chain[i]? = some slab →
        ∀ j < slab.nelems, slab.allocationMap.get m j = false) ∧
        loop .divergence (searchStep ma) budget (k, m) = .ok (none, 0, m) := by
  have hlen := h.length
  have hshort := h.short
  obtain ⟨r, hrun, hcase⟩ := loop_total (e := Fault.divergence) (f := searchStep ma)
    (fun d s => d + s.1 = ma.chainLength ∧ k ≤ s.1 ∧ s.2 = m ∧ ∀ i slab, k ≤ i → i < s.1 →
      ma.chain[i]? = some slab → ∀ j < slab.nelems, slab.allocationMap.get m j = false)
    (fun r => (∃ i slab j, k ≤ i ∧ ma.chain[i]? = some slab ∧ j < slab.nelems ∧
      slab.allocationMap.get m j = true ∧
      (∀ i' slab', k ≤ i' → i' < i → ma.chain[i']? = some slab' →
        ∀ j < slab'.nelems, slab'.allocationMap.get m j = false) ∧
      r = (some i, slab.chunk j, slab.allocationMap.set m j false)) ∨
      (∀ i slab, k ≤ i → ma.chain[i]? = some slab →
        ∀ j < slab.nelems, slab.allocationMap.get m j = false) ∧ r = (none, 0, m))
    (n := budget) (k := ma.chainLength - k) (s := (k, m)) (by
      intro d s hparts
      obtain ⟨i, m₁⟩ := s
      obtain ⟨hd, hki, hm, hfull⟩ := hparts
      simp only at hd hki hm hfull
      subst hm
      by_cases hi : i = ma.chainLength
      · refine Or.inr ⟨(none, 0, m₁), by simp [searchStep, hi], Or.inr ⟨fun i' slab hki' hi' => ?_,
          rfl⟩⟩
        have hlt := (List.getElem?_eq_some_iff.mp hi').1
        exact hfull i' slab hki' (by omega) hi'
      · have hget : ma.chain[i]? = some ma.chain[i] := List.getElem?_eq_getElem (by omega)
        have hshape := (h.shaped _ (h.chain_mem hget)).placed
        rcases hshape.allocate_eq m₁ with ⟨j, hj, -, hbit, halloc⟩ | ⟨hused, halloc⟩
        · have hne := hshape.chunk_ne hj
          refine Or.inr ⟨(some i, _, _), ?_, Or.inl ⟨i, _, j, hki, hget, hj, hbit, hfull,
            rfl⟩⟩
          simp [searchStep, hi, Inv.slabAt_eq hget, halloc, hne, bind, Except.bind]
        · refine Or.inl ⟨(i + 1, m₁), d - 1, ?_, ⟨by simp only; omega, by simp only; omega, rfl,
            fun i' slab hki' hlt hi' => ?_⟩, by omega⟩
          · simp [searchStep, hi, Inv.slabAt_eq hget, halloc, bind, Except.bind,
              wrap_of_lt (show i + 1 < 2 ^ 32 by omega)]
          · rcases Nat.lt_succ_iff_lt_or_eq.mp hlt with hlt | rfl
            · exact hfull i' slab hki' hlt hi'
            · obtain rfl := Option.some.inj (hget.symm.trans hi')
              exact hused)
    ⟨Nat.sub_add_cancel hk, le_rfl, rfl, fun i' _ hki' hlt => absurd hlt (Nat.not_lt.mpr hki')⟩
    (lt_budget (by omega))
  rcases hcase with ⟨i, slab, j, hki, hi, hj, hbit, hfirst, rfl⟩ | ⟨hfull, rfl⟩
  · exact Or.inl ⟨i, slab, j, hki, hi, hj, hbit, hfirst, hrun⟩
  · exact Or.inr ⟨hfull, hrun⟩

theorem startIndex_le (ma : Mallocator) (n : ℕ) : ma.startIndex n ≤ ma.chainLength := by
  simp only [startIndex]
  split_ifs <;> omega

theorem le_chainUnitSize (hn : n ≤ 2 ^ 32 - 4096) (hi : ma.startIndex n ≤ i)
    (hlt : i < ma.chainLength) (hshort : ma.chainLength = 33) : n ≤ chainUnitSize i := by
  obtain ⟨h1, -, hdvd⟩ := alignUp_ge (b := 16) (v := n) (by decide) (by omega)
  have hmul := Nat.div_mul_cancel hdvd
  have hwrap : wrap (i * 16) = i * 16 := wrap_of_lt (by omega)
  simp only [startIndex] at hi
  simp only [chainUnitSize, hwrap]
  split_ifs at hi ⊢ <;> omega

theorem Inv.assertInitialized_ok (h : Inv lay m pa ma heap pages F) :
    ma.assertInitialized = .ok () := by
  simp [assertInitialized, h.initialized]

theorem Inv.allocateFrom_spec (h : Inv lay m pa ma heap pages F) (hn : n ≤ 2 ^ 32 - 4096) :
    ∃ origin ptr m' pa', allocateFrom m pa ma n = .ok (origin, ptr, m', pa') ∧
      ((ptr = 0 ∧ Inv lay m' pa' ma heap pages F ∧
          ∀ i slab, ma.startIndex n ≤ i → ma.chain[i]? = some slab →
            ∀ j < slab.nelems, slab.allocationMap.get m j = false) ∨
        (ptr ≠ 0 ∧ ∃ F', Inv lay m' pa' ma (⟨ptr, n, origin⟩ :: heap) pages F')) := by
  have hlen := h.length
  rcases h.search_spec (ma.startIndex_le n) with ⟨i, slab, j, hki, hi, hj, hbit, -, hrun⟩ |
    ⟨hfull, hrun⟩
  · have hlt : i < ma.chainLength := hlen ▸ (List.getElem?_eq_some_iff.mp hi).1
    have hshape := (h.shaped _ (h.chain_mem hi)).placed
    have hne := hshape.chunk_ne hj
    have hsize : n ≤ slab.elemSize := by
      rw [(h.unit i slab hi).1]
      exact le_chainUnitSize hn hki hlt h.short
    refine ⟨some i, slab.chunk j, _, pa, ?_, Or.inr ⟨hne, F, h.take hi hj hbit hsize hn⟩⟩
    simp only [allocateFrom, h.assertInitialized_ok, hrun, bind, Except.bind]
  · by_cases hzero : n = 0
    · subst hzero
      refine ⟨none, zeroSizePage, m, pa, ?_, Or.inr ⟨by decide, F, ?_⟩⟩
      · have hpages : pagesFor 0 = 0 := by decide
        simp only [allocateFrom, h.assertInitialized_ok, hrun, bind, Except.bind, hpages]
        rfl
      · have hpage : HeapBlock.pageBlock ⟨zeroSizePage, 0, none⟩ = none := by
          simp [HeapBlock.pageBlock]
        refine h.withPages (by rw [List.filterMap_cons_none hpage]; exact h.pageInv)
          (fun _ _ _ _ => rfl) (fun i p => by simp) (fun a ha => ?_)
          (List.pairwise_cons.mpr ⟨fun a _ hs => absurd rfl hs, h.distinct⟩)
        rcases List.mem_cons.mp ha with rfl | ha
        · exact Or.inr ⟨rfl, fun _ => rfl, by simp⟩
        · exact Or.inl ha
    · obtain ⟨-, hpos, hle⟩ := pagesFor_bounds hn
      obtain ⟨ptr, m₁, pa₁, halloc, hcase⟩ := PageAllocator.allocate_spec h.pageInv (hpos hzero)
        (by omega)
      refine ⟨none, ptr, m₁, pa₁, ?_, ?_⟩
      · simp only [allocateFrom, h.assertInitialized_ok, hrun, bind, Except.bind, halloc]
      · rcases hcase with ⟨rfl, rfl, hinv, -⟩ | ⟨k, p, rfl, hp, -, -, hinv, hagree⟩
        · exact Or.inl ⟨rfl, h.withPages hinv (fun _ _ _ _ => rfl) (fun _ _ => Iff.rfl)
            (fun a ha => Or.inl ha) h.distinct, hfull⟩
        · have hpage : HeapBlock.pageBlock ⟨frame p, n, none⟩ = some ⟨frame p, pagesFor n⟩ :=
            if_pos ⟨rfl, hzero⟩
          refine Or.inr ⟨frame_ne_zero hp, F \ Set.Ico p (p + pagesFor n), h.withPages ?_
            (h.map_agree (fun x hx => Or.inl hx) hagree) (fun i p => by simp) (fun a ha => ?_)
            (List.pairwise_cons.mpr ⟨fun a _ hs => absurd rfl hs, h.distinct⟩)⟩
          · rw [List.filterMap_cons_some hpage, List.cons_append]
            exact hinv.perm List.perm_middle.symm
          · rcases List.mem_cons.mp ha with rfl | ha
            · exact Or.inr ⟨rfl, fun hz => absurd hz hzero, hn⟩
            · exact Or.inl ha

theorem Inv.live_perm (_ : Inv lay m pa ma heap pages F) (ha : a ∈ heap) {blk : PageBlock}
    (hblk : a.pageBlock = some blk) :
    ((ma.slabs.map SlabAllocator.block ++
        (heap.filterMap HeapBlock.pageBlock ++ pages)).erase blk).Perm
      (ma.slabs.map SlabAllocator.block ++
        ((heap.erase a).filterMap HeapBlock.pageBlock ++ pages)) := by
  have hheap := (List.perm_cons_erase ha).filterMap HeapBlock.pageBlock
  rw [List.filterMap_cons_some hblk] at hheap
  have hall : (ma.slabs.map SlabAllocator.block ++
      (heap.filterMap HeapBlock.pageBlock ++ pages)).Perm
      (blk :: (ma.slabs.map SlabAllocator.block ++
        ((heap.erase a).filterMap HeapBlock.pageBlock ++ pages))) :=
    ((hheap.append_right pages).append_left _).trans List.perm_middle
  have hmem : blk ∈ ma.slabs.map SlabAllocator.block ++
      (heap.filterMap HeapBlock.pageBlock ++ pages) := hall.symm.subset List.mem_cons_self
  exact ((List.perm_cons_erase hmem).symm.trans hall).cons_inv

def releasedPages (a : HeapBlock) : Set ℕ :=
  match a.pageBlock with
  | some blk => blk.pages
  | none => ∅

theorem Inv.owner_eq (h : Inv lay m pa ma heap pages F) (ha : a ∈ heap) :
    ma.owner a.ptr = .ok a.slab := by
  cases hs : a.slab with
  | some i =>
    obtain ⟨slab, j, hi, hj, hptr, -⟩ := h.elements a ha i hs
    have hshape := (h.shaped slab (h.chain_mem hi)).placed
    obtain ⟨h1, h2, -⟩ := hshape.chunk_bounds hj
    have hpos := hshape.elem_pos
    rw [hptr]
    exact h.owner_slab hi ⟨h1, by omega⟩
  | none =>
    apply h.owner_none
    intro slab hslab hpage
    by_cases hb : a.bytes = 0
    · rw [h.zero a ha hs hb] at hpage
      have hlow := (h.pageInv.pages_subset (h.block_mem hslab) hpage).1
      have hpos := lay.first_pos
      have hle := lay.first_le
      have hbase : lay.kernelEnd ≤ lay.base := Nat.le_add_right _ _
      simp only [zeroSizePage, pageSize] at hlow
      omega
    · have hbound := (pagesFor_bounds (h.bound a ha)).2.1 hb
      refine Set.disjoint_left.mp (h.area_disjoint hslab (List.mem_append_left _
        (Inv.pageBlock_mem ha hs hb))) hpage ⟨le_rfl, ?_⟩
      exact Nat.lt_add_of_pos_right (Nat.pos_of_ne_zero hbound)

theorem Inv.deallocate_null (h : Inv lay m pa ma heap pages F) :
    deallocate m pa ma 0 = .ok (m, pa) := by
  have hown : ma.owner 0 = .ok none := by
    apply h.owner_none
    intro slab hslab hpage
    have hlow := (h.pageInv.pages_subset (h.block_mem hslab) hpage).1
    have hpos := lay.first_pos
    have hle := lay.first_le
    have hbase : lay.kernelEnd ≤ lay.base := Nat.le_add_right _ _
    simp only [Nat.zero_div] at hlow
    omega
  simp only [deallocate, h.assertInitialized_ok, hown, bind, Except.bind]
  rfl

theorem Inv.deallocate_spec (h : Inv lay m pa ma heap pages F) (ha : a ∈ heap) :
    ∃ m' pa', deallocate m pa ma a.ptr = .ok (m', pa') ∧
      Inv lay m' pa' ma (heap.erase a) pages (F ∪ releasedPages a) := by
  have hown := h.owner_eq ha
  cases hs : a.slab with
  | some i =>
    obtain ⟨slab, j, hi, hj, hptr, -⟩ := h.elements a ha i hs
    have hshape := (h.shaped slab (h.chain_mem hi)).placed
    have hpages : releasedPages a = ∅ := by simp [releasedPages, HeapBlock.pageBlock, hs]
    have hfree := hshape.deallocate_chunk (m := m) hj
    rw [← hptr] at hfree
    rw [hs] at hown
    refine ⟨slab.allocationMap.set m j true, pa, ?_, ?_⟩
    · simp only [deallocate, h.assertInitialized_ok, hown, Inv.slabAt_eq hi, hfree, bind,
        Except.bind]
    · rw [hpages, Set.union_empty]
      exact h.giveBack ha hs hi hj hptr
  | none =>
    rw [hs] at hown
    have hslabs : ∀ i p, (∃ b ∈ heap.erase a, b.slab = some i ∧ b.ptr = p) ↔
        ∃ b ∈ heap, b.slab = some i ∧ b.ptr = p := by
      intro i p
      constructor
      · intro hexists
        obtain ⟨b, hb, hbs⟩ := hexists
        exact ⟨b, List.mem_of_mem_erase hb, hbs⟩
      · intro hexists
        obtain ⟨b, hb, hbs, hbp⟩ := hexists
        rcases mem_erase_or (a := a) hb with hb | rfl
        · exact ⟨b, hb, hbs, hbp⟩
        · rw [hs] at hbs
          cases hbs
    by_cases hb : a.bytes = 0
    · have hpage : a.pageBlock = none := by simp [HeapBlock.pageBlock, hb]
      have hperm := (List.perm_cons_erase ha).filterMap HeapBlock.pageBlock
      rw [List.filterMap_cons_none hpage] at hperm
      refine ⟨m, pa, ?_, ?_⟩
      · rw [h.zero a ha hs hb] at hown ⊢
        simp only [deallocate, h.assertInitialized_ok, hown, bind, Except.bind]
        rfl
      · simp only [releasedPages, hpage, Set.union_empty]
        exact h.withPages (h.pageInv.perm ((hperm.append_right pages).append_left _))
          (fun _ _ _ _ => rfl) hslabs (fun b hb => Or.inl (List.mem_of_mem_erase hb))
          (h.distinct.sublist List.erase_sublist)
    · have hpage : a.pageBlock = some ⟨a.ptr, pagesFor a.bytes⟩ := if_pos ⟨hs, hb⟩
      have hmem := Inv.pageBlock_mem ha hs hb
      obtain ⟨m₁, pa₁, hfree, hinv, hagree⟩ := PageAllocator.deallocate_spec h.pageInv
        (List.mem_append_right _ (List.mem_append_left _ hmem))
      refine ⟨m₁, pa₁, ?_, ?_⟩
      · simp only [deallocate, h.assertInitialized_ok, hown, bind, Except.bind]
        exact hfree
      · simp only [releasedPages, hpage]
        refine h.withPages (hinv.perm (h.live_perm ha hpage)) (h.map_agree ?_ hagree) hslabs
          (fun b hb => Or.inl (List.mem_of_mem_erase hb))
          (h.distinct.sublist List.erase_sublist)
        intro x hcase
        rcases hcase with (hx | hx) | hx
        · exact Or.inl (Or.inl hx)
        · exact Or.inr ⟨_, List.mem_append_left _ hmem, hx⟩
        · exact Or.inl (Or.inr hx)

/-- Runs of the heap. `heap` are the allocations of `kmalloc` in use and `pages` the
blocks of `alloc_pages`; their owners, and everyone outside the memory of the
allocators, may write between the calls. -/
inductive Run (lay : Layout) :
    Mem → PageAllocator → Mallocator → List HeapBlock → List PageBlock → Prop where
  | start {m m₁ m₂ : Mem} {b : BuddyAllocator} {pa₁ pa₂ : PageAllocator} {ma : Mallocator} :
      BuddyAllocator.initializeLists m {} lay.region = .ok b →
      PageAllocator.initializeOn m b (frame lay.kernelEnd) = .ok (m₁, pa₁) →
      initializeOn m₁ pa₁ (1024 * 1024) 33 = .ok (ma, m₂, pa₂) → Run lay m₂ pa₂ ma [] []
  | kmalloc {m m' : Mem} {pa pa' : PageAllocator} {ma : Mallocator} {heap : List HeapBlock}
      {pages : List PageBlock} {n ptr : ℕ} {origin : Option ℕ} :
      Run lay m pa ma heap pages → n ≤ 2 ^ 32 - 4096 →
      allocateFrom m pa ma n = .ok (origin, ptr, m', pa') →
      Run lay m' pa' ma (if ptr = 0 then heap else ⟨ptr, n, origin⟩ :: heap) pages
  | kfree {m m' : Mem} {pa pa' : PageAllocator} {ma : Mallocator} {heap : List HeapBlock}
      {pages : List PageBlock} {a : HeapBlock} :
      Run lay m pa ma heap pages → a ∈ heap → deallocate m pa ma a.ptr = .ok (m', pa') →
      Run lay m' pa' ma (heap.erase a) pages
  | kfreeNull {m m' : Mem} {pa pa' : PageAllocator} {ma : Mallocator} {heap : List HeapBlock}
      {pages : List PageBlock} :
      Run lay m pa ma heap pages → deallocate m pa ma 0 = .ok (m', pa') →
      Run lay m' pa' ma heap pages
  | allocPages {m m' : Mem} {pa pa' : PageAllocator} {ma : Mallocator} {heap : List HeapBlock}
      {pages : List PageBlock} {n ptr : ℕ} :
      Run lay m pa ma heap pages → n ≤ 2 ^ 31 → pa.allocate m n = .ok (ptr, m', pa') →
      Run lay m' pa' ma heap (if n = 0 ∨ ptr = 0 then pages else ⟨ptr, n⟩ :: pages)
  | freePages {m m' : Mem} {pa pa' : PageAllocator} {ma : Mallocator} {heap : List HeapBlock}
      {pages : List PageBlock} {blk : PageBlock} :
      Run lay m pa ma heap pages → blk ∈ pages → pa.deallocate m blk.ptr = .ok (m', pa') →
      Run lay m' pa' ma heap (pages.erase blk)
  | freePagesNone {m m' : Mem} {pa pa' : PageAllocator} {ma : Mallocator}
      {heap : List HeapBlock} {pages : List PageBlock} {ptr : ℕ} :
      Run lay m pa ma heap pages → ptr = 0 ∨ ptr = zeroSizePage →
      pa.deallocate m ptr = .ok (m', pa') → Run lay m' pa' ma heap pages
  | write {m m' : Mem} {pa : PageAllocator} {ma : Mallocator} {heap : List HeapBlock}
      {pages : List PageBlock} :
      Run lay m pa ma heap pages →
      (∀ x, (∀ a ∈ heap, x ∉ a.range) →
        x / pageSize ∉ (Set.Ico lay.kernelEnd lay.last)ᶜ ∪ ⋃ blk ∈ pages, blk.pages →
        m' x = m x) →
      Run lay m' pa ma heap pages

theorem Inv.allocPages (h : Inv lay m pa ma heap pages F) (hpos : n ≠ 0) (hn : n ≤ 2 ^ 31) :
    ∃ ptr m' pa', pa.allocate m n = .ok (ptr, m', pa') ∧
      ∃ F', Inv lay m' pa' ma heap (if ptr = 0 then pages else ⟨ptr, n⟩ :: pages) F' := by
  obtain ⟨ptr, m₁, pa₁, hrun, hcase⟩ := PageAllocator.allocate_spec h.pageInv hpos hn
  refine ⟨ptr, m₁, pa₁, hrun, ?_⟩
  rcases hcase with ⟨rfl, rfl, hinv, -⟩ | ⟨k, p, rfl, hp, -, -, hinv, hagree⟩
  · exact ⟨F, h.withPages hinv (fun _ _ _ _ => rfl) (fun _ _ => Iff.rfl) (fun _ ha => Or.inl ha)
      h.distinct⟩
  · rw [if_neg (frame_ne_zero hp)]
    refine ⟨_, h.withPages (hinv.perm ?_) (h.map_agree (fun x hx => Or.inl hx) hagree)
      (fun _ _ => Iff.rfl) (fun _ ha => Or.inl ha) h.distinct⟩
    rw [← List.append_assoc, ← List.append_assoc]
    exact List.perm_middle.symm

theorem Inv.freePages (h : Inv lay m pa ma heap pages F) {blk : PageBlock} (hblk : blk ∈ pages) :
    ∃ m' pa', pa.deallocate m blk.ptr = .ok (m', pa') ∧
      Inv lay m' pa' ma heap (pages.erase blk) (F ∪ blk.pages) := by
  have hmem : blk ∈ ma.slabs.map SlabAllocator.block ++
      (heap.filterMap HeapBlock.pageBlock ++ pages) :=
    List.mem_append_right _ (List.mem_append_right _ hblk)
  obtain ⟨m₁, pa₁, hrun, hinv, hagree⟩ := PageAllocator.deallocate_spec h.pageInv hmem
  have hperm : (blk :: (ma.slabs.map SlabAllocator.block ++
      (heap.filterMap HeapBlock.pageBlock ++ pages.erase blk))).Perm
      (ma.slabs.map SlabAllocator.block ++ (heap.filterMap HeapBlock.pageBlock ++ pages)) := by
    rw [← List.append_assoc, ← List.append_assoc]
    exact List.perm_middle.symm.trans ((List.perm_cons_erase hblk).symm.append_left _)
  refine ⟨m₁, pa₁, hrun, h.withPages (hinv.perm ?_) (h.map_agree ?_ hagree)
    (fun _ _ => Iff.rfl) (fun _ ha => Or.inl ha) h.distinct⟩
  · exact ((hperm.trans (List.perm_cons_erase hmem)).cons_inv).symm
  · intro x hcase
    rcases hcase with (hx | hx) | hx
    · exact Or.inl (Or.inl hx)
    · exact Or.inr ⟨blk, List.mem_append_right _ hblk, hx⟩
    · exact Or.inl (Or.inr hx)

theorem run_inv (h : Run lay m pa ma heap pages) : ∃ F, Inv lay m pa ma heap pages F := by
  induction h with
  | @start m m₁ m₂ b pa₁ pa₂ ma hinit hpages hheap =>
    obtain ⟨b', m', pa', hinit', hpages', hinv⟩ := PageAllocator.initializeOn_spec lay m
    rw [hinit] at hinit'
    cases hinit'
    rw [hpages] at hpages'
    cases hpages'
    exact initializeOn_inv hinv hheap
  | kmalloc _ hn hrun ih =>
    obtain ⟨F, hinv⟩ := ih
    obtain ⟨origin, ptr, m₁, pa₁, hrun', hcase⟩ := hinv.allocateFrom_spec hn
    rw [hrun] at hrun'
    cases hrun'
    rcases hcase with ⟨hz, hinv', -⟩ | ⟨hne, hinv'⟩
    · exact ⟨F, by rwa [if_pos hz]⟩
    · rwa [if_neg hne]
  | kfree _ ha hrun ih =>
    obtain ⟨F, hinv⟩ := ih
    obtain ⟨m₁, pa₁, hrun', hinv'⟩ := hinv.deallocate_spec ha
    rw [hrun] at hrun'
    cases hrun'
    exact ⟨_, hinv'⟩
  | kfreeNull _ hrun ih =>
    obtain ⟨F, hinv⟩ := ih
    rw [hinv.deallocate_null] at hrun
    cases hrun
    exact ⟨F, hinv⟩
  | @allocPages m m' pa pa' ma heap pages n ptr _ hn hrun ih =>
    obtain ⟨F, hinv⟩ := ih
    by_cases hzero : n = 0
    · rw [PageAllocator.allocate, if_pos hzero] at hrun
      cases hrun
      exact ⟨F, by rwa [if_pos (Or.inl hzero)]⟩
    · obtain ⟨ptr₁, m₁, pa₁, hrun', hinv'⟩ := hinv.allocPages hzero hn
      rw [hrun] at hrun'
      cases hrun'
      simpa only [hzero, false_or] using hinv'
  | freePages _ hblk hrun ih =>
    obtain ⟨F, hinv⟩ := ih
    obtain ⟨m₁, pa₁, hrun', hinv'⟩ := hinv.freePages hblk
    rw [hrun] at hrun'
    cases hrun'
    exact ⟨_, hinv'⟩
  | freePagesNone _ hptr hrun ih =>
    rw [PageAllocator.deallocate, if_pos hptr] at hrun
    cases hrun
    exact ih
  | write _ hwrite ih =>
    obtain ⟨F, hinv⟩ := ih
    exact ⟨F, hinv.write hwrite⟩

structure SameState (ma : Mallocator) (m : Mem) (pa : PageAllocator) (m' : Mem)
    (pa' : PageAllocator) : Prop where
  slabs : ∀ slab ∈ ma.slabs, ∀ j < slab.nelems,
    slab.allocationMap.get m' j = slab.allocationMap.get m j
  pageMap : ∀ i < pa.primary.region.size, pa'.map.get m' i = pa.map.get m i
  heads : pa'.primary.freeList = pa.primary.freeList
  lists : ∃ L, BuddyAllocator.ListsAre m pa.primary L ∧ BuddyAllocator.ListsAre m' pa'.primary L

theorem Inv.same (h : Inv lay m pa ma heap pages F) {F' : Set ℕ}
    (h' : Inv lay m' pa' ma heap pages F') : SameState ma m pa m' pa' := by
  obtain rfl := h.pageInv.free_unique h'.pageInv
  obtain ⟨L, hL⟩ := h.pageInv.lists
  obtain ⟨L', hL'⟩ := h'.pageInv.lists
  obtain ⟨rfl, hheads⟩ := hL.unique hL'
  refine ⟨fun slab hslab j hj => ?_, fun i hi => ?_, hheads.symm, L, fun k => (hL.holds k).chain,
    fun k => (hL'.holds k).chain⟩
  · rcases List.mem_cons.mp hslab with rfl | hslab
    · rw [h.internal j hj, h'.internal j hj]
    · obtain ⟨i, hlt, rfl⟩ := List.getElem_of_mem hslab
      have hget : ma.chain[i]? = some ma.chain[i] := List.getElem?_eq_getElem hlt
      have hiff := (h.bits i _ hget j hj).trans (h'.bits i _ hget j hj).symm
      exact (Bool.eq_iff_iff.mpr (by simpa using hiff.not)).symm
  · rw [h.pageInv.region, lay.size_region] at hi
    rw [h.pageInv.map, h'.pageInv.map]
    exact Bool.eq_iff_iff.mpr ((h'.pageInv.marks i hi).trans (h.pageInv.marks i hi).symm)

theorem Inv.bits_erase (h : Inv lay m pa ma heap pages F) (ha : a ∈ heap) {F' : Set ℕ}
    (h' : Inv lay m' pa' ma (heap.erase a) pages F') (hi : ma.chain[i]? = some slab)
    (hj : j < slab.nelems) :
    slab.allocationMap.get m' j =
      (slab.allocationMap.get m j || decide (a.slab = some i ∧ a.ptr = slab.chunk j)) := by
  have hbefore := h.bits i slab hi j hj
  have hafter := h'.bits i slab hi j hj
  by_cases hcase : a.slab = some i ∧ a.ptr = slab.chunk j
  · have hno : ¬ ∃ b ∈ heap.erase a, b.slab = some i ∧ b.ptr = slab.chunk j := by
      intro hexists
      obtain ⟨b, hb, hbs, hbp⟩ := hexists
      exact erase_distinct h ha hb (by simp [hcase.1]) (hcase.1.trans hbs.symm)
        (hcase.2.trans hbp.symm)
    rw [← hafter, Bool.not_eq_false] at hno
    simp [hno, hcase]
  · have hsame : (∃ b ∈ heap.erase a, b.slab = some i ∧ b.ptr = slab.chunk j) ↔
        ∃ b ∈ heap, b.slab = some i ∧ b.ptr = slab.chunk j := by
      constructor
      · intro hexists
        obtain ⟨b, hb, hbs⟩ := hexists
        exact ⟨b, List.mem_of_mem_erase hb, hbs⟩
      · intro hexists
        obtain ⟨b, hb, hbs⟩ := hexists
        rcases mem_erase_or (a := a) hb with hb | rfl
        · exact ⟨b, hb, hbs⟩
        · exact absurd hbs hcase
    have hiff := hafter.trans (hsame.trans hbefore.symm)
    simp only [hcase, decide_false, Bool.or_false]
    exact Bool.eq_iff_iff.mpr (by simpa using hiff.not)

/-- The kernel heap over whole runs. Allocations in use overlap neither each other nor
the blocks of `alloc_pages`, the slab bitmaps or the free pages; `kfree` finds the
allocator that served the address and releases that allocation and nothing else; and
`kmalloc` followed by `kfree` of its result changes no allocator. -/
theorem run_heap (h : Run lay m pa ma heap pages) :
    heap.Pairwise (fun a b => Disjoint a.range b.range) ∧
      (∀ a ∈ heap, (∀ blk ∈ pages, ∀ x ∈ a.range, x / pageSize ∉ blk.pages) ∧
        (∀ slab ∈ ma.slabs, Disjoint a.range slab.allocationMap.bytes) ∧
        ∀ x ∈ a.range, x / pageSize ∉ BuddyAllocator.freePages m pa.primary) ∧
      (∀ a ∈ heap, ma.owner a.ptr = .ok a.slab ∧
        ∃ m' pa', deallocate m pa ma a.ptr = .ok (m', pa') ∧
          (∀ i slab, ma.chain[i]? = some slab → ∀ j < slab.nelems,
            slab.allocationMap.get m' j = (slab.allocationMap.get m j ||
              decide (a.slab = some i ∧ a.ptr = slab.chunk j))) ∧
          BuddyAllocator.freePages m' pa'.primary =
            BuddyAllocator.freePages m pa.primary ∪ releasedPages a) ∧
      deallocate m pa ma 0 = .ok (m, pa) ∧
      (∀ n, n ≤ 2 ^ 32 - 4096 → ∃ origin ptr m' pa',
        allocateFrom m pa ma n = .ok (origin, ptr, m', pa') ∧
        (ptr ≠ 0 → ∃ m'' pa'', deallocate m' pa' ma ptr = .ok (m'', pa'') ∧
          SameState ma m pa m'' pa'')) := by
  obtain ⟨F, hinv⟩ := run_inv h
  rw [hinv.pageInv.freePages_eq]
  refine ⟨hinv.range_disjoint, fun a ha => ⟨
    fun blk hblk x hx => hinv.range_pages_disjoint ha hblk hx,
    fun slab hslab => hinv.range_map ha hslab, fun x hx => hinv.range_not_free ha hx⟩,
    fun a ha => ⟨hinv.owner_eq ha, ?_⟩, hinv.deallocate_null, fun n hn => ?_⟩
  · obtain ⟨m', pa', hrun, hinv'⟩ := hinv.deallocate_spec ha
    exact ⟨m', pa', hrun, fun i slab hi j hj => hinv.bits_erase ha hinv' hi hj,
      hinv'.pageInv.freePages_eq⟩
  · obtain ⟨origin, ptr, m', pa', hrun, hcase⟩ := hinv.allocateFrom_spec hn
    refine ⟨origin, ptr, m', pa', hrun, fun hne => ?_⟩
    rcases hcase with ⟨hz, -⟩ | ⟨-, F', hinv'⟩
    · exact absurd hz hne
    · obtain ⟨m'', pa'', hfree, hinv''⟩ := hinv'.deallocate_spec List.mem_cons_self
      rw [List.erase_cons_head] at hinv''
      exact ⟨m'', pa'', hfree, hinv.same hinv''⟩

def mediumLayout : Layout :=
  ⟨256, 512, 20736, Nat.succ_pos 255, by decide, by decide, by decide, by decide⟩

theorem spare_mediumLayout : Spare 9 34 (Set.Ico mediumLayout.base mediumLayout.last) := by
  refine ⟨(Finset.range 34).image fun k => 512 * (k + 2), ?_, fun p hp => ?_⟩
  · rw [Finset.card_image_of_injective _ fun a b hab => by simpa using hab, Finset.card_range]
  · obtain ⟨k, hk, rfl⟩ := Finset.mem_image.mp hp
    have hk' := Finset.mem_range.mp hk
    refine ⟨Dvd.intro _ rfl, fun x hx => ?_⟩
    have hbase : mediumLayout.base = 513 := by decide
    have hlast : mediumLayout.last = 20736 := rfl
    rw [hbase, hlast]
    simp only [mem_block] at hx
    exact ⟨by omega, by omega⟩

theorem Inv.exists_of_full (h : Inv lay m pa ma heap pages F)
    (hfull : ∀ i slab, ma.startIndex n ≤ i → ma.chain[i]? = some slab →
      ∀ j < slab.nelems, slab.allocationMap.get m j = false)
    (hindex : ma.startIndex n ≤ i) (hi : i < ma.chain.length) : ∃ a ∈ heap, a.slab = some i := by
  have hget : ma.chain[i]? = some ma.chain[i] := List.getElem?_eq_getElem hi
  have hpos := (h.unit i _ hget).2
  have hused := hfull i _ hindex hget 0 hpos
  rw [h.bits i _ hget 0 hpos] at hused
  obtain ⟨a, ha, hslab, -⟩ := hused
  exact ⟨a, ha, hslab⟩

theorem Run.cons {origin : Option ℕ} {ptr : ℕ} (h : Run lay m pa ma heap pages)
    (hn : n ≤ 2 ^ 32 - 4096) (hrun : allocateFrom m pa ma n = .ok (origin, ptr, m', pa'))
    (hne : ptr ≠ 0) :
    Run lay m' pa' ma (⟨ptr, n, origin⟩ :: heap) pages := by
  have hreach := h.kmalloc hn hrun
  rwa [if_neg hne] at hreach

theorem run_heap_kfree :
    ∃ m pa ma a b m' pa', Run mediumLayout m pa ma [b, a] [] ∧ a.bytes = 24 ∧ b.bytes = 20 ∧
      Disjoint b.range a.range ∧ ma.owner a.ptr = .ok a.slab ∧
      deallocate m pa ma a.ptr = .ok (m', pa') ∧ Run mediumLayout m' pa' ma [b] [] := by
  obtain ⟨c, m₁, pa₁, hinit, hpages, hinv₁⟩ :=
    PageAllocator.initializeOn_spec mediumLayout fun _ => 0
  obtain ⟨ma, m₂, pa₂, hheap⟩ := initializeOn_ok hinv₁ spare_mediumLayout
  have hstart := Run.start hinit hpages hheap
  obtain ⟨F, hinv⟩ := run_inv hstart
  have hlen : 3 < ma.chain.length := by
    rw [hinv.length, hinv.short]
    decide
  have hindex : ma.startIndex 24 ≤ 2 ∧ ma.startIndex 20 ≤ 2 := by
    simp only [startIndex, hinv.short]
    decide
  obtain ⟨origin, ptr, m₃, pa₃, hrun, hcase⟩ := hinv.allocateFrom_spec (n := 24) (by decide)
  have hne : ptr ≠ 0 := by
    rcases hcase with ⟨-, -, hfull⟩ | ⟨hne, -⟩
    · obtain ⟨a, ha, -⟩ := hinv.exists_of_full hfull hindex.1 (by omega)
      exact absurd ha List.not_mem_nil
    · exact hne
  have hreach := hstart.cons (by decide) hrun hne
  obtain ⟨F₁, hinv'⟩ := run_inv hreach
  obtain ⟨origin', ptr', m₄, pa₄, hrun', hcase'⟩ := hinv'.allocateFrom_spec (n := 20) (by decide)
  have hne' : ptr' ≠ 0 := by
    rcases hcase' with ⟨-, -, hfull⟩ | ⟨hne', -⟩
    · -- the first allocation is in one slab only
      obtain ⟨a, ha, hslab⟩ := hinv'.exists_of_full (i := 2) hfull hindex.2 (by omega)
      obtain ⟨b, hb, hslab'⟩ := hinv'.exists_of_full (i := 3) hfull (by omega) hlen
      rw [List.mem_singleton] at ha hb
      rw [ha] at hslab
      rw [hb, hslab] at hslab'
      cases hslab'
    · exact hne'
  have hreach' := hreach.cons (by decide) hrun' hne'
  obtain ⟨hdisj, -, hown, -⟩ := run_heap hreach'
  obtain ⟨howner, m₅, pa₅, hfree, -⟩ := hown ⟨ptr, 24, origin⟩ (by simp)
  have hreach'' := hreach'.kfree (a := ⟨ptr, 24, origin⟩) (by simp) hfree
  refine ⟨m₄, pa₄, ma, ⟨ptr, 24, origin⟩, ⟨ptr', 20, origin'⟩, m₅, pa₅, hreach', rfl, rfl, ?_,
    howner, hfree, ?_⟩
  · exact (List.pairwise_cons.mp hdisj).1 _ (by simp)
  · simpa using hreach''

end Mallocator

end Bolgenos
