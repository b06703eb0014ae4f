import Bolgenos.Memory.Mallocator

/-!
# The invariant of the kernel heap

The areas of the slabs and the allocations that spilled over are blocks of the page
allocator, so they are apart from each other and from the free pages. Inside a slab the
bits of its map tell which elements are in use. From this follows that the search of
`kfree` ends at the slab that served the address.
-/

namespace Bolgenos

open ByteMemory FuelLoop LinkedChain Dyadic

structure HeapBlock where
  ptr : ℕ
  bytes : ℕ
  slab : Option ℕ
  deriving DecidableEq, Repr

namespace HeapBlock

def range (a : HeapBlock) : Set ℕ := Set.Ico a.ptr (a.ptr + a.bytes)

def pageBlock (a : HeapBlock) : Option PageBlock :=
  if a.slab = none ∧ a.bytes ≠ 0 then some ⟨a.ptr, Mallocator.pagesFor a.bytes⟩ else none

end HeapBlock

namespace Mallocator

/-- The invariant of the heap. The blocks in use of the page allocator are the areas of
the slabs, the allocations that it served for the heap, and the blocks `pages` handed
out by `alloc_pages`. An element of a slab is marked as used exactly when it is the
address of an allocation that came from this slab. -/
structure Inv (lay : Layout) (m : Mem) (pa : PageAllocator) (ma : Mallocator)
    (heap : List HeapBlock) (pages : List PageBlock) (F : Set ℕ) : Prop where
  pageInv : PageAllocator.Inv lay m pa
    (ma.slabs.map SlabAllocator.block ++ (heap.filterMap HeapBlock.pageBlock ++ pages)) F
  initialized : ma.initialized = true
  length : ma.chain.length = ma.chainLength
  short : ma.chainLength = 33
  shaped : ∀ slab ∈ ma.slabs, slab.Shaped
  unit : ∀ i slab, ma.chain[i]? = some slab → slab.elemSize = chainUnitSize i ∧ 0 < slab.nelems
  bits : ∀ i slab, ma.chain[i]? = some slab → ∀ j < slab.nelems,
    (slab.allocationMap.get m j = false ↔ ∃ a ∈ heap, a.slab = some i ∧ a.ptr = slab.chunk j)
  internal : ∀ j < ma.internalAllocator.nelems,
    ma.internalAllocator.allocationMap.get m j = false
  elements : ∀ a ∈ heap, ∀ i, a.slab = some i → ∃ slab j, ma.chain[i]? = some slab ∧
    j < slab.nelems ∧ a.ptr = slab.chunk j ∧ a.bytes ≤ slab.elemSize
  zero : ∀ a ∈ heap, a.slab = none → a.bytes = 0 → a.ptr = zeroSizePage
  bound : ∀ a ∈ heap, a.bytes ≤ 2 ^ 32 - 4096
  distinct : heap.Pairwise fun a b => a.slab ≠ none → a.slab = b.slab → a.ptr ≠ b.ptr

variable {lay : Layout} {m m' : Mem} {pa pa' : PageAllocator} {ma : Mallocator}
  {heap : List HeapBlock} {pages : List PageBlock} {F : Set ℕ} {slab slab' : SlabAllocator}
  {i j p : ℕ} {a : HeapBlock}

def Inside (slab : SlabAllocator) (p : ℕ) : Prop := slab.memory ≤ p ∧ p < slab.chunk slab.nelems

theorem Inv.chain_mem (_ : Inv lay m pa ma heap pages F) (hi : ma.chain[i]? = some slab) :
    slab ∈ ma.slabs :=
  List.mem_cons_of_mem _ (List.mem_of_getElem? hi)

theorem Inv.block_mem (_ : Inv lay m pa ma heap pages F) (hslab : slab ∈ ma.slabs) :
    slab.block ∈ ma.slabs.map SlabAllocator.block ++
      (heap.filterMap HeapBlock.pageBlock ++ pages) :=
  List.mem_append_left _ (List.mem_map_of_mem hslab)

theorem Inv.area_eq (h : Inv lay m pa ma heap pages F) (hslab : slab ∈ ma.slabs) :
    slab.area = frame slab.block.page :=
  (h.pageInv.blocks _ (h.block_mem hslab)).1

theorem Inv.map_page (h : Inv lay m pa ma heap pages F) (hslab : slab ∈ ma.slabs) {x : ℕ}
    (hx : x ∈ slab.allocationMap.bytes) : x / pageSize ∈ slab.block.pages :=
  (h.shaped slab hslab).placed.map_page (h.area_eq hslab) hx

theorem Inv.inside_page (h : Inv lay m pa ma heap pages F) (hslab : slab ∈ ma.slabs)
    (hp : Inside slab p) : p / pageSize ∈ slab.block.pages := by
  have hshape := (h.shaped slab hslab).placed
  have hfits := hshape.fits
  have hmem := hshape.memory_eq
  obtain ⟨h1, h2⟩ := hp
  rw [SlabAllocator.chunk] at h2
  exact SlabAllocator.area_page (h.area_eq hslab) (by omega) (by omega)

theorem Inv.index_unique (h : Inv lay m pa ma heap pages F) {i' : ℕ}
    (hi : ma.chain[i]? = some slab) (hi' : ma.chain[i']? = some slab') {x : ℕ}
    (hx : x ∈ slab.block.pages) (hx' : x ∈ slab'.block.pages) : i = i' := by
  have heq := h.pageInv.eq_of_mem (h.block_mem (h.chain_mem hi)) (h.block_mem (h.chain_mem hi'))
    hx hx'
  have hnodup : (ma.chain.map SlabAllocator.block).Nodup :=
    (List.nodup_cons.mp (List.nodup_append.mp h.pageInv.nodup).1).2
  have hlt : i < (ma.chain.map SlabAllocator.block).length := by
    have := (List.getElem?_eq_some_iff.mp hi).1
    simpa using this
  refine (List.getElem?_inj hlt hnodup).mp ?_
  rw [List.getElem?_map, List.getElem?_map, hi, hi', Option.map_some, Option.map_some, heq]

theorem Inv.area_disjoint (h : Inv lay m pa ma heap pages F) (hslab : slab ∈ ma.slabs)
    {blk : PageBlock} (hblk : blk ∈ heap.filterMap HeapBlock.pageBlock ++ pages) :
    Disjoint slab.block.pages blk.pages :=
  (List.pairwise_append.mp h.pageInv.disjoint).2.2 _ (List.mem_map_of_mem hslab) _ hblk

theorem Inv.slabAt_eq (hi : ma.chain[i]? = some slab) : ma.slabAt i = .ok slab := by
  rw [slabAt, hi]

theorem Inv.owner_total (h : Inv lay m pa ma heap pages F) (p : ℕ) :
    (∃ i slab, ma.chain[i]? = some slab ∧ Inside slab p ∧ ma.owner p = .ok (some i)) ∨
      (∀ slab ∈ ma.chain, ¬ Inside slab p) ∧ ma.owner p = .ok none := by
  have hlen := h.length
  have hshort := h.short
  obtain ⟨r, hrun, hcase⟩ := loop_total (e := Fault.divergence) (f := ownerStep ma p)
    (fun d k => d + k = ma.chainLength ∧ ∀ slab ∈ ma.chain.take k, ¬ Inside slab p)
    (fun r => (∃ i slab, ma.chain[i]? = some slab ∧ Inside slab p ∧ r = some i) ∨
      (∀ slab ∈ ma.chain, ¬ Inside slab p) ∧ r = none)
    (n := budget) (k := ma.chainLength) (s := 0) (by
      intro d k hparts
      obtain ⟨hd, hnone⟩ := hparts
      by_cases hk : k = ma.chainLength
      · rw [List.take_of_length_le (by omega)] at hnone
        exact Or.inr ⟨none, by simp [ownerStep, hk], Or.inr ⟨hnone, rfl⟩⟩
      · have hlt : k < ma.chain.length := by omega
        have hget : ma.chain[k]? = some ma.chain[k] := List.getElem?_eq_getElem hlt
        have hshape := (h.shaped _ (h.chain_mem hget)).placed
        by_cases hin : Inside ma.chain[k] p
        · refine Or.inr ⟨some k, ?_, Or.inl ⟨k, _, hget, hin, rfl⟩⟩
          rw [Inside] at hin
          simp [ownerStep, hk, Inv.slabAt_eq hget, hshape.owns_eq, hin, bind, Except.bind]
        · refine Or.inl ⟨k + 1, d - 1, ?_, ⟨by omega, fun slab hslab => ?_⟩, by omega⟩
          · rw [Inside] at hin
            simp only [ownerStep, ne_eq, hk, not_false_iff, if_true, Inv.slabAt_eq hget,
              hshape.owns_eq, hin, decide_false, bind, Except.bind, Bool.false_eq_true, if_false,
              wrap_of_lt (show k + 1 < 2 ^ 32 by omega)]
          · rw [List.take_succ_eq_append_getElem hlt, List.mem_append, List.mem_singleton] at hslab
            rcases hslab with hslab | rfl
            · exact hnone slab hslab
            · exact hin)
    ⟨by omega, by simp⟩ (lt_budget (by omega))
  rcases hcase with ⟨i, slab, hi, hin, rfl⟩ | ⟨hnone, rfl⟩
  · exact Or.inl ⟨i, slab, hi, hin, hrun⟩
  · exact Or.inr ⟨hnone, hrun⟩

theorem Inv.owner_slab (h : Inv lay m pa ma heap pages F) (hi : ma.chain[i]? = some slab)
    (hp : Inside slab p) : ma.owner p = .ok (some i) := by
  rcases h.owner_total p with ⟨i', slab', hi', hp', hown⟩ | ⟨hnone, -⟩
  · have := h.index_unique hi hi' (h.inside_page (h.chain_mem hi) hp)
      (h.inside_page (h.chain_mem hi') hp')
    rwa [this]
  · exact absurd hp (hnone slab (List.mem_of_getElem? hi))

theorem Inv.owner_none (h : Inv lay m pa ma heap pages F)
    (hp : ∀ slab ∈ ma.slabs, p / pageSize ∉ slab.block.pages) : ma.owner p = .ok none := by
  rcases h.owner_total p with ⟨i', slab', hi', hp', -⟩ | ⟨-, hown⟩
  · exact absurd (h.inside_page (h.chain_mem hi') hp') (hp slab' (h.chain_mem hi'))
  · exact hown

theorem pagesFor_bounds {bytes : ℕ} (hb : bytes ≤ 2 ^ 32 - 4096) :
    bytes ≤ pageSize * pagesFor bytes ∧ (bytes ≠ 0 → pagesFor bytes ≠ 0) ∧
      pagesFor bytes ≤ 2 ^ 20 := by
  obtain ⟨h1, h2, hdvd⟩ := alignUp_ge (b := pageSize) (v := bytes)
    (by simp only [pageSize]; omega) (by simp only [pageSize]; omega)
  have hmul : pageSize * pagesFor bytes = alignUp pageSize bytes := by
    rw [pagesFor, Nat.mul_div_cancel' hdvd]
  simp only [pageSize] at h1 h2 hmul ⊢
  refine ⟨by omega, fun hne hz => ?_, by omega⟩
  rw [hz] at hmul
  omega

theorem Inv.pageBlock_mem (ha : a ∈ heap) (hs : a.slab = none) (hb : a.bytes ≠ 0) :
    ⟨a.ptr, pagesFor a.bytes⟩ ∈ heap.filterMap HeapBlock.pageBlock :=
  List.mem_filterMap.mpr ⟨a, ha, if_pos ⟨hs, hb⟩⟩

theorem Inv.range_slab (h : Inv lay m pa ma heap pages F) (ha : a ∈ heap) (hs : a.slab = some i)
    {x : ℕ} (hx : x ∈ a.range) :
    ∃ slab j, ma.chain[i]? = some slab ∧ j < slab.nelems ∧ a.ptr = slab.chunk j ∧
      slab.chunk j ≤ x ∧ x < slab.chunk (j + 1) ∧ Inside slab x := by
  obtain ⟨slab, j, hi, hj, hptr, hbytes⟩ := h.elements a ha i hs
  have hshape := (h.shaped slab (h.chain_mem hi)).placed
  obtain ⟨h1, h2, -⟩ := hshape.chunk_bounds hj
  obtain ⟨hx1, hx2⟩ := hx
  refine ⟨slab, j, hi, hj, hptr, by omega, ?_, by omega, by omega⟩
  rw [SlabAllocator.chunk_succ]
  omega

theorem Inv.range_pages (h : Inv lay m pa ma heap pages F) (ha : a ∈ heap) (hs : a.slab = none)
    {x : ℕ} (hx : x ∈ a.range) :
    a.bytes ≠ 0 ∧ x / pageSize ∈ PageBlock.pages ⟨a.ptr, pagesFor a.bytes⟩ := by
  obtain ⟨hx1, hx2⟩ := hx
  have hb : a.bytes ≠ 0 := by omega
  have hmem := Inv.pageBlock_mem ha hs hb
  have hptr : a.ptr = frame (PageBlock.page ⟨a.ptr, pagesFor a.bytes⟩) :=
    (h.pageInv.blocks _ (List.mem_append_right _ (List.mem_append_left _ hmem))).1
  have hbound := (pagesFor_bounds (h.bound a ha)).1
  refine ⟨hb, ?_⟩
  simp only [PageBlock.pages, Set.mem_Ico, frame, pageSize] at hptr hbound ⊢
  omega

theorem Inv.range_live (h : Inv lay m pa ma heap pages F) (ha : a ∈ heap) {x : ℕ}
    (hx : x ∈ a.range) :
    ∃ blk ∈ ma.slabs.map SlabAllocator.block ++ heap.filterMap HeapBlock.pageBlock,
      x / pageSize ∈ blk.pages := by
  cases hs : a.slab with
  | none =>
    obtain ⟨hb, hpage⟩ := h.range_pages ha hs hx
    exact ⟨_, List.mem_append_right _ (Inv.pageBlock_mem ha hs hb), hpage⟩
  | some i =>
    obtain ⟨slab, j, hi, -, -, -, -, hin⟩ := h.range_slab ha hs hx
    exact ⟨_, List.mem_append_left _ (List.mem_map_of_mem (h.chain_mem hi)),
      h.inside_page (h.chain_mem hi) hin⟩

theorem Inv.range_not_free (h : Inv lay m pa ma heap pages F) (ha : a ∈ heap) {x : ℕ}
    (hx : x ∈ a.range) : x / pageSize ∉ F := by
  obtain ⟨blk, hblk, hpage⟩ := h.range_live ha hx
  refine Set.disjoint_left.mp (h.pageInv.free blk ?_) hpage
  rw [← List.append_assoc]
  exact List.mem_append_left _ hblk

theorem Inv.range_pages_disjoint (h : Inv lay m pa ma heap pages F) (ha : a ∈ heap)
    {blk : PageBlock} (hblk : blk ∈ pages) {x : ℕ} (hx : x ∈ a.range) :
    x / pageSize ∉ blk.pages := by
  obtain ⟨blk', hblk', hpage⟩ := h.range_live ha hx
  have hdisj := h.pageInv.disjoint
  rw [← List.append_assoc] at hdisj
  exact Set.disjoint_left.mp ((List.pairwise_append.mp hdisj).2.2 blk' hblk' blk hblk) hpage

theorem Inv.range_map (h : Inv lay m pa ma heap pages F) (ha : a ∈ heap)
    (hslab : slab ∈ ma.slabs) : Disjoint a.range slab.allocationMap.bytes := by
  apply Set.disjoint_left.mpr
  intro x hx hmap
  have hpage := h.map_page hslab hmap
  cases hs : a.slab with
  | none =>
    obtain ⟨hb, hpage'⟩ := h.range_pages ha hs hx
    exact Set.disjoint_left.mp (h.area_disjoint hslab (List.mem_append_left _
      (Inv.pageBlock_mem ha hs hb))) hpage hpage'
  | some i =>
    obtain ⟨slab', j, hi, -, -, -, -, hin⟩ := h.range_slab ha hs hx
    have heq := h.pageInv.eq_of_mem (h.block_mem hslab) (h.block_mem (h.chain_mem hi)) hpage
      (h.inside_page (h.chain_mem hi) hin)
    have hshape := (h.shaped slab hslab).placed
    have hshape' := (h.shaped slab' (h.chain_mem hi)).placed
    -- both maps start at the common area, but only one slab lies there
    have hnodup : (ma.slabs.map SlabAllocator.block).Nodup :=
      (List.nodup_append.mp h.pageInv.nodup).1
    have hsame : slab = slab' := List.inj_on_of_nodup_map hnodup hslab (h.chain_mem hi) heq
    subst hsame
    have hmem := hshape.memory_eq
    simp only [BitArray.bytes, hshape.map_eq, Set.mem_Ico] at hmap
    have := hin.1
    omega

theorem Inv.range_disjoint (h : Inv lay m pa ma heap pages F) :
    heap.Pairwise fun a b => Disjoint a.range b.range := by
  have hpages : heap.Pairwise fun a b => ∀ c, a.pageBlock = some c → ∀ d, b.pageBlock = some d →
      Disjoint c.pages d.pages := by
    have hdisj := (List.pairwise_append.mp (List.pairwise_append.mp h.pageInv.disjoint).2.1).1
    simpa [List.pairwise_filterMap] using hdisj
  refine (List.Pairwise.and_mem.mp (h.distinct.and hpages)).imp fun {a b} hab => ?_
  obtain ⟨ha, hb, hdist, hpage⟩ := hab
  apply Set.disjoint_left.mpr
  intro x hx hx'
  cases hsa : a.slab with
  | none =>
    obtain ⟨hba, hxa⟩ := h.range_pages ha hsa hx
    cases hsb : b.slab with
    | none =>
      obtain ⟨hbb, hxb⟩ := h.range_pages hb hsb hx'
      exact Set.disjoint_left.mp (hpage _ (if_pos ⟨hsa, hba⟩) _ (if_pos ⟨hsb, hbb⟩)) hxa hxb
    | some k =>
      obtain ⟨slab, j, hi, -, -, -, -, hin⟩ := h.range_slab hb hsb hx'
      exact Set.disjoint_left.mp (h.area_disjoint (h.chain_mem hi) (List.mem_append_left _
        (Inv.pageBlock_mem ha hsa hba))) (h.inside_page (h.chain_mem hi) hin) hxa
  | some i =>
    obtain ⟨slab, j, hi, hj, hptr, hlow, hhigh, hin⟩ := h.range_slab ha hsa hx
    have hxa := h.inside_page (h.chain_mem hi) hin
    cases hsb : b.slab with
    | none =>
      obtain ⟨hbb, hxb⟩ := h.range_pages hb hsb hx'
      exact Set.disjoint_left.mp (h.area_disjoint (h.chain_mem hi) (List.mem_append_left _
        (Inv.pageBlock_mem hb hsb hbb))) hxa hxb
    | some k =>
      obtain ⟨slab', j', hk, hj', hptr', hlow', hhigh', hin'⟩ := h.range_slab hb hsb hx'
      obtain rfl := h.index_unique hi hk hxa (h.inside_page (h.chain_mem hk) hin')
      obtain rfl : slab = slab' := Option.some.inj (hi.symm.trans hk)
      -- two elements of one slab: their addresses differ, so one ends before the other
      have hne : slab.chunk j ≠ slab.chunk j' := by
        rw [← hptr, ← hptr']
        exact hdist (by simp [hsa]) (hsa.trans hsb.symm)
      rcases Nat.lt_trichotomy j j' with hlt | rfl | hlt
      · have := slab.chunk_le (show j + 1 ≤ j' from hlt)
        omega
      · exact hne rfl
      · have := slab.chunk_le (show j' + 1 ≤ j from hlt)
        omega

theorem Inv.bits_congr (h : Inv lay m pa ma heap pages F)
    (hmap : ∀ slab ∈ ma.slabs, ∀ x ∈ slab.allocationMap.bytes, m' x = m x)
    (hslab : slab ∈ ma.slabs) (hj : j < slab.nelems) :
    slab.allocationMap.get m' j = slab.allocationMap.get m j := by
  have hshape := (h.shaped slab hslab).placed
  exact BitArray.get_congr hshape.map_fits (by rwa [hshape.map_size]) (hmap slab hslab)

theorem internal_mem (ma : Mallocator) : ma.internalAllocator ∈ ma.slabs := List.mem_cons_self

/-- The memory of the allocator changes only through its own functions: what others
write lies in their allocations or outside the region. -/
theorem Inv.write (h : Inv lay m pa ma heap pages F)
    (hwrite : ∀ x, (∀ a ∈ heap, x ∉ a.range) →
      x / pageSize ∉ (Set.Ico lay.kernelEnd lay.last)ᶜ ∪ ⋃ blk ∈ pages, blk.pages → m' x = m x) :
    Inv lay m' pa ma heap pages F := by
  have hbase : lay.kernelEnd ≤ lay.base := Nat.le_add_right _ _
  have hlast : lay.base < lay.last := lay.map_lt
  have hpages : ∀ blk ∈ pages, blk ∈ ma.slabs.map SlabAllocator.block ++
      (heap.filterMap HeapBlock.pageBlock ++ pages) := fun blk hb =>
    List.mem_append_right _ (List.mem_append_right _ hb)
  have hmap : ∀ slab ∈ ma.slabs, ∀ x ∈ slab.allocationMap.bytes, m' x = m x := by
    intro slab hslab x hx
    have hpage := h.map_page hslab hx
    have hrange := h.pageInv.pages_subset (h.block_mem hslab) hpage
    refine hwrite x (fun a ha hxa => Set.disjoint_left.mp (h.range_map ha hslab) hxa hx) ?_
    intro hcase
    rcases hcase with hout | hin
    · exact hout ⟨hbase.trans hrange.1, hrange.2⟩
    · simp only [Set.mem_iUnion, exists_prop] at hin
      obtain ⟨blk, hb, hxb⟩ := hin
      exact Set.disjoint_left.mp (h.area_disjoint hslab (List.mem_append_right _ hb)) hpage hxb
  refine ⟨h.pageInv.congr fun x hx => ?_, h.initialized, h.length, h.short, h.shaped, h.unit,
    fun i slab hi j hj => ?_, fun j hj => ?_, h.elements, h.zero, h.bound, h.distinct⟩
  · rcases Set.notMem_compl_iff.mp hx with hfree | hm
    · have hrange := h.pageInv.free_subset hfree
      refine hwrite x (fun a ha hxa => h.range_not_free ha hxa hfree) ?_
      intro hcase
      rcases hcase with hout | hin
      · exact hout ⟨hbase.trans hrange.1, hrange.2⟩
      · simp only [Set.mem_iUnion, exists_prop] at hin
        obtain ⟨blk, hb, hxb⟩ := hin
        exact Set.disjoint_left.mp (h.pageInv.free blk (hpages blk hb)) hxb hfree
    · have hnot : ∀ blk ∈ ma.slabs.map SlabAllocator.block ++
          (heap.filterMap HeapBlock.pageBlock ++ pages), x / pageSize ∉ blk.pages := by
        intro blk hb hxb
        exact absurd hm.2 (Nat.not_lt.mpr (h.pageInv.pages_subset hb hxb).1)
      refine hwrite x (fun a ha hxa => ?_) ?_
      · obtain ⟨blk, hb, hxb⟩ := h.range_live ha hxa
        refine hnot blk ?_ hxb
        rw [← List.append_assoc]
        exact List.mem_append_left _ hb
      · intro hcase
        rcases hcase with hout | hin
        · exact hout ⟨hm.1, hm.2.trans hlast⟩
        · simp only [Set.mem_iUnion, exists_prop] at hin
          obtain ⟨blk, hb, hxb⟩ := hin
          exact hnot blk (hpages blk hb) hxb
  · rw [h.bits_congr hmap (h.chain_mem hi) hj]
    exact h.bits i slab hi j hj
  · rw [h.bits_congr hmap ma.internal_mem hj]
    exact h.internal j hj

theorem Inv.withPages (h : Inv lay m pa ma heap pages F) {heap' : List HeapBlock}
    {pages' : List PageBlock} {F' : Set ℕ}
    (hinv : PageAllocator.Inv lay m' pa' (ma.slabs.map SlabAllocator.block ++
      (heap'.filterMap HeapBlock.pageBlock ++ pages')) F')
    (hmap : ∀ slab ∈ ma.slabs, ∀ x ∈ slab.allocationMap.bytes, m' x = m x)
    (hslabs : ∀ i p, (∃ a ∈ heap', a.slab = some i ∧ a.ptr = p) ↔
      ∃ a ∈ heap, a.slab = some i ∧ a.ptr = p)
    (hheap : ∀ a ∈ heap', a ∈ heap ∨
      a.slab = none ∧ (a.bytes = 0 → a.ptr = zeroSizePage) ∧ a.bytes ≤ 2 ^ 32 - 4096)
    (hdistinct : heap'.Pairwise fun a b => a.slab ≠ none → a.slab = b.slab → a.ptr ≠ b.ptr) :
    Inv lay m' pa' ma heap' pages' F' := by
  refine ⟨hinv, h.initialized, h.length, h.short, h.shaped, h.unit, fun i slab hi j hj => ?_,
    fun j hj => ?_, fun a ha i hs => ?_, fun a ha hs hb => ?_, fun a ha => ?_, hdistinct⟩
  · rw [h.bits_congr hmap (h.chain_mem hi) hj, hslabs]
    exact h.bits i slab hi j hj
  · rw [h.bits_congr hmap ma.internal_mem hj]
    exact h.internal j hj
  · rcases hheap a ha with ha | ⟨hnone, -⟩
    · exact h.elements a ha i hs
    · rw [hs] at hnone
      cases hnone
  · rcases hheap a ha with ha | ⟨-, hzero, -⟩
    · exact h.zero a ha hs hb
    · exact hzero hb
  · rcases hheap a ha with ha | ⟨-, -, hbound⟩
    · exact h.bound a ha
    · exact hbound

theorem Inv.map_agree (h : Inv lay m pa ma heap pages F) {S : Set ℕ}
    (hS : ∀ x ∈ S, x ∈ F ∪ lay.mapPages ∨
      ∃ blk ∈ heap.filterMap HeapBlock.pageBlock ++ pages, x ∈ blk.pages)
    (hagree : AgreeOutside S m m') :
    ∀ slab ∈ ma.slabs, ∀ x ∈ slab.allocationMap.bytes, m' x = m x := by
  intro slab hslab x hx
  have hpage := h.map_page hslab hx
  apply hagree x
  intro hxS
  rcases hS _ hxS with (hfree | hm) | ⟨blk, hb, hxb⟩
  · exact Set.disjoint_left.mp (h.pageInv.free _ (h.block_mem hslab)) hpage hfree
  · exact absurd hm.2 (Nat.not_lt.mpr (h.pageInv.pages_subset (h.block_mem hslab) hpage).1)
  · exact Set.disjoint_left.mp (h.area_disjoint hslab hb) hpage hxb

theorem Inv.bits_set (h : Inv lay m pa ma heap pages F) (hi : ma.chain[i]? = some slab)
    (hj : j < slab.nelems) (v : Bool) {i' j' : ℕ} (hi' : ma.chain[i']? = some slab')
    (hj' : j' < slab'.nelems) :
    slab'.allocationMap.get (slab.allocationMap.set m j v) j' =
      if i' = i ∧ j' = j then v else slab'.allocationMap.get m j' := by
  have hshape := (h.shaped slab (h.chain_mem hi)).placed
  have hshape' := (h.shaped slab' (h.chain_mem hi')).placed
  rw [← hshape.map_size] at hj
  rw [← hshape'.map_size] at hj'
  by_cases hii : i' = i
  · subst hii
    obtain rfl : slab = slab' := Option.some.inj (hi.symm.trans hi')
    rw [BitArray.get_set hshape.map_fits hj hj']
    simp only [true_and]
  · rw [if_neg fun hc => hii hc.1]
    apply BitArray.get_congr hshape'.map_fits hj'
    intro x hx
    apply BitArray.set_frame hshape.map_fits hj v
    intro heq
    subst heq
    exact hii (h.index_unique hi' hi (h.map_page (h.chain_mem hi') hx)
      (h.map_page (h.chain_mem hi) (BitArray.byte_mem hj)))

theorem Inv.internal_set (h : Inv lay m pa ma heap pages F) (hi : ma.chain[i]? = some slab)
    (hj : j < slab.nelems) (v : Bool) {k : ℕ} (hk : k < ma.internalAllocator.nelems) :
    ma.internalAllocator.allocationMap.get (slab.allocationMap.set m j v) k = false := by
  have hshape := (h.shaped slab (h.chain_mem hi)).placed
  have hshape' := (h.shaped _ ma.internal_mem).placed
  rw [← hshape.map_size] at hj
  rw [← h.internal k hk]
  apply BitArray.get_congr hshape'.map_fits (by rwa [hshape'.map_size])
  intro x hx
  apply BitArray.set_frame hshape.map_fits hj v
  intro heq
  subst heq
  have heq := h.pageInv.eq_of_mem (h.block_mem ma.internal_mem) (h.block_mem (h.chain_mem hi))
    (h.map_page ma.internal_mem hx) (h.map_page (h.chain_mem hi) (BitArray.byte_mem hj))
  have hnodup := List.nodup_cons.mp (List.nodup_append.mp h.pageInv.nodup).1
  exact hnodup.1 (heq ▸ List.mem_map_of_mem (List.mem_of_getElem? hi))

theorem Inv.pageInv_set (h : Inv lay m pa ma heap pages F) (hi : ma.chain[i]? = some slab)
    (hj : j < slab.nelems) (v : Bool) :
    PageAllocator.Inv lay (slab.allocationMap.set m j v) pa (ma.slabs.map SlabAllocator.block ++
      (heap.filterMap HeapBlock.pageBlock ++ pages)) F := by
  have hshape := (h.shaped slab (h.chain_mem hi)).placed
  rw [← hshape.map_size] at hj
  refine h.pageInv.write fun x hx => BitArray.set_frame hshape.map_fits hj v ?_
  intro heq
  subst heq
  exact hx (Or.inr (Set.mem_biUnion (h.block_mem (h.chain_mem hi))
    (h.map_page (h.chain_mem hi) (BitArray.byte_mem hj))))

theorem Inv.take (h : Inv lay m pa ma heap pages F) (hi : ma.chain[i]? = some slab)
    (hj : j < slab.nelems) (hfree : slab.allocationMap.get m j = true) {n : ℕ}
    (hn : n ≤ slab.elemSize) (hbound : n ≤ 2 ^ 32 - 4096) :
    Inv lay (slab.allocationMap.set m j false) pa ma (⟨slab.chunk j, n, some i⟩ :: heap) pages
      F := by
  have hshape := (h.shaped slab (h.chain_mem hi)).placed
  have hnew : ∀ a ∈ heap, a.slab = some i → a.ptr ≠ slab.chunk j := by
    intro a ha hs hptr
    have hused := (h.bits i slab hi j hj).mpr ⟨a, ha, hs, hptr⟩
    rw [hfree] at hused
    cases hused
  refine ⟨?_, h.initialized, h.length, h.short, h.shaped, h.unit, fun i' slab' hi' j' hj' => ?_,
    fun k hk => h.internal_set hi hj false hk, fun a ha k hs => ?_, fun a ha hs hb => ?_,
    fun a ha => ?_, ?_⟩
  · have hpage : HeapBlock.pageBlock ⟨slab.chunk j, n, some i⟩ = none := by
      simp [HeapBlock.pageBlock]
    rw [List.filterMap_cons_none hpage]
    exact h.pageInv_set hi hj false
  · rw [h.bits_set hi hj false hi' hj']
    simp only [List.mem_cons, exists_eq_or_imp]
    by_cases hcase : i' = i ∧ j' = j
    · obtain ⟨rfl, rfl⟩ := hcase
      obtain rfl : slab = slab' := Option.some.inj (hi.symm.trans hi')
      simp
    · rw [if_neg hcase, h.bits i' slab' hi' j' hj']
      have hno : ¬ (some i = some i' ∧ slab.chunk j = slab'.chunk j') := by
        intro hparts
        obtain ⟨hii, hptr⟩ := hparts
        obtain rfl := Option.some.inj hii
        obtain rfl : slab = slab' := Option.some.inj (hi.symm.trans hi')
        exact hcase ⟨rfl, (hshape.chunk_inj hptr).symm⟩
      simp only [hno, false_or]
  · rcases List.mem_cons.mp ha with rfl | ha
    · obtain rfl := Option.some.inj hs
      exact ⟨slab, j, hi, hj, rfl, hn⟩
    · exact h.elements a ha k hs
  · rcases List.mem_cons.mp ha with rfl | ha
    · cases hs
    · exact h.zero a ha hs hb
  · rcases List.mem_cons.mp ha with rfl | ha
    · exact hbound
    · exact h.bound a ha
  · refine List.pairwise_cons.mpr ⟨fun a ha _ hs hptr => ?_, h.distinct⟩
    exact hnew a ha hs.symm hptr.symm

theorem erase_distinct (h : Inv lay m pa ma heap pages F) (ha : a ∈ heap) {b : HeapBlock}
    (hb : b ∈ heap.erase a) : a.slab ≠ none → a.slab = b.slab → a.ptr ≠ b.ptr := by
  have hsymm : ∀ {a b : HeapBlock}, (a.slab ≠ none → a.slab = b.slab → a.ptr ≠ b.ptr) →
      b.slab ≠ none → b.slab = a.slab → b.ptr ≠ a.ptr := fun h hs hab hptr =>
    h (hab ▸ hs) hab.symm hptr.symm
  have hpair := ((List.perm_cons_erase ha).pairwise_iff hsymm).mp h.distinct
  exact (List.pairwise_cons.mp hpair).1 b hb

theorem mem_erase_or {b : HeapBlock} (hb : b ∈ heap) : b ∈ heap.erase a ∨ b = a := by
  by_cases hba : b = a
  · exact Or.inr hba
  · exact Or.inl ((List.mem_erase_of_ne hba).mpr hb)

theorem Inv.giveBack (h : Inv lay m pa ma heap pages F) (ha : a ∈ heap) (hs : a.slab = some i)
    (hi : ma.chain[i]? = some slab) (hj : j < slab.nelems) (hptr : a.ptr = slab.chunk j) :
    Inv lay (slab.allocationMap.set m j true) pa ma (heap.erase a) pages F := by
  have hshape := (h.shaped slab (h.chain_mem hi)).placed
  refine ⟨?_, h.initialized, h.length, h.short, h.shaped, h.unit, fun i' slab' hi' j' hj' => ?_,
    fun k hk => h.internal_set hi hj true hk, fun b hb => h.elements b (List.mem_of_mem_erase hb),
    fun b hb => h.zero b (List.mem_of_mem_erase hb),
    fun b hb => h.bound b (List.mem_of_mem_erase hb),
    h.distinct.sublist List.erase_sublist⟩
  · have hpage : HeapBlock.pageBlock a = none := by simp [HeapBlock.pageBlock, hs]
    have hperm := (List.perm_cons_erase ha).filterMap HeapBlock.pageBlock
    rw [List.filterMap_cons_none hpage] at hperm
    exact (h.pageInv_set hi hj true).perm ((hperm.append_right pages).append_left _)
  · rw [h.bits_set hi hj true hi' hj']
    by_cases hcase : i' = i ∧ j' = j
    · obtain ⟨rfl, rfl⟩ := hcase
      obtain rfl : slab = slab' := Option.some.inj (hi.symm.trans hi')
      simp only [and_self, if_true, Bool.true_eq_false, false_iff]
      intro hexists
      obtain ⟨b, hb, hbs, hbp⟩ := hexists
      exact erase_distinct h ha hb (by simp [hs]) (hs.trans hbs.symm) (hptr.trans hbp.symm)
    · rw [if_neg hcase, h.bits i' slab' hi' j' hj']
      constructor
      · intro hexists
        obtain ⟨b, hb, hbs, hbp⟩ := hexists
        rcases mem_erase_or (a := a) hb with hb | rfl
        · exact ⟨b, hb, hbs, hbp⟩
        · obtain rfl := Option.some.inj (hs.symm.trans hbs)
          obtain rfl : slab = slab' := Option.some.inj (hi.symm.trans hi')
          exact absurd ⟨rfl, (hshape.chunk_inj (hptr.symm.trans hbp)).symm⟩ hcase
      · intro hexists
        obtain ⟨b, hb, hbs, hbp⟩ := hexists
        exact ⟨b, List.mem_of_mem_erase hb, hbs, hbp⟩

end Mallocator

end Bolgenos
