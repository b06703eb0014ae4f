import Bolgenos.Memory.BitArray
import Bolgenos.Memory.BuddyRuns

/-!
# The page allocator

The page allocator stands on the buddy system. The length of a block is not stored: a
bit map over the pages of the region marks the last page of every block in use, and
`deallocate` scans from the first page of the block to the next mark. Its functions run
under the interrupt lock, so each call is one step here.
-/

namespace Bolgenos

open ByteMemory FuelLoop LinkedChain Dyadic

def zeroSizePage : ℕ := 0x10

def mapSize (size : ℕ) : ℕ := alignUp pageSize (BitArray.expectedSize size) / pageSize

structure PageAllocator where
  primary : BuddyAllocator
  map : BitArray

namespace PageAllocator

def initialBlock (region : MemoryRegion) (firstFree : ℕ) : PageBlock :=
  let ptr := frameAdd firstFree (mapSize region.size)
  ⟨ptr, toUnsigned (frameDiff region.end_ ptr)⟩

def initializeOn (m : Mem) (primary : BuddyAllocator) (firstFree : ℕ) :
    Result (Mem × PageAllocator) := do
  let (m, primary) ← primary.put m (initialBlock primary.region firstFree)
  let (m, map) := BitArray.initializeOn m firstFree primary.region.size
  .ok (m, ⟨primary, map⟩)

def allocate (m : Mem) (pa : PageAllocator) (pages : ℕ) : Result (ℕ × Mem × PageAllocator) :=
  if pages = 0 then .ok (zeroSizePage, m, pa)
  else do
    let (freeMemory, m, primary) ← pa.primary.get m pages
    if freeMemory.ptr = 0 then .ok (0, m, { pa with primary := primary })
    else do
      let pageIndex := toUnsigned (primary.region.indexOf freeMemory.ptr)
      let lastPageInBlock := sub32 (wrap (pageIndex + freeMemory.size)) 1
      .ok (freeMemory.ptr, pa.map.set m lastPageInBlock true, { pa with primary := primary })

def scanStep (pa : PageAllocator) (s : ℕ × ℕ × Mem) : Result ((ℕ × ℕ × Mem) ⊕ (ℕ × Mem)) :=
  if s.1 ≠ pa.primary.region.size then
    if pa.map.get s.2.2 s.1 then .ok (.inr (wrap (s.2.1 + 1), pa.map.set s.2.2 s.1 false))
    else .ok (.inl (wrap (s.1 + 1), wrap (s.2.1 + 1), s.2.2))
  else .ok (.inr s.2)

def deallocate (m : Mem) (pa : PageAllocator) (memory : ℕ) : Result (Mem × PageAllocator) :=
  if memory = 0 ∨ memory = zeroSizePage then .ok (m, pa)
  else do
    let pageIndex := toUnsigned (pa.primary.region.indexOf memory)
    let (size, m) ← loop .divergence (scanStep pa) budget (pageIndex, 0, m)
    let (m, primary) ← pa.primary.put m ⟨memory, size⟩
    .ok (m, { pa with primary := primary })

end PageAllocator

/-- A region and the first page behind the kernel, with the bounds under which the
page allocator is set up. All numbers are page numbers. -/
structure Layout where
  first : ℕ
  kernelEnd : ℕ
  last : ℕ
  first_pos : 0 < first
  first_le : first ≤ kernelEnd
  map_lt : kernelEnd + mapSize (last - first) < last
  size_lt : last - first < 2 ^ 19
  last_lt : last < 2 ^ 20

namespace Layout

def region (lay : Layout) : MemoryRegion := ⟨frame lay.first, frame lay.last⟩

def base (lay : Layout) : ℕ := lay.kernelEnd + mapSize (lay.last - lay.first)

def mapPages (lay : Layout) : Set ℕ := Set.Ico lay.kernelEnd lay.base

def map (lay : Layout) : BitArray := ⟨lay.last - lay.first, frame lay.kernelEnd⟩

variable (lay : Layout)

theorem size_region : lay.region.size = lay.last - lay.first := by
  have h := lay.size_lt
  have hle : lay.first ≤ lay.last := by
    have := lay.first_le
    have := lay.map_lt
    omega
  rw [MemoryRegion.size, region, frameDiff_frame hle h lay.last_lt, toUnsigned_natCast (by omega)]

theorem indexOf_region {p : ℕ} (hp : lay.first ≤ p) (hlt : p ≤ lay.last) :
    lay.region.indexOf (frame p) = (p - lay.first : ℕ) := by
  have h1 := lay.size_lt
  have h2 := lay.last_lt
  exact frameDiff_frame hp (by omega) (by omega)

theorem expectedSize_le_mapSize {n : ℕ} (hn : n < 2 ^ 19) :
    BitArray.expectedSize n ≤ pageSize * mapSize n := by
  have hle : BitArray.expectedSize n ≤ 2 ^ 16 := by
    simp only [BitArray.expectedSize]
    split_ifs <;> omega
  obtain ⟨h1, -, hdvd⟩ := alignUp_ge (b := pageSize) (v := BitArray.expectedSize n)
    (by simp only [pageSize]; omega) (by simp only [pageSize]; omega)
  rw [mapSize, Nat.mul_div_cancel' hdvd]
  exact h1

theorem map_fits : lay.map.Fits := by
  have h1 := expectedSize_le_mapSize lay.size_lt
  have h2 := lay.map_lt
  have h3 := lay.last_lt
  simp only [BitArray.Fits, map, frame, pageSize] at h1 ⊢
  omega

theorem map_bytes {x : ℕ} (hx : x ∈ lay.map.bytes) : x / pageSize ∈ lay.mapPages := by
  have h1 := expectedSize_le_mapSize lay.size_lt
  simp only [BitArray.bytes, map, frame, pageSize, mapPages, base, Set.mem_Ico] at h1 hx ⊢
  omega

end Layout

namespace PageAllocator

/-- The invariant of the page allocator: `live` are the blocks in use and `F` the free
pages. Together they are the pages from the map to the end of the region, and the map
marks the last page of every block in use. -/
structure Inv (lay : Layout) (m : Mem) (pa : PageAllocator) (live : List PageBlock)
    (F : Set ℕ) : Prop where
  lists : ∃ L, BuddyAllocator.Lists m pa.primary F L
  region : pa.primary.region = lay.region
  map : pa.map = lay.map
  blocks : ∀ blk ∈ live, blk.ptr = frame blk.page ∧ 0 < blk.size
  disjoint : live.Pairwise fun blk blk' => Disjoint blk.pages blk'.pages
  free : ∀ blk ∈ live, Disjoint blk.pages F
  cover : F ∪ ⋃ blk ∈ live, blk.pages = Set.Ico lay.base lay.last
  marks : ∀ i < lay.last - lay.first, (lay.map.get m i = true ↔
    ∃ blk ∈ live, lay.first + i + 1 = blk.page + blk.size)

variable {lay : Layout} {m m' : Mem} {pa pa' : PageAllocator} {live : List PageBlock}
  {F : Set ℕ} {blk blk' : PageBlock} {n : ℕ}

theorem Inv.free_subset (h : Inv lay m pa live F) : F ⊆ Set.Ico lay.base lay.last :=
  h.cover ▸ Set.subset_union_left

theorem Inv.pages_subset (h : Inv lay m pa live F) (hblk : blk ∈ live) :
    blk.pages ⊆ Set.Ico lay.base lay.last := by
  rw [← h.cover]
  exact fun x hx => Or.inr (Set.mem_biUnion hblk hx)

theorem Inv.bounds (h : Inv lay m pa live F) (hblk : blk ∈ live) :
    lay.first ≤ blk.page ∧ blk.page + blk.size ≤ lay.last ∧
      lay.base ≤ blk.page := by
  have hpos := (h.blocks blk hblk).2
  have hsub := h.pages_subset hblk
  have h1 := hsub (show blk.page ∈ blk.pages from ⟨le_rfl, by omega⟩)
  have h2 := hsub (show blk.page + blk.size - 1 ∈ blk.pages from ⟨by omega, by omega⟩)
  have h3 := lay.first_le
  simp only [Set.mem_Ico] at h1 h2
  have hbase : lay.kernelEnd ≤ lay.base := Nat.le_add_right _ _
  omega

theorem Inv.not_mem_mapPages (h : Inv lay m pa live F) {x : ℕ} (hx : x ∈ F) :
    x ∉ lay.mapPages := by
  have h1 := (h.free_subset hx).1
  exact fun hmap => absurd hmap.2 (Nat.not_lt.mpr h1)

theorem Inv.eq_of_mem (h : Inv lay m pa live F) (hblk : blk ∈ live) (hblk' : blk' ∈ live) {x : ℕ}
    (hx : x ∈ blk.pages) (hx' : x ∈ blk'.pages) : blk = blk' := by
  by_contra hne
  have hsymm : Std.Symm fun a b : PageBlock => Disjoint a.pages b.pages := ⟨fun _ _ h => h.symm⟩
  exact Set.disjoint_left.mp (h.disjoint.forall hblk hblk' hne) hx hx'

theorem Inv.nodup (h : Inv lay m pa live F) : live.Nodup := by
  refine (List.Pairwise.and_mem.mp h.disjoint).imp fun {a b} hab => ?_
  intro heq
  subst heq
  have hpos := (h.blocks a hab.1).2
  have hmem : a.page ∈ a.pages := ⟨le_rfl, by omega⟩
  exact Set.disjoint_left.mp hab.2.2 hmem hmem

theorem Inv.free_unique (h : Inv lay m pa live F) {F' : Set ℕ} (h' : Inv lay m' pa' live F') :
    F = F' := by
  have hsub : ∀ {m m' : Mem} {pa pa' : PageAllocator} {F F' : Set ℕ}, Inv lay m pa live F →
      Inv lay m' pa' live F' → F ⊆ F' := by
    intro m m' pa pa' F F' h h' x hx
    have hmem := h.free_subset hx
    rw [← h'.cover] at hmem
    apply hmem.resolve_right
    intro hlive
    simp only [Set.mem_iUnion, exists_prop] at hlive
    obtain ⟨blk, hblk, hxb⟩ := hlive
    exact Set.disjoint_left.mp (h.free blk hblk) hxb hx
  exact Set.Subset.antisymm (hsub h h') (hsub h' h)

theorem Inv.perm {live' : List PageBlock} (h : Inv lay m pa live F) (hperm : live.Perm live') :
    Inv lay m pa live' F := by
  have hmem : ∀ blk, blk ∈ live' ↔ blk ∈ live := fun blk => hperm.symm.mem_iff
  have hsymm : ∀ {a b : PageBlock}, Disjoint a.pages b.pages → Disjoint b.pages a.pages :=
    fun h => h.symm
  refine ⟨h.lists, h.region, h.map, fun blk hb => h.blocks blk ((hmem blk).mp hb),
    (hperm.pairwise_iff hsymm).mp h.disjoint, fun blk hb => h.free blk ((hmem blk).mp hb), ?_,
    fun i hi => ?_⟩
  · simp only [hmem]
    exact h.cover
  · simp only [hmem]
    exact h.marks i hi

theorem Inv.congr (h : Inv lay m pa live F) (hagree : AgreeOutside (F ∪ lay.mapPages)ᶜ m m') :
    Inv lay m' pa live F := by
  obtain ⟨L, hL⟩ := h.lists
  refine ⟨⟨L, hL.congr (hagree.mono ?_)⟩, h.region, h.map, h.blocks, h.disjoint, h.free, h.cover,
    fun i hi => ?_⟩
  · exact Set.compl_subset_compl.mpr Set.subset_union_left
  · rw [← h.marks i hi, BitArray.get_congr lay.map_fits hi fun x hx => hagree x ?_]
    exact Set.notMem_compl_iff.mpr (Or.inr (lay.map_bytes hx))

theorem initializeOn_spec (lay : Layout) (m : Mem) :
    ∃ b m' pa, BuddyAllocator.initializeLists m {} lay.region = .ok b ∧
      initializeOn m b (frame lay.kernelEnd) = .ok (m', pa) ∧
      Inv lay m' pa [] (Set.Ico lay.base lay.last) := by
  obtain ⟨b, hinit, hlists, hregion⟩ := BuddyAllocator.initializeLists_spec m lay.region
  have hbase : lay.base < lay.last := lay.map_lt
  have hfirst : lay.first ≤ lay.base := lay.first_le.trans (Nat.le_add_right _ _)
  have hlast := lay.last_lt
  have hsize := lay.size_lt
  have hpos := lay.first_pos
  have hptr : frameAdd (frame lay.kernelEnd) (mapSize (lay.last - lay.first)) =
      frame lay.base := by
    rw [frameAdd_frame]
    exact wrap_of_lt (frame_lt (show lay.base < 2 ^ 20 by omega))
  have hpages : toUnsigned (frameDiff lay.region.end_ (frame lay.base)) = lay.last - lay.base := by
    rw [Layout.region, frameDiff_frame hbase.le (by omega) hlast, toUnsigned_natCast (by omega)]
  obtain ⟨⟨m₁, b₁⟩, hput, ⟨L, hL⟩, -, hregion₁⟩ := BuddyAllocator.put_spec (p := lay.base)
    (n := lay.last - lay.base) hlists (by omega) (by omega) (Set.disjoint_empty _)
  have hrange : lay.base + (lay.last - lay.base) = lay.last := by omega
  rw [Set.empty_union, hrange] at hL
  simp only at hL hregion₁
  have hn : lay.last - lay.first + 8 ≤ 2 ^ 32 := by omega
  have hfit : frame lay.kernelEnd + BitArray.expectedSize (lay.last - lay.first) ≤ 2 ^ 32 :=
    lay.map_fits
  refine ⟨b, (BitArray.initializeOn m₁ (frame lay.kernelEnd) (lay.last - lay.first)).1,
    ⟨b₁, lay.map⟩, hinit, ?_, ⟨L, hL.congr fun a ha => ?_⟩, hregion₁.trans hregion, rfl, by simp,
    List.Pairwise.nil, by simp, by simp, fun i hi => ?_⟩
  · simp only [initializeOn, initialBlock, hregion, hptr, hpages, hput, hregion₁,
      lay.size_region, bind, Except.bind]
    rfl
  · refine BitArray.initializeOn_frame hn hfit fun hx => ha ?_
    have hmap := (lay.map_bytes hx).2
    simp only [Set.mem_compl_iff, Set.mem_Ico, not_and_or, not_le]
    exact Or.inl hmap
  · rw [Layout.map, BitArray.get_initializeOn hn hi]
    simp

theorem Inv.cons (h : Inv lay m pa live F) {p : ℕ} (hn : 0 < n)
    (hsub : Set.Ico p (p + n) ⊆ F) {b' : BuddyAllocator} {m₁ : Mem}
    (hlists : ∃ L, BuddyAllocator.Lists m₁ b' (F \ Set.Ico p (p + n)) L)
    (hregion : b'.region = pa.primary.region) (hagree : AgreeOutside F m m₁)
    {i : ℕ} (hi : lay.first + i + 1 = p + n) :
    Inv lay (lay.map.set m₁ i true) { pa with primary := b' } (⟨frame p, n⟩ :: live)
      (F \ Set.Ico p (p + n)) := by
  have hlast : lay.first + i ∈ F := hsub ⟨by omega, by omega⟩
  have hbound : i < lay.last - lay.first := by
    have := (h.free_subset hlast).2
    omega
  have hblocks : ∀ blk ∈ live, Disjoint blk.pages (Set.Ico p (p + n)) := fun blk hblk =>
    (h.free blk hblk).mono_right hsub
  obtain ⟨L, hL⟩ := hlists
  refine ⟨⟨L, hL.congr fun a ha => ?_⟩, hregion.trans h.region, h.map, ?_, ?_, ?_, ?_,
    fun j hj => ?_⟩
  · refine BitArray.set_frame lay.map_fits hbound true fun hbyte => ha ?_
    have hmap := lay.map_bytes (BitArray.byte_mem hbound)
    rw [← hbyte] at hmap
    exact fun hfree => h.not_mem_mapPages hfree.1 hmap
  · intro blk hblk
    rcases List.mem_cons.mp hblk with rfl | hblk
    · exact ⟨by rw [PageBlock.page_frame], hn⟩
    · exact h.blocks blk hblk
  · refine List.pairwise_cons.mpr ⟨fun blk hblk => ?_, h.disjoint⟩
    rw [PageBlock.pages_frame]
    exact (hblocks blk hblk).symm
  · intro blk hblk
    rcases List.mem_cons.mp hblk with rfl | hblk
    · rw [PageBlock.pages_frame]
      exact Set.disjoint_sdiff_right
    · exact (h.free blk hblk).mono_right Set.sdiff_subset
  · rw [← h.cover]
    ext x
    have hx := @hsub x
    simp only [Set.mem_union, Set.mem_sdiff, Set.mem_iUnion, List.mem_cons, exists_prop,
      exists_eq_or_imp, PageBlock.pages_frame]
    tauto
  · have hmem : ∀ x ∈ lay.map.bytes, m₁ x = m x := fun x hx => hagree x fun hfree =>
      h.not_mem_mapPages hfree (lay.map_bytes hx)
    rw [BitArray.get_set lay.map_fits hbound hj, BitArray.get_congr lay.map_fits hj hmem]
    simp only [List.mem_cons, exists_eq_or_imp, PageBlock.page_frame, ← h.marks j hj]
    by_cases hji : j = i
    · simp only [hji, if_true, true_iff]
      exact Or.inl hi
    · have hne : ¬ lay.first + j + 1 = p + n := by omega
      simp only [hji, if_false, hne, false_or]

theorem allocate_spec (h : Inv lay m pa live F) (hpos : n ≠ 0) (hn : n ≤ 2 ^ 31) :
    ∃ ptr m' pa', allocate m pa n = .ok (ptr, m', pa') ∧
      ((ptr = 0 ∧ m' = m ∧ Inv lay m' pa' live F ∧
          ∀ k p, n ≤ 2 ^ k → ¬ Maximal maxOrder F k p) ∨
        ∃ k p, ptr = frame p ∧ 0 < p ∧ n ≤ 2 ^ k ∧ Maximal maxOrder F k p ∧
          Inv lay m' pa' (⟨ptr, n⟩ :: live) (F \ Set.Ico p (p + n)) ∧
          AgreeOutside (F ∪ lay.mapPages) m m') := by
  obtain ⟨L, hL⟩ := h.lists
  obtain ⟨blk, m₁, b₁, hget, hregion, hcase⟩ := BuddyAllocator.get_spec hL hn
  simp only [allocate, if_neg hpos, hget, bind, Except.bind]
  rcases hcase with ⟨rfl, rfl, hfree, hempty⟩ | ⟨j, p, rest, hfit, -, hLj, rfl, hlists, hagree⟩
  · refine ⟨0, m₁, { pa with primary := b₁ }, by simp, Or.inl ⟨rfl, rfl, ?_, fun k p hk hmax => ?_⟩⟩
    · refine ⟨⟨L, ?_⟩, hregion.trans h.region, h.map, h.blocks, h.disjoint, h.free, h.cover,
        h.marks⟩
      exact ⟨fun k => hfree ▸ hL.holds k, fun k => hfree ▸ hL.squash k, hL.mem, hL.space⟩
    · have hmem := (hL.mem ⟨k, Nat.lt_succ_of_le hmax.1⟩ p).mpr hmax
      rw [hempty _ hk] at hmem
      exact List.not_mem_nil hmem
  · have hblock := hL.subset_free j (show p ∈ L j by simp [hLj])
    have hsub : Set.Ico p (p + n) ⊆ F := fun x hx => hblock ⟨hx.1, by
      have := hx.2
      omega⟩
    have hp := hL.space p (hsub ⟨le_rfl, by omega⟩)
    have hlow := (h.free_subset (hsub (show p ∈ Set.Ico p (p + n) from ⟨le_rfl, by omega⟩))).1
    have hhigh := (h.free_subset (hsub (show p + n - 1 ∈ Set.Ico p (p + n) from
      ⟨by omega, by omega⟩))).2
    have hfirst : lay.first ≤ lay.base := lay.first_le.trans (Nat.le_add_right _ _)
    have hsize := lay.size_lt
    have hindex : toUnsigned (b₁.region.indexOf (frame p)) = p - lay.first := by
      rw [hregion, h.region, lay.indexOf_region (by omega) (by omega),
        toUnsigned_natCast (by omega)]
    have hlast : sub32 (wrap (p - lay.first + n)) 1 = p - lay.first + n - 1 := by
      rw [wrap_of_lt (by omega), sub32_of_le (by omega) (by omega)]
    have hbound : p - lay.first + n - 1 < lay.map.size := by
      simp only [Layout.map]
      omega
    simp only [if_neg (frame_ne_zero hp.1), hindex, hlast, h.map]
    refine ⟨_, _, _, rfl, Or.inr ⟨j, p, rfl, hp.1, hfit, (hL.mem j p).mp (by simp [hLj]), ?_,
      fun a ha => ?_⟩⟩
    · have hcons := h.cons (by omega) hsub hlists hregion hagree (i := p - lay.first + n - 1)
        (by omega)
      rwa [h.map] at hcons
    · have hout : a / pageSize ∉ F ∧ a / pageSize ∉ lay.mapPages := by
        simpa [not_or] using ha
      rw [BitArray.set_frame lay.map_fits hbound true, hagree a hout.1]
      intro heq
      subst heq
      exact hout.2 (lay.map_bytes (BitArray.byte_mem hbound))

/-- The scan from the first page of a block in use stops at its last page: a mark inside
the block would be the end of another block that shares a page with it. -/
theorem scan_spec (h : Inv lay m pa live F) (hblk : blk ∈ live) :
    loop .divergence (scanStep pa) budget (blk.page - lay.first, 0, m) =
      .ok (blk.size, lay.map.set m (blk.page - lay.first + blk.size - 1) false) := by
  obtain ⟨hfirst, hlast, -⟩ := h.bounds hblk
  have hpos := (h.blocks blk hblk).2
  have hsize := lay.size_lt
  have hregion : pa.primary.region.size = lay.last - lay.first := by
    rw [h.region, lay.size_region]
  obtain ⟨s, hrun, rfl⟩ := loop_total (e := Fault.divergence) (f := scanStep pa)
    (fun d s => ∃ j, d + j = blk.size - 1 ∧ s = (blk.page - lay.first + j, j, m))
    (fun s => s = (blk.size, lay.map.set m (blk.page - lay.first + blk.size - 1) false))
    (n := budget) (k := blk.size - 1) (s := (blk.page - lay.first, 0, m)) (by
      intro d s hexists
      obtain ⟨j, hd, rfl⟩ := hexists
      have hin : blk.page - lay.first + j ≠ lay.last - lay.first := by omega
      have hlt : blk.page - lay.first + j < lay.last - lay.first := by omega
      simp only [scanStep, hregion, if_pos hin, h.map]
      by_cases hj : j = blk.size - 1
      · have hget : lay.map.get m (blk.page - lay.first + j) = true :=
          (h.marks _ hlt).mpr ⟨blk, hblk, by omega⟩
        have hend : blk.page - lay.first + j = blk.page - lay.first + blk.size - 1 := by omega
        have hcount : wrap (j + 1) = blk.size := by
          rw [wrap_of_lt (by omega)]
          omega
        exact Or.inr ⟨_, by rw [if_pos hget], by rw [hcount, hend]⟩
      · have hget : ¬ lay.map.get m (blk.page - lay.first + j) = true := by
          rw [h.marks _ hlt]
          intro hexists
          obtain ⟨blk', hblk', heq⟩ := hexists
          have hpos' := (h.blocks blk' hblk').2
          obtain rfl := h.eq_of_mem hblk hblk' (x := blk.page + j) ⟨by omega, by omega⟩
            ⟨by omega, by omega⟩
          omega
        refine Or.inl ⟨(blk.page - lay.first + (j + 1), j + 1, m), d - 1, ?_,
          ⟨j + 1, by omega, rfl⟩, by omega⟩
        rw [if_neg hget, wrap_of_lt (by omega), wrap_of_lt (by omega)]
        rfl)
    ⟨0, by omega, by rw [Nat.add_zero]⟩ (lt_budget (by omega))
  exact hrun

theorem Inv.erase (h : Inv lay m pa live F) (hblk : blk ∈ live) {b' : BuddyAllocator}
    (hlists : ∃ L, BuddyAllocator.Lists m' b' (F ∪ blk.pages) L)
    (hregion : b'.region = pa.primary.region)
    (hmap : ∀ x ∈ lay.map.bytes,
      m' x = lay.map.set m (blk.page - lay.first + blk.size - 1) false x) :
    Inv lay m' { pa with primary := b' } (live.erase blk) (F ∪ blk.pages) := by
  obtain ⟨hfirst, hlast, -⟩ := h.bounds hblk
  have hpos := (h.blocks blk hblk).2
  have hbound : blk.page - lay.first + blk.size - 1 < lay.last - lay.first := by omega
  have hmem : ∀ blk', blk' ∈ live.erase blk ↔ blk' ∈ live ∧ blk' ≠ blk := fun blk' => by
    rw [h.nodup.mem_erase_iff, and_comm]
  refine ⟨hlists, hregion.trans h.region, h.map, fun blk' hb => h.blocks blk' ((hmem blk').mp hb).1,
    h.disjoint.sublist List.erase_sublist, fun blk' hb => ?_, ?_, fun i hi => ?_⟩
  · obtain ⟨hb, hne⟩ := (hmem blk').mp hb
    apply Set.disjoint_left.mpr
    intro x hx hx'
    rcases hx' with hx' | hx'
    · exact Set.disjoint_left.mp (h.free blk' hb) hx hx'
    · exact hne (h.eq_of_mem hb hblk hx hx')
  · rw [← h.cover]
    ext x
    simp only [Set.mem_union, Set.mem_iUnion, exists_prop, hmem]
    constructor
    · intro hcase
      rcases hcase with (hx | hx) | ⟨blk', ⟨hb, -⟩, hx⟩
      · exact Or.inl hx
      · exact Or.inr ⟨blk, hblk, hx⟩
      · exact Or.inr ⟨blk', hb, hx⟩
    · intro hcase
      rcases hcase with hx | ⟨blk', hb, hx⟩
      · exact Or.inl (Or.inl hx)
      · by_cases hne : blk' = blk
        · exact Or.inl (Or.inr (hne ▸ hx))
        · exact Or.inr ⟨blk', ⟨hb, hne⟩, hx⟩
  · rw [BitArray.get_congr lay.map_fits hi hmap, BitArray.get_set lay.map_fits hbound hi]
    by_cases hil : i = blk.page - lay.first + blk.size - 1
    · simp only [hil, if_true, Bool.false_eq_true, false_iff]
      intro hexists
      obtain ⟨blk', hb, heq⟩ := hexists
      obtain ⟨hb, hne⟩ := (hmem blk').mp hb
      have hpos' := (h.blocks blk' hb).2
      exact hne (h.eq_of_mem hb hblk (x := blk.page + blk.size - 1) ⟨by omega, by omega⟩
        ⟨by omega, by omega⟩)
    · rw [if_neg hil, h.marks i hi]
      constructor
      · intro hexists
        obtain ⟨blk', hb, heq⟩ := hexists
        exact ⟨blk', (hmem blk').mpr ⟨hb, by intro heq; subst heq; omega⟩, heq⟩
      · intro hexists
        obtain ⟨blk', hb, heq⟩ := hexists
        exact ⟨blk', ((hmem blk').mp hb).1, heq⟩

theorem deallocate_spec (h : Inv lay m pa live F) (hblk : blk ∈ live) :
    ∃ m' pa', deallocate m pa blk.ptr = .ok (m', pa') ∧
      Inv lay m' pa' (live.erase blk) (F ∪ blk.pages) ∧
      AgreeOutside (F ∪ blk.pages ∪ lay.mapPages) m m' := by
  obtain ⟨hfirst, hlast, hbase⟩ := h.bounds hblk
  obtain ⟨hptr, hpos⟩ := h.blocks blk hblk
  have hfpos := lay.first_pos
  have hsize := lay.size_lt
  have hspace := lay.last_lt
  have hbound : blk.page - lay.first + blk.size - 1 < lay.map.size := by
    simp only [Layout.map]
    omega
  set m₁ := lay.map.set m (blk.page - lay.first + blk.size - 1) false with hm₁
  have hframe : ∀ x, x / pageSize ∉ lay.mapPages → m₁ x = m x := fun x hx => by
    apply BitArray.set_frame lay.map_fits hbound false
    intro heq
    subst heq
    exact hx (lay.map_bytes (BitArray.byte_mem hbound))
  obtain ⟨L, hL⟩ := h.lists
  have hL₁ : BuddyAllocator.Lists m₁ pa.primary F L := hL.congr fun x hx =>
    hframe x (h.not_mem_mapPages (Set.notMem_compl_iff.mp hx))
  obtain ⟨⟨m₂, b₂⟩, hput, hlists, hagree, hregion⟩ := BuddyAllocator.put_spec (p := blk.page)
    (n := blk.size) hL₁ (by omega) (by omega) (h.free blk hblk)
  have hindex : toUnsigned (pa.primary.region.indexOf blk.ptr) = blk.page - lay.first := by
    rw [h.region, hptr, lay.indexOf_region hfirst (by omega), toUnsigned_natCast (by omega)]
  have hne : ¬ (blk.ptr = 0 ∨ blk.ptr = zeroSizePage) := by
    rw [hptr]
    simp only [frame, pageSize, zeroSizePage]
    omega
  have hblkeq : (⟨frame blk.page, blk.size⟩ : PageBlock) = ⟨blk.ptr, blk.size⟩ := by rw [← hptr]
  rw [hblkeq] at hput
  refine ⟨m₂, { pa with primary := b₂ }, ?_, h.erase hblk hlists hregion fun x hx => ?_,
    fun x hx => ?_⟩
  · simp only [deallocate, if_neg hne, hindex, scan_spec h hblk, bind, Except.bind, ← hm₁, hput]
  · apply hagree x
    intro hfree
    have hmap := (lay.map_bytes hx).2
    rcases hfree with hfree | hfree
    · exact h.not_mem_mapPages hfree (lay.map_bytes hx)
    · have := hfree.1
      omega
  · have hout : x / pageSize ∉ F ∪ blk.pages ∧ x / pageSize ∉ lay.mapPages := by
      simpa [not_or] using hx
    rw [← hframe x hout.2]
    exact hagree x hout.1

/-- Runs of the page allocator. `live` are the blocks that were handed out and not
released since; their owners, and everyone outside the memory of the allocator, may
write between the calls. -/
inductive Run (lay : Layout) : Mem → PageAllocator → List PageBlock → Prop where
  | start {m m' : Mem} {b : BuddyAllocator} {pa : PageAllocator} :
      BuddyAllocator.initializeLists m {} lay.region = .ok b →
      initializeOn m b (frame lay.kernelEnd) = .ok (m', pa) → Run lay m' pa []
  | allocate {m m' : Mem} {pa pa' : PageAllocator} {live : List PageBlock} {n ptr : ℕ} :
      Run lay m pa live → n ≤ 2 ^ 31 → allocate m pa n = .ok (ptr, m', pa') →
      Run lay m' pa' (if n = 0 ∨ ptr = 0 then live else ⟨ptr, n⟩ :: live)
  | deallocateNone {m m' : Mem} {pa pa' : PageAllocator} {live : List PageBlock} {ptr : ℕ} :
      Run lay m pa live → ptr = 0 ∨ ptr = zeroSizePage →
      deallocate m pa ptr = .ok (m', pa') → Run lay m' pa' live
  | deallocate {m m' : Mem} {pa pa' : PageAllocator} {live : List PageBlock} {blk : PageBlock} :
      Run lay m pa live → blk ∈ live → deallocate m pa blk.ptr = .ok (m', pa') →
      Run lay m' pa' (live.erase blk)
  | write {m m' : Mem} {pa : PageAllocator} {live : List PageBlock} :
      Run lay m pa live →
      AgreeOutside ((Set.Ico lay.kernelEnd lay.last)ᶜ ∪ ⋃ blk ∈ live, blk.pages) m m' →
      Run lay m' pa live

theorem Inv.write (h : Inv lay m pa live F)
    (hagree : AgreeOutside ((Set.Ico lay.kernelEnd lay.last)ᶜ ∪ ⋃ blk ∈ live, blk.pages) m m') :
    Inv lay m' pa live F := by
  have hbase : lay.kernelEnd ≤ lay.base := Nat.le_add_right _ _
  have hlast : lay.base < lay.last := lay.map_lt
  refine h.congr (hagree.mono ?_)
  intro x hcase
  rcases hcase with hx | hx
  · intro hcase
    rcases hcase with hfree | hmap
    · have hrange := h.free_subset hfree
      exact hx ⟨hbase.trans hrange.1, hrange.2⟩
    · exact hx ⟨hmap.1, hmap.2.trans hlast⟩
  · simp only [Set.mem_iUnion, exists_prop] at hx
    obtain ⟨blk, hblk, hx⟩ := hx
    intro hcase
    rcases hcase with hfree | hmap
    · exact Set.disjoint_left.mp (h.free blk hblk) hx hfree
    · exact absurd hmap.2 (Nat.not_lt.mpr (h.pages_subset hblk hx).1)

theorem run_inv (h : Run lay m pa live) : ∃ F, Inv lay m pa live F := by
  induction h with
  | @start m m' b pa hinit hpages =>
    obtain ⟨b', m₁, pa₁, hinit', hpages', hinv⟩ := initializeOn_spec lay m
    rw [hinit] at hinit'
    cases hinit'
    rw [hpages] at hpages'
    cases hpages'
    exact ⟨_, hinv⟩
  | @allocate m m' pa pa' live n ptr _ hn hrun ih =>
    obtain ⟨F, hinv⟩ := ih
    by_cases hzero : n = 0
    · rw [PageAllocator.allocate, if_pos hzero] at hrun
      cases hrun
      exact ⟨F, by rwa [if_pos (Or.inl hzero)]⟩
    · obtain ⟨ptr₁, m₁, pa₁, hrun', hcase⟩ := allocate_spec hinv hzero hn
      rw [hrun] at hrun'
      cases hrun'
      rcases hcase with ⟨rfl, -, hinv', -⟩ | ⟨k, p, rfl, hp, -, -, hinv', -⟩
      · exact ⟨F, by rwa [if_pos (Or.inr rfl)]⟩
      · rw [if_neg (not_or.mpr ⟨hzero, frame_ne_zero hp⟩)]
        exact ⟨_, hinv'⟩
  | deallocateNone _ hptr hrun ih =>
    rw [PageAllocator.deallocate, if_pos hptr] at hrun
    cases hrun
    exact ih
  | deallocate _ hblk hrun ih =>
    obtain ⟨F, hinv⟩ := ih
    obtain ⟨m₁, pa₁, hrun', hinv', -⟩ := deallocate_spec hinv hblk
    rw [hrun] at hrun'
    cases hrun'
    exact ⟨_, hinv'⟩
  | write _ hagree ih =>
    obtain ⟨F, hinv⟩ := ih
    exact ⟨F, hinv.write hagree⟩

theorem Inv.freePages_eq (h : Inv lay m pa live F) :
    BuddyAllocator.freePages m pa.primary = F := by
  obtain ⟨L, hL⟩ := h.lists
  exact hL.decomposition.freePages_eq

/-- The page allocator over whole runs: the blocks in use and the free pages partition
the pages behind the map, the map marks the last page of every block in use, requests
are always answered, and `deallocate` gives back the pages of the block, whose length
it reads off the marks. -/
theorem run_partition (h : Run lay m pa live) :
    live.Pairwise (fun blk blk' => Disjoint blk.pages blk'.pages) ∧
      (∀ blk ∈ live, Disjoint blk.pages (BuddyAllocator.freePages m pa.primary) ∧
        Disjoint blk.pages lay.mapPages) ∧
      (∀ x ∈ pa.map.bytes, x / pageSize ∈ lay.mapPages) ∧
      BuddyAllocator.freePages m pa.primary ∪ ⋃ blk ∈ live, blk.pages =
        Set.Ico (lay.kernelEnd + mapSize lay.region.size) lay.last ∧
      (∀ i < pa.primary.region.size, (pa.map.get m i = true ↔
        ∃ blk ∈ live, (i : ℤ) = pa.primary.region.indexOf blk.ptr + blk.size - 1)) ∧
      (∀ n, n ≤ 2 ^ 31 → ∃ r, PageAllocator.allocate m pa n = .ok r) ∧
      (∀ blk ∈ live, ∃ m' pa', PageAllocator.deallocate m pa blk.ptr = .ok (m', pa') ∧
        BuddyAllocator.freePages m' pa'.primary =
          BuddyAllocator.freePages m pa.primary ∪ blk.pages) := by
  obtain ⟨F, hinv⟩ := run_inv h
  rw [hinv.freePages_eq, lay.size_region]
  refine ⟨hinv.disjoint, fun blk hblk => ⟨hinv.free blk hblk, ?_⟩, ?_, hinv.cover, ?_,
    fun n hn => ?_, fun blk hblk => ?_⟩
  · apply Set.disjoint_left.mpr
    intro x hx hmap
    exact absurd hmap.2 (Nat.not_lt.mpr (hinv.pages_subset hblk hx).1)
  · rw [hinv.map]
    exact fun x => lay.map_bytes
  · intro i hi
    rw [hinv.region] at hi ⊢
    rw [lay.size_region] at hi
    rw [hinv.map, hinv.marks i hi]
    refine exists_congr fun blk => and_congr_right fun hblk => ?_
    obtain ⟨hfirst, hlast, -⟩ := hinv.bounds hblk
    rw [(hinv.blocks blk hblk).1, lay.indexOf_region hfirst (by omega)]
    omega
  · by_cases hzero : n = 0
    · exact ⟨_, if_pos hzero⟩
    · obtain ⟨ptr, m', pa', hrun, -⟩ := allocate_spec hinv hzero hn
      exact ⟨_, hrun⟩
  · obtain ⟨m', pa', hrun, hinv', -⟩ := deallocate_spec hinv hblk
    exact ⟨m', pa', hrun, hinv'.freePages_eq⟩

theorem allocate_of_block {j q : ℕ} (h : Inv lay m pa live F) (hpos : n ≠ 0)
    (hj : j ≤ maxOrder) (hq : 2 ^ j ∣ q) (hF : block j q ⊆ F) (hn : n ≤ 2 ^ j) :
    ∃ ptr m' pa' p, allocate m pa n = .ok (ptr, m', pa') ∧ ptr ≠ 0 ∧
      Inv lay m' pa' (⟨ptr, n⟩ :: live) (F \ Set.Ico p (p + n)) := by
  have hpow : 2 ^ j ≤ 2 ^ 31 := Nat.pow_le_pow_right Nat.two_pos (hj.trans (by decide))
  obtain ⟨ptr, m', pa', hrun, hcase⟩ := allocate_spec h hpos (hn.trans hpow)
  rcases hcase with ⟨-, -, -, hnone⟩ | ⟨k, p, rfl, hp, -, -, hinv, -⟩
  · obtain ⟨k, p, hjk, hmax, -⟩ := exists_maximal hj hq hF
    exact absurd hmax (hnone k p (hn.trans (Nat.pow_le_pow_right Nat.two_pos hjk)))
  · exact ⟨_, m', pa', p, hrun, frame_ne_zero hp, hinv⟩

theorem Run.cons {ptr : ℕ} (h : Run lay m pa live) (hpos : n ≠ 0) (hn : n ≤ 2 ^ 31)
    (hrun : PageAllocator.allocate m pa n = .ok (ptr, m', pa')) (hne : ptr ≠ 0) :
    Run lay m' pa' (⟨ptr, n⟩ :: live) := by
  have hreach := h.allocate hn hrun
  rwa [if_neg (not_or.mpr ⟨hpos, hne⟩)] at hreach

def smallLayout : Layout :=
  ⟨256, 300, 1000, by decide, by decide, by decide, by decide, by decide⟩

theorem run_partition_release :
    ∃ m pa blk blk' m' pa', Run smallLayout m pa [blk', blk] ∧ blk.size = 3 ∧ blk'.size = 1 ∧
      Disjoint blk'.pages blk.pages ∧ deallocate m pa blk.ptr = .ok (m', pa') ∧
      Run smallLayout m' pa' [blk'] ∧ BuddyAllocator.freePages m' pa'.primary =
        BuddyAllocator.freePages m pa.primary ∪ blk.pages := by
  obtain ⟨b, m, pa, hinit, hpages, hinv⟩ := initializeOn_spec smallLayout fun _ => 0
  have hbase : smallLayout.base = 301 := by decide
  have hlast : smallLayout.last = 1000 := rfl
  obtain ⟨ptr, m₁, pa₁, p, hrun₁, hne₁, hinv₁⟩ := allocate_of_block (n := 3) (j := 2) (q := 400)
    hinv (by decide) (by decide) (by decide) (by
      intro x hx
      rw [hbase, hlast]
      simp only [mem_block] at hx
      exact ⟨by omega, by omega⟩) (by decide)
  have hreach₁ := (Run.start hinit hpages).cons (by decide) (by decide) hrun₁ hne₁
  -- one of two pages that are far enough from each other is not in the first block
  obtain ⟨q, hq⟩ : ∃ q, q ∈ Set.Ico smallLayout.base smallLayout.last \ Set.Ico p (p + 3) := by
    rw [hbase, hlast]
    by_cases hp : p ≤ 500
    · exact ⟨600, ⟨by decide, by decide⟩, fun hx => by have := hx.2; omega⟩
    · exact ⟨500, ⟨by decide, by decide⟩, fun hx => hp hx.1⟩
  obtain ⟨ptr', m₂, pa₂, p', hrun₂, hne₂, -⟩ := allocate_of_block (n := 1) (j := 0) (q := q)
    hinv₁ (by decide) (by decide) (Nat.one_dvd q) (by
      intro x hx
      obtain rfl : x = q := by
        simp only [mem_block, pow_zero] at hx
        omega
      exact hq) le_rfl
  have hreach₂ := hreach₁.cons (by decide) (by decide) hrun₂ hne₂
  obtain ⟨hdisj, -, -, -, -, -, hfree⟩ := run_partition hreach₂
  obtain ⟨m₃, pa₃, hrun₃, hpages₃⟩ := hfree ⟨ptr, 3⟩ (by simp)
  have hreach₃ := hreach₂.deallocate (by simp) hrun₃
  refine ⟨m₂, pa₂, ⟨ptr, 3⟩, ⟨ptr', 1⟩, m₃, pa₃, hreach₂, rfl, rfl, ?_, hrun₃, ?_, hpages₃⟩
  · exact (List.pairwise_cons.mp hdisj).1 _ (by simp)
  · simpa using hreach₃

end PageAllocator

end Bolgenos
