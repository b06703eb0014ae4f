import Bolgenos.Memory.PageAllocator

/-!
# Slabs

A slab serves elements of one size from an area of pages. The area starts with a bit
array that has a set bit for every free element; the elements follow it.
-/

namespace Bolgenos

open ByteMemory FuelLoop LinkedChain Dyadic

structure SlabAllocator where
  elemSize : ℕ := 0
  nelems : ℕ := 0
  memory : ℕ := 0
  area : ℕ := 0
  allocationMap : BitArray := {}
  initialized : Bool := false
  deriving DecidableEq, Repr

namespace SlabAllocator

def requiredPages (elemSize nelems : ℕ) : ℕ :=
  alignUp pageSize (wrap (wrap (elemSize * nelems) + BitArray.expectedSize nelems)) / pageSize

def initializeOn (m : Mem) (pa : PageAllocator) (elemSize nelems : ℕ) :
    Result (SlabAllocator × Mem × PageAllocator) := do
  let (area, m, pa) ← pa.allocate m (requiredPages elemSize nelems)
  if area = 0 then .ok ({ elemSize := elemSize, nelems := nelems }, m, pa)
  else do
    let (m, map) := BitArray.initializeOn m area nelems
    let memory := wrap (area + BitArray.expectedSize nelems)
    let m := (List.range nelems).foldl (fun m elem => map.set m elem true) m
    .ok (⟨elemSize, nelems, memory, area, map, true⟩, m, pa)

def allocateStep (slab : SlabAllocator) (s : ℕ × Mem) : Result ((ℕ × Mem) ⊕ (ℕ × Mem)) :=
  if s.1 ≠ slab.nelems then
    if slab.allocationMap.get s.2 s.1 then
      .ok (.inr (wrap (slab.memory + wrap (s.1 * slab.elemSize)),
        slab.allocationMap.set s.2 s.1 false))
    else .ok (.inl (wrap (s.1 + 1), s.2))
  else .ok (.inr (0, s.2))

def allocate (m : Mem) (slab : SlabAllocator) : Result (ℕ × Mem) :=
  loop .divergence (allocateStep slab) budget (0, m)

def owns (slab : SlabAllocator) (memory : ℕ) : Result Bool :=
  if slab.memory = 0 then .error (.panic "assertion failed")
  else
    let highLimit := wrap (slab.memory + wrap (slab.nelems * slab.elemSize))
    .ok (decide (slab.memory ≤ memory ∧ memory < highLimit))

def deallocate (m : Mem) (slab : SlabAllocator) (addr : ℕ) : Result Mem :=
  if addr = 0 then .ok m
  else do
    if ← slab.owns addr then
      .ok (slab.allocationMap.set m (sub32 addr slab.memory / slab.elemSize) true)
    else .error (.panic "Critical error")

def block (slab : SlabAllocator) : PageBlock :=
  ⟨slab.area, requiredPages slab.elemSize slab.nelems⟩

def chunk (slab : SlabAllocator) (j : ℕ) : ℕ := slab.memory + j * slab.elemSize

structure Shaped (slab : SlabAllocator) : Prop where
  elem_pos : 0 < slab.elemSize
  nelems_lt : slab.nelems < 2 ^ 31
  area_pos : 0 < slab.area
  memory_eq : slab.memory = slab.area + BitArray.expectedSize slab.nelems
  map_eq : slab.allocationMap = ⟨slab.nelems, slab.area⟩
  fits : BitArray.expectedSize slab.nelems + slab.nelems * slab.elemSize ≤
    pageSize * slab.block.size
  space : slab.area + pageSize * slab.block.size < 2 ^ 32

structure Placed (slab : SlabAllocator) : Prop where
  elem_pos : 0 < slab.elemSize
  nelems_le : slab.nelems + 8 ≤ 2 ^ 32
  area_pos : 0 < slab.area
  memory_eq : slab.memory = slab.area + BitArray.expectedSize slab.nelems
  map_eq : slab.allocationMap = ⟨slab.nelems, slab.area⟩
  fits : BitArray.expectedSize slab.nelems + slab.nelems * slab.elemSize ≤
    pageSize * slab.block.size
  space : slab.area + pageSize * slab.block.size < 2 ^ 32

variable {m m' : Mem} {slab : SlabAllocator} {j : ℕ}

theorem Shaped.placed (h : slab.Shaped) : slab.Placed := by
  have hlt := h.nelems_lt
  exact ⟨h.elem_pos, by omega, h.area_pos, h.memory_eq, h.map_eq, h.fits, h.space⟩

theorem Placed.map_fits (h : slab.Placed) : slab.allocationMap.Fits := by
  have h1 := h.fits
  have h2 := h.space
  simp only [h.map_eq, BitArray.Fits]
  omega

theorem Placed.map_size (h : slab.Placed) : slab.allocationMap.size = slab.nelems := by
  rw [h.map_eq]

theorem chunk_succ (j : ℕ) : slab.chunk (j + 1) = slab.chunk j + slab.elemSize := by
  simp only [chunk, Nat.add_mul, Nat.one_mul]
  omega

theorem chunk_le {i : ℕ} (hij : i ≤ j) : slab.chunk i ≤ slab.chunk j :=
  Nat.add_le_add_left (Nat.mul_le_mul_right _ hij) _

theorem Placed.chunk_inj (h : slab.Placed) {i : ℕ} (hij : slab.chunk i = slab.chunk j) :
    i = j := by
  simp only [chunk, Nat.add_left_cancel_iff] at hij
  exact Nat.eq_of_mul_eq_mul_right h.elem_pos hij

theorem Placed.chunk_bounds (h : slab.Placed) (hj : j < slab.nelems) :
    slab.memory ≤ slab.chunk j ∧ slab.chunk j + slab.elemSize ≤ slab.chunk slab.nelems ∧
      slab.chunk slab.nelems ≤ slab.area + pageSize * slab.block.size := by
  refine ⟨Nat.le_add_right _ _, ?_, ?_⟩
  · rw [← chunk_succ]
    exact chunk_le hj
  · have h1 := h.fits
    have h2 := h.memory_eq
    rw [chunk]
    omega

theorem area_page (harea : slab.area = frame slab.block.page) {x : ℕ} (hx : slab.area ≤ x)
    (hx' : x < slab.area + pageSize * slab.block.size) : x / pageSize ∈ slab.block.pages := by
  simp only [PageBlock.pages, Set.mem_Ico, frame, pageSize] at harea hx hx' ⊢
  omega

theorem Placed.map_page (h : slab.Placed) (harea : slab.area = frame slab.block.page) {x : ℕ}
    (hx : x ∈ slab.allocationMap.bytes) : x / pageSize ∈ slab.block.pages := by
  have hfits := h.fits
  simp only [BitArray.bytes, h.map_eq, Set.mem_Ico] at hx
  exact area_page harea hx.1 (by omega)

theorem Placed.space_chunk (h : slab.Placed) : slab.chunk slab.nelems < 2 ^ 32 := by
  have h1 := h.fits
  have h2 := h.memory_eq
  have h3 := h.space
  rw [chunk]
  omega

theorem Placed.memory_ne (h : slab.Placed) : slab.memory ≠ 0 := by
  have h1 := h.memory_eq
  have h2 := h.area_pos
  omega

theorem Placed.chunk_ne (h : slab.Placed) (hj : j < slab.nelems) : slab.chunk j ≠ 0 := by
  have hge := (h.chunk_bounds hj).1
  have hne := h.memory_ne
  omega

theorem Placed.owns_eq (h : slab.Placed) (p : ℕ) :
    slab.owns p = .ok (decide (slab.memory ≤ p ∧ p < slab.chunk slab.nelems)) := by
  have hspace := h.space_chunk
  have hmul : slab.nelems * slab.elemSize < 2 ^ 32 := by
    rw [chunk] at hspace
    omega
  simp only [owns, if_neg h.memory_ne, wrap_of_lt hmul]
  rw [chunk] at hspace ⊢
  rw [wrap_of_lt hspace]

theorem Placed.allocate_eq (h : slab.Placed) (m : Mem) :
    (∃ j < slab.nelems, (∀ i < j, slab.allocationMap.get m i = false) ∧
        slab.allocationMap.get m j = true ∧
        allocate m slab = .ok (slab.chunk j, slab.allocationMap.set m j false)) ∨
      (∀ j < slab.nelems, slab.allocationMap.get m j = false) ∧ allocate m slab = .ok (0, m) := by
  have hspace := h.space_chunk
  have hlt := h.nelems_le
  obtain ⟨s, hrun, hcase⟩ := loop_total (e := Fault.divergence) (f := allocateStep slab)
    (fun d s => d + s.1 = slab.nelems ∧ s.2 = m ∧
      ∀ j < s.1, slab.allocationMap.get m j = false)
    (fun s => (∃ j < slab.nelems, (∀ i < j, slab.allocationMap.get m i = false) ∧
        slab.allocationMap.get m j = true ∧
        s = (slab.chunk j, slab.allocationMap.set m j false)) ∨
      (∀ j < slab.nelems, slab.allocationMap.get m j = false) ∧ s = (0, m))
    (n := budget) (k := slab.nelems) (s := (0, m)) (by
      intro d s hparts
      obtain ⟨i, m₁⟩ := s
      obtain ⟨hd, hm, hused⟩ := hparts
      simp only at hd hm hused
      subst hm
      by_cases hi : i = slab.nelems
      · refine Or.inr ⟨(0, m₁), ?_, Or.inr ⟨hi ▸ hused, rfl⟩⟩
        simp [allocateStep, hi]
      · by_cases hget : slab.allocationMap.get m₁ i = true
        · have hbounds := h.chunk_bounds (j := i) (by omega)
          have hchunk : wrap (slab.memory + wrap (i * slab.elemSize)) = slab.chunk i := by
            rw [chunk] at hbounds ⊢
            rw [wrap_of_lt (n := i * slab.elemSize) (by omega), wrap_of_lt (by omega)]
          refine Or.inr ⟨(slab.chunk i, slab.allocationMap.set m₁ i false), ?_,
            Or.inl ⟨i, by omega, hused, hget, rfl⟩⟩
          simp [allocateStep, hi, hget, hchunk]
        · refine Or.inl ⟨(i + 1, m₁), d - 1, ?_, ⟨by simp only; omega, rfl, fun j hj => ?_⟩,
            by omega⟩
          · simp [allocateStep, hi, hget, wrap_of_lt (show i + 1 < 2 ^ 32 by omega)]
          · rcases Nat.lt_succ_iff_lt_or_eq.mp hj with hj | rfl
            · exact hused j hj
            · simpa using hget)
    ⟨by omega, rfl, by simp⟩ (lt_budget (by omega))
  rcases hcase with ⟨j, hj, hfirst, hget, rfl⟩ | ⟨hused, rfl⟩
  · exact Or.inl ⟨j, hj, hfirst, hget, hrun⟩
  · exact Or.inr ⟨hused, hrun⟩

theorem Placed.deallocate_chunk (h : slab.Placed) (hj : j < slab.nelems) :
    deallocate m slab (slab.chunk j) = .ok (slab.allocationMap.set m j true) := by
  obtain ⟨h1, h2, -⟩ := h.chunk_bounds hj
  have hspace := h.space_chunk
  have hne := h.chunk_ne hj
  have hpos := h.elem_pos
  have hin : slab.memory ≤ slab.chunk j ∧ slab.chunk j < slab.chunk slab.nelems :=
    ⟨h1, by omega⟩
  have hindex : sub32 (slab.chunk j) slab.memory / slab.elemSize = j := by
    rw [sub32_of_le h1 (by omega), chunk, Nat.add_sub_cancel_left, Nat.mul_div_cancel _ hpos]
  simp [deallocate, hne, h.owns_eq, hin, hindex, bind, Except.bind]

theorem fold_set_spec {a : BitArray} (ha : a.Fits) (m : Mem) {n : ℕ} (hn : n ≤ a.size) :
    (∀ j < a.size, a.get ((List.range n).foldl (fun m elem => a.set m elem true) m) j =
        (decide (j < n) || a.get m j)) ∧
      ∀ x ∉ a.bytes, (List.range n).foldl (fun m elem => a.set m elem true) m x = m x := by
  induction n with
  | zero => simp
  | succ n ih =>
    obtain ⟨hbits, hframe⟩ := ih (by omega)
    rw [List.range_succ, List.foldl_append, List.foldl_cons, List.foldl_nil]
    refine ⟨fun j hj => ?_, fun x hx => ?_⟩
    · rw [BitArray.get_set ha (by omega) hj, hbits j hj]
      by_cases hjn : j = n
      · simp [hjn]
      · have hiff : j < n + 1 ↔ j < n := by omega
        simp [hjn, hiff]
    · rw [BitArray.set_frame ha (by omega), hframe x hx]
      intro heq
      subst heq
      exact hx (BitArray.byte_mem (by omega))

theorem mul_requiredPages {elemSize nelems : ℕ}
    (hfit : elemSize * nelems + BitArray.expectedSize nelems + pageSize ≤ 2 ^ 32) :
    pageSize * requiredPages elemSize nelems =
      alignUp pageSize (elemSize * nelems + BitArray.expectedSize nelems) := by
  have hps : pageSize = 4096 := rfl
  obtain ⟨-, -, hdvd⟩ := alignUp_ge (b := pageSize)
    (v := elemSize * nelems + BitArray.expectedSize nelems) (by omega) hfit
  rw [requiredPages, wrap_of_lt (n := elemSize * nelems) (by omega), wrap_of_lt (by omega),
    Nat.mul_div_cancel' hdvd]

theorem requiredPages_fits {elemSize nelems : ℕ}
    (hfit : elemSize * nelems + BitArray.expectedSize nelems + pageSize ≤ 2 ^ 32) :
    BitArray.expectedSize nelems + nelems * elemSize ≤
        pageSize * requiredPages elemSize nelems ∧
      pageSize * requiredPages elemSize nelems <
        elemSize * nelems + BitArray.expectedSize nelems + pageSize := by
  obtain ⟨hle, hlt, -⟩ := alignUp_ge (b := pageSize)
    (v := elemSize * nelems + BitArray.expectedSize nelems) (by decide) hfit
  rw [mul_requiredPages hfit, Nat.mul_comm nelems elemSize]
  omega

theorem requiredPages_pos {elemSize nelems : ℕ} (he : 0 < elemSize) (hn : 0 < nelems)
    (hfit : elemSize * nelems + BitArray.expectedSize nelems + pageSize ≤ 2 ^ 32) :
    0 < requiredPages elemSize nelems := by
  have hpos : 0 < nelems * elemSize := Nat.mul_pos hn he
  obtain ⟨hle, -⟩ := requiredPages_fits hfit
  apply Nat.pos_of_ne_zero
  intro hzero
  rw [hzero] at hle
  omega

theorem initializeOn_cases {pa pa' : PageAllocator} {e n : ℕ}
    (hinit : initializeOn m pa e n = .ok (slab, m', pa')) (hok : slab.initialized = true) :
    ∃ area m₁, area ≠ 0 ∧
      slab = ⟨e, n, wrap (area + BitArray.expectedSize n), area, ⟨n, area⟩, true⟩ ∧
      m' = (List.range n).foldl (fun m elem => BitArray.set m ⟨n, area⟩ elem true)
        (BitArray.initializeOn m₁ area n).1 := by
  obtain ⟨r, -, hrest⟩ := Result.bind_ok.mp hinit
  obtain ⟨area, m₁, pa₁⟩ := r
  by_cases hzero : area = 0
  · simp only [if_pos hzero, Except.ok.injEq, Prod.mk.injEq] at hrest
    obtain ⟨rfl, -⟩ := hrest
    cases hok
  · simp only [if_neg hzero, Except.ok.injEq, Prod.mk.injEq] at hrest
    obtain ⟨rfl, rfl, -⟩ := hrest
    exact ⟨area, m₁, hzero, rfl, rfl⟩

/-- Setting up a slab takes a block from the page allocator, and all elements are free
afterwards. It fails only when the page allocator has no block. -/
theorem initializeOn_spec {lay : Layout} {pa : PageAllocator} {live : List PageBlock} {F : Set ℕ}
    (h : PageAllocator.Inv lay m pa live F) {e n : ℕ} (he : 0 < e)
    (hn : 0 < n) (hlt : n < 2 ^ 31)
    (hfit : e * n + BitArray.expectedSize n + pageSize ≤ 2 ^ 32) :
    ∃ slab m' pa', initializeOn m pa e n = .ok (slab, m', pa') ∧
      slab.elemSize = e ∧ slab.nelems = n ∧
      ((slab.initialized = false ∧
          ∀ k p, requiredPages e n ≤ 2 ^ k → ¬ Maximal maxOrder F k p) ∨
        ∃ k p, slab.initialized = true ∧ slab.area = frame p ∧
          requiredPages e n ≤ 2 ^ k ∧ Maximal maxOrder F k p ∧ slab.Shaped ∧
          PageAllocator.Inv lay m' pa' (slab.block :: live) (F \ slab.block.pages) ∧
          (∀ j < n, slab.allocationMap.get m' j = true) ∧
          AgreeOutside (F ∪ lay.mapPages) m m') := by
  have hps : pageSize = 4096 := rfl
  have hpos := requiredPages_pos he hn hfit
  obtain ⟨hin, hless⟩ := requiredPages_fits hfit
  rw [hps] at hin hless
  obtain ⟨ptr, m₁, pa₁, hrun, hcase⟩ := PageAllocator.allocate_spec h (n :=
    requiredPages e n) (by omega) (by omega)
  rcases hcase with ⟨rfl, rfl, hinv, hnone⟩ | ⟨k, p, rfl, hp, hle, hmax, hinv, hagree⟩
  · refine ⟨{ elemSize := e, nelems := n }, m₁, pa₁, ?_, rfl, rfl, Or.inl ⟨rfl, hnone⟩⟩
    simp [initializeOn, hrun, bind, Except.bind]
  · have hne : frame p ≠ 0 := frame_ne_zero hp
    set blk : PageBlock := ⟨frame p, requiredPages e n⟩ with hblk
    have hmem : blk ∈ blk :: live := List.mem_cons_self
    obtain ⟨-, hend, -⟩ := hinv.bounds hmem
    have hpage : blk.page = p := PageBlock.page_frame p _
    rw [hpage] at hend
    simp only [hblk] at hend
    have hspace : frame p + 4096 * requiredPages e n < 2 ^ 32 := by
      have := lay.last_lt
      simp only [frame, pageSize]
      omega
    have hmemory : wrap (frame p + BitArray.expectedSize n) =
        frame p + BitArray.expectedSize n := wrap_of_lt (by omega)
    have hmap : BitArray.Fits ⟨n, frame p⟩ := by
      simp only [BitArray.Fits]
      omega
    set m₂ := (BitArray.initializeOn m₁ (frame p) n).1 with hm₂
    obtain ⟨hbits, hframe⟩ := fold_set_spec hmap m₂ (n := n) le_rfl
    set m₃ := (List.range n).foldl (fun m elem => BitArray.set m ⟨n, frame p⟩ elem true) m₂
      with hm₃
    -- only bytes of the map are written, and they lie in the new block
    have hwrite : ∀ x, x / pageSize ∉ blk.pages → m₃ x = m₁ x := by
      intro x hx
      have hbytes : x ∉ BitArray.bytes ⟨n, frame p⟩ := fun hb => hx (by
        rw [PageBlock.pages_frame]
        simp only [BitArray.bytes, frame, hps, Set.mem_Ico] at hb ⊢
        omega)
      rw [hframe x hbytes]
      exact BitArray.initializeOn_frame (by omega) hmap hbytes
    have hsub : blk.pages ⊆ F := by
      rw [PageBlock.pages_frame]
      exact fun x hx => maximal_subset hmax ⟨hx.1, by have := hx.2; omega⟩
    refine ⟨⟨e, n, frame p + BitArray.expectedSize n, frame p,
      ⟨n, frame p⟩, true⟩, m₃, pa₁, ?_, rfl, rfl, Or.inr ⟨k, p, rfl, rfl, hle, hmax, ?_, ?_, ?_,
      fun x hx => ?_⟩⟩
    · simp only [initializeOn, hrun, bind, Except.bind, if_neg hne, hmemory]
      rfl
    · exact ⟨he, hlt, Nat.pos_of_ne_zero hne, rfl, rfl, hin, hspace⟩
    · have hinv' : PageAllocator.Inv lay m₃ pa₁ (blk :: live) _ :=
        hinv.write fun x hx => hwrite x fun hb => hx (Or.inr (Set.mem_biUnion hmem hb))
      rw [← PageBlock.pages_frame p (requiredPages e n)] at hinv'
      exact hinv'
    · intro j hj
      rw [hbits j hj]
      simp [hj]
    · have hF : x / pageSize ∉ F := fun hf => hx (Or.inl hf)
      rw [hwrite x fun hb => hF (hsub hb)]
      exact hagree x hx

end SlabAllocator

end Bolgenos
