import Bolgenos.Memory.HeapInvariant

/-!
# The start of the kernel heap

`Mallocator::initialize` takes the areas of 34 slabs from the page allocator. When it
returns, the invariant of the heap holds with no allocations in use, and it does return
when the free pages have 34 aligned runs of 512 pages.
-/

namespace Bolgenos

open ByteMemory FuelLoop LinkedChain Dyadic

namespace Mallocator

structure ChainInv (lay : Layout) (m : Mem) (pa : PageAllocator) (internal : SlabAllocator)
    (chain : List SlabAllocator) (F : Set ℕ) : Prop where
  pageInv : PageAllocator.Inv lay m pa ((internal :: chain).map SlabAllocator.block) F
  shaped : ∀ slab ∈ internal :: chain, slab.Shaped
  unit : ∀ i slab, chain[i]? = some slab → slab.elemSize = chainUnitSize i ∧ 0 < slab.nelems
  free : ∀ slab ∈ chain, ∀ j < slab.nelems, slab.allocationMap.get m j = true
  used : ∀ j < internal.nelems, internal.allocationMap.get m j = false

variable {lay : Layout} {m m' : Mem} {pa pa' : PageAllocator} {ma : Mallocator}
  {internal : SlabAllocator} {chain : List SlabAllocator} {F : Set ℕ} {n : ℕ}

theorem chainUnit_bounds {i : ℕ} (hi : i < 33) :
    0 < chainUnitSize i ∧ 0 < 2 ^ 20 / chainUnitSize i ∧ 2 ^ 20 / chainUnitSize i < 2 ^ 31 ∧
      chainUnitSize i * (2 ^ 20 / chainUnitSize i) +
        BitArray.expectedSize (2 ^ 20 / chainUnitSize i) + pageSize ≤ 2 ^ 32 ∧
      SlabAllocator.requiredPages (chainUnitSize i) (2 ^ 20 / chainUnitSize i) ≤ 2 ^ 9 := by
  decide +revert

theorem ChainInv.step (h : ChainInv lay m pa internal chain F) (hlen : chain.length < 33) :
    (∃ slab m' pa' j p, chainStep (2 ^ 20) (chain, m, pa) chain.length =
        .ok (chain ++ [slab], m', pa') ∧ Maximal maxOrder F j p ∧ slab.block.size ≤ 2 ^ j ∧
      slab.block.size ≤ 2 ^ 9 ∧
      ChainInv lay m' pa' internal (chain ++ [slab]) (F \ Set.Ico p (p + slab.block.size))) ∨
    ((∃ e, chainStep (2 ^ 20) (chain, m, pa) chain.length = .error e) ∧ ¬ Spare 9 1 F) := by
  obtain ⟨he, hn, hlt, hfit, hpages⟩ := chainUnit_bounds hlen
  obtain ⟨slab, m₁, pa₁, hrun, hes, hns, hcase⟩ :=
    SlabAllocator.initializeOn_spec h.pageInv he hn hlt hfit
  rcases hcase with ⟨hno, hnone⟩ | ⟨j, p, hyes, harea, hle, hmax, hshape, hinv, hbits, hagree⟩
  · refine Or.inr ⟨⟨.panic "Initializing of chain failed!", ?_⟩, fun hspare => ?_⟩
    · simp only [chainStep, hrun, hno, bind, Except.bind]
      rfl
    · obtain ⟨j, p, hj, hmax⟩ := hspare.exists_maximal (N := maxOrder) (by decide)
      exact hnone j p (hpages.trans (Nat.pow_le_pow_right (by decide) hj)) hmax
  · have hsize : slab.block.size =
        SlabAllocator.requiredPages (chainUnitSize chain.length)
          (2 ^ 20 / chainUnitSize chain.length) := by
      rw [SlabAllocator.block, hes, hns]
    have hpg : slab.block.pages = Set.Ico p (p + slab.block.size) := by
      rw [← PageBlock.pages_frame p slab.block.size, ← harea]
      rfl
    -- the maps of the earlier slabs lie in blocks in use
    have hold : ∀ s ∈ internal :: chain, ∀ k < s.nelems,
        s.allocationMap.get m₁ k = s.allocationMap.get m k := by
      intro s hs k hk
      have hsh := (h.shaped s hs).placed
      have hblk : s.block ∈ (internal :: chain).map SlabAllocator.block :=
        List.mem_map_of_mem hs
      refine BitArray.get_congr hsh.map_fits (by rwa [hsh.map_size]) fun x hx => hagree x ?_
      have hpage := hsh.map_page (h.pageInv.blocks _ hblk).1 hx
      intro hcase
      rcases hcase with hf | hm
      · exact Set.disjoint_left.mp (h.pageInv.free _ hblk) hpage hf
      · exact absurd hm.2 (Nat.not_lt.mpr (h.pageInv.pages_subset hblk hpage).1)
    refine Or.inl ⟨slab, m₁, pa₁, j, p, ?_, hmax, hsize ▸ hle, hsize ▸ hpages, ?_, ?_, ?_, ?_, ?_⟩
    · simp only [chainStep, hrun, hyes, bind, Except.bind, if_true]
    · rw [← hpg]
      apply hinv.perm
      rw [← List.cons_append, List.map_append]
      exact (List.perm_append_singleton _ _).symm
    · intro s hs
      rw [← List.cons_append, List.mem_append, List.mem_singleton] at hs
      rcases hs with hs | rfl
      · exact h.shaped s hs
      · exact hshape
    · intro i s hs
      rcases Nat.lt_trichotomy i chain.length with hi | rfl | hi
      · rw [List.getElem?_append_left hi] at hs
        exact h.unit i s hs
      · simp only [List.getElem?_concat_length, Option.some.injEq] at hs
        rw [← hs, hes, hns]
        exact ⟨rfl, hn⟩
      · rw [List.getElem?_eq_none (by simp; omega)] at hs
        cases hs
    · intro s hs k hk
      rw [List.mem_append, List.mem_singleton] at hs
      rcases hs with hs | rfl
      · rw [hold s (List.mem_cons_of_mem _ hs) k hk]
        exact h.free s hs k hk
      · exact hbits k (hns ▸ hk)
    · intro k hk
      rw [hold internal List.mem_cons_self k hk]
      exact h.used k hk

theorem ChainInv.fold (h : ChainInv lay m pa internal [] F) (hn : n ≤ 33) :
    (∀ s, (List.range n).foldlM (chainStep (2 ^ 20)) ([], m, pa) = .ok s →
        s.1.length = n ∧ ∃ F', ChainInv lay s.2.1 s.2.2 internal s.1 F') ∧
      ∀ c, Spare 9 (c + n) F → ∃ s F', (List.range n).foldlM (chainStep (2 ^ 20)) ([], m, pa) =
        .ok s ∧ s.1.length = n ∧ ChainInv lay s.2.1 s.2.2 internal s.1 F' ∧ Spare 9 c F' := by
  induction n with
  | zero =>
    refine ⟨fun s hs => ?_, fun c hc => ⟨([], m, pa), F, rfl, rfl, h, hc⟩⟩
    cases hs
    exact ⟨rfl, F, h⟩
  | succ n ih =>
    obtain ⟨hsound, htotal⟩ := ih (by omega)
    rw [List.range_succ, List.foldlM_append]
    constructor
    · intro s hs
      cases hfold : (List.range n).foldlM (chainStep (2 ^ 20)) ([], m, pa) with
      | error e =>
        rw [hfold] at hs
        cases hs
      | ok s₁ =>
        obtain ⟨chain, m₁, pa₁⟩ := s₁
        obtain ⟨hlen, F₁, hinv⟩ := hsound _ hfold
        simp only at hlen hinv
        rcases hinv.step (by omega) with
          ⟨slab, m₂, pa₂, j, p, hstep, -, -, -, hinv'⟩ | ⟨⟨e, hstep⟩, -⟩
        · rw [hlen] at hstep
          simp only [hfold, List.foldlM_cons, List.foldlM_nil, hstep, bind, Except.bind, pure,
            Except.pure, Except.ok.injEq] at hs
          subst hs
          exact ⟨by simp [hlen], _, hinv'⟩
        · rw [hlen] at hstep
          simp only [hfold, List.foldlM_cons, hstep, bind, Except.bind] at hs
          cases hs
    · intro c hc
      obtain ⟨⟨chain, m₁, pa₁⟩, F₁, hfold, hlen, hinv, hspare⟩ := htotal (c + 1)
        (by rwa [show c + 1 + n = c + (n + 1) by omega])
      simp only at hlen hinv
      rcases hinv.step (by omega) with
        ⟨slab, m₂, pa₂, j, p, hstep, hmax, hle, hle', hinv'⟩ | ⟨-, hno⟩
      · rw [hlen] at hstep
        refine ⟨(chain ++ [slab], m₂, pa₂), _, ?_, by simp [hlen], hinv',
          hspare.take (by decide) hmax hle' hle⟩
        simp only [hfold, List.foldlM_cons, List.foldlM_nil, hstep, bind, Except.bind, pure,
          Except.pure]
      · obtain ⟨S, hcard, hS⟩ := hspare
        exact absurd ⟨S, by omega, hS⟩ hno

theorem internal_spec (h : PageAllocator.Inv lay m pa [] F) :
    ∃ internal m₁ pa₁, SlabAllocator.initializeOn m pa (wrap (sizeofSlabAllocator * 33)) 1 =
        .ok (internal, m₁, pa₁) ∧
      ((internal.initialized = false ∧ ¬ Spare 9 1 F) ∨
        (internal.initialized = true ∧ ∃ r m₂ F₁, internal.allocate m₁ = .ok (r, m₂) ∧
          ChainInv lay m₂ pa₁ internal [] F₁ ∧ ∀ c, Spare 9 (c + 1) F → Spare 9 c F₁)) := by
  have hsize : wrap (sizeofSlabAllocator * 33) = 924 := by decide
  have hpages : SlabAllocator.requiredPages 924 1 = 1 := by decide
  rw [hsize]
  obtain ⟨internal, m₁, pa₁, hrun, hes, hns, hcase⟩ :=
    SlabAllocator.initializeOn_spec (e := 924) (n := 1) h (by decide) (by decide)
      (by decide) (by decide)
  refine ⟨internal, m₁, pa₁, hrun, ?_⟩
  rcases hcase with ⟨hno, hnone⟩ | ⟨j, p, hyes, harea, hle, hmax, hshape, hinv, hbits, -⟩
  · refine Or.inl ⟨hno, fun hspare => ?_⟩
    obtain ⟨j, p, -, hmax⟩ := hspare.exists_maximal (N := maxOrder) (by decide)
    exact hnone j p (by rw [hpages]; exact Nat.one_le_two_pow) hmax
  · have hblk : internal.block ∈ [internal.block] := List.mem_singleton_self _
    have hpg : internal.block.pages = Set.Ico p (p + 1) := by
      rw [← PageBlock.pages_frame p 1, ← harea, ← hpages, ← hes, ← hns]
      rfl
    have hspare : ∀ c, Spare 9 (c + 1) F → Spare 9 c (F \ internal.block.pages) := fun c hc => by
      rw [hpg]
      exact hc.take (by decide) hmax (by decide) Nat.one_le_two_pow
    refine Or.inr ⟨hyes, ?_⟩
    have hplaced := hshape.placed
    rcases hplaced.allocate_eq m₁ with ⟨k, hk, -, -, halloc⟩ | ⟨hfull, -⟩
    · have hk0 : k < internal.allocationMap.size := by rwa [hplaced.map_size]
      refine ⟨_, _, _, halloc, ⟨hinv.write fun x hx => ?_, fun s hs => ?_, by simp, by simp,
        fun k' hk' => ?_⟩, hspare⟩
      · apply BitArray.set_frame hplaced.map_fits hk0 false
        intro heq
        subst heq
        exact hx (Or.inr (Set.mem_biUnion hblk (hplaced.map_page (hinv.blocks _ hblk).1
          (BitArray.byte_mem hk0))))
      · rwa [List.mem_singleton.mp hs]
      · obtain rfl : k' = k := by omega
        rw [BitArray.get_set hplaced.map_fits hk0 hk0, if_pos rfl]
    · have hone := hfull 0 (by omega)
      rw [hbits 0 (by decide)] at hone
      cases hone

theorem ChainInv.inv (h : ChainInv lay m pa internal chain F) (hlen : chain.length = 33) :
    Inv lay m pa ⟨33, chain, internal, true⟩ [] [] F := by
  refine ⟨by simpa [slabs] using h.pageInv, rfl, hlen, rfl, h.shaped, h.unit,
    fun i slab hi j hj => ?_, h.used, by simp, by simp, by simp, List.Pairwise.nil⟩
  rw [h.free slab (List.mem_of_getElem? hi) j hj]
  simp

theorem initializeOn_inv (h : PageAllocator.Inv lay m pa [] F)
    (hrun : initializeOn m pa (2 ^ 20) 33 = .ok (ma, m', pa')) :
    ∃ F', Inv lay m' pa' ma [] [] F' := by
  obtain ⟨internal, m₁, pa₁, hslab, hcase⟩ := internal_spec h
  rcases hcase with ⟨hno, -⟩ | ⟨hyes, r, m₂, F₁, halloc, hinv, -⟩
  · simp [initializeOn, hslab, hno, bind, Except.bind] at hrun
  · simp only [initializeOn, hslab, hyes, halloc, bind, Except.bind, if_true] at hrun
    cases hfold : (List.range 33).foldlM (chainStep (2 ^ 20)) ([], m₂, pa₁) with
    | error e =>
      rw [hfold] at hrun
      cases hrun
    | ok s =>
      obtain ⟨hlen, F', hinv'⟩ := (hinv.fold le_rfl).1 s hfold
      rw [hfold] at hrun
      cases hrun
      exact ⟨F', hinv'.inv hlen⟩

/-- 34 aligned runs of 512 free pages are enough for the initialization. -/
theorem initializeOn_ok (h : PageAllocator.Inv lay m pa [] F) (hspare : Spare 9 34 F) :
    ∃ ma m' pa', initializeOn m pa (2 ^ 20) 33 = .ok (ma, m', pa') := by
  obtain ⟨internal, m₁, pa₁, hslab, hcase⟩ := internal_spec h
  rcases hcase with ⟨-, hno⟩ | ⟨hyes, r, m₂, F₁, halloc, hinv, htake⟩
  · obtain ⟨S, hcard, hS⟩ := hspare
    exact absurd ⟨S, by omega, hS⟩ hno
  · obtain ⟨s, F', hfold, -⟩ := (hinv.fold le_rfl).2 0 (htake 33 hspare)
    refine ⟨⟨33, s.1, internal, true⟩, s.2.1, s.2.2, ?_⟩
    simp only [initializeOn, hslab, hyes, halloc, bind, Except.bind, if_true, hfold]

end Mallocator

end Bolgenos
