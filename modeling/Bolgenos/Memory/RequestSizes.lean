import Bolgenos.Memory.HeapRuns

/-!
# Requests near the end of the word

The search for the order of a page request compares the request with a shifted one, and the
roundings of `kmalloc` add to the size that was asked for. Both are done in words of 32 bits,
so both go wrong for the largest requests: the search is never left, or the rounded size is
zero.
-/

namespace Bolgenos

open ByteMemory FuelLoop LinkedChain Dyadic

theorem shiftOne_le (order : ℕ) : shiftOne order ≤ 2 ^ 31 := by
  have hle : 2 ^ (order % 32) ≤ 2 ^ 31 := Nat.pow_le_pow_right (by omega) (by omega)
  rw [shiftOne, wrap_of_lt (by omega)]
  exact hle

namespace PageAllocator

variable {m : Mem} {pa : PageAllocator} {n : ℕ}

theorem order_diverges (hn : 2 ^ 31 < n) (fuel : ℕ) :
    loop .divergence (BuddyAllocator.orderStep n) fuel 0 = .error .divergence := by
  refine loop_diverges (fun _ => True) ?_ fuel trivial
  intro order _
  refine ⟨wrap (order + 1), ?_, trivial⟩
  rw [BuddyAllocator.orderStep, if_pos ((shiftOne_le order).trans_lt hn)]

theorem allocate_too_large (hlarge : 1024 < n) (hn : n ≤ 2 ^ 31) :
    ∃ pa', allocate m pa n = .ok (0, m, pa') ∧ pa'.primary.freeList = pa.primary.freeList ∧
      pa'.map = pa.map := by
  obtain ⟨o, ho, hfit, -⟩ := BuddyAllocator.order_spec hn
  have hbig : maxOrder < o := by
    by_contra hle
    have hpow : 2 ^ o ≤ 2 ^ 10 := Nat.pow_le_pow_right (by omega) (Nat.not_lt.mp hle)
    omega
  have hget : pa.primary.get m n = .ok ({}, m,
      { pa.primary with allocations := wrap (pa.primary.allocations + 1) }) := by
    simp only [BuddyAllocator.get, ho, bind, Except.bind, if_pos hbig]
  refine ⟨{ pa with primary := { pa.primary with
    allocations := wrap (pa.primary.allocations + 1) } }, ?_, rfl, rfl⟩
  simp only [allocate, if_neg (show n ≠ 0 by omega), hget, bind, Except.bind]
  rfl

/-- A page request is answered, with null and no change if it is for more than 1024 pages,
exactly when it is for at most `2 ^ 31` pages. -/
theorem request_answered_iff (m : Mem) (pa : PageAllocator) (n : ℕ) :
    ((∃ fuel order, loop .divergence (BuddyAllocator.orderStep n) fuel 0 = .ok order) ∧
      (1024 < n → ∃ pa', allocate m pa n = .ok (0, m, pa') ∧
        pa'.primary.freeList = pa.primary.freeList ∧ pa'.map = pa.map)) ↔ n ≤ 2 ^ 31 := by
  constructor
  · intro hexists
    obtain ⟨⟨fuel, order, hrun⟩, -⟩ := hexists
    by_contra hlarge
    rw [order_diverges (by omega)] at hrun
    cases hrun
  · intro hn
    obtain ⟨o, ho, -⟩ := BuddyAllocator.order_spec hn
    exact ⟨⟨budget, o, ho⟩, fun hlarge => allocate_too_large hlarge hn⟩

theorem request_never_answered : ¬ ∀ n < 2 ^ 32, ∃ fuel order,
    loop .divergence (BuddyAllocator.orderStep n) fuel 0 = .ok order := by
  intro hall
  obtain ⟨fuel, order, hrun⟩ := hall (2 ^ 31 + 1) (by decide)
  rw [order_diverges (by decide)] at hrun
  cases hrun

end PageAllocator

namespace Mallocator

variable {lay : Layout} {m m' : Mem} {pa pa' : PageAllocator} {ma : Mallocator}
  {heap : List HeapBlock} {pages : List PageBlock} {F : Set ℕ} {i n ptr : ℕ}

def Serves (lay : Layout) (m : Mem) (pa : PageAllocator) (ma : Mallocator) (n ptr : ℕ) :
    Option ℕ → Prop
  | some i => ∃ slab j, ma.chain[i]? = some slab ∧ j < slab.nelems ∧ ptr = slab.chunk j ∧
      n ≤ slab.elemSize
  | none => ∃ live F k, PageAllocator.Inv lay m pa live F ∧ ⟨ptr, k⟩ ∈ live ∧
      (n + pageSize - 1) / pageSize ≤ k

theorem Inv.serves {origin : Option ℕ} (h : Inv lay m pa ma (⟨ptr, n, origin⟩ :: heap) pages F)
    (hpos : n ≠ 0) (hn : n ≤ 2 ^ 32 - 4096) : Serves lay m pa ma n ptr origin := by
  cases origin with
  | some i => exact h.elements ⟨ptr, n, some i⟩ (by simp) i rfl
  | none =>
    have hmem := Inv.pageBlock_mem (a := ⟨ptr, n, none⟩) (List.mem_cons_self (l := heap)) rfl hpos
    have hbytes := (pagesFor_bounds hn).1
    refine ⟨_, F, pagesFor n, h.pageInv,
      List.mem_append_right _ (List.mem_append_left _ hmem), ?_⟩
    simp only [pageSize] at hbytes ⊢
    omega

theorem pagesFor_oversize (hbig : 2 ^ 32 - 4096 < n) (hn : n < 2 ^ 32) : pagesFor n = 0 := by
  have hmod : n % pageSize ≠ 0 := by
    simp only [pageSize]
    omega
  rw [pagesFor, alignUp, if_pos hmod]
  simp only [alignDown, pageSize, wrap]
  omega

/-- A request above the bound is rounded to nothing: it gets an element of a slab or the page
of size zero, never null. -/
theorem Inv.allocateFrom_oversize (h : Inv lay m pa ma heap pages F) (hbig : 2 ^ 32 - 4096 < n)
    (hn : n < 2 ^ 32) :
    ∃ origin ptr m' pa', allocateFrom m pa ma n = .ok (origin, ptr, m', pa') ∧ ptr ≠ 0 ∧
      (∃ heap', Inv lay m' pa' ma heap' pages F) ∧
      (origin = none ∧ ptr = zeroSizePage ∨
        ∃ i slab, origin = some i ∧ ma.chain[i]? = some slab ∧ slab.elemSize ≤ 512) := by
  rcases h.search_spec (ma.startIndex_le n) with
    ⟨i, slab, j, -, hi, hj, hbit, -, hrun⟩ | ⟨-, hrun⟩
  · have hlt : i < 33 := by
      rw [← h.short, ← h.length]
      exact (List.getElem?_eq_some_iff.mp hi).1
    have hshape := (h.shaped _ (h.chain_mem hi)).placed
    have hne := hshape.chunk_ne hj
    have hsize : slab.elemSize ≤ 512 := by
      rw [(h.unit i slab hi).1, chainUnitSize, wrap_of_lt (by omega)]
      split_ifs <;> omega
    refine ⟨some i, slab.chunk j, _, pa, ?_, hne,
      ⟨_, h.take hi hj hbit le_rfl (hsize.trans (by decide))⟩, Or.inr ⟨i, slab, rfl, hi, hsize⟩⟩
    simp only [allocateFrom, h.assertInitialized_ok, hrun, bind, Except.bind]
  · refine ⟨none, zeroSizePage, m, pa, ?_, by decide, ⟨heap, h⟩, Or.inl ⟨rfl, rfl⟩⟩
    simp only [allocateFrom, h.assertInitialized_ok, hrun, bind, Except.bind,
      pagesFor_oversize hbig hn]
    rfl

theorem not_serves (hbig : 2 ^ 32 - 4096 < n) {origin : Option ℕ}
    (horigin : origin = none ∧ ptr = zeroSizePage ∨
      ∃ i slab, origin = some i ∧ ma.chain[i]? = some slab ∧ slab.elemSize ≤ 512) :
    ¬ Serves lay m pa ma n ptr origin := by
  rcases horigin with ⟨rfl, rfl⟩ | ⟨i, slab, rfl, hi, hsize⟩
  · intro hexists
    obtain ⟨live, G, k, hinv, hmem, -⟩ := hexists
    have hptr := (hinv.blocks _ hmem).1
    simp only [zeroSizePage, frame, pageSize] at hptr
    omega
  · intro hexists
    obtain ⟨slab', j, hi', -, -, hle⟩ := hexists
    rw [hi] at hi'
    cases hi'
    omega

/-- `kmalloc` of any size returns and keeps the heap in its invariant. What it returns is null
or storage for all the bytes asked for exactly when the size is not above the last page. -/
theorem kmalloc_serves_iff (h : Inv lay m pa ma heap pages F) (hpos : 1 ≤ n) (hn : n < 2 ^ 32) :
    ∃ origin ptr m' pa', allocateFrom m pa ma n = .ok (origin, ptr, m', pa') ∧
      (∃ heap' F', Inv lay m' pa' ma heap' pages F') ∧
      (ptr = 0 ∨ Serves lay m' pa' ma n ptr origin ↔ n ≤ 2 ^ 32 - 4096) := by
  rcases Nat.lt_or_ge (2 ^ 32 - 4096) n with hbig | hsmall
  · obtain ⟨origin, ptr, m', pa', hrun, hne, ⟨heap', hinv⟩, horigin⟩ :=
      h.allocateFrom_oversize hbig hn
    refine ⟨origin, ptr, m', pa', hrun, ⟨heap', F, hinv⟩, iff_of_false ?_ (by omega)⟩
    intro hcase
    rcases hcase with hnull | hserves
    · exact hne hnull
    · exact not_serves hbig horigin hserves
  · obtain ⟨origin, ptr, m', pa', hrun, hcase⟩ := h.allocateFrom_spec hsmall
    refine ⟨origin, ptr, m', pa', hrun, ?_⟩
    rcases hcase with ⟨hnull, hinv, -⟩ | ⟨-, F', hinv⟩
    · exact ⟨⟨heap, F, hinv⟩, iff_of_true (Or.inl hnull) hsmall⟩
    · exact ⟨⟨_, F', hinv⟩, iff_of_true (Or.inr (hinv.serves (by omega) hsmall)) hsmall⟩

theorem exists_run_mediumLayout : ∃ m pa ma, Run mediumLayout m pa ma [] [] := by
  obtain ⟨b, m₁, pa₁, hinit, hpages, hinv⟩ :=
    PageAllocator.initializeOn_spec mediumLayout fun _ => 0
  obtain ⟨ma, m₂, pa₂, hheap⟩ := initializeOn_ok hinv spare_mediumLayout
  exact ⟨m₂, pa₂, ma, Run.start hinit hpages hheap⟩

theorem kmalloc_serves_one : ∃ m pa ma origin ptr m' pa',
    Run mediumLayout m pa ma [] [] ∧ allocateFrom m pa ma 1 = .ok (origin, ptr, m', pa') ∧
      (ptr = 0 ∨ Serves mediumLayout m' pa' ma 1 ptr origin) := by
  obtain ⟨m, pa, ma, hrun⟩ := exists_run_mediumLayout
  obtain ⟨F, hinv⟩ := run_inv hrun
  obtain ⟨origin, ptr, m', pa', halloc, -, hiff⟩ :=
    kmalloc_serves_iff hinv (n := 1) le_rfl (by decide)
  exact ⟨m, pa, ma, origin, ptr, m', pa', hrun, halloc, hiff.mpr (by decide)⟩

theorem kmalloc_not_serves_largest : ¬ ∀ lay m pa ma heap pages n, Run lay m pa ma heap pages →
    1 ≤ n → n < 2 ^ 32 → ∃ origin ptr m' pa',
      allocateFrom m pa ma n = .ok (origin, ptr, m', pa') ∧
        (ptr = 0 ∨ Serves lay m' pa' ma n ptr origin) := by
  intro hall
  obtain ⟨m, pa, ma, hrun⟩ := exists_run_mediumLayout
  obtain ⟨F, hinv⟩ := run_inv hrun
  obtain ⟨origin, ptr, m', pa', halloc, hcase⟩ :=
    hall mediumLayout m pa ma [] [] (2 ^ 32 - 1) hrun (by decide) (by decide)
  obtain ⟨origin', ptr', m'', pa'', halloc', hne, -, horigin⟩ :=
    hinv.allocateFrom_oversize (n := 2 ^ 32 - 1) (by decide) (by decide)
  rw [halloc] at halloc'
  cases halloc'
  rcases hcase with hnull | hserves
  · exact hne hnull
  · exact not_serves (by decide) horigin hserves

end Mallocator

end Bolgenos
