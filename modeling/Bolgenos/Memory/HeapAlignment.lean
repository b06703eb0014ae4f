import Bolgenos.Memory.RequestSizes
import Bolgenos.Memory.SlabRuns

/-!
# The alignment of heap pointers

The elements of a slab start right behind its bit array, and the length of the bit array is
not rounded. So the elements of a size class are at multiples of eight exactly when that
length is one, and this is the case for ten of the 33 classes.
-/

namespace Bolgenos

open ByteMemory FuelLoop LinkedChain Dyadic

namespace Mallocator

def operatorNew (m : Mem) (pa : PageAllocator) (ma : Mallocator) (size : ℕ) :
    Result (ℕ × Mem × PageAllocator) :=
  allocate m pa ma size

def operatorNewArray (m : Mem) (pa : PageAllocator) (ma : Mallocator) (size : ℕ) :
    Result (ℕ × Mem × PageAllocator) :=
  allocate m pa ma size

variable {lay : Layout} {m m' : Mem} {pa pa' : PageAllocator} {ma : Mallocator}
  {heap : List HeapBlock} {pages : List PageBlock} {F : Set ℕ} {slab : SlabAllocator} {i j n : ℕ}

def Sized (chainMemory : ℕ) (chain : List SlabAllocator) : Prop :=
  ∀ i slab, chain[i]? = some slab → slab.nelems = chainMemory / chainUnitSize i

theorem chainStep_sized {c : ℕ} {s s' : List SlabAllocator × Mem × PageAllocator}
    (hs : Sized c s.1) (h : chainStep c s s.1.length = .ok s') :
    Sized c s'.1 ∧ s'.1.length = s.1.length + 1 := by
  obtain ⟨r, hinit, hrest⟩ := Result.bind_ok.mp h
  obtain ⟨slab, m₁, pa₁⟩ := r
  cases hok : slab.initialized with
  | false => simp [hok] at hrest
  | true =>
    simp only [hok, if_true, Except.ok.injEq] at hrest
    subst hrest
    refine ⟨?_, by simp⟩
    intro i slab' hi
    rcases Nat.lt_trichotomy i s.1.length with hlt | heq | hgt
    · rw [List.getElem?_append_left hlt] at hi
      exact hs i slab' hi
    · obtain ⟨area, m₂, -, hslab, -⟩ := SlabAllocator.initializeOn_cases hinit hok
      rw [heq, List.getElem?_concat_length, Option.some.injEq] at hi
      rw [← hi, heq, hslab]
    · rw [List.getElem?_eq_none (by simp; omega)] at hi
      cases hi

theorem fold_sized {c : ℕ} {s : List SlabAllocator × Mem × PageAllocator} (n : ℕ)
    (h : (List.range n).foldlM (chainStep c) ([], m, pa) = .ok s) :
    Sized c s.1 ∧ s.1.length = n := by
  induction n generalizing s with
  | zero =>
    cases h
    exact ⟨fun i slab hi => by simp at hi, rfl⟩
  | succ n ih =>
    rw [List.range_succ, List.foldlM_append] at h
    obtain ⟨s₁, hfold, hstep⟩ := Result.bind_ok.mp h
    obtain ⟨hsized, hlen⟩ := ih hfold
    rw [List.foldlM_cons] at hstep
    obtain ⟨s₂, hstep, hlast⟩ := Result.bind_ok.mp hstep
    cases hlast
    rw [← hlen] at hstep
    obtain ⟨hsized', hlen'⟩ := chainStep_sized hsized hstep
    exact ⟨hsized', by omega⟩

theorem initializeOn_sized {c k : ℕ} (h : initializeOn m pa c k = .ok (ma, m', pa')) :
    Sized c ma.chain := by
  obtain ⟨r, -, hrest⟩ := Result.bind_ok.mp h
  obtain ⟨internal, m₁, pa₁⟩ := r
  cases hok : internal.initialized with
  | false => simp [hok] at hrest
  | true =>
    simp only [hok, if_true] at hrest
    obtain ⟨r₂, -, hrest⟩ := Result.bind_ok.mp hrest
    obtain ⟨s, hfold, hrest⟩ := Result.bind_ok.mp hrest
    cases hrest
    exact (fold_sized k hfold).1

theorem Run.sized (h : Run lay m pa ma heap pages) : Sized (2 ^ 20) ma.chain := by
  induction h with
  | start _ _ hheap => exact initializeOn_sized hheap
  | kmalloc _ _ _ ih => exact ih
  | kfree _ _ _ ih => exact ih
  | kfreeNull _ _ ih => exact ih
  | allocPages _ _ _ ih => exact ih
  | freePages _ _ _ ih => exact ih
  | freePagesNone _ _ _ ih => exact ih
  | write _ _ ih => exact ih

def ServedFrom (ma : Mallocator) (m : Mem) (n i : ℕ) : Prop :=
  ma.startIndex n ≤ i ∧
    (∃ slab, ma.chain[i]? = some slab ∧ ∃ j < slab.nelems, slab.allocationMap.get m j = true) ∧
    ∀ i' slab, ma.startIndex n ≤ i' → i' < i → ma.chain[i']? = some slab →
      ∀ j < slab.nelems, slab.allocationMap.get m j = false

theorem ServedFrom.unique {i' : ℕ} (h : ServedFrom ma m n i) (h' : ServedFrom ma m n i') :
    i = i' := by
  obtain ⟨hle, ⟨slab, hi, j, hj, hfree⟩, hfirst⟩ := h
  obtain ⟨hle', ⟨slab', hi', j', hj', hfree'⟩, hfirst'⟩ := h'
  rcases Nat.lt_trichotomy i i' with hlt | heq | hgt
  · rw [hfirst' i slab hle hlt hi j hj] at hfree
    cases hfree
  · exact heq
  · rw [hfirst i' slab' hle' hgt hi' j' hj'] at hfree'
    cases hfree'

/-- The classes of 8, 16, 32, 64, 128, 256, 304, 400, 432 and 512 bytes. -/
def alignedClasses : List ℕ := [0, 1, 2, 4, 8, 16, 19, 25, 27, 32]

theorem class_aligned_iff (hi : i < 33) :
    8 ∣ chainUnitSize i ∧
      (8 ∣ BitArray.expectedSize (2 ^ 20 / chainUnitSize i) ↔ i ∈ alignedClasses) := by
  decide +revert

theorem Inv.chunk_aligned_iff (h : Inv lay m pa ma heap pages F) (hs : Sized (2 ^ 20) ma.chain)
    (hi : ma.chain[i]? = some slab) : 8 ∣ slab.chunk j ↔ i ∈ alignedClasses := by
  have hlt : i < 33 := by
    rw [← h.short, ← h.length]
    exact (List.getElem?_eq_some_iff.mp hi).1
  obtain ⟨hunit, hclass⟩ := class_aligned_iff hlt
  have harea : 8 ∣ slab.area := by
    rw [h.area_eq (h.chain_mem hi)]
    exact Dvd.dvd.mul_right (by decide) _
  have hcell : 8 ∣ j * slab.elemSize := by
    rw [(h.unit i slab hi).1]
    exact hunit.mul_left j
  rw [SlabAllocator.chunk, (h.shaped _ (h.chain_mem hi)).memory_eq, hs i slab hi, ← hclass,
    Nat.dvd_add_left hcell, Nat.dvd_add_right harea]

theorem Inv.allocate_aligned_iff (h : Inv lay m pa ma heap pages F)
    (hs : Sized (2 ^ 20) ma.chain) (hlow : 8 ≤ n) (hn : n ≤ 2 ^ 32 - 4096) :
    ∃ ptr m' pa', allocate m pa ma n = .ok (ptr, m', pa') ∧
      ((ptr ≠ 0 → 8 ∣ ptr) ↔ ∀ i, ServedFrom ma m n i → i ∈ alignedClasses) := by
  rcases h.search_spec (ma.startIndex_le n) with ⟨i, slab, j, hki, hi, hj, hbit, hfirst, hrun⟩ |
    ⟨hfull, hrun⟩
  · have hserved : ServedFrom ma m n i := ⟨hki, ⟨slab, hi, j, hj, hbit⟩, hfirst⟩
    have hne := (h.shaped _ (h.chain_mem hi)).placed.chunk_ne hj
    refine ⟨slab.chunk j, slab.allocationMap.set m j false, pa, ?_, ?_⟩
    · simp only [allocate, allocateFrom, h.assertInitialized_ok, hrun, bind, Except.bind]
    · rw [h.chunk_aligned_iff hs hi]
      constructor
      · intro haligned i' hi'
        rw [← hserved.unique hi']
        exact haligned hne
      · intro hall _
        exact hall i hserved
  · obtain ⟨-, hpos, hle⟩ := pagesFor_bounds hn
    obtain ⟨ptr, m₁, pa₁, halloc, hcase⟩ := PageAllocator.allocate_spec h.pageInv
      (hpos (by omega)) (by omega)
    refine ⟨ptr, m₁, pa₁, ?_, ?_⟩
    · simp only [allocate, allocateFrom, h.assertInitialized_ok, hrun, bind, Except.bind, halloc]
    · refine iff_of_true ?_ ?_
      · intro hne
        rcases hcase with ⟨hnull, -⟩ | ⟨k, p, hptr, -⟩
        · exact absurd hnull hne
        · rw [hptr]
          exact Dvd.dvd.mul_right (by decide) _
      · intro i hserved
        obtain ⟨hki, ⟨slab, hi, j, hj, hbit⟩, -⟩ := hserved
        rw [hfull i slab hki hi j hj] at hbit
        cases hbit

/-- A pointer of `kmalloc` is a multiple of eight or null exactly when no class with a bit
array of another length serves the request. -/
theorem kmalloc_aligned_iff (h : Run lay m pa ma heap pages) (hlow : 8 ≤ n)
    (hn : n ≤ 2 ^ 32 - 4096) :
    ∃ ptr m' pa', allocate m pa ma n = .ok (ptr, m', pa') ∧
      operatorNew m pa ma n = .ok (ptr, m', pa') ∧
      operatorNewArray m pa ma n = .ok (ptr, m', pa') ∧
      ((ptr ≠ 0 → 8 ∣ ptr) ↔ ∀ i, ServedFrom ma m n i → i ∈ alignedClasses) := by
  obtain ⟨F, hinv⟩ := run_inv h
  obtain ⟨ptr, m', pa', hrun, hiff⟩ := hinv.allocate_aligned_iff h.sized hlow hn
  exact ⟨ptr, m', pa', hrun, hrun, hrun, hiff⟩

theorem servedFrom_start (h : Inv lay m pa ma [] pages F) (hi : ma.startIndex n < 33) :
    ServedFrom ma m n (ma.startIndex n) := by
  have hlt : ma.startIndex n < ma.chain.length := by
    rw [h.length, h.short]
    exact hi
  have hget := List.getElem?_eq_getElem hlt
  refine ⟨le_rfl, ⟨_, hget, 0, (h.unit _ _ hget).2, ?_⟩, fun i' slab hle hlt' => by omega⟩
  have hbit := h.bits _ _ hget 0 (h.unit _ _ hget).2
  simpa using hbit

theorem kmalloc_aligned_sixtyFour : ∃ m pa ma ptr m' pa', Run mediumLayout m pa ma [] [] ∧
    allocate m pa ma 64 = .ok (ptr, m', pa') ∧ (ptr ≠ 0 → 8 ∣ ptr) := by
  obtain ⟨m, pa, ma, hrun⟩ := exists_run_mediumLayout
  obtain ⟨F, hinv⟩ := run_inv hrun
  obtain ⟨ptr, m', pa', halloc, -, -, hiff⟩ :=
    kmalloc_aligned_iff hrun (n := 64) (by decide) (by decide)
  have hstart : ma.startIndex 64 = 4 := by
    simp only [startIndex, hinv.short]
    decide
  have hserved := servedFrom_start hinv (n := 64) (by omega)
  refine ⟨m, pa, ma, ptr, m', pa', hrun, halloc, hiff.mpr ?_⟩
  intro i hi
  rw [← hserved.unique hi, hstart]
  decide

theorem kmalloc_not_aligned_fortyEight : ¬ ∀ lay m pa ma heap pages n,
    Run lay m pa ma heap pages → 8 ≤ n → n ≤ 2 ^ 32 - 4096 → ∀ ptr m' pa',
      allocate m pa ma n = .ok (ptr, m', pa') → ptr ≠ 0 → 8 ∣ ptr := by
  intro hall
  obtain ⟨m, pa, ma, hrun⟩ := exists_run_mediumLayout
  obtain ⟨F, hinv⟩ := run_inv hrun
  obtain ⟨ptr, m', pa', halloc, hiff⟩ :=
    hinv.allocate_aligned_iff hrun.sized (n := 48) (by decide) (by decide)
  have hstart : ma.startIndex 48 = 3 := by
    simp only [startIndex, hinv.short]
    decide
  have hserved := servedFrom_start hinv (n := 48) (by omega)
  have hmem := hiff.mp (hall _ m pa ma [] [] 48 hrun (by decide) (by decide) ptr m' pa' halloc)
    _ hserved
  rw [hstart] at hmem
  exact absurd hmem (by decide)

end Mallocator

end Bolgenos
