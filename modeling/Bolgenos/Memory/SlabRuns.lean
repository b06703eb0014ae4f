import Bolgenos.Lib.FaultState
import Bolgenos.Memory.Slab

/-!
# Runs of one slab

Any sequence of `allocate` and `deallocate` on a slab, with writes outside the bit array in
between. The invariant ties the bits of the map to the list of the live elements; the laws of
the slab are read off from it.
-/

namespace Bolgenos

open ByteMemory FuelLoop Dyadic

namespace SlabAllocator

def cell (slab : SlabAllocator) (p : ℕ) : Set ℕ := Set.Ico p (p + slab.elemSize)

/-- `deallocate` with the memory that it leaves behind, also when it panics. -/
def deallocateIn (slab : SlabAllocator) (addr : ℕ) : FaultState Fault Mem Unit :=
  if addr = 0 then pure ()
  else do
    if ← FaultState.lift (slab.owns addr) then
      FaultState.modify fun m =>
        slab.allocationMap.set m (sub32 addr slab.memory / slab.elemSize) true
    else FaultState.fail (.panic "Critical error")

theorem deallocateIn_eq (slab : SlabAllocator) (addr : ℕ) (m : Mem) :
    deallocateIn slab addr m =
      match deallocate m slab addr with
      | .ok m' => (.ok (), m')
      | .error e => (.error e, m) := by
  by_cases hzero : addr = 0
  · rw [deallocateIn, deallocate, if_pos hzero, if_pos hzero]
    rfl
  · rw [deallocateIn, deallocate, if_neg hzero, if_neg hzero]
    cases slab.owns addr with
    | error e => rfl
    | ok b =>
      cases b with
      | false => rfl
      | true => rfl

/-- The runs of a slab from the memory `m₀`, with the live elements. The memory outside the
bit array may change between the calls. -/
inductive Run (slab : SlabAllocator) (m₀ : Mem) : Mem → List ℕ → Prop where
  | start : Run slab m₀ m₀ []
  | allocate {m m' : Mem} {live : List ℕ} {p : ℕ} : Run slab m₀ m live →
      allocate m slab = .ok (p, m') → p ≠ 0 → Run slab m₀ m' (p :: live)
  | allocateNull {m m' : Mem} {live : List ℕ} : Run slab m₀ m live →
      SlabAllocator.allocate m slab = .ok (0, m') → Run slab m₀ m' live
  | deallocate {m m' : Mem} {live : List ℕ} {p : ℕ} : Run slab m₀ m live → p ∈ live →
      deallocate m slab p = .ok m' → Run slab m₀ m' (live.erase p)
  | deallocateNull {m m' : Mem} {live : List ℕ} : Run slab m₀ m live →
      SlabAllocator.deallocate m slab 0 = .ok m' → Run slab m₀ m' live
  | write {m m' : Mem} {live : List ℕ} : Run slab m₀ m live →
      (∀ x ∈ slab.allocationMap.bytes, m' x = m x) → Run slab m₀ m' live

structure Lawful (slab : SlabAllocator) (m : Mem) (live : List ℕ) : Prop where
  element : ∀ p ∈ live, ∃ i < slab.nelems, p = slab.memory + i * slab.elemSize
  disjoint : live.Pairwise fun p q => Disjoint (slab.cell p) (slab.cell q)
  inside : ∀ p ∈ live, slab.cell p ⊆ Set.Ico slab.area (slab.area + pageSize * slab.block.size)
  apart : ∀ p ∈ live, Disjoint (slab.cell p) slab.allocationMap.bytes
  bits : ∀ i < slab.nelems, slab.allocationMap.get m i = true ↔ slab.chunk i ∉ live
  takes : ∃ p m', SlabAllocator.allocate m slab = .ok (p, m') ∧
    (p = 0 ↔ ∀ i < slab.nelems, slab.chunk i ∈ live) ∧
    (p ≠ 0 → ∃ i < slab.nelems, p = slab.chunk i ∧ p ∉ live ∧ ∀ j < i, slab.chunk j ∈ live)
  frees : ∀ p ∈ live, ∃ m', slab.deallocateIn p m = (.ok (), m') ∧
    (∀ i < slab.nelems, slab.allocationMap.get m' i = true ↔
      slab.chunk i = p ∨ slab.allocationMap.get m i = true) ∧
    ∀ x ∉ slab.allocationMap.bytes, m' x = m x
  owned : ∀ q, ∃ b, slab.owns q = .ok b ∧
    (b = true ↔ ∃ i < slab.nelems, q ∈ slab.cell (slab.chunk i))
  foreign : ∀ q ≠ 0, (¬ ∃ i < slab.nelems, q ∈ slab.cell (slab.chunk i)) →
    slab.deallocateIn q m = (.error (.panic "Critical error"), m)

structure RunInv (slab : SlabAllocator) (m : Mem) (live : List ℕ) : Prop where
  placed : slab.Placed
  nodup : live.Nodup
  element : ∀ p ∈ live, ∃ i < slab.nelems, p = slab.chunk i
  bits : ∀ i < slab.nelems, slab.allocationMap.get m i = true ↔ slab.chunk i ∉ live

variable {slab : SlabAllocator} {m m' m₀ : Mem} {live : List ℕ} {i j p q : ℕ}

theorem RunInv.write (h : slab.RunInv m live)
    (hagree : ∀ x ∈ slab.allocationMap.bytes, m' x = m x) : slab.RunInv m' live := by
  refine ⟨h.placed, h.nodup, h.element, ?_⟩
  intro i hi
  have hsize : i < slab.allocationMap.size := by rwa [h.placed.map_size]
  rw [BitArray.get_congr h.placed.map_fits hsize hagree]
  exact h.bits i hi

theorem RunInv.get_set (h : slab.RunInv m live) (hi : i < slab.nelems) (hj : j < slab.nelems)
    (v : Bool) : slab.allocationMap.get (slab.allocationMap.set m i v) j =
      if j = i then v else slab.allocationMap.get m j := by
  have hsize := h.placed.map_size
  exact BitArray.get_set h.placed.map_fits (by omega) (by omega) v

theorem RunInv.take (h : slab.RunInv m live) (hi : i < slab.nelems) (hfree : slab.chunk i ∉ live) :
    slab.RunInv (slab.allocationMap.set m i false) (slab.chunk i :: live) := by
  refine ⟨h.placed, List.nodup_cons.mpr ⟨hfree, h.nodup⟩, ?_, ?_⟩
  · intro p hp
    rcases List.mem_cons.mp hp with hp | hp
    · exact ⟨i, hi, hp⟩
    · exact h.element p hp
  · intro j hj
    rw [h.get_set hi hj]
    by_cases hji : j = i
    · simp [hji]
    · have hne : slab.chunk j ≠ slab.chunk i := fun heq => hji (h.placed.chunk_inj heq)
      rw [if_neg hji, h.bits j hj, List.mem_cons, not_or]
      exact (and_iff_right hne).symm

theorem RunInv.release (h : slab.RunInv m live) (hi : i < slab.nelems) :
    slab.RunInv (slab.allocationMap.set m i true) (live.erase (slab.chunk i)) := by
  refine ⟨h.placed, h.nodup.erase _, fun p hp => h.element p (List.mem_of_mem_erase hp), ?_⟩
  intro j hj
  rw [h.get_set hi hj, h.nodup.mem_erase_iff]
  by_cases hji : j = i
  · simp [hji]
  · have hne : slab.chunk j ≠ slab.chunk i := fun heq => hji (h.placed.chunk_inj heq)
    rw [if_neg hji, h.bits j hj]
    simp [hne]

theorem RunInv.allocate_eq (h : slab.RunInv m live) :
    (∃ i < slab.nelems, slab.chunk i ∉ live ∧ (∀ j < i, slab.chunk j ∈ live) ∧
        SlabAllocator.allocate m slab = .ok (slab.chunk i, slab.allocationMap.set m i false)) ∨
      (∀ i < slab.nelems, slab.chunk i ∈ live) ∧
        SlabAllocator.allocate m slab = .ok (0, m) := by
  have hlive : ∀ i < slab.nelems, slab.allocationMap.get m i = false → slab.chunk i ∈ live := by
    intro i hi hused
    by_contra hfree
    rw [(h.bits i hi).mpr hfree] at hused
    cases hused
  rcases h.placed.allocate_eq m with ⟨i, hi, hfirst, hget, hrun⟩ | ⟨hfull, hrun⟩
  · refine Or.inl ⟨i, hi, (h.bits i hi).mp hget, ?_, hrun⟩
    intro j hj
    exact hlive j (hj.trans hi) (hfirst j hj)
  · exact Or.inr ⟨fun i hi => hlive i hi (hfull i hi), hrun⟩

theorem Run.inv (hrun : Run slab m₀ m live) (h₀ : slab.RunInv m₀ []) : slab.RunInv m live := by
  induction hrun with
  | start => exact h₀
  | allocate _ halloc hne ih =>
    rcases ih.allocate_eq with ⟨i, hi, hfree, -, heq⟩ | ⟨-, heq⟩
    · rw [heq] at halloc
      cases halloc
      exact ih.take hi hfree
    · rw [heq] at halloc
      cases halloc
      exact absurd rfl hne
  | allocateNull _ halloc ih =>
    rcases ih.allocate_eq with ⟨i, hi, -, -, heq⟩ | ⟨-, heq⟩
    · rw [heq, Except.ok.injEq, Prod.mk.injEq] at halloc
      exact absurd halloc.1 (ih.placed.chunk_ne hi)
    · rw [heq] at halloc
      cases halloc
      exact ih
  | deallocate _ hp hfree ih =>
    obtain ⟨i, hi, rfl⟩ := ih.element _ hp
    rw [ih.placed.deallocate_chunk hi] at hfree
    cases hfree
    exact ih.release hi
  | deallocateNull _ hfree ih =>
    cases hfree
    exact ih
  | write _ hagree ih => exact ih.write hagree

theorem Placed.mem_cell_iff (h : slab.Placed) :
    (∃ i < slab.nelems, q ∈ slab.cell (slab.chunk i)) ↔
      slab.memory ≤ q ∧ q < slab.chunk slab.nelems := by
  have hpos := h.elem_pos
  constructor
  · intro hq
    obtain ⟨i, hi, hlow, hhigh⟩ := hq
    obtain ⟨h1, h2, -⟩ := h.chunk_bounds hi
    omega
  · intro hq
    have hdiv := Nat.div_add_mod (q - slab.memory) slab.elemSize
    have hmod := Nat.mod_lt (q - slab.memory) hpos
    have hcomm := Nat.mul_comm slab.elemSize ((q - slab.memory) / slab.elemSize)
    refine ⟨(q - slab.memory) / slab.elemSize, ?_, ?_, ?_⟩
    · apply Nat.div_lt_of_lt_mul
      rw [Nat.mul_comm]
      have hhigh := hq.2
      rw [chunk] at hhigh
      omega
    · rw [chunk]
      omega
    · rw [chunk]
      omega

theorem cell_disjoint (hij : i ≠ j) :
    Disjoint (slab.cell (slab.chunk i)) (slab.cell (slab.chunk j)) := by
  rw [Set.disjoint_left]
  intro x hx hx'
  simp only [cell, Set.mem_Ico, ← chunk_succ] at hx hx'
  rcases Nat.lt_or_gt_of_ne hij with hlt | hgt
  · have hle : slab.chunk (i + 1) ≤ slab.chunk j := chunk_le hlt
    omega
  · have hle : slab.chunk (j + 1) ≤ slab.chunk i := chunk_le hgt
    omega

theorem RunInv.pairwise (h : slab.RunInv m live) :
    live.Pairwise fun p q => Disjoint (slab.cell p) (slab.cell q) := by
  refine h.nodup.imp_of_mem ?_
  intro p q hp hq hne
  obtain ⟨i, -, rfl⟩ := h.element p hp
  obtain ⟨j, -, rfl⟩ := h.element q hq
  apply cell_disjoint
  intro hij
  exact hne (by rw [hij])

theorem RunInv.takes (h : slab.RunInv m live) :
    ∃ p m', SlabAllocator.allocate m slab = .ok (p, m') ∧
    (p = 0 ↔ ∀ i < slab.nelems, slab.chunk i ∈ live) ∧
    (p ≠ 0 → ∃ i < slab.nelems, p = slab.chunk i ∧ p ∉ live ∧ ∀ j < i, slab.chunk j ∈ live) := by
  rcases h.allocate_eq with ⟨i, hi, hfree, hfirst, hrun⟩ | ⟨hfull, hrun⟩
  · refine ⟨_, _, hrun, ?_, fun _ => ⟨i, hi, rfl, hfree, hfirst⟩⟩
    exact iff_of_false (h.placed.chunk_ne hi) fun hfull => hfree (hfull i hi)
  · exact ⟨0, m, hrun, iff_of_true rfl hfull, fun hne => absurd rfl hne⟩

theorem RunInv.frees (h : slab.RunInv m live) (hp : p ∈ live) :
    ∃ m', slab.deallocateIn p m = (.ok (), m') ∧
      (∀ i < slab.nelems, slab.allocationMap.get m' i = true ↔
        slab.chunk i = p ∨ slab.allocationMap.get m i = true) ∧
      ∀ x ∉ slab.allocationMap.bytes, m' x = m x := by
  obtain ⟨i, hi, rfl⟩ := h.element p hp
  refine ⟨slab.allocationMap.set m i true, ?_, ?_, ?_⟩
  · rw [deallocateIn_eq, h.placed.deallocate_chunk hi]
  · intro j hj
    rw [h.get_set hi hj]
    by_cases hji : j = i
    · simp [hji]
    · have hne : slab.chunk j ≠ slab.chunk i := fun heq => hji (h.placed.chunk_inj heq)
      simp [hji, hne]
  · intro x hx
    have hsize : i < slab.allocationMap.size := by rwa [h.placed.map_size]
    apply BitArray.set_frame h.placed.map_fits hsize
    intro heq
    exact hx (heq ▸ BitArray.byte_mem hsize)

theorem Placed.deallocate_foreign (h : slab.Placed) (hq : q ≠ 0)
    (hout : ¬ ∃ i < slab.nelems, q ∈ slab.cell (slab.chunk i)) (m : Mem) :
    slab.deallocateIn q m = (.error (.panic "Critical error"), m) := by
  rw [h.mem_cell_iff] at hout
  have hrun : deallocate m slab q = .error (.panic "Critical error") := by
    simp only [deallocate, if_neg hq, h.owns_eq, decide_eq_false hout, bind, Except.bind]
    rfl
  rw [deallocateIn_eq, hrun]

theorem RunInv.lawful (h : slab.RunInv m live) : slab.Lawful m live where
  element := h.element
  disjoint := h.pairwise
  inside := by
    intro p hp x hx
    obtain ⟨i, hi, rfl⟩ := h.element p hp
    obtain ⟨h1, h2, h3⟩ := h.placed.chunk_bounds hi
    have hmem := h.placed.memory_eq
    simp only [cell, Set.mem_Ico] at hx ⊢
    omega
  apart := by
    intro p hp
    obtain ⟨i, hi, rfl⟩ := h.element p hp
    have hge := (h.placed.chunk_bounds hi).1
    have hmem := h.placed.memory_eq
    rw [Set.disjoint_left]
    intro x hx hx'
    simp only [cell, BitArray.bytes, h.placed.map_eq, Set.mem_Ico] at hx hx'
    omega
  bits := h.bits
  takes := h.takes
  frees := fun p hp => h.frees hp
  owned := by
    intro q
    refine ⟨_, h.placed.owns_eq q, ?_⟩
    rw [decide_eq_true_eq, h.placed.mem_cell_iff]
  foreign := fun q hq hout => h.placed.deallocate_foreign hq hout m

theorem runInv_start {pa pa' : PageAllocator} {e n : ℕ} (he : 1 ≤ e)
    (hfit : e * n + (n + 7) / 8 ≤ 2 ^ 32 - 4096)
    (hinit : initializeOn m pa e n = .ok (slab, m', pa')) (hok : slab.initialized = true)
    (hend : slab.area + pageSize * requiredPages e n < 2 ^ 32) :
    slab.elemSize = e ∧ slab.nelems = n ∧ slab.RunInv m' [] := by
  obtain ⟨area, m₁, hzero, rfl, rfl⟩ := initializeOn_cases hinit hok
  have hcount : n ≤ e * n := Nat.le_mul_of_pos_left n he
  have hroom : e * n + BitArray.expectedSize n + pageSize ≤ 2 ^ 32 := by
    rw [BitArray.expectedSize_eq, pageSize]
    omega
  obtain ⟨hle, -⟩ := requiredPages_fits hroom
  simp only at hend
  have hmap : BitArray.Fits ⟨n, area⟩ := by
    simp only [BitArray.Fits]
    omega
  refine ⟨rfl, rfl, ⟨he, ?_, Nat.pos_of_ne_zero hzero, ?_, rfl, hle, hend⟩, List.nodup_nil, ?_, ?_⟩
  · simp only
    omega
  · exact wrap_of_lt (by omega)
  · simp
  · intro i hi
    rw [(fold_set_spec hmap _ (n := n) le_rfl).1 i hi, decide_eq_true hi]
    simp

/-- A slab serves its elements lawfully in every state that it reaches. -/
theorem run_lawful {pa pa' : PageAllocator} {e n : ℕ} (he : 1 ≤ e)
    (hfit : e * n + (n + 7) / 8 ≤ 2 ^ 32 - 4096)
    (hinit : initializeOn m pa e n = .ok (slab, m₀, pa')) (hok : slab.initialized = true)
    (hend : slab.area + pageSize * requiredPages e n < 2 ^ 32) (hrun : Run slab m₀ m' live) :
    slab.elemSize = e ∧ slab.nelems = n ∧
      slab.allocationMap.bytes = Set.Ico slab.area slab.memory ∧ slab.Lawful m' live := by
  obtain ⟨hsize, hcount, h₀⟩ := runInv_start he hfit hinit hok hend
  refine ⟨hsize, hcount, ?_, (hrun.inv h₀).lawful⟩
  rw [h₀.placed.memory_eq, BitArray.bytes, h₀.placed.map_eq]

theorem run_lawful_ten : ∃ m pa slab m₀ pa' m' p,
    initializeOn m pa 4 10 = .ok (slab, m₀, pa') ∧ Run slab m₀ m' [p] ∧ slab.Lawful m' [p] := by
  obtain ⟨b, m, pa, -, -, hinv⟩ :=
    PageAllocator.initializeOn_spec PageAllocator.smallLayout fun _ => 0
  have hfree : 500 ∈ Set.Ico PageAllocator.smallLayout.base PageAllocator.smallLayout.last :=
    ⟨by decide, by decide⟩
  have hpages : requiredPages 4 10 = 1 := by decide
  obtain ⟨slab, m₀, pa', hinit, hsize, hcount, hcase⟩ :=
    initializeOn_spec hinv (e := 4) (n := 10) (by decide) (by decide) (by decide) (by decide)
  rcases hcase with ⟨-, hnone⟩ | ⟨k, q, hok, -, -, -, hshape, -, -, -⟩
  · obtain ⟨k, q, hmax, -⟩ := maximal_cover (N := maxOrder) hfree
    exact absurd hmax (hnone k q (by rw [hpages]; exact Nat.one_le_two_pow))
  · have hend : slab.area + pageSize * requiredPages 4 10 < 2 ^ 32 := by
      have hspace := hshape.space
      rwa [block, hsize, hcount] at hspace
    obtain ⟨-, -, h₀⟩ := runInv_start (by decide) (by decide) hinit hok hend
    rcases h₀.allocate_eq with ⟨i, hi, -, -, halloc⟩ | ⟨hfull, -⟩
    · have hrun := Run.start.allocate halloc (h₀.placed.chunk_ne hi)
      exact ⟨m, pa, slab, m₀, pa', _, _, hinit, hrun,
        (run_lawful (by decide) (by decide) hinit hok hend hrun).2.2.2⟩
    · have hmem := hfull 0 (by omega)
      cases hmem

end SlabAllocator

end Bolgenos
