import Bolgenos.Memory.HeapRuns

/-!
# Memory at boot time

The boot loader reports the size of the memory above 1 MiB in kilobytes. From it the
kernel computes the region of the allocators, and from the end of its own image the
first page that is free.
-/

namespace Bolgenos

open ByteMemory

structure BootInfo where
  flags : ℕ
  memUpper : ℕ

def BootInfo.isMeminfoValid (info : BootInfo) : Bool := info.flags &&& 1 ≠ 0

def highmemStart : ℕ := 0x100000

def detectMemoryRegions (info : BootInfo) : Result MemoryRegion :=
  if info.isMeminfoValid then
    let highmemBytes := wrap (info.memUpper * 1024)
    .ok ⟨highmemStart, frameAdd highmemStart (alignDown pageSize highmemBytes / pageSize)⟩
  else .error (.panic "Bootloader didn't provide memory info!\n")

def lastKernelPage (objectEnd : ℕ) : ℕ := alignUp pageSize objectEnd

def initHighmemAllocators (m : Mem) (highmem : MemoryRegion) (objectEnd : ℕ) :
    Result (Mem × PageAllocator × Mallocator) := do
  let buddy ← BuddyAllocator.initializeLists m {} highmem
  let (m, pa) ← PageAllocator.initializeOn m buddy (lastKernelPage objectEnd)
  let (ma, m, pa) ← Mallocator.initializeOn m pa (1024 * 1024) 33
  .ok (m, pa, ma)

def initMemory (m : Mem) (info : BootInfo) (objectEnd : ℕ) :
    Result (Mem × PageAllocator × Mallocator) := do
  let highmem ← detectMemoryRegions info
  initHighmemAllocators m highmem objectEnd

/-- The inputs of the boot code: the reported memory ends below 4 GiB, and the kernel
and the map of the pages end inside it. -/
structure BootInput (info : BootInfo) (objectEnd : ℕ) : Prop where
  valid : info.isMeminfoValid = true
  below : 2 ^ 20 + 1024 * info.memUpper < 2 ^ 32
  kernel : highmemStart ≤ objectEnd
  inside : (objectEnd + pageSize - 1) / pageSize + (info.memUpper / 4 + 2 ^ 15 - 1) / 2 ^ 15 ≤
    2 ^ 8 + info.memUpper / 4

/-- What the boot code is to compute: the size of the region in pages, an index inside it
for every frame, a map with a bit for every page, and the block of the pages behind the
map. -/
def BootArithmetic (info : BootInfo) (objectEnd : ℕ) : Prop :=
  ∃ highmem, detectMemoryRegions info = .ok highmem ∧
    highmem.size = info.memUpper / 4 ∧
    (∀ f, highmem.begin_ ≤ f → f < highmem.end_ → f % pageSize = 0 →
      0 ≤ highmem.indexOf f ∧ highmem.indexOf f < highmem.size) ∧
    highmem.size ≤ 8 * (pageSize * mapSize highmem.size) ∧
    PageAllocator.initialBlock highmem (lastKernelPage objectEnd) =
      ⟨lastKernelPage objectEnd + pageSize * mapSize highmem.size,
        (highmem.end_ - (lastKernelPage objectEnd + pageSize * mapSize highmem.size)) /
          pageSize⟩

variable {info : BootInfo} {objectEnd : ℕ}

theorem detectMemoryRegions_eq (h : BootInput info objectEnd) :
    detectMemoryRegions info = .ok ⟨frame (2 ^ 8), frame (2 ^ 8 + info.memUpper / 4)⟩ := by
  have hbelow := h.below
  have hbytes : wrap (info.memUpper * 1024) = info.memUpper * 1024 := wrap_of_lt (by omega)
  have hpages : alignDown pageSize (info.memUpper * 1024) / pageSize = info.memUpper / 4 := by
    simp only [alignDown, pageSize]
    omega
  have hend : frameAdd highmemStart (info.memUpper / 4) =
      frame (2 ^ 8 + info.memUpper / 4) := by
    rw [show highmemStart = frame (2 ^ 8) by rfl, frameAdd_frame]
    exact wrap_of_lt (frame_lt (by omega))
  simp only [detectMemoryRegions, h.valid, if_true, hbytes, hpages, hend]
  rfl

theorem alignUp_pageSize {v : ℕ} (h : v + pageSize ≤ 2 ^ 32) :
    alignUp pageSize v = frame ((v + pageSize - 1) / pageSize) := by
  obtain ⟨h1, h2, c, hc⟩ := alignUp_ge (b := pageSize) (by simp [pageSize]) h
  simp only [frame, pageSize] at h1 h2 hc ⊢
  omega

theorem mapSize_eq {n : ℕ} (hn : n < 2 ^ 19) : mapSize n = (n + 2 ^ 15 - 1) / 2 ^ 15 := by
  have hexp : BitArray.expectedSize n = (n + 7) / 8 := by
    simp only [BitArray.expectedSize]
    split_ifs <;> omega
  rw [mapSize, hexp, alignUp_pageSize (by simp only [pageSize]; omega), frame_div]
  simp only [pageSize]
  omega

theorem lastKernelPage_eq (h : objectEnd + pageSize ≤ 2 ^ 32) :
    lastKernelPage objectEnd = frame ((objectEnd + pageSize - 1) / pageSize) :=
  alignUp_pageSize h

theorem size_of_large {n : ℕ} (hn : 2 ^ 19 ≤ n) (hlt : 2 ^ 8 + n < 2 ^ 20) :
    (⟨frame (2 ^ 8), frame (2 ^ 8 + n)⟩ : MemoryRegion).size ≠ n := by
  simp only [MemoryRegion.size, frameDiff, toUnsigned, toSigned, sub32, wrap, frame, pageSize]
  split_ifs <;> omega

theorem bootArithmetic_small (h : BootInput info objectEnd) (hn : info.memUpper / 4 < 2 ^ 19) :
    BootArithmetic info objectEnd := by
  have hps : pageSize = 4096 := rfl
  have hinside := h.inside
  have hbelow := h.below
  have hdetect := detectMemoryRegions_eq h
  obtain ⟨n, hdef⟩ : ∃ n, n = info.memUpper / 4 := ⟨_, rfl⟩
  obtain ⟨k, hk⟩ : ∃ k, k = (objectEnd + pageSize - 1) / pageSize := ⟨_, rfl⟩
  rw [← hdef] at hn hinside hdetect
  rw [← hk] at hinside
  have hspace : 2 ^ 8 + n < 2 ^ 20 := by omega
  have hmap := mapSize_eq hn
  have hkernel : lastKernelPage objectEnd = frame k := by
    rw [hk]
    apply lastKernelPage_eq
    rw [hps] at hk ⊢
    omega
  have hsize : (⟨frame (2 ^ 8), frame (2 ^ 8 + n)⟩ : MemoryRegion).size = n := by
    rw [MemoryRegion.size, frameDiff_frame (by omega) (by omega) hspace,
      toUnsigned_natCast (by omega)]
    omega
  refine ⟨_, hdetect, hsize.trans hdef, fun f hlow hhigh halign => ?_, ?_, ?_⟩
  · obtain ⟨p, rfl⟩ : ∃ p, f = frame p := ⟨f / pageSize, by
      simp only [frame, hps] at halign ⊢
      omega⟩
    have hp : 2 ^ 8 ≤ p ∧ p < 2 ^ 8 + n := by
      simp only [frame, hps] at hlow hhigh
      omega
    rw [hsize, MemoryRegion.indexOf, frameDiff_frame hp.1 (by omega) (by omega)]
    omega
  · rw [hsize, hmap, hps]
    omega
  · have hptr : frameAdd (frame k) (mapSize n) = frame (k + mapSize n) := by
      rw [frameAdd_frame]
      exact wrap_of_lt (frame_lt (by omega))
    have hframe : frame (k + mapSize n) = frame k + pageSize * mapSize n := by
      rw [frame, Nat.mul_add, frame]
    have hpages : toUnsigned (frameDiff (frame (2 ^ 8 + n)) (frame (k + mapSize n))) =
        2 ^ 8 + n - (k + mapSize n) := by
      have hlow : 2 ^ 8 ≤ k := by
        have := h.kernel
        simp only [highmemStart] at this
        rw [hk, hps]
        omega
      rw [frameDiff_frame (by omega) (by omega) hspace, toUnsigned_natCast (by omega)]
    have hbytes : (frame (2 ^ 8 + n) - frame (k + mapSize n)) / pageSize =
        2 ^ 8 + n - (k + mapSize n) := by
      simp only [frame, hps]
      omega
    simp only [PageAllocator.initialBlock, hsize, hkernel, hptr, hpages, ← hframe, hbytes]

/-- The arithmetic of the boot code is right exactly for regions of less than 2 GiB. -/
theorem bootArithmetic_iff (h : BootInput info objectEnd) :
    BootArithmetic info objectEnd ↔ info.memUpper / 4 < 2 ^ 19 := by
  constructor
  · intro harith
    obtain ⟨highmem, hdetect, hsize, -⟩ := harith
    rw [detectMemoryRegions_eq h] at hdetect
    cases hdetect
    have hbelow := h.below
    by_contra hlarge
    exact size_of_large (by omega) (by omega) hsize
  · exact bootArithmetic_small h

theorem bootArithmetic_small_machine : BootArithmetic ⟨1, 131072⟩ 0x200000 :=
  (bootArithmetic_iff ⟨by decide, by decide, by decide, by decide⟩).mpr (by decide)

theorem bootArithmetic_two_gib :
    BootInput ⟨1, 2097152⟩ 0x200000 ∧ ¬ BootArithmetic ⟨1, 2097152⟩ 0x200000 := by
  have hinput : BootInput ⟨1, 2097152⟩ 0x200000 := ⟨by decide, by decide, by decide, by decide⟩
  refine ⟨hinput, fun harith => ?_⟩
  obtain ⟨highmem, hdetect, hsize, -⟩ := harith
  rw [detectMemoryRegions_eq hinput] at hdetect
  cases hdetect
  exact absurd hsize (by decide)

/-- The layout that the boot code sets up on a machine with less than 2 GiB above the
first mebibyte and a page to spare behind the map. -/
theorem exists_bootLayout (h : BootInput info objectEnd) (hn : info.memUpper / 4 < 2 ^ 19)
    (hspare : (objectEnd + pageSize - 1) / pageSize + (info.memUpper / 4 + 2 ^ 15 - 1) / 2 ^ 15 <
      2 ^ 8 + info.memUpper / 4) :
    ∃ lay : Layout, detectMemoryRegions info = .ok lay.region ∧
      lastKernelPage objectEnd = frame lay.kernelEnd := by
  have hbelow := h.below
  have hkernel := h.kernel
  have hmap := mapSize_eq hn
  have hfirst : 2 ^ 8 ≤ (objectEnd + pageSize - 1) / pageSize := by
    simp only [highmemStart, pageSize] at hkernel ⊢
    omega
  have hlt : (objectEnd + pageSize - 1) / pageSize +
      mapSize (2 ^ 8 + info.memUpper / 4 - 2 ^ 8) < 2 ^ 8 + info.memUpper / 4 := by
    rw [Nat.add_sub_cancel_left, hmap]
    exact hspare
  refine ⟨⟨2 ^ 8, (objectEnd + pageSize - 1) / pageSize, 2 ^ 8 + info.memUpper / 4, by omega,
    hfirst, hlt, by omega, by omega⟩, detectMemoryRegions_eq h, lastKernelPage_eq ?_⟩
  simp only [pageSize] at hspare ⊢
  omega

/-- When `memory::init` returns, a run of the heap starts. -/
theorem initMemory_run {lay : Layout} (hdetect : detectMemoryRegions info = .ok lay.region)
    (hpage : lastKernelPage objectEnd = frame lay.kernelEnd) {m m' : Mem} {pa : PageAllocator}
    {ma : Mallocator} (hrun : initMemory m info objectEnd = .ok (m', pa, ma)) :
    Mallocator.Run lay m' pa ma [] [] := by
  simp only [initMemory, initHighmemAllocators, hdetect, hpage, bind, Except.bind] at hrun
  cases hinit : BuddyAllocator.initializeLists m {} lay.region with
  | error e =>
    rw [hinit] at hrun
    cases hrun
  | ok b =>
    simp only [hinit] at hrun
    cases hpages : PageAllocator.initializeOn m b (frame lay.kernelEnd) with
    | error e =>
      rw [hpages] at hrun
      cases hrun
    | ok r =>
      simp only [hpages] at hrun
      generalize hheap : Mallocator.initializeOn r.1 r.2 (1024 * 1024) 33 = t at hrun
      cases t with
      | error e => cases hrun
      | ok t =>
        simp only [Except.ok.injEq, Prod.mk.injEq] at hrun
        obtain ⟨rfl, rfl, rfl⟩ := hrun
        exact Mallocator.Run.start hinit hpages hheap

end Bolgenos
