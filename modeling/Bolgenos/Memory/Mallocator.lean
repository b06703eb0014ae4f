import Bolgenos.Memory.Slab

/-!
# The kernel heap

`kmalloc` serves small requests from a chain of slabs with growing element sizes. A
request that finds its slab full moves on to the larger ones and in the end to the page
allocator. The owner of an address is not stored: `kfree` asks the slabs in turn whether
the address is theirs and otherwise gives it to the page allocator.
-/

namespace Bolgenos

open ByteMemory FuelLoop LinkedChain Dyadic

def chainUnitSize (index : ℕ) : ℕ := if index = 0 then 8 else wrap (index * 16)

def sizeofSlabAllocator : ℕ := 28

/-- The records of the chain lie in the one element of `internalAllocator`; they do not
change after the initialization and are kept as a list here. -/
structure Mallocator where
  chainLength : ℕ := 0
  chain : List SlabAllocator := []
  internalAllocator : SlabAllocator := {}
  initialized : Bool := false

namespace Mallocator

def chainStep (chainMemory : ℕ) (s : List SlabAllocator × Mem × PageAllocator) (slabIdx : ℕ) :
    Result (List SlabAllocator × Mem × PageAllocator) := do
  let elemSize := chainUnitSize slabIdx
  let (slab, m, pa) ← SlabAllocator.initializeOn s.2.1 s.2.2 elemSize (chainMemory / elemSize)
  if slab.initialized then .ok (s.1 ++ [slab], m, pa)
  else .error (.panic "Initializing of chain failed!")

def initializeOn (m : Mem) (fallback : PageAllocator) (chainMemory chainLength : ℕ) :
    Result (Mallocator × Mem × PageAllocator) := do
  let chainSize := wrap (sizeofSlabAllocator * chainLength)
  let (internalAllocator, m, fallback) ← SlabAllocator.initializeOn m fallback chainSize 1
  if internalAllocator.initialized then do
    let (_, m) ← internalAllocator.allocate m
    let (chain, m, fallback) ←
      (List.range chainLength).foldlM (chainStep chainMemory) ([], m, fallback)
    .ok (⟨chainLength, chain, internalAllocator, true⟩, m, fallback)
  else .error (.panic "Initializing of internal allocator failed!")

def assertInitialized (ma : Mallocator) : Result Unit :=
  if ma.initialized then .ok () else .error (.panic "mallocator is not initialized")

def slabAt (ma : Mallocator) (idx : ℕ) : Result SlabAllocator :=
  match ma.chain[idx]? with
  | some slab => .ok slab
  | none => .error .outOfBounds

def startIndex (ma : Mallocator) (bytes : ℕ) : ℕ :=
  if bytes ≤ 8 then 0
  else
    let slabIdx := alignUp 16 bytes / 16
    if ma.chainLength ≤ slabIdx then ma.chainLength else slabIdx

def searchStep (ma : Mallocator) (s : ℕ × Mem) :
    Result ((ℕ × Mem) ⊕ (Option ℕ × ℕ × Mem)) :=
  if s.1 ≠ ma.chainLength then do
    let slab ← ma.slabAt s.1
    let (memory, m) ← slab.allocate s.2
    if memory ≠ 0 then .ok (.inr (some s.1, memory, m)) else .ok (.inl (wrap (s.1 + 1), m))
  else .ok (.inr (none, 0, s.2))

def pagesFor (bytes : ℕ) : ℕ := alignUp pageSize bytes / pageSize

/-- `Mallocator::allocate`, which also tells the index of the slab that served the
request, or `none` for the page allocator. -/
def allocateFrom (m : Mem) (pa : PageAllocator) (ma : Mallocator) (bytes : ℕ) :
    Result (Option ℕ × ℕ × Mem × PageAllocator) := do
  ma.assertInitialized
  let (slabIdx, memory, m) ← loop .divergence (searchStep ma) budget (ma.startIndex bytes, m)
  match slabIdx with
  | some idx => .ok (some idx, memory, m, pa)
  | none => do
    let (memory, m, pa) ← pa.allocate m (pagesFor bytes)
    .ok (none, memory, m, pa)

def allocate (m : Mem) (pa : PageAllocator) (ma : Mallocator) (bytes : ℕ) :
    Result (ℕ × Mem × PageAllocator) := do
  let (_, memory, m, pa) ← allocateFrom m pa ma bytes
  .ok (memory, m, pa)

def ownerStep (ma : Mallocator) (memory chainIdx : ℕ) : Result (ℕ ⊕ Option ℕ) :=
  if chainIdx ≠ ma.chainLength then do
    let slab ← ma.slabAt chainIdx
    if ← slab.owns memory then .ok (.inr (some chainIdx)) else .ok (.inl (wrap (chainIdx + 1)))
  else .ok (.inr none)

def owner (ma : Mallocator) (memory : ℕ) : Result (Option ℕ) :=
  loop .divergence (ownerStep ma memory) budget 0

def deallocate (m : Mem) (pa : PageAllocator) (ma : Mallocator) (memory : ℕ) :
    Result (Mem × PageAllocator) := do
  ma.assertInitialized
  match ← ma.owner memory with
  | some idx => do
    let slab ← ma.slabAt idx
    let m ← slab.deallocate m memory
    .ok (m, pa)
  | none => pa.deallocate m memory

def slabs (ma : Mallocator) : List SlabAllocator := ma.internalAllocator :: ma.chain

end Mallocator

end Bolgenos
