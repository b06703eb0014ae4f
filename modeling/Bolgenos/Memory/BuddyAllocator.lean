import Bolgenos.Memory.FreeList

/-!
# The buddy system

The allocator keeps one free list for each order up to `maxOrder`. `put` cuts a block
into naturally aligned chunks and feeds each chunk to the list of its order; a chunk
that was squashed with its buddy moves on to the next list. `get` takes the first block
of the smallest order that has one and puts the pages it does not need back.
-/

namespace Bolgenos

open ByteMemory FuelLoop LinkedChain Dyadic

structure MemoryRegion where
  begin_ : ℕ
  end_ : ℕ
  deriving DecidableEq, Repr

def MemoryRegion.indexOf (r : MemoryRegion) (item : ℕ) : ℤ := frameDiff item r.begin_

def MemoryRegion.size (r : MemoryRegion) : ℕ := toUnsigned (frameDiff r.end_ r.begin_)

/-- A block of `size` consecutive pages; the source calls it `pblk_t`. -/
structure PageBlock where
  ptr : ℕ := 0
  size : ℕ := 0
  deriving DecidableEq, Repr

def maxOrder : ℕ := 10

structure BuddyAllocator where
  freeList : Fin (maxOrder + 1) → FreeList := fun _ => {}
  region : MemoryRegion := ⟨0, 0⟩
  allocations : ℕ := 0
  deallocations : ℕ := 0

namespace BuddyAllocator

def initializeLists (m : Mem) (b : BuddyAllocator) (region : MemoryRegion) :
    Result BuddyAllocator :=
  (List.finRange (maxOrder + 1)).foldlM (fun b i => do
    let fl ← (b.freeList i).initializeList m i (decide (i.val = maxOrder))
    .ok { b with freeList := Function.update b.freeList i fl }) { b with region := region }

def putAt (m : Mem) (b : BuddyAllocator) (order item : ℕ) : Result (ℕ × Mem × BuddyAllocator) :=
  if h : order < maxOrder + 1 then do
    let (squashed, m, fl) ← (b.freeList ⟨order, h⟩).put m item
    .ok (squashed, m, { b with freeList := Function.update b.freeList ⟨order, h⟩ fl })
  else .error .outOfBounds

def getAt (m : Mem) (b : BuddyAllocator) (order : ℕ) : Result (ℕ × Mem × BuddyAllocator) :=
  if h : order < maxOrder + 1 then do
    let (item, m, fl) ← (b.freeList ⟨order, h⟩).get m
    .ok (item, m, { b with freeList := Function.update b.freeList ⟨order, h⟩ fl })
  else .error .outOfBounds

def alignedOrderStep (s : ℕ × ℕ) : Result ((ℕ × ℕ) ⊕ ℕ) :=
  if s.2 &&& 1 = 0 ∧ s.1 < maxOrder then .ok (.inl (s.1 + 1, s.2 >>> 1)) else .ok (.inr s.1)

def fittingOrderStep (size order : ℕ) : Result (ℕ ⊕ ℕ) :=
  if size < shiftOne order then .ok (.inl (sub32 order 1)) else .ok (.inr order)

def computeOrder (blk : PageBlock) : Result ℕ := do
  let order ← loop .divergence alignedOrderStep budget (0, blk.ptr / pageSize)
  loop .divergence (fittingOrderStep blk.size) budget order

def cascadeStep (s : ℕ × ℕ × Mem × BuddyAllocator) :
    Result ((ℕ × ℕ × Mem × BuddyAllocator) ⊕ (Mem × BuddyAllocator)) := do
  let (squashed, m, b) ← putAt s.2.2.1 s.2.2.2 s.2.1 s.1
  if squashed ≠ 0 then .ok (.inl (squashed, wrap (s.2.1 + 1), m, b)) else .ok (.inr (m, b))

def putStep (s : PageBlock × Mem × BuddyAllocator) :
    Result ((PageBlock × Mem × BuddyAllocator) ⊕ (Mem × BuddyAllocator)) :=
  if s.1.size ≠ 0 then do
    let order ← computeOrder s.1
    if s.1.ptr &&& (2 ^ 12 - 1) ≠ 0 then .error (.panic "bad page addr in while!")
    else do
      let (squashed, m, b) ← putAt s.2.1 s.2.2 order s.1.ptr
      let (m, b) ← if squashed ≠ 0 then
          loop .divergence cascadeStep budget (squashed, wrap (order + 1), m, b)
        else .ok (m, b)
      let blockSize := shiftOne order
      .ok (.inl (⟨frameAdd s.1.ptr blockSize, sub32 s.1.size blockSize⟩, m, b))
  else .ok (.inr s.2)

def put (m : Mem) (b : BuddyAllocator) (blk : PageBlock) : Result (Mem × BuddyAllocator) :=
  if blk.size = 0 then .ok (m, b)
  else if blk.ptr &&& (2 ^ 12 - 1) ≠ 0 then .error (.panic "put")
  else loop .divergence putStep budget
    (blk, m, { b with deallocations := wrap (b.deallocations + 1) })

def orderStep (pages order : ℕ) : Result (ℕ ⊕ ℕ) :=
  if shiftOne order < pages then .ok (.inl (wrap (order + 1))) else .ok (.inr order)

def takeStep (s : ℕ × Mem × BuddyAllocator) :
    Result ((ℕ × Mem × BuddyAllocator) ⊕ (ℕ × ℕ × Mem × BuddyAllocator)) :=
  if s.1 ≤ maxOrder then do
    let (ptr, m, b) ← getAt s.2.1 s.2.2 s.1
    if ptr ≠ 0 then .ok (.inr (ptr, s.1, m, b)) else .ok (.inl (wrap (s.1 + 1), m, b))
  else .ok (.inr (0, s))

def get (m : Mem) (b : BuddyAllocator) (pages : ℕ) : Result (PageBlock × Mem × BuddyAllocator) := do
  let b := { b with allocations := wrap (b.allocations + 1) }
  let order ← loop .divergence (orderStep pages) budget 0
  if maxOrder < order then .ok ({}, m, b)
  else do
    let (ptr, order, m, b) ← loop .divergence takeStep budget (order, m, b)
    if ptr = 0 then .ok ({}, m, b)
    else do
      let extra : PageBlock := ⟨frameAdd ptr pages, sub32 (shiftOne order) pages⟩
      let (m, b) ← if extra.size ≠ 0 then put m b extra else .ok (m, b)
      .ok (⟨ptr, pages⟩, m, b)

end BuddyAllocator

end Bolgenos
