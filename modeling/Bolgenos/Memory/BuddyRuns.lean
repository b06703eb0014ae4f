import Bolgenos.Memory.BuddyInvariant

/-!
# Runs of the buddy system

A run starts from an initialized allocator and goes on with calls of `put` and `get` in
any order. Between the calls the owners of the pages that are not free may write them.
`Reachable m b F` carries along the set `F` of free pages: the pages that were put,
without those that were handed out since.
-/

namespace Bolgenos

open ByteMemory FuelLoop LinkedChain Dyadic

def PageBlock.page (blk : PageBlock) : ℕ := blk.ptr / pageSize

def PageBlock.pages (blk : PageBlock) : Set ℕ := Set.Ico blk.page (blk.page + blk.size)

theorem frame_div (p : ℕ) : frame p / pageSize = p := by
  simp only [frame, pageSize]
  omega

theorem PageBlock.page_frame (p n : ℕ) : PageBlock.page ⟨frame p, n⟩ = p := frame_div p

theorem PageBlock.pages_frame (p n : ℕ) : PageBlock.pages ⟨frame p, n⟩ = Set.Ico p (p + n) := by
  rw [pages, page_frame]

namespace BuddyAllocator

/-- The blocks a caller may put: page-aligned, not at address 0, inside the 32-bit
address space and disjoint from the free pages. -/
def Puttable (F : Set ℕ) (blk : PageBlock) : Prop :=
  blk.ptr % pageSize = 0 ∧ blk.ptr ≠ 0 ∧ blk.ptr + pageSize * blk.size ≤ 2 ^ 32 ∧
    Disjoint blk.pages F

inductive Reachable : Mem → BuddyAllocator → Set ℕ → Prop where
  | start {m : Mem} {region : MemoryRegion} {b : BuddyAllocator} :
      initializeLists m {} region = .ok b → Reachable m b ∅
  | put {m m' : Mem} {b b' : BuddyAllocator} {F : Set ℕ} {blk : PageBlock} :
      Reachable m b F → Puttable F blk → put m b blk = .ok (m', b') →
      Reachable m' b' (F ∪ blk.pages)
  | get {m m' : Mem} {b b' : BuddyAllocator} {F : Set ℕ} {n : ℕ} {blk : PageBlock} :
      Reachable m b F → n ≤ 2 ^ 31 → get m b n = .ok (blk, m', b') →
      Reachable m' b' (F \ blk.pages)
  | write {m m' : Mem} {b : BuddyAllocator} {F : Set ℕ} :
      Reachable m b F → AgreeOutside Fᶜ m m' → Reachable m' b F

variable {m m' : Mem} {b b' : BuddyAllocator} {F : Set ℕ} {L L' : Fin (maxOrder + 1) → List ℕ}
  {n : ℕ} {blk : PageBlock}

theorem initializeList_ok (m : Mem) (fl : FreeList) (order : ℕ) (flag : Bool)
    (h : fl.items = 0) :
    fl.initializeList m order flag =
      .ok { fl with list := 0, order := order, disableSquashing := flag } := by
  have hchain : Chain 0 (read32 m) 0 [] := chain_nil.mpr rfl
  have hcheck : FreeList.sanityCheck m
      { fl with list := 0, order := order, disableSquashing := flag } = .ok () :=
    FreeList.sanityCheck_ok hchain (by simp) h
  simp only [FreeList.initializeList, hcheck, bind, Except.bind]

def emptyList (k : Fin (maxOrder + 1)) : FreeList := ⟨0, k, decide (k.val = maxOrder), 0⟩

theorem initializeLists_fold (m : Mem) (ks : List (Fin (maxOrder + 1))) (b : BuddyAllocator)
    (hb : ∀ k, (b.freeList k).items = 0) :
    ∃ b', ks.foldlM (fun b i => do
        let fl ← (b.freeList i).initializeList m i (decide (i.val = maxOrder))
        .ok { b with freeList := Function.update b.freeList i fl }) b =
          (.ok b' : Result BuddyAllocator) ∧
      b'.region = b.region ∧
      ∀ k, (k ∈ ks ∨ b.freeList k = emptyList k) → b'.freeList k = emptyList k := by
  induction ks generalizing b with
  | nil => exact ⟨b, rfl, rfl, fun k hk => by simpa using hk⟩
  | cons i ks ih =>
    have hinit := initializeList_ok m (b.freeList i) i (decide (i.val = maxOrder)) (hb i)
    have hempty : { b.freeList i with
        list := 0, order := i, disableSquashing := decide (i.val = maxOrder) } = emptyList i := by
      simp only [hb i, emptyList]
    rw [hempty] at hinit
    set b₁ : BuddyAllocator := { b with freeList := Function.update b.freeList i (emptyList i) }
      with hb₁
    have hother : ∀ k, k ≠ i → b₁.freeList k = b.freeList k := fun k hk => by
      simp only [hb₁, Function.update_of_ne hk]
    have hsame : b₁.freeList i = emptyList i := by simp [hb₁]
    obtain ⟨b', hrun, hregion, hset⟩ := ih b₁ fun k => by
      by_cases hk : k = i
      · rw [hk, hsame]
        rfl
      · rw [hother k hk]
        exact hb k
    refine ⟨b', ?_, hregion, fun k hk => hset k ?_⟩
    · simp only [List.foldlM_cons, hinit, bind, Except.bind] at hrun ⊢
      exact hrun
    · by_cases hki : k = i
      · exact Or.inr (hki ▸ hsame)
      · rcases hk with hk | hk
        · exact Or.inl ((List.mem_cons.mp hk).resolve_left hki)
        · exact Or.inr ((hother k hki).trans hk)

theorem initializeLists_spec (m : Mem) (region : MemoryRegion) :
    ∃ b, initializeLists m {} region = .ok b ∧ Lists m b ∅ (fun _ => []) ∧
      b.region = region := by
  obtain ⟨b, hrun, hregion, hset⟩ := initializeLists_fold m (List.finRange (maxOrder + 1))
    { ({} : BuddyAllocator) with region := region } (fun _ => rfl)
  have hlist : ∀ k, b.freeList k = emptyList k := fun k => hset k (Or.inl (List.mem_finRange k))
  refine ⟨b, hrun, ⟨fun k => ?_, fun k => by rw [hlist]; rfl, fun k p => ?_, by simp⟩, hregion⟩
  · rw [hlist]
    exact ⟨chain_nil.mpr rfl, rfl, rfl, List.Pairwise.nil, by simp, by simp⟩
  · simp only [List.not_mem_nil, false_iff]
    exact fun hmax => maximal_subset hmax (left_mem_block k p)

theorem Lists.congr (h : Lists m b F L) (hagree : AgreeOutside Fᶜ m m') : Lists m' b F L :=
  ⟨fun k => (h.holds k).congr fun _ hp => hagree.read32_frame (Set.notMem_compl_iff.mpr
    (h.mem_free k hp)), h.squash, h.mem, h.space⟩

theorem put_of_puttable (h : Lists m b F L) (hblk : Puttable F blk) :
    ∃ s, put m b blk = .ok s ∧ (∃ L', Lists s.1 s.2 (F ∪ blk.pages) L') ∧
      s.2.region = b.region := by
  obtain ⟨ptr, n⟩ := blk
  obtain ⟨halign, hne, hend, hdisj⟩ := hblk
  obtain ⟨p, rfl⟩ : ∃ p, ptr = frame p := ⟨ptr / pageSize, by
    simp only [frame, pageSize] at halign ⊢
    omega⟩
  have hp : 0 < p ∧ p + n ≤ 2 ^ 20 := by
    simp only [frame, pageSize] at hne hend
    omega
  rw [PageBlock.pages_frame] at hdisj ⊢
  obtain ⟨s, hput, hlists, -, hregion⟩ := put_spec h hp.1 hp.2 hdisj
  exact ⟨s, hput, hlists, hregion⟩

theorem get_pages (h : Lists m b F L) (hn : n ≤ 2 ^ 31) :
    ∃ blk m' b', get m b n = .ok (blk, m', b') ∧ (blk = {} ∨ blk.size = n) ∧ blk.pages ⊆ F ∧
      (∃ L', Lists m' b' (F \ blk.pages) L') ∧ (blk = {} ∨ Puttable (F \ blk.pages) blk) := by
  obtain ⟨blk, m', b', hget, -, hcase⟩ := get_spec h hn
  refine ⟨blk, m', b', hget, ?_⟩
  rcases hcase with ⟨rfl, rfl, hb, -⟩ | ⟨j, p, rest, hfit, -, hL, rfl, hlists, -⟩
  · have hnone : PageBlock.pages {} = ∅ := by simp [PageBlock.pages]
    rw [hnone, Set.sdiff_empty]
    refine ⟨Or.inl rfl, Set.empty_subset F, ⟨L, ?_⟩, Or.inl rfl⟩
    exact ⟨fun k => hb ▸ h.holds k, fun k => hb ▸ h.squash k, h.mem, h.space⟩
  · have hmem : p ∈ L j := by simp [hL]
    have hblock := h.subset_free j hmem
    have hsub : Set.Ico p (p + n) ⊆ F := fun x hx => hblock ⟨hx.1, by
      have := hx.2
      omega⟩
    have hspace := (h.holds j).inSpace p hmem
    rw [PageBlock.pages_frame]
    refine ⟨Or.inr rfl, hsub, hlists, Or.inr ⟨?_, frame_ne_zero hspace.1, ?_, ?_⟩⟩
    · simp only [frame, pageSize]
      omega
    · simp only [frame, pageSize]
      omega
    · rw [PageBlock.pages_frame]
      exact Set.disjoint_sdiff_right

theorem reachable_lists (h : Reachable m b F) : ∃ L, Lists m b F L := by
  induction h with
  | @start m region b hinit =>
    obtain ⟨b', hinit', hlists, -⟩ := initializeLists_spec m region
    rw [hinit] at hinit'
    cases hinit'
    exact ⟨_, hlists⟩
  | put _ hblk hput ih =>
    obtain ⟨L, hlists⟩ := ih
    obtain ⟨s, hput', hlists', -⟩ := put_of_puttable hlists hblk
    rw [hput] at hput'
    cases hput'
    exact hlists'
  | get _ hn hget ih =>
    obtain ⟨L, hlists⟩ := ih
    obtain ⟨blk, m', b', hget', -, -, hlists', -⟩ := get_pages hlists hn
    rw [hget] at hget'
    cases hget'
    exact hlists'
  | write _ hagree ih =>
    obtain ⟨L, hlists⟩ := ih
    exact ⟨L, hlists.congr hagree⟩

theorem reachable_block (hblk : Puttable ∅ blk) : ∃ m b, Reachable m b blk.pages := by
  obtain ⟨b, hinit, hlists, -⟩ := initializeLists_spec (fun _ => 0) ⟨0, 0⟩
  obtain ⟨⟨m', b'⟩, hput, -⟩ := put_of_puttable hlists hblk
  have hreach := (Reachable.start hinit).put hblk hput
  rw [Set.empty_union] at hreach
  exact ⟨m', b', hreach⟩

theorem puttable_block (p n : ℕ) (hp : 0 < p) (hn : p + n ≤ 2 ^ 20) :
    Puttable ∅ ⟨frame p, n⟩ := by
  refine ⟨?_, frame_ne_zero hp, ?_, Set.disjoint_empty _⟩ <;>
  · simp only [frame, pageSize]
    omega

def ListsAre (m : Mem) (b : BuddyAllocator) (L : Fin (maxOrder + 1) → List ℕ) : Prop :=
  ∀ k, Chain 0 (read32 m) (b.freeList k).list ((L k).map frame)

structure Decomposition (m : Mem) (b : BuddyAllocator) (F : Set ℕ)
    (L : Fin (maxOrder + 1) → List ℕ) : Prop where
  lists : ListsAre m b L
  ascending : ∀ k, (L k).Pairwise (· < ·)
  aligned : ∀ k, ∀ p ∈ L k, 2 ^ k.val ∣ p
  items : ∀ k, (b.freeList k).items = (L k).length
  disjoint : ∀ j k p q, p ∈ L j → q ∈ L k → (j, p) ≠ (k, q) → Disjoint (block j p) (block k q)
  union : (⋃ k, ⋃ p ∈ L k, block k.val p) = F

theorem Lists.decomposition (h : Lists m b F L) : Decomposition m b F L where
  lists := fun k => (h.holds k).chain
  ascending := fun k => (h.holds k).sorted
  aligned := fun k => (h.holds k).aligned
  items := fun k => (h.holds k).items
  disjoint := by
    intro j k p q hp hq hne
    refine Set.disjoint_left.mpr fun x hx hx' => hne ?_
    obtain ⟨hjk, rfl⟩ := maximal_unique ((h.mem j p).mp hp) ((h.mem k q).mp hq) hx hx'
    rw [Fin.ext hjk]
  union := by
    ext x
    simp only [Set.mem_iUnion]
    constructor
    · intro hexists
      obtain ⟨k, p, hp, hx⟩ := hexists
      exact h.subset_free k hp hx
    · intro hx
      obtain ⟨k, p, hmax, hxp⟩ := maximal_cover (N := maxOrder) hx
      exact ⟨⟨k, Nat.lt_succ_of_le hmax.1⟩, p, (h.mem _ p).mpr hmax, hxp⟩

def freePages (m : Mem) (b : BuddyAllocator) : Set ℕ :=
  {x | ∃ k xs, Chain 0 (read32 m) (b.freeList k).list xs ∧ ∃ a ∈ xs, x ∈ block k (a / pageSize)}

theorem Decomposition.freePages_eq (h : Decomposition m b F L) : freePages m b = F := by
  rw [← h.union]
  ext x
  simp only [freePages, Set.mem_ofPred_eq, Set.mem_iUnion]
  constructor
  · intro hexists
    obtain ⟨k, xs, hchain, a, ha, hx⟩ := hexists
    rw [chain_unique hchain (h.lists k)] at ha
    obtain ⟨p, hp, rfl⟩ := List.mem_map.mp ha
    rw [frame_div] at hx
    exact ⟨k, p, hp, hx⟩
  · intro hexists
    obtain ⟨k, p, hp, hx⟩ := hexists
    exact ⟨k, _, h.lists k, frame p, List.mem_map_of_mem hp, by rwa [frame_div]⟩

/-- The invariant over whole runs. The free pages are those that were put and not
handed out since; the lists decompose them, and no later call can fail. -/
theorem reachable_decomposition (h : Reachable m b F) :
    (∃ L, Decomposition m b F L) ∧
      (∀ blk, Puttable F blk → ∃ s, put m b blk = .ok s) ∧
      (∀ n, n ≤ 2 ^ 31 → ∃ blk m' b', get m b n = .ok (blk, m', b') ∧
        (blk = {} ∨ blk.size = n) ∧ blk.pages ⊆ F) := by
  obtain ⟨L, hlists⟩ := reachable_lists h
  refine ⟨⟨L, hlists.decomposition⟩, fun blk hblk => ?_, fun n hn => ?_⟩
  · obtain ⟨s, hput, -⟩ := put_of_puttable hlists hblk
    exact ⟨s, hput⟩
  · obtain ⟨blk, m', b', hget, hsize, hsub, -⟩ := get_pages hlists hn
    exact ⟨blk, m', b', hget, hsize, hsub⟩

theorem reachable_decomposition_block :
    ∃ m b L, Reachable m b (Set.Ico 257 268) ∧ Decomposition m b (Set.Ico 257 268) L := by
  obtain ⟨m, b, h⟩ := reachable_block (puttable_block 257 11 (by decide) (by decide))
  rw [PageBlock.pages_frame] at h
  obtain ⟨⟨L, hL⟩, -, -⟩ := reachable_decomposition h
  exact ⟨m, b, L, h, hL⟩

theorem Lists.unique (h : Lists m b F L) (h' : Lists m' b' F L') :
    L = L' ∧ b.freeList = b'.freeList := by
  have hL : L = L' := by
    funext k
    apply FreeList.sorted_ext (h.holds k).sorted (h'.holds k).sorted
    intro p
    rw [h.mem, h'.mem]
  subst hL
  refine ⟨rfl, funext fun k => ?_⟩
  have hhead : (b.freeList k).list = (b'.freeList k).list :=
    (chain_head (h.holds k).chain).trans (chain_head (h'.holds k).chain).symm
  have horder := (h.holds k).order.trans (h'.holds k).order.symm
  have hitems := (h.holds k).items.trans (h'.holds k).items.symm
  have hflag := (h.squash k).trans (h'.squash k).symm
  cases hfl : b.freeList k
  cases hfl' : b'.freeList k
  simp only [hfl, hfl'] at hhead horder hitems hflag
  rw [hhead, horder, hitems, hflag]

theorem get_put (h : Reachable m b F) (hn : n ≤ 2 ^ 31) :
    ∃ blk m₁ b₁, get m b n = .ok (blk, m₁, b₁) ∧
      ∀ m₂, AgreeOutside blk.pages m₁ m₂ →
        ∃ m₃ b₃, put m₂ b₁ blk = .ok (m₃, b₃) ∧ Reachable m₃ b₃ F := by
  obtain ⟨L, hlists⟩ := reachable_lists h
  obtain ⟨blk, m₁, b₁, hget, -, hsub, ⟨L₁, hlists₁⟩, hputtable⟩ := get_pages hlists hn
  refine ⟨blk, m₁, b₁, hget, fun m₂ hagree => ?_⟩
  have hreach₁ := Reachable.get h hn hget
  have hreach₂ : Reachable m₂ b₁ (F \ blk.pages) :=
    hreach₁.write (hagree.mono fun x hx hx' => hx'.2 hx)
  rcases hputtable with rfl | hputtable
  · have hnone : PageBlock.pages {} = ∅ := by simp [PageBlock.pages]
    rw [hnone, Set.sdiff_empty] at hreach₂
    exact ⟨m₂, b₁, rfl, hreach₂⟩
  · obtain ⟨L₂, hlists₂⟩ := reachable_lists hreach₂
    obtain ⟨⟨m₃, b₃⟩, hput, -⟩ := put_of_puttable hlists₂ hputtable
    refine ⟨m₃, b₃, hput, ?_⟩
    have hreach₃ := hreach₂.put hputtable hput
    rwa [Set.sdiff_union_of_subset hsub] at hreach₃

/-- The canonical form. List `k` is the ascending list of the maximal aligned runs of
`2 ^ k` free pages and holds no two buddies; every run that reaches the same free pages
has the same lists, and `put` of what `get` handed out restores them. -/
theorem reachable_canonical (h : Reachable m b F) :
    ∃ L, ListsAre m b L ∧ (∀ k, (L k).Pairwise (· < ·)) ∧
      (∀ k p, p ∈ L k ↔ Maximal maxOrder F k p) ∧
      (∀ k : Fin (maxOrder + 1), k.val < maxOrder → ∀ p ∈ L k, buddy k p ∉ L k) ∧
      (∀ m' b', Reachable m' b' F → ListsAre m' b' L ∧ b'.freeList = b.freeList) ∧
      (∀ n, n ≤ 2 ^ 31 → ∃ blk m₁ b₁, get m b n = .ok (blk, m₁, b₁) ∧
        ∀ m₂, AgreeOutside blk.pages m₁ m₂ → ∃ m₃ b₃, put m₂ b₁ blk = .ok (m₃, b₃) ∧
          ListsAre m₃ b₃ L ∧ b₃.freeList = b.freeList) := by
  obtain ⟨L, hlists⟩ := reachable_lists h
  have hsame : ∀ m' b', Reachable m' b' F → ListsAre m' b' L ∧ b'.freeList = b.freeList := by
    intro m' b' h'
    obtain ⟨L', hlists'⟩ := reachable_lists h'
    obtain ⟨rfl, hfree⟩ := hlists.unique hlists'
    exact ⟨fun k => (hlists'.holds k).chain, hfree.symm⟩
  refine ⟨L, fun k => (hlists.holds k).chain, fun k => (hlists.holds k).sorted, hlists.mem, ?_,
    hsame, fun n hn => ?_⟩
  · intro k hk p hp hbuddy
    exact not_maximal_buddies hk ((hlists.mem k p).mp hp) ((hlists.mem k _).mp hbuddy)
  · obtain ⟨blk, m₁, b₁, hget, hput⟩ := get_put h hn
    refine ⟨blk, m₁, b₁, hget, fun m₂ hagree => ?_⟩
    obtain ⟨m₃, b₃, hput', hreach⟩ := hput m₂ hagree
    exact ⟨m₃, b₃, hput', hsame m₃ b₃ hreach⟩

theorem reachable_canonical_block :
    ∃ m b L, Reachable m b (Set.Ico 257 268) ∧ ListsAre m b L ∧
      ∀ k p, p ∈ L k ↔ Maximal maxOrder (Set.Ico 257 268) k p := by
  obtain ⟨m, b, h⟩ := reachable_block (puttable_block 257 11 (by decide) (by decide))
  rw [PageBlock.pages_frame] at h
  obtain ⟨L, hlists, -, hmem, -⟩ := reachable_canonical h
  exact ⟨m, b, L, h, hlists, hmem⟩

end BuddyAllocator

end Bolgenos
