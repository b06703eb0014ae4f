import Bolgenos.Memory.BuddyRuns

/-!
# What the two calls of the buddy system do

`get` fails exactly when no aligned free run is large enough, and otherwise cuts the pages
asked for off the lowest block of the smallest sufficient order. `put` feeds its block to
the lists in consecutive chunks, each as large as its position and the rest of the block
allow; `Feeds` records the chunks with the indices that the loops inside go through.
-/

namespace Bolgenos

open ByteMemory FuelLoop LinkedChain Dyadic

namespace BuddyAllocator

variable {m m' : Mem} {b b' : BuddyAllocator} {F : Set ℕ} {L : Fin (maxOrder + 1) → List ℕ}
  {k n p : ℕ} {blk : PageBlock}

def Unserved (F : Set ℕ) (k n : ℕ) : Prop := 1024 < n ∨ ∀ p, 2 ^ k ∣ p → ¬ block k p ⊆ F

theorem unserved_iff (h : Lists m b F L) (hk : IsLeast {k | n ≤ 2 ^ k} k) :
    Unserved F k n ↔ ∀ j : Fin (maxOrder + 1), n ≤ 2 ^ j.val → L j = [] := by
  constructor
  · intro hno j hj
    by_contra hne
    obtain ⟨p, hp⟩ := List.exists_mem_of_ne_nil _ hne
    have hle : 2 ^ j.val ≤ 2 ^ 10 := Nat.pow_le_pow_right (by omega) (Nat.lt_succ_iff.mp j.isLt)
    have hkj : k ≤ j.val := hk.2 hj
    have hblock : block k p ⊆ block j p := fun x hx =>
      ⟨hx.1, hx.2.trans_le (Nat.add_le_add_left (Nat.pow_le_pow_right (by omega) hkj) p)⟩
    rcases hno with hbig | hno
    · omega
    · refine hno p ((Nat.pow_dvd_pow 2 hkj).trans ((h.holds j).aligned p hp)) ?_
      exact hblock.trans (h.subset_free j hp)
  · intro hempty
    by_contra hserved
    rw [Unserved, not_or, not_lt] at hserved
    obtain ⟨hn, hrun⟩ := hserved
    push Not at hrun
    obtain ⟨p, hdvd, hsub⟩ := hrun
    have hk10 : k ≤ maxOrder := hk.2 hn
    obtain ⟨j, q, hkj, hmax, -⟩ := exists_maximal hk10 hdvd hsub
    have hj : j < maxOrder + 1 := Nat.lt_succ_of_le hmax.1
    have hmem := (h.mem ⟨j, hj⟩ q).mpr hmax
    rw [hempty ⟨j, hj⟩ (hk.1.trans (Nat.pow_le_pow_right (by omega) hkj))] at hmem
    cases hmem

/-- `get` is sound and complete. A request fails, and leaves the lists alone, if and only if
it is `Unserved`; else it gets the first `n` pages of the lowest block of the smallest order
from `k` on that has a block, and the free pages lose just these. -/
theorem get_sound_complete (h : Reachable m b F) (hn : n ≤ 2 ^ 31)
    (hk : IsLeast {k | n ≤ 2 ^ k} k) :
    ∃ blk m' b', get m b n = .ok (blk, m', b') ∧
      (blk = {} ∧ m' = m ∧ b'.freeList = b.freeList ↔ Unserved F k n) ∧
      (¬ Unserved F k n → ∃ L, Decomposition m b F L ∧
        ∃ (j : Fin (maxOrder + 1)) (p : ℕ), k ≤ j ∧ (∀ i < j, k ≤ i.val → L i = []) ∧
          p ∈ L j ∧ (∀ q ∈ L j, p ≤ q) ∧ blk = ⟨frame p, n⟩ ∧ blk.pages ⊆ F ∧
          freePages m' b' = F \ blk.pages) := by
  obtain ⟨L, hlists⟩ := reachable_lists h
  obtain ⟨blk, m', b', hget, -, hcase⟩ := get_spec hlists hn
  refine ⟨blk, m', b', hget, ?_⟩
  rw [unserved_iff hlists hk]
  rcases hcase with ⟨rfl, rfl, hfree, hempty⟩ |
    ⟨j, p, rest, hfit, hempty, hL, rfl, ⟨L', hlists'⟩, -⟩
  · exact ⟨iff_of_true ⟨rfl, rfl, hfree⟩ hempty, fun hserved => absurd hempty hserved⟩
  · have hmem : p ∈ L j := by simp [hL]
    have hblock := hlists.subset_free j hmem
    have hne : frame p ≠ 0 := frame_ne_zero (hlists.space p (hlists.mem_free j hmem)).1
    refine ⟨iff_of_false ?_ ?_,
      fun _ => ⟨L, hlists.decomposition, j, p, hk.2 hfit, ?_, hmem, ?_, rfl, ?_, ?_⟩⟩
    · intro hnull
      exact hne (congrArg PageBlock.ptr hnull.1)
    · intro hnone
      rw [hnone j hfit] at hmem
      cases hmem
    · intro i hi hki
      exact hempty i hi (hk.1.trans (Nat.pow_le_pow_right (by omega) hki))
    · intro q hq
      have hsorted := (hlists.holds j).sorted
      rw [hL] at hq hsorted
      rcases List.mem_cons.mp hq with rfl | hq
      · exact le_rfl
      · exact ((List.pairwise_cons.mp hsorted).1 q hq).le
    · rw [PageBlock.pages_frame]
      exact fun x hx => hblock ⟨hx.1, hx.2.trans_le (Nat.add_le_add_left hfit p)⟩
    · rw [PageBlock.pages_frame]
      exact hlists'.decomposition.freePages_eq

theorem isLeast_order_three : IsLeast {k | 3 ≤ 2 ^ k} 2 := by
  refine ⟨by decide, fun j hj => ?_⟩
  by_contra hlt
  have hle : 2 ^ j ≤ 2 ^ 1 := Nat.pow_le_pow_right (by omega) (by omega)
  have : 3 ≤ 2 ^ j := hj
  omega

theorem get_sound_complete_three : ∃ m b blk m' b', Reachable m b (Set.Ico 257 268) ∧
    get m b 3 = .ok (blk, m', b') ∧ blk.size = 3 ∧
    freePages m' b' = Set.Ico 257 268 \ blk.pages := by
  obtain ⟨m, b, h⟩ := reachable_block (puttable_block 257 11 (by decide) (by decide))
  rw [PageBlock.pages_frame] at h
  obtain ⟨blk, m', b', hget, -, hserved⟩ :=
    get_sound_complete h (by decide) isLeast_order_three
  have hrun : ¬ Unserved (Set.Ico 257 268) 2 3 := by
    intro hcase
    rcases hcase with hbig | hno
    · omega
    · refine hno 260 (by decide) fun x hx => ?_
      simp only [mem_block, Set.mem_Ico] at hx ⊢
      omega
  obtain ⟨L, -, j, p, -, -, -, -, rfl, -, hfree⟩ := hserved hrun
  exact ⟨m, b, _, m', b', h, hget, rfl, hfree⟩

/-- A chunk of a block: its first page and its order, the orders that `compute_order` tries
for it and the indices of the lists that it and what it is squashed to go to. -/
structure Chunk where
  page : ℕ
  order : ℕ
  orders : List ℕ
  lists : List ℕ

def Chunk.pages (c : Chunk) : Set ℕ := block c.order c.page

def OrderOf (blk : PageBlock) (os : List ℕ) (k : ℕ) : Prop :=
  computeOrder blk = .ok k ∧ ∃ o,
    loop .divergence alignedOrderStep budget (0, blk.ptr / pageSize) = .ok o ∧
    Rounds (fittingOrderStep blk.size) o os k

/-- The rounds of the outer loop of `put`. A chunk that is squashed with its buddy goes on
through the rounds of the inner loop. -/
inductive Feeds : PageBlock × Mem × BuddyAllocator → List Chunk → Mem × BuddyAllocator → Prop where
  | done {s : PageBlock × Mem × BuddyAllocator} {r : Mem × BuddyAllocator} :
      putStep s = .ok (.inr r) → Feeds s [] r
  | settled {s s' : PageBlock × Mem × BuddyAllocator} {r : Mem × BuddyAllocator} {cs : List Chunk}
      {k : ℕ} {os : List ℕ} :
      OrderOf s.1 os k → putAt s.2.1 s.2.2 k s.1.ptr = .ok (0, s'.2) →
      putStep s = .ok (.inl s') → Feeds s' cs r →
      Feeds s (⟨s.1.ptr / pageSize, k, os, [k]⟩ :: cs) r
  | squashed {s s' : PageBlock × Mem × BuddyAllocator} {r t : Mem × BuddyAllocator}
      {cs : List Chunk} {k item : ℕ} {os : List ℕ} {ts : List (ℕ × ℕ × Mem × BuddyAllocator)} :
      OrderOf s.1 os k → putAt s.2.1 s.2.2 k s.1.ptr = .ok (item, t) → item ≠ 0 →
      Rounds cascadeStep (item, wrap (k + 1), t) ts s'.2 →
      putStep s = .ok (.inl s') → Feeds s' cs r →
      Feeds s (⟨s.1.ptr / pageSize, k, os, k :: ts.map fun t => t.2.1⟩ :: cs) r

/-- The chunks lie one behind the other from page `p` on and make up `n` pages; each has the
largest order that its first page and the rest of the block allow. -/
inductive Greedy : ℕ → ℕ → List Chunk → Prop where
  | nil {p : ℕ} : Greedy p 0 []
  | cons {p n : ℕ} {c : Chunk} {cs : List Chunk} :
      c.page = p → c.order ≤ maxOrder → 2 ^ c.order ∣ p → 2 ^ c.order ≤ n →
      (∀ j ≤ maxOrder, 2 ^ j ∣ p → 2 ^ j ≤ n → j ≤ c.order) →
      Greedy (p + 2 ^ c.order) (n - 2 ^ c.order) cs → Greedy p n (c :: cs)

theorem Greedy.pages_eq {cs : List Chunk} (h : Greedy p n cs) :
    (⋃ c ∈ cs, c.pages) = Set.Ico p (p + n) := by
  induction h with
  | nil => simp
  | @cons p n c cs hpage _ _ hfit _ _ ih =>
    have hunion : (⋃ d ∈ c :: cs, d.pages) = c.pages ∪ ⋃ d ∈ cs, d.pages := by
      simp [Set.iUnion_or, Set.iUnion_union_distrib]
    rw [hunion, ih, Chunk.pages, hpage]
    ext x
    simp only [Set.mem_union, mem_block, Set.mem_Ico]
    omega

theorem Greedy.disjoint {cs : List Chunk} (h : Greedy p n cs) :
    cs.Pairwise fun c d => Disjoint c.pages d.pages := by
  induction h with
  | nil => exact List.Pairwise.nil
  | @cons p n c cs hpage _ _ _ _ hrest ih =>
    refine List.pairwise_cons.mpr ⟨fun d hd => Set.disjoint_left.mpr fun x hx hx' => ?_, ih⟩
    have hmem : x ∈ ⋃ d ∈ cs, d.pages := Set.mem_biUnion hd hx'
    rw [hrest.pages_eq] at hmem
    rw [Chunk.pages, hpage] at hx
    have := hx.2
    have := hmem.1
    omega

theorem exists_orderOf (h : computeOrder blk = .ok k) : ∃ os, OrderOf blk os k := by
  obtain ⟨o, ho, hfit⟩ := Result.bind_ok.mp h
  obtain ⟨os, hos⟩ := exists_rounds hfit
  exact ⟨os, h, o, ho, hos⟩

theorem putStep_cases {s : PageBlock × Mem × BuddyAllocator}
    {t : (PageBlock × Mem × BuddyAllocator) ⊕ (Mem × BuddyAllocator)} (h : putStep s = .ok t) :
    s.1.size = 0 ∧ t = .inr s.2 ∨ s.1.size ≠ 0 ∧ ∃ k item u r, computeOrder s.1 = .ok k ∧
      putAt s.2.1 s.2.2 k s.1.ptr = .ok (item, u) ∧
      t = .inl (⟨frameAdd s.1.ptr (shiftOne k), sub32 s.1.size (shiftOne k)⟩, r) ∧
      (item = 0 ∧ u = r ∨ item ≠ 0 ∧
        loop .divergence cascadeStep budget (item, wrap (k + 1), u) = .ok r) := by
  rw [putStep] at h
  by_cases hsize : s.1.size = 0
  · rw [if_neg (not_not.mpr hsize)] at h
    cases h
    exact Or.inl ⟨hsize, rfl⟩
  rw [if_pos hsize] at h
  obtain ⟨k, hk, h⟩ := Result.bind_ok.mp h
  by_cases hbad : s.1.ptr &&& (2 ^ 12 - 1) ≠ 0
  · rw [if_pos hbad] at h
    cases h
  rw [if_neg hbad] at h
  obtain ⟨⟨item, m₁, b₁⟩, hput, h⟩ := Result.bind_ok.mp h
  refine Or.inr ⟨hsize, k, item, (m₁, b₁), ?_⟩
  by_cases hitem : item = 0
  · simp only [hitem, ne_eq, not_true, if_false] at h
    cases h
    exact ⟨_, hk, hput, rfl, Or.inl ⟨hitem, rfl⟩⟩
  · simp only [ne_eq, hitem, not_false_eq_true, if_true] at h
    obtain ⟨r, hr, h⟩ := Result.bind_ok.mp h
    cases h
    exact ⟨r, hk, hput, rfl, Or.inr ⟨hitem, hr⟩⟩

theorem exists_feeds {s : PageBlock × Mem × BuddyAllocator} {r : Mem × BuddyAllocator}
    {ss : List (PageBlock × Mem × BuddyAllocator)} (h : Rounds putStep s ss r) :
    ∃ cs, Feeds s cs r := by
  induction h with
  | exit hb => exact ⟨[], .done hb⟩
  | next hb _ ih =>
    obtain ⟨cs, hcs⟩ := ih
    rcases putStep_cases hb with ⟨-, hexit⟩ | ⟨-, k, item, u, r, hk, hput, hnext, hcase⟩
    · cases hexit
    cases hnext
    obtain ⟨os, hos⟩ := exists_orderOf hk
    rcases hcase with ⟨rfl, rfl⟩ | ⟨hitem, hcascade⟩
    · exact ⟨_, .settled hos hput hb hcs⟩
    · obtain ⟨ts, hts⟩ := exists_rounds hcascade
      exact ⟨_, .squashed hos hput hitem hts hb hcs⟩

theorem putStep_rest {s s' : PageBlock × Mem × BuddyAllocator} (h : putStep s = .ok (.inl s'))
    (hs : s.1 = ⟨wrap (frame p), n⟩) (hend : p + n ≤ 2 ^ 20) (hk : computeOrder s.1 = .ok k) :
    s.1.ptr / pageSize = p ∧ k ≤ maxOrder ∧ 2 ^ k ∣ p ∧ 2 ^ k ≤ n ∧
      (∀ j ≤ maxOrder, 2 ^ j ∣ p → 2 ^ j ≤ n → j ≤ k) ∧
      s'.1 = ⟨wrap (frame (p + 2 ^ k)), n - 2 ^ k⟩ := by
  rcases putStep_cases h with ⟨-, hexit⟩ | ⟨hsize, k', item, u, r, hk', -, hnext, -⟩
  · cases hexit
  cases hnext
  rw [hs] at hsize hk hk' ⊢
  have hn : 0 < n := Nat.pos_of_ne_zero hsize
  rw [wrap_of_lt (frame_lt (show p < 2 ^ 20 by omega))] at hk hk' ⊢
  obtain ⟨i, hi, hle, hdvd, hfit, hlargest⟩ := computeOrder_spec p hn
  rw [hk] at hk' hi
  cases hk'
  cases hi
  have hshift : shiftOne k = 2 ^ k := shiftOne_of_lt (by simp only [maxOrder] at hle; omega)
  refine ⟨frame_div p, hle, hdvd, hfit, fun j hj hjdvd hjfit => ?_, ?_⟩
  · by_contra hlt
    have hpow : 2 ^ (k + 1) ∣ 2 ^ j := Nat.pow_dvd_pow 2 (by omega)
    rcases hlargest with hmax | hodd | hbig
    · omega
    · exact hodd (hpow.trans hjdvd)
    · have := Nat.le_of_dvd (Nat.two_pow_pos j) hpow
      omega
  · rw [frameAdd_frame, hshift, sub32_of_le hfit (by omega)]

theorem Feeds.greedy {s : PageBlock × Mem × BuddyAllocator} {cs : List Chunk}
    {r : Mem × BuddyAllocator} (h : Feeds s cs r) (hs : s.1 = ⟨wrap (frame p), n⟩)
    (hend : p + n ≤ 2 ^ 20) : Greedy p n cs := by
  induction h generalizing p n with
  | done hexit =>
    rcases putStep_cases hexit with ⟨hsize, -⟩ | ⟨-, _, _, _, _, -, -, hnext, -⟩
    · rw [hs] at hsize
      obtain rfl : n = 0 := hsize
      exact .nil
    · cases hnext
  | settled hos _ hstep _ ih =>
    obtain ⟨hpage, hle, hdvd, hfit, hlargest, hrest⟩ := putStep_rest hstep hs hend hos.1
    have htail := ih hrest (by omega)
    exact .cons hpage hle hdvd hfit hlargest htail
  | squashed hos _ _ _ hstep _ ih =>
    obtain ⟨hpage, hle, hdvd, hfit, hlargest, hrest⟩ := putStep_rest hstep hs hend hos.1
    have htail := ih hrest (by omega)
    exact .cons hpage hle hdvd hfit hlargest htail

theorem putAt_order {t : ℕ × Mem × BuddyAllocator} {item : ℕ} (h : putAt m b k item = .ok t) :
    k ≤ maxOrder := by
  by_contra hlt
  rw [putAt, dif_neg (by omega)] at h
  cases h

theorem cascadeStep_order {s : ℕ × ℕ × Mem × BuddyAllocator}
    {t : (ℕ × ℕ × Mem × BuddyAllocator) ⊕ (Mem × BuddyAllocator)} (h : cascadeStep s = .ok t) :
    s.2.1 ≤ maxOrder := by
  obtain ⟨u, hput, -⟩ := Result.bind_ok.mp h
  exact putAt_order hput

theorem OrderOf.orders_le {os : List ℕ} (h : OrderOf blk os k) (hsize : blk.size ≠ 0) :
    ∀ o ∈ os, o ≤ maxOrder := by
  obtain ⟨-, o, haligned, hrounds⟩ := h
  obtain ⟨o', haligned', ho, -⟩ := alignedOrder_spec (blk.ptr / pageSize)
  rw [haligned] at haligned'
  cases haligned'
  refine hrounds.invariant (P := fun i => i ≤ maxOrder) ho fun i i' hi hstep => ?_
  have hshift : shiftOne i = 2 ^ i := shiftOne_of_lt (by simp only [maxOrder] at hi; omega)
  rw [fittingOrderStep, hshift] at hstep
  by_cases hlt : blk.size < 2 ^ i
  swap
  · rw [if_neg hlt] at hstep
    cases hstep
  rw [if_pos hlt] at hstep
  simp only [Except.ok.injEq, Sum.inl.injEq] at hstep
  have hpos : 0 < i := by
    by_contra hz
    rw [show i = 0 by omega, pow_zero] at hlt
    omega
  rw [← hstep, sub32_of_le hpos (by simp only [maxOrder] at hi; omega)]
  omega

theorem Feeds.indices_le {s : PageBlock × Mem × BuddyAllocator} {cs : List Chunk}
    {r : Mem × BuddyAllocator} (h : Feeds s cs r) :
    ∀ c ∈ cs, ∀ i ∈ c.orders ++ c.lists, i ≤ maxOrder := by
  have hsize : ∀ {s s'}, putStep s = .ok (.inl s') → s.1.size ≠ 0 := by
    intro s s' hstep
    rcases putStep_cases hstep with ⟨-, hexit⟩ | ⟨hsize, -⟩
    · cases hexit
    · exact hsize
  induction h with
  | done _ => simp
  | settled hos hput hstep _ ih =>
    intro c hc i hi
    rcases List.mem_cons.mp hc with rfl | hc
    · rcases List.mem_append.mp hi with hi | hi
      · exact hos.orders_le (hsize hstep) i hi
      · obtain rfl := List.mem_singleton.mp hi
        exact putAt_order hput
    · exact ih c hc i hi
  | squashed hos hput _ hcascade hstep _ ih =>
    intro c hc i hi
    rcases List.mem_cons.mp hc with rfl | hc
    · rcases List.mem_append.mp hi with hi | hi
      · exact hos.orders_le (hsize hstep) i hi
      · rcases List.mem_cons.mp hi with rfl | hi
        · exact putAt_order hput
        · obtain ⟨t, ht, rfl⟩ := List.mem_map.mp hi
          exact hcascade.forall (P := fun t => t.2.1 ≤ maxOrder)
            (fun _ _ hok => cascadeStep_order hok) t ht
    · exact ih c hc i hi

/-- `put` of a block that does not begin at address 0. The outer loop ends; its chunks are
consecutive, make up the block and are each of the largest order that fits; and no loop
inside goes above `maxOrder`. -/
theorem put_chunks (h : Lists m b F L) (hblk : Puttable F blk) (hn : blk.size ≠ 0) :
    ∃ cs r, put m b blk = .ok r ∧
      Feeds (blk, m, { b with deallocations := wrap (b.deallocations + 1) }) cs r ∧
      Greedy blk.page blk.size cs ∧ (cs.Pairwise fun c d => Disjoint c.pages d.pages) ∧
      (⋃ c ∈ cs, c.pages) = blk.pages ∧ ∀ c ∈ cs, ∀ i ∈ c.orders ++ c.lists, i ≤ maxOrder := by
  obtain ⟨r, hput, -⟩ := put_of_puttable h hblk
  obtain ⟨halign, hne, hend, -⟩ := hblk
  obtain ⟨ptr, n⟩ := blk
  obtain ⟨p, rfl⟩ : ∃ p, ptr = frame p := ⟨ptr / pageSize, by
    simp only [frame, pageSize] at halign ⊢
    omega⟩
  have hlast : p + n ≤ 2 ^ 20 := by
    simp only [frame, pageSize] at hend
    omega
  have hloop := hput
  rw [put, if_neg hn, if_neg (by simp [frame_and_mask])] at hloop
  obtain ⟨ss, hss⟩ := exists_rounds hloop
  obtain ⟨cs, hcs⟩ := exists_feeds hss
  have hwrap : wrap (frame p) = frame p := by
    have hlt : n ≠ 0 := hn
    exact wrap_of_lt (frame_lt (by omega))
  have hgreedy : Greedy p n cs := hcs.greedy (by rw [hwrap]) hlast
  rw [PageBlock.page_frame, PageBlock.pages_frame]
  exact ⟨cs, r, hput, hcs, hgreedy, hgreedy.disjoint, hgreedy.pages_eq, hcs.indices_le⟩

theorem put_chunks_block : ∃ m b cs r, put m b ⟨frame 257, 11⟩ = .ok r ∧ Greedy 257 11 cs ∧
    Feeds (⟨frame 257, 11⟩, m, { b with deallocations := wrap (b.deallocations + 1) }) cs r := by
  obtain ⟨b, -, hlists, -⟩ := initializeLists_spec (fun _ => 0) ⟨0, 0⟩
  obtain ⟨cs, r, hput, hfeeds, hgreedy, -⟩ :=
    put_chunks hlists (puttable_block 257 11 (by decide) (by decide)) (by decide)
  exact ⟨_, b, cs, r, hput, hgreedy, hfeeds⟩

/-- The null frame stands for no frame: a block at address 0 is not put. -/
theorem put_null (m : Mem) (b : BuddyAllocator) (hn : n ≠ 0) :
    put m b ⟨0, n⟩ = .error .nullDereference := by
  obtain ⟨k, hk, hle, -⟩ := computeOrder_spec 0 (Nat.pos_of_ne_zero hn)
  have hstep : ∀ b : BuddyAllocator, putStep (⟨0, n⟩, m, b) = .error .nullDereference := by
    intro b
    have hput : putAt m b k 0 = .error .nullDereference := by
      rw [putAt, dif_pos (by omega)]
      rfl
    have hk0 : computeOrder ⟨0, n⟩ = .ok k := hk
    simp only [putStep, ne_eq, hn, not_false_eq_true, if_true, hk0, hput, bind, Except.bind]
    exact if_neg (by simp)
  rw [put, if_neg hn, if_neg (by simp), show budget = 2 ^ 33 - 1 + 1 by rfl]
  exact loop_error (hstep _) _

theorem put_null_block : ¬ ∀ (m : Mem) (b : BuddyAllocator) (F : Set ℕ)
    (L : Fin (maxOrder + 1) → List ℕ) (blk : PageBlock), Lists m b F L →
    blk.ptr % pageSize = 0 → blk.size ≠ 0 → blk.ptr + pageSize * blk.size ≤ 2 ^ 32 →
    Disjoint blk.pages F → ∃ r, put m b blk = .ok r := by
  intro hall
  obtain ⟨b, -, hlists, -⟩ := initializeLists_spec (fun _ => 0) ⟨0, 0⟩
  obtain ⟨r, hput⟩ := hall _ b ∅ _ ⟨0, 1⟩ hlists (by decide) (by decide) (by decide) (by simp)
  rw [put_null _ _ (by decide)] at hput
  cases hput

end BuddyAllocator

end Bolgenos
