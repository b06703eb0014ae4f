import Bolgenos.Memory.BuddyAllocator

/-!
# The buddy system keeps the maximal dyadic decomposition

`Lists m b F L` relates the eleven linked lists to the set `F` of free pages: list `k`
holds, in ascending order, the maximal aligned runs of `2 ^ k` free pages. Both
operations preserve the relation, whatever the order of the calls, so the contents of
the lists are a function of the set of free pages.
-/

namespace Bolgenos

open ByteMemory FuelLoop LinkedChain Dyadic

def AgreeOutside (S : Set ℕ) (m m' : Mem) : Prop := ∀ a, a / pageSize ∉ S → m' a = m a

theorem AgreeOutside.refl (S : Set ℕ) (m : Mem) : AgreeOutside S m m := fun _ _ => rfl

theorem AgreeOutside.trans {S : Set ℕ} {m m' m'' : Mem} (h : AgreeOutside S m m')
    (h' : AgreeOutside S m' m'') : AgreeOutside S m m'' := fun a ha => (h' a ha).trans (h a ha)

theorem AgreeOutside.mono {S T : Set ℕ} {m m' : Mem} (h : AgreeOutside S m m') (hST : S ⊆ T) :
    AgreeOutside T m m' := fun a ha => h a fun hS => ha (hST hS)

theorem FreeList.AgreeOff.outside {ps : List ℕ} {S : Set ℕ} {m m' : Mem}
    (h : FreeList.AgreeOff ps m m') (hps : ∀ p ∈ ps, p ∈ S) : AgreeOutside S m m' := by
  refine fun a ha => h a fun p hp => ?_
  have hne : p ≠ a / pageSize := fun heq => ha (heq ▸ hps p hp)
  simp only [frame, pageSize] at hne ⊢
  omega

theorem AgreeOutside.read32_frame {S : Set ℕ} {m m' : Mem} (h : AgreeOutside S m m') {p : ℕ}
    (hp : p ∉ S) : read32 m' (frame p) = read32 m (frame p) := by
  refine read32_congr fun a ha ha' => h a ?_
  have hpage : a / pageSize = p := by
    simp only [frame, pageSize] at ha ha' ⊢
    omega
  rwa [hpage]

namespace BuddyAllocator

/-- List `k` holds the maximal aligned runs of `2 ^ k` pages of `F`. -/
structure Lists (m : Mem) (b : BuddyAllocator) (F : Set ℕ)
    (L : Fin (maxOrder + 1) → List ℕ) : Prop where
  holds : ∀ k, FreeList.Holds m (b.freeList k) k (L k)
  squash : ∀ k, (b.freeList k).disableSquashing = decide (k.val = maxOrder)
  mem : ∀ k p, p ∈ L k ↔ Maximal maxOrder F k p
  space : ∀ p ∈ F, 0 < p ∧ p < 2 ^ 20

variable {m m' : Mem} {b b' : BuddyAllocator} {F : Set ℕ} {L : Fin (maxOrder + 1) → List ℕ}
  {i k p q n : ℕ}

theorem Lists.subset_free (h : Lists m b F L) (k : Fin (maxOrder + 1)) {p : ℕ} (hp : p ∈ L k) :
    block k p ⊆ F :=
  maximal_subset ((h.mem k p).mp hp)

theorem Lists.mem_free (h : Lists m b F L) (k : Fin (maxOrder + 1)) {p : ℕ} (hp : p ∈ L k) :
    p ∈ F :=
  h.subset_free k hp (left_mem_block k p)

theorem Lists.update (h : Lists m b F L) {F' : Set ℕ} (k : Fin (maxOrder + 1)) {fl : FreeList}
    {ps qs : List ℕ} (hfl : FreeList.Holds m' fl k ps)
    (hflag : fl.disableSquashing = (b.freeList k).disableSquashing)
    (hagree : FreeList.AgreeOff qs m m') (hqs : ∀ j, j ≠ k → ∀ p ∈ L j, p ∉ qs)
    (hk : ∀ p, p ∈ ps ↔ Maximal maxOrder F' k p)
    (hother : ∀ j p, j ≠ k.val → (Maximal maxOrder F' j p ↔ Maximal maxOrder F j p))
    (hspace : ∀ p ∈ F', 0 < p ∧ p < 2 ^ 20) :
    Lists m' { b with freeList := Function.update b.freeList k fl } F'
      (Function.update L k ps) where
  holds := by
    intro j
    by_cases hj : j = k
    · subst hj
      simpa using hfl
    · simp only [Function.update_of_ne hj]
      exact (h.holds j).congr fun p hp => hagree.read32 (hqs j hj p hp)
  squash := by
    intro j
    by_cases hj : j = k
    · subst hj
      simpa [hflag] using h.squash j
    · simp only [Function.update_of_ne hj]
      exact h.squash j
  mem := by
    intro j p
    by_cases hj : j = k
    · subst hj
      simpa using hk p
    · rw [Function.update_of_ne hj, h.mem j p, hother j p fun hv => hj (Fin.ext hv)]
  space := hspace

theorem space_of_block {k p : ℕ} (hspace : ∀ x ∈ block k p, 0 < x ∧ x < 2 ^ 20) :
    0 < p ∧ p + 2 ^ k ≤ 2 ^ 20 := by
  have hpos := Nat.two_pow_pos k
  have hlast := hspace (p + 2 ^ k - 1) ⟨by omega, by omega⟩
  exact ⟨(hspace p (left_mem_block k p)).1, by omega⟩

/-- One step of the cascade at order `i`: the block settles in list `i`, or its buddy
leaves the list and the parent block goes on. -/
theorem putAt_spec (h : Lists m b F L) (hi : i ≤ maxOrder) (hq : 2 ^ i ∣ q)
    (hspace : ∀ x ∈ block i q, 0 < x ∧ x < 2 ^ 20) (hdisj : Disjoint (block i q) F) :
    ∃ item m' b' F' L', putAt m b i (frame q) = .ok (item, m', b') ∧ Lists m' b' F' L' ∧
      AgreeOutside (F ∪ block i q) m m' ∧ b'.region = b.region ∧
      ((item = 0 ∧ F' = F ∪ block i q) ∨
        (i < maxOrder ∧ item = frame (parent i q) ∧ F' = F \ block i (buddy i q) ∧
          block i (buddy i q) ⊆ F)) := by
  have hi' : i < maxOrder + 1 := by omega
  have hqmem := left_mem_block i q
  have hnew : q ∉ L ⟨i, hi'⟩ := fun hmem =>
    Set.disjoint_left.mp hdisj hqmem (h.mem_free _ hmem)
  obtain ⟨item, m', fl', ps', hput, hholds, hflag, hagree, hanswer⟩ :=
    FreeList.put_spec (h.holds ⟨i, hi'⟩) hi hnew hq (space_of_block hspace)
  have hout : AgreeOutside (F ∪ block i q) m m' := hagree.outside fun p hp => by
    rcases List.mem_cons.mp hp with rfl | hp
    · exact Or.inr hqmem
    · exact Or.inl (h.mem_free _ hp)
  -- the frames of the other lists are neither the new block nor in list `i`
  have hothers : ∀ j, j ≠ ⟨i, hi'⟩ → ∀ p ∈ L j, p ∉ q :: L ⟨i, hi'⟩ := by
    intro j hj p hp hmem
    rcases List.mem_cons.mp hmem with rfl | hmem
    · exact Set.disjoint_left.mp hdisj hqmem (h.mem_free j hp)
    · have huniq := maximal_unique ((h.mem j p).mp hp) ((h.mem _ p).mp hmem)
        (left_mem_block j p) (left_mem_block i p)
      exact hj (Fin.ext huniq.1)
  have heval : putAt m b i (frame q) = .ok (item, m',
      { b with freeList := Function.update b.freeList ⟨i, hi'⟩ fl' }) := by
    simp only [putAt, dif_pos hi', hput, bind, Except.bind]
  have hbuddy := buddy_subset_iff hi hq hdisj
  by_cases hjoin : (b.freeList ⟨i, hi'⟩).disableSquashing = false ∧ buddy i q ∈ L ⟨i, hi'⟩
  · rw [if_pos hjoin, ← parent_eq_min hq] at hanswer
    obtain ⟨hflag0, hmem⟩ := hjoin
    have hmax := (h.mem ⟨i, hi'⟩ _).mp hmem
    have hlt : i < maxOrder := by
      rw [h.squash] at hflag0
      have : i ≠ maxOrder := by simpa using hflag0
      omega
    refine ⟨item, m', _, F \ block i (buddy i q), Function.update L ⟨i, hi'⟩ ps', heval, ?_, hout,
      rfl, Or.inr ⟨hlt, hanswer.1, rfl, maximal_subset hmax⟩⟩
    refine h.update ⟨i, hi'⟩ hholds hflag hagree hothers (fun p => ?_) (fun j p hj => ?_)
      fun p hp => h.space p hp.1
    · rw [hanswer.2, h.mem, maximal_diff hmax]
      simp
    · rw [maximal_diff hmax]
      exact and_iff_left fun heq => hj heq.1
  · rw [if_neg hjoin] at hanswer
    have hfree : i < maxOrder → ¬ block i (buddy i q) ⊆ F := by
      intro hlt hsub
      refine hjoin ⟨?_, (h.mem ⟨i, hi'⟩ _).mpr (hbuddy.mp hsub)⟩
      rw [h.squash]
      simp only [decide_eq_false_iff_not]
      omega
    have hunion : ∀ j p, Maximal maxOrder (F ∪ block i q) j p ↔
        Maximal maxOrder F j p ∨ (j = i ∧ p = q) := fun j p => maximal_union hi hq hdisj hfree
    refine ⟨item, m', _, F ∪ block i q, Function.update L ⟨i, hi'⟩ ps', heval, ?_, hout, rfl,
      Or.inl ⟨hanswer.1, rfl⟩⟩
    refine h.update ⟨i, hi'⟩ hholds hflag hagree hothers (fun p => ?_) (fun j p hj => ?_)
      fun p hp => ?_
    · rw [hanswer.2, h.mem, hunion]
      simp only [true_and]
      exact or_comm
    · rw [hunion]
      exact or_iff_left fun heq => hj heq.1
    · rcases hp with hp | hp
      · exact h.space p hp
      · exact hspace p hp

theorem cascade_spec (h : Lists m b F L) (hi : i ≤ maxOrder) (hq : 2 ^ i ∣ q)
    (hspace : ∀ x ∈ block i q, 0 < x ∧ x < 2 ^ 20) (hdisj : Disjoint (block i q) F) :
    ∃ s, loop .divergence cascadeStep budget (frame q, i, m, b) = .ok s ∧
      (∃ L', Lists s.1 s.2 (F ∪ block i q) L') ∧ AgreeOutside (F ∪ block i q) m s.1 ∧
      s.2.region = b.region := by
  set G := F ∪ block i q with hG
  have hGspace : ∀ x ∈ G, 0 < x ∧ x < 2 ^ 20 := by
    intro x hcase
    rcases hcase with hx | hx
    · exact h.space x hx
    · exact hspace x hx
  refine loop_total (fun n s => ∃ q F' L', s.1 = frame q ∧ n + s.2.1 = maxOrder ∧
    Lists s.2.2.1 s.2.2.2 F' L' ∧ 2 ^ s.2.1 ∣ q ∧ F' ∪ block s.2.1 q = G ∧
    Disjoint (block s.2.1 q) F' ∧ AgreeOutside G m s.2.2.1 ∧ s.2.2.2.region = b.region) _ ?_
    (k := maxOrder - i)
    ⟨q, F, L, rfl, Nat.sub_add_cancel hi, h, hq, rfl, hdisj, AgreeOutside.refl G m, rfl⟩
    (by simp only [budget, maxOrder]; omega)
  intro n s hexists
  obtain ⟨item, j, m₁, b₁⟩ := s
  obtain ⟨q, F', L', hitem, hn, hlists, hqd, hunion, hdisj', hagree, hregion⟩ := hexists
  simp only at hitem hn hlists hqd hunion hdisj' hagree hregion
  subst hitem
  have hblock : block j q ⊆ G := hunion ▸ Set.subset_union_right
  obtain ⟨item, m₂, b₂, F₂, L₂, hput, hlists₂, hagree₂, hregion₂, hcase⟩ :=
    putAt_spec hlists (by omega) hqd (fun x hx => hGspace x (hblock hx)) hdisj'
  rw [hunion] at hagree₂ hcase
  rcases hcase with ⟨rfl, rfl⟩ | ⟨hlt, rfl, rfl, hsub⟩
  · refine Or.inr ⟨(m₂, b₂), ?_, ⟨L₂, hlists₂⟩, hagree.trans hagree₂, hregion₂.trans hregion⟩
    simp [cascadeStep, hput, bind, Except.bind]
  · have hpar := block_parent hqd
    have hparG : block (j + 1) (parent j q) ⊆ G := by
      rw [hpar]
      exact Set.union_subset hblock (hsub.trans (hunion ▸ Set.subset_union_left))
    have hne : frame (parent j q) ≠ 0 :=
      frame_ne_zero (hGspace _ (hparG (left_mem_block _ _))).1
    have hwrap : wrap (j + 1) = j + 1 := wrap_of_lt (by simp only [maxOrder] at hlt; omega)
    refine Or.inl ⟨(frame (parent j q), j + 1, m₂, b₂), n - 1, ?_, ⟨parent j q, _, L₂, rfl, ?_,
      hlists₂, dvd_parent j q, ?_, ?_, hagree.trans hagree₂, hregion₂.trans hregion⟩, by omega⟩
    · simp [cascadeStep, hput, bind, Except.bind, hne, hwrap]
    · simp only
      omega
    · simp only
      rw [hpar, ← hunion]
      ext x
      simp only [Set.mem_union, Set.mem_sdiff]
      have := @hsub x
      tauto
    · simp only
      rw [hpar]
      apply Set.disjoint_left.mpr
      intro x hx hx'
      rcases hx with hx | hx
      · exact Set.disjoint_left.mp hdisj' hx hx'.1
      · exact hx'.2 hx

theorem alignedOrder_spec (p : ℕ) :
    ∃ k, loop .divergence alignedOrderStep budget (0, p) = .ok k ∧ k ≤ maxOrder ∧ 2 ^ k ∣ p ∧
      (k = maxOrder ∨ ¬ 2 ^ (k + 1) ∣ p) := by
  refine loop_total (fun n s => n + s.1 = maxOrder ∧ p = 2 ^ s.1 * s.2) _ ?_ (k := maxOrder)
    ⟨by omega, by simp⟩ (by simp [budget, maxOrder])
  intro n s hparts
  obtain ⟨o, page⟩ := s
  obtain ⟨hn, rfl⟩ := hparts
  simp only at hn
  by_cases hgo : page &&& 1 = 0 ∧ o < maxOrder
  · have hhalf : page = 2 * (page / 2) := by
      have := Nat.and_one_is_mod page
      omega
    refine Or.inl ⟨(o + 1, page >>> 1), n - 1, by simp only [alignedOrderStep, if_pos hgo],
      ⟨?_, ?_⟩, by omega⟩
    · simp only
      omega
    · simp only
      rw [Nat.shiftRight_eq_div_pow, Nat.pow_one, Nat.pow_succ, Nat.mul_assoc, ← hhalf]
  · refine Or.inr ⟨o, by simp only [alignedOrderStep, if_neg hgo], by omega, Dvd.intro _ rfl, ?_⟩
    by_cases ho : o < maxOrder
    · right
      rw [pow_succ, Nat.mul_dvd_mul_iff_left (Nat.two_pow_pos o)]
      intro hdvd
      refine hgo ⟨?_, ho⟩
      rw [Nat.and_one_is_mod]
      omega
    · left
      omega

theorem fittingOrder_spec {size : ℕ} (hk : k ≤ maxOrder) (hsize : 0 < size) :
    ∃ j, loop .divergence (fittingOrderStep size) budget k = .ok j ∧ j ≤ k ∧ 2 ^ j ≤ size ∧
      (j = k ∨ size < 2 ^ (j + 1)) := by
  refine loop_total (fun n j => n = j ∧ j ≤ k ∧ (j = k ∨ size < 2 ^ (j + 1))) _ ?_ (k := k)
    ⟨rfl, le_rfl, Or.inl rfl⟩ (lt_budget (by simp only [maxOrder] at hk; omega))
  intro n j hparts
  obtain ⟨rfl, hjk, hlarge⟩ := hparts
  have hshift : shiftOne n = 2 ^ n := shiftOne_of_lt (by simp only [maxOrder] at hk; omega)
  by_cases hgo : size < 2 ^ n
  · have hpos : 0 < n := by
      by_contra hz
      rw [show n = 0 by omega, pow_zero] at hgo
      omega
    refine Or.inl ⟨n - 1, n - 1, ?_, ⟨rfl, by omega, Or.inr ?_⟩, by omega⟩
    · have hn32 : n < 2 ^ 32 := by
        simp only [maxOrder] at hk
        omega
      rw [fittingOrderStep, hshift, if_pos hgo, sub32_of_le hpos hn32]
    · rwa [show n - 1 + 1 = n by omega]
  · refine Or.inr ⟨n, ?_, hjk, by omega, hlarge⟩
    rw [fittingOrderStep, hshift, if_neg hgo]

theorem computeOrder_spec (p : ℕ) (hn : 0 < n) :
    ∃ k, computeOrder ⟨frame p, n⟩ = .ok k ∧ k ≤ maxOrder ∧ 2 ^ k ∣ p ∧ 2 ^ k ≤ n ∧
      (k = maxOrder ∨ ¬ 2 ^ (k + 1) ∣ p ∨ n < 2 ^ (k + 1)) := by
  obtain ⟨k, hk, hkm, hdvd, hmax⟩ := alignedOrder_spec p
  obtain ⟨j, hj, hjk, hfit, hbig⟩ := fittingOrder_spec hkm hn
  have hpage : frame p / pageSize = p := by
    simp only [frame, pageSize]
    omega
  refine ⟨j, ?_, by omega, (Nat.pow_dvd_pow 2 hjk).trans hdvd, hfit, ?_⟩
  · simp only [computeOrder, hpage, hk, bind, Except.bind]
    exact hj
  · rcases hbig with rfl | hbig
    · rcases hmax with hmax | hmax
      · exact Or.inl hmax
      · exact Or.inr (Or.inl hmax)
    · exact Or.inr (Or.inr hbig)

theorem frame_and_mask (p : ℕ) : frame p &&& 4095 = 0 := by
  rw [show 4095 = 2 ^ 12 - 1 by rfl, Nat.and_two_pow_sub_one_eq_mod]
  simp only [frame, pageSize]
  omega

theorem putStep_spec (h : Lists m b F L) (hn : n ≠ 0) (hp : 0 < p) (hend : p + n ≤ 2 ^ 20)
    (hdisj : Disjoint (Set.Ico p (p + n)) F) :
    ∃ k m' b', putStep (⟨frame p, n⟩, m, b) =
        .ok (.inl (⟨wrap (frame (p + 2 ^ k)), n - 2 ^ k⟩, m', b')) ∧ 2 ^ k ≤ n ∧
      (∃ L', Lists m' b' (F ∪ block k p) L') ∧ AgreeOutside (F ∪ block k p) m m' ∧
      b'.region = b.region := by
  obtain ⟨k, hk, hkm, hdvd, hfit, -⟩ := computeOrder_spec p (show 0 < n by omega)
  have hshift : shiftOne k = 2 ^ k := shiftOne_of_lt (by simp only [maxOrder] at hkm; omega)
  have hwrap : wrap (k + 1) = k + 1 := wrap_of_lt (by simp only [maxOrder] at hkm; omega)
  have hsub : sub32 n (2 ^ k) = n - 2 ^ k := sub32_of_le hfit (by omega)
  have hin : block k p ⊆ Set.Ico p (p + n) := fun x hx => ⟨hx.1, by have := hx.2; omega⟩
  have hspace : ∀ x ∈ block k p, 0 < x ∧ x < 2 ^ 20 := fun x hx => by
    have := hin hx
    simp only [Set.mem_Ico] at this
    omega
  obtain ⟨item, m₁, b₁, F₁, L₁, hput, hlists, hagree, hregion, hcase⟩ :=
    putAt_spec h hkm hdvd hspace (hdisj.mono_left hin)
  rcases hcase with ⟨rfl, rfl⟩ | ⟨hlt, rfl, rfl, hbud⟩
  · refine ⟨k, m₁, b₁, ?_, hfit, ⟨L₁, hlists⟩, hagree, hregion⟩
    simp [putStep, hn, hk, frame_and_mask, hput, hshift, hsub, frameAdd_frame, bind, Except.bind]
  · have hpar := block_parent hdvd
    have hparspace : ∀ x ∈ block (k + 1) (parent k p), 0 < x ∧ x < 2 ^ 20 := by
      intro x hx
      rw [hpar] at hx
      rcases hx with hx | hx
      · exact hspace x hx
      · exact h.space x (hbud hx)
    have hpardisj : Disjoint (block (k + 1) (parent k p)) (F \ block k (buddy k p)) := by
      rw [hpar]
      apply Set.disjoint_left.mpr
      intro x hx hx'
      rcases hx with hx | hx
      · exact Set.disjoint_left.mp hdisj (hin hx) hx'.1
      · exact hx'.2 hx
    have hunion : F \ block k (buddy k p) ∪ block (k + 1) (parent k p) = F ∪ block k p := by
      rw [hpar]
      ext x
      simp only [Set.mem_union, Set.mem_sdiff]
      have := @hbud x
      tauto
    obtain ⟨⟨m₂, b₂⟩, hloop, hlists₂, hagree₂, hregion₂⟩ :=
      cascade_spec hlists (by omega) (dvd_parent k p) hparspace hpardisj
    rw [hunion] at hlists₂ hagree₂
    have hne : frame (parent k p) ≠ 0 := frame_ne_zero (hparspace _ (left_mem_block _ _)).1
    refine ⟨k, m₂, b₂, ?_, hfit, hlists₂, hagree.trans hagree₂, hregion₂.trans hregion⟩
    simp [putStep, hn, hk, frame_and_mask, hput, hne, hwrap, hloop, hshift, hsub, frameAdd_frame,
      bind, Except.bind]

theorem Lists.withStats (h : Lists m b F L) (a d : ℕ) :
    Lists m { b with allocations := a, deallocations := d } F L :=
  ⟨h.holds, h.squash, h.mem, h.space⟩

theorem put_spec (h : Lists m b F L) (hp : 0 < p) (hend : p + n ≤ 2 ^ 20)
    (hdisj : Disjoint (Set.Ico p (p + n)) F) :
    ∃ s, put m b ⟨frame p, n⟩ = .ok s ∧ (∃ L', Lists s.1 s.2 (F ∪ Set.Ico p (p + n)) L') ∧
      AgreeOutside (F ∪ Set.Ico p (p + n)) m s.1 ∧ s.2.region = b.region := by
  rw [put]
  by_cases hn : n = 0
  · subst hn
    exact ⟨(m, b), if_pos rfl, ⟨L, by simpa using h⟩, AgreeOutside.refl _ m, rfl⟩
  rw [if_neg hn, if_neg (by simp [frame_and_mask])]
  set G := F ∪ Set.Ico p (p + n) with hG
  refine loop_total (fun j s => ∃ p' L', s.1 = ⟨wrap (frame p'), j⟩ ∧ p ≤ p' ∧ p' + j = p + n ∧
    Lists s.2.1 s.2.2 (F ∪ Set.Ico p p') L' ∧ AgreeOutside G m s.2.1 ∧
    s.2.2.region = b.region) _ ?_ (k := n)
    ⟨p, L, ?_, le_rfl, rfl, ?_, AgreeOutside.refl G m, rfl⟩ (lt_budget (by omega))
  · intro j s hexists
    obtain ⟨blk, m₁, b₁⟩ := s
    obtain ⟨p', L', hblk, hpp, hsum, hlists, hagree, hregion⟩ := hexists
    simp only at hblk hlists hagree hregion
    subst hblk
    by_cases hj : j = 0
    · subst hj
      obtain rfl : p' = p + n := by omega
      refine Or.inr ⟨(m₁, b₁), ?_, ⟨L', hlists⟩, hagree, hregion⟩
      simp [putStep]
    · have hwrap : wrap (frame p') = frame p' := wrap_of_lt (frame_lt (by omega))
      have hdisj' : Disjoint (Set.Ico p' (p' + j)) (F ∪ Set.Ico p p') := by
        apply Set.disjoint_left.mpr
        intro x hx hx'
        rcases hx' with hx' | hx'
        · exact Set.disjoint_left.mp hdisj ⟨by have := hx.1; omega, by have := hx.2; omega⟩ hx'
        · have := hx.1
          have := hx'.2
          omega
      obtain ⟨k, m₂, b₂, hstep, hfit, ⟨L₂, hlists₂⟩, hagree₂, hregion₂⟩ :=
        putStep_spec hlists hj (by omega) (by omega) hdisj'
      have hpos := Nat.two_pow_pos k
      have hunion : F ∪ Set.Ico p p' ∪ block k p' = F ∪ Set.Ico p (p' + 2 ^ k) := by
        rw [Set.union_assoc]
        congr 1
        ext x
        simp only [Set.mem_union, Set.mem_Ico, mem_block]
        omega
      rw [hunion] at hlists₂ hagree₂
      refine Or.inl ⟨_, j - 2 ^ k, by rw [hwrap]; exact hstep, ⟨p' + 2 ^ k, L₂, rfl, by omega,
        by omega, hlists₂, hagree.trans (hagree₂.mono ?_), hregion₂.trans hregion⟩, by omega⟩
      rw [hG]
      exact Set.union_subset_union_right F (Set.Ico_subset_Ico_right (by omega))
  · simp only [wrap_of_lt (frame_lt (show p < 2 ^ 20 by omega))]
  · simpa using h.withStats b.allocations (wrap (b.deallocations + 1))

theorem order_spec (hn : n ≤ 2 ^ 31) :
    ∃ o, loop .divergence (orderStep n) budget 0 = .ok o ∧ n ≤ 2 ^ o ∧ ∀ j < o, 2 ^ j < n := by
  refine loop_total (fun d o => d + o = 31 ∧ ∀ j < o, 2 ^ j < n) _ ?_ (k := 31)
    ⟨rfl, by simp⟩ (lt_budget (by omega))
  intro d o hparts
  obtain ⟨hd, hless⟩ := hparts
  have hshift : shiftOne o = 2 ^ o := shiftOne_of_lt (by omega)
  by_cases hgo : 2 ^ o < n
  · have ho : o < 31 := by
      by_contra hle
      rw [show o = 31 by omega] at hgo
      omega
    refine Or.inl ⟨o + 1, d - 1, ?_, ⟨by omega, fun j hj => ?_⟩, by omega⟩
    · rw [orderStep, hshift, if_pos hgo, wrap_of_lt (by omega)]
    · rcases Nat.lt_succ_iff_lt_or_eq.mp hj with hj | rfl
      · exact hless j hj
      · exact hgo
  · refine Or.inr ⟨o, ?_, by omega, hless⟩
    rw [orderStep, hshift, if_neg hgo]

theorem getAt_nil (h : Lists m b F L) (k : Fin (maxOrder + 1)) (hk : L k = []) :
    getAt m b k = .ok (0, m, b) := by
  have hholds := h.holds k
  rw [hk] at hholds
  simp only [getAt, dif_pos k.isLt, FreeList.get_nil hholds, bind, Except.bind]
  simp

theorem getAt_cons (h : Lists m b F L) (k : Fin (maxOrder + 1)) {rest : List ℕ}
    (hk : L k = p :: rest) :
    ∃ m' b' L', getAt m b k = .ok (frame p, m', b') ∧ Lists m' b' (F \ block k p) L' ∧
      AgreeOutside F m m' ∧ b'.region = b.region := by
  have hholds := h.holds k
  have hmem : p ∈ L k := by simp [hk]
  have hmax := (h.mem k p).mp hmem
  rw [hk] at hholds
  obtain ⟨m', fl', hget, hrest, hflag, hagree⟩ := FreeList.get_cons hholds
  refine ⟨m', { b with freeList := Function.update b.freeList k fl' }, Function.update L k rest,
    ?_, ?_, hagree.outside fun q hq => ?_, rfl⟩
  · simp only [getAt, dif_pos k.isLt, hget, bind, Except.bind]
  · refine h.update k hrest hflag hagree (fun j hj q hq hqp => ?_) (fun q => ?_) (fun j q hj => ?_)
      fun q hq => h.space q hq.1
    · obtain rfl : q = p := by simpa using hqp
      exact hj (Fin.ext (maximal_unique ((h.mem j q).mp hq) hmax (left_mem_block j q)
        (left_mem_block k q)).1)
    · have hs := (List.pairwise_cons.mp hholds.sorted).1
      rw [maximal_diff hmax, ← h.mem k q, hk]
      simp only [true_and, List.mem_cons]
      constructor
      · exact fun hq => ⟨Or.inr hq, (hs q hq).ne'⟩
      · intro hparts
        rcases hparts with ⟨rfl | hq, hne⟩
        · exact absurd rfl hne
        · exact hq
    · rw [maximal_diff hmax]
      exact and_iff_left fun heq => hj heq.1
  · obtain rfl : q = p := by simpa using hq
    exact h.mem_free k hmem

/-- The search for a block: either every list from the order on is empty and nothing
changed, or the first block of the first non-empty list was taken out. -/
theorem take_spec (h : Lists m b F L) {o : ℕ} (ho : o ≤ maxOrder) :
    ∃ s, loop .divergence takeStep budget (o, m, b) = .ok s ∧
      ((s = (0, maxOrder + 1, m, b) ∧ ∀ k : Fin (maxOrder + 1), o ≤ k → L k = []) ∨
        ∃ (j : Fin (maxOrder + 1)) (p : ℕ) (rest : List ℕ) (L' : Fin (maxOrder + 1) → List ℕ),
          o ≤ j ∧ (∀ i < j, o ≤ i.val → L i = []) ∧ L j = p :: rest ∧ s.1 = frame p ∧ s.2.1 = j ∧
          Lists s.2.2.1 s.2.2.2 (F \ block j p) L' ∧ AgreeOutside F m s.2.2.1 ∧
          s.2.2.2.region = b.region) := by
  refine loop_total (fun d s => d + s.1 = maxOrder + 1 ∧ s.2 = (m, b) ∧ o ≤ s.1 ∧
    ∀ i : Fin (maxOrder + 1), o ≤ i.val → i.val < s.1 → L i = []) _ ?_ (k := maxOrder + 1 - o)
    ⟨Nat.sub_add_cancel (by omega), rfl, le_rfl, fun i hi hi' => absurd hi' (Nat.not_lt.mpr hi)⟩
    (by simp only [budget, maxOrder]; omega)
  intro d s hparts
  obtain ⟨j, s⟩ := s
  obtain ⟨hd, rfl, hoj, hempty⟩ := hparts
  simp only at hd hoj hempty
  by_cases hj : j ≤ maxOrder
  · have hj' : j < maxOrder + 1 := by omega
    cases hL : L ⟨j, hj'⟩ with
    | nil =>
      have hget := getAt_nil h ⟨j, hj'⟩ hL
      refine Or.inl ⟨(j + 1, m, b), d - 1, ?_, ⟨by simp only; omega, rfl, by simp only; omega,
        fun i hi hi' => ?_⟩, by omega⟩
      · simp only at hget
        simp [takeStep, hj, hget, bind, Except.bind,
          wrap_of_lt (show j + 1 < 2 ^ 32 by simp only [maxOrder] at hj; omega)]
      · by_cases hij : i.val = j
        · rw [← hL]
          exact congrArg L (Fin.ext hij)
        · exact hempty i hi (by simp only at hi'; omega)
    | cons p rest =>
      obtain ⟨m', b', L', hget, hlists, hagree, hregion⟩ := getAt_cons h ⟨j, hj'⟩ hL
      have hne : frame p ≠ 0 :=
        frame_ne_zero (h.space p (h.mem_free ⟨j, hj'⟩ (by simp [hL]))).1
      refine Or.inr ⟨(frame p, j, m', b'), ?_, Or.inr ⟨⟨j, hj'⟩, p, rest, L', hoj,
        fun i hi hi' => hempty i hi' hi, hL, rfl, rfl, hlists, hagree, hregion⟩⟩
      simp only at hget
      simp [takeStep, hj, hget, bind, Except.bind, hne]
  · obtain rfl : j = maxOrder + 1 := by omega
    refine Or.inr ⟨(0, maxOrder + 1, m, b), ?_, Or.inl ⟨rfl, fun k hk => hempty k hk k.isLt⟩⟩
    simp [takeStep]

theorem diff_block_union {j p : ℕ} (hblock : block j p ⊆ F) (hle : n ≤ 2 ^ j) :
    F \ block j p ∪ Set.Ico (p + n) (p + 2 ^ j) = F \ Set.Ico p (p + n) := by
  ext x
  have hfree := @hblock x
  simp only [Set.mem_union, Set.mem_sdiff, Set.mem_Ico, mem_block] at hfree ⊢
  by_cases hx : x ∈ F
  · simp only [hx, true_and]
    omega
  · simp only [hx, false_and, false_or, iff_false]
    intro hx'
    exact hx (hfree ⟨by omega, by omega⟩)

/-- `get` hands out the lowest block of the smallest order that fits, cut to the size
asked for; it fails only when no list from that order on has a block. -/
theorem get_spec (h : Lists m b F L) (hn : n ≤ 2 ^ 31) :
    ∃ blk m' b', get m b n = .ok (blk, m', b') ∧ b'.region = b.region ∧
      ((blk = {} ∧ m' = m ∧ b'.freeList = b.freeList ∧
          ∀ k : Fin (maxOrder + 1), n ≤ 2 ^ k.val → L k = []) ∨
        ∃ (j : Fin (maxOrder + 1)) (p : ℕ) (rest : List ℕ),
          n ≤ 2 ^ j.val ∧ (∀ i < j, n ≤ 2 ^ i.val → L i = []) ∧ L j = p :: rest ∧
          blk = ⟨frame p, n⟩ ∧ (∃ L', Lists m' b' (F \ Set.Ico p (p + n)) L') ∧
          AgreeOutside F m m') := by
  obtain ⟨o, ho, hfit, hleast⟩ := order_spec hn
  have hfits : ∀ j, n ≤ 2 ^ j → o ≤ j := fun j hj => by
    by_contra hlt
    have := hleast j (by omega)
    omega
  simp only [get, ho, bind, Except.bind]
  by_cases hbig : maxOrder < o
  · rw [if_pos hbig]
    refine ⟨{}, m, _, rfl, rfl, Or.inl ⟨rfl, rfl, rfl, fun k hk => ?_⟩⟩
    have := hfits k hk
    have := k.isLt
    omega
  rw [if_neg hbig]
  have h0 := h.withStats (wrap (b.allocations + 1)) b.deallocations
  obtain ⟨s, hs, hcase⟩ := take_spec h0 (show o ≤ maxOrder by omega)
  rw [hs]
  rcases hcase with ⟨rfl, hempty⟩ | ⟨j, p, rest, L', hoj, hempty, hL, hptr, horder, hlists, hagree,
    hregion⟩
  · simp only [if_true]
    exact ⟨{}, m, _, rfl, rfl, Or.inl ⟨rfl, rfl, rfl, fun k hk => hempty k (hfits k hk)⟩⟩
  · obtain ⟨ptr, order, m₁, b₁⟩ := s
    simp only at hptr horder hlists hagree hregion
    subst hptr horder
    have hblock := h.subset_free j (show p ∈ L j by simp [hL])
    obtain ⟨hp, hend⟩ := space_of_block fun x hx => h.space x (hblock hx)
    have hj := j.isLt
    have hle : n ≤ 2 ^ j.val := hfit.trans (Nat.pow_le_pow_right (by omega) hoj)
    have hextra : sub32 (shiftOne j) n = 2 ^ j.val - n := by
      rw [shiftOne_of_lt (by simp only [maxOrder] at hj; omega), sub32_of_le hle (by omega)]
    have hempty' : ∀ i < j, n ≤ 2 ^ i.val → L i = [] := fun i hi hn => hempty i hi (hfits i hn)
    simp only [if_neg (frame_ne_zero hp), hextra]
    by_cases hexists : 2 ^ j.val - n = 0
    · obtain rfl : n = 2 ^ j.val := by omega
      simp only [hexists, ne_eq, not_true, if_false]
      exact ⟨_, _, _, rfl, hregion,
        Or.inr ⟨j, p, rest, hle, hempty', hL, rfl, ⟨L', hlists⟩, hagree⟩⟩
    · have hptr : frameAdd (frame p) n = frame (p + n) := by
        rw [frameAdd_frame, wrap_of_lt (frame_lt (by omega))]
      have hsum : p + n + (2 ^ j.val - n) = p + 2 ^ j.val := by omega
      have hdisj : Disjoint (Set.Ico (p + n) (p + n + (2 ^ j.val - n))) (F \ block j p) := by
        refine Set.disjoint_left.mpr fun x hx hx' => hx'.2 ⟨?_, ?_⟩
        · have := hx.1
          omega
        · have := hx.2
          omega
      obtain ⟨⟨m₂, b₂⟩, hput, hlists₂, hagree₂, hregion₂⟩ :=
        put_spec hlists (show 0 < p + n by omega) (by omega) hdisj
      rw [hsum] at hlists₂ hagree₂
      have hsub : Set.Ico (p + n) (p + 2 ^ j.val) ⊆ block j p := fun x hx =>
        ⟨by have := hx.1; omega, hx.2⟩
      rw [diff_block_union hblock hle] at hlists₂
      simp only [ne_eq, hexists, not_false_iff, if_true, hptr, hput]
      refine ⟨_, _, _, rfl, hregion₂.trans hregion, Or.inr ⟨j, p, rest, hle, hempty', hL, rfl,
        hlists₂, hagree.trans (hagree₂.mono ?_)⟩⟩
      exact Set.union_subset Set.sdiff_subset (hsub.trans hblock)

end BuddyAllocator

end Bolgenos
