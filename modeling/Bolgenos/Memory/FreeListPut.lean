import Bolgenos.Memory.FreeListCheck

/-!
# The contract of `FreeList::put`

A list in its invariant holds aligned blocks in ascending order and, while squashing is
enabled, no two buddies. `put` of a new block keeps the invariant. `put` of a block that
is in the list already links the block to itself, and the sanity check inside the call
finds the loop.
-/

namespace Bolgenos

open ByteMemory FuelLoop LinkedChain Dyadic

namespace FreeList

structure Inv (m : Mem) (fl : FreeList) (k : ℕ) (ps : List ℕ) : Prop extends Holds m fl k ps where
  noBuddies : fl.disableSquashing = false → ∀ p ∈ ps, buddy k p ∉ ps

variable {m m₀ : Mem} {fl : FreeList} {k p q : ℕ} {ps ls gs : List ℕ}

theorem add_pow_le_of_dvd (hk : k ≤ 10) (hp : 2 ^ k ∣ p) (hlt : p < 2 ^ 20) :
    p + 2 ^ k ≤ 2 ^ 20 :=
  add_le_of_dvd hp (Nat.pow_dvd_pow 2 (by omega)) hlt

theorem sorted_orderedInsert (hs : ps.Pairwise (· < ·)) (hnew : p ∉ ps) :
    (ps.orderedInsert (· ≤ ·) p).Pairwise (· < ·) := by
  have hle : (ps.orderedInsert (· ≤ ·) p).Pairwise (· ≤ ·) :=
    List.Pairwise.orderedInsert p ps (hs.imp fun h => h.le)
  have hnodup : (ps.orderedInsert (· ≤ ·) p).Nodup := by
    rw [(List.perm_orderedInsert _ p ps).nodup_iff]
    exact List.nodup_cons.mpr ⟨hnew, hs.imp fun h => h.ne⟩
  exact hle.imp₂ (fun _ _ h hne => lt_of_le_of_ne h hne) hnodup

/-- The call of `put` for a new block: a block whose buddy is in the list leaves with it,
any other block is inserted at its place. -/
theorem put_contract (h : Inv m fl k ps) (hk : k ≤ 10) (hnew : p ∉ ps) (hp : 2 ^ k ∣ p)
    (hpos : 0 < p) (hlt : p < 2 ^ 20) :
    ∃ item m' fl' ps', put m fl (frame p) = .ok (item, m', fl') ∧ Inv m' fl' k ps' ∧
      fl'.disableSquashing = fl.disableSquashing ∧
      if fl.disableSquashing = false ∧ buddy k p ∈ ps then
        item = frame (min p (buddy k p)) ∧ ps' = ps.erase (buddy k p) ∧ fl'.items + 1 = fl.items
      else
        item = 0 ∧ ps' = ps.orderedInsert (· ≤ ·) p ∧ fl'.items = fl.items + 1 := by
  obtain ⟨item, m', fl', ps', hput, hholds, hflag, -, hanswer⟩ :=
    put_spec h.toHolds hk hnew hp ⟨hpos, add_pow_le_of_dvd hk hp hlt⟩
  have hnodup : ps.Nodup := h.sorted.imp fun h => h.ne
  split_ifs at hanswer with hjoin
  · obtain ⟨hitem, hmem⟩ := hanswer
    have hlist : ps' = ps.erase (buddy k p) := by
      apply sorted_ext hholds.sorted (h.sorted.sublist List.erase_sublist)
      intro x
      rw [hmem, hnodup.mem_erase_iff]
      exact and_comm
    refine ⟨item, m', fl', ps', hput, ⟨hholds, ?_⟩, hflag, ?_⟩
    · intro hsq x hx hbuddy
      exact h.noBuddies hjoin.1 x ((hmem x).mp hx).1 ((hmem _).mp hbuddy).1
    · rw [if_pos hjoin]
      refine ⟨hitem, hlist, ?_⟩
      rw [hholds.items, h.items, hlist, List.length_erase_of_mem hjoin.2]
      exact Nat.sub_add_cancel (List.length_pos_of_mem hjoin.2)
  · obtain ⟨hitem, hmem⟩ := hanswer
    have hlist : ps' = ps.orderedInsert (· ≤ ·) p := by
      apply sorted_ext hholds.sorted (sorted_orderedInsert h.sorted hnew)
      intro x
      rw [hmem, List.mem_orderedInsert]
    refine ⟨item, m', fl', ps', hput, ⟨hholds, ?_⟩, hflag, ?_⟩
    · intro hsq x hx hbuddy
      have hsq' : fl.disableSquashing = false := hflag ▸ hsq
      rcases (hmem x).mp hx with rfl | hx
      · rcases (hmem _).mp hbuddy with heq | hbuddy
        · exact buddy_ne hp heq
        · exact hjoin ⟨hsq', hbuddy⟩
      · rcases (hmem _).mp hbuddy with heq | hbuddy
        · refine hjoin ⟨hsq', ?_⟩
          rw [← heq, buddy_buddy]
          exact hx
        · exact h.noBuddies hsq' x hx hbuddy
    · rw [if_neg hjoin]
      refine ⟨hitem, hlist, ?_⟩
      rw [hholds.items, h.items, hlist, List.orderedInsert_length]

theorem inv_single (hk : k ≤ 10) (hp : 2 ^ k ∣ p) (hpos : 0 < p) (hlt : p < 2 ^ 20) :
    Inv (fun _ => 0) { list := frame p, order := k, items := 1 } k [p] where
  chain := chain_cons.mpr ⟨rfl, frame_ne_zero hpos, rfl⟩
  order := rfl
  items := rfl
  sorted := by simp
  aligned := by simpa using hp
  inSpace := by simpa using ⟨hpos, add_pow_le_of_dvd hk hp hlt⟩
  noBuddies := by simpa using buddy_ne hp

theorem put_contract_joined : ∃ m' fl',
    put (fun _ => 0) { list := frame 3, order := 0, items := 1 } (frame 2) =
      .ok (frame 2, m', fl') ∧ Inv m' fl' 0 [] := by
  obtain ⟨item, m', fl', ps', hput, hinv, -, hcase⟩ := put_contract
    (inv_single (k := 0) (p := 3) (by decide) (by decide) (by decide) (by decide))
    (p := 2) (by decide) (by decide) (by decide) (by decide) (by decide)
  rw [if_pos (by decide)] at hcase
  obtain ⟨rfl, rfl, -⟩ := hcase
  exact ⟨m', fl', hput, hinv⟩

/-- The list that the assignments of `put` leave runs in a cycle, and the sanity check finds
it. -/
def Caught (m : Mem) (fl : FreeList) (item : ℕ) : Prop :=
  ∃ m' fl', relink m fl item = .ok (0, m', fl') ∧ Cyclic 0 (read32 m') fl'.list ∧
    sanityCheck m' fl' = .error (.panic "FreeList loop detected!")

theorem Caught.panics {item : ℕ} (h : Caught m fl item) :
    put m fl item = .error (.panic "FreeList loop detected!") := by
  obtain ⟨m', fl', hrun, -, hcheck⟩ := h
  simp only [put, putWith_eq, hrun, commit, hcheck, bind, Except.bind]

theorem caught_of_self {m' : Mem} {fl' : FreeList} {item : ℕ}
    (hrun : relink m fl item = .ok (0, m', fl')) (xs : List ℕ) (hp : frame p ≠ 0)
    (hlead : Segment 0 (read32 m') fl'.list xs (frame p))
    (hself : read32 m' (frame p) = frame p) (hlist : fl'.list < 2 ^ 32) : Caught m fl item := by
  have hcycle : Segment 0 (read32 m') (frame p) [frame p] (frame p) := ⟨rfl, hp, hself⟩
  have hcyclic : Cyclic 0 (read32 m') fl'.list := ⟨xs, frame p, [frame p], hlead, hcycle, by simp⟩
  exact ⟨m', fl', hrun, hcyclic, sanityCheck_cyclic hcyclic hlist⟩

theorem not_squashable_self {k : ℕ} (hk : k ≤ 10) (hlt : p < 2 ^ 20) :
    (areConsequent (frame p) (frame p) k && isTheFirstInBuddy (frame p) k) = false := by
  have hpos := Nat.two_pow_pos k
  have hpow : 2 ^ k ≤ 2 ^ 10 := Nat.pow_le_pow_right (by omega) hk
  have hno : ¬ areConsequent (frame p) (frame p) k = true := by
    rw [areConsequent_frame hlt hlt hk]
    omega
  rw [Bool.not_eq_true] at hno
  rw [hno, Bool.false_and]

theorem Inv.list_lt (h : Inv m fl k ps) : fl.list < 2 ^ 32 := by
  have hpos := Nat.two_pow_pos k
  rw [chain_head h.chain]
  cases ps with
  | nil => decide
  | cons p ps =>
    have hspace := h.inSpace p (by simp)
    exact frame_lt (by omega)

theorem Inv.cutAt (h : Inv m fl k (ls ++ p :: gs)) :
    Chain 0 (read32 (write32 m (frame p) 0)) fl.list (ls.map frame ++ [frame p]) := by
  have hchain := h.chain
  rw [List.map_append, List.map_cons] at hchain
  obtain ⟨r, hleft, rfl, hne, -⟩ := chain_append.mp hchain
  refine chain_append.mpr ⟨_, segment_congr hleft (map_agree fun a ha => ?_), rfl, hne, ?_⟩
  · have hap := (List.pairwise_append.mp h.sorted).2.2 a ha p (by simp)
    exact read32_write32_frame_of_ne hap.ne'
  · exact read32_write32 (by omega)

theorem Inv.findLastLesser_again (h : Inv m fl k (ls ++ p :: gs)) :
    findLastLesser (write32 m (frame p) 0) fl (frame p) = .ok (lastTwo (0, 0) (ls.map frame)) := by
  have hlen := h.length_lt
  refine findLastLesser_scan ?_ (by simp) h.cutAt (0, 0) ?_
  · intro x hx
    obtain ⟨q, hq, rfl⟩ := List.mem_map.mp hx
    exact frame_lt_frame.mpr ((List.pairwise_append.mp h.sorted).2.2 q hq p (by simp))
  · rw [List.length_append, List.length_cons] at hlen
    rw [List.length_map]
    exact lt_budget (by omega)

theorem put_again_front (h : Inv m fl k (p :: gs)) (hk : k ≤ 10) : Caught m fl (frame p) := by
  have hspace := h.inSpace p (by simp)
  have hpos := Nat.two_pow_pos k
  have hlt : p < 2 ^ 20 := by omega
  have hne : frame p ≠ 0 := frame_ne_zero hspace.1
  have hlist : fl.list = frame p := chain_head h.chain
  have h' : Inv m fl k ([] ++ p :: gs) := h
  have hself := not_squashable_self hk hlt
  rw [← h.order] at hself
  have hrun : relink m fl (frame p) =
      .ok (0, write32 (write32 m (frame p) 0) (frame p) (frame p),
        { fl with list := frame p, items := wrap (fl.items + 1) }) := by
    rw [relink, putWith, setNext_of_ne hne]
    simp only [bind, Except.bind]
    rw [if_neg (by rw [hlist]; exact hne), h'.findLastLesser_again]
    simp only [List.map_nil, lastTwo, List.foldl_nil, hlist, hself, Bool.false_eq_true, if_false,
      if_true, setNext_of_ne hne, ite_self]
  exact caught_of_self hrun [] hne rfl (read32_write32 (frame_lt hlt)) (frame_lt hlt)

theorem put_again_behind (h : Inv m fl k (ls ++ q :: p :: gs)) (hk : k ≤ 10) :
    Caught m fl (frame p) := by
  have hspace := h.inSpace p (by simp)
  have hpos := Nat.two_pow_pos k
  have hlt : p < 2 ^ 20 := by omega
  have hne : frame p ≠ 0 := frame_ne_zero hspace.1
  have hqne : frame q ≠ 0 := frame_ne_zero (h.inSpace q (by simp)).1
  have h' : Inv m fl k ((ls ++ [q]) ++ p :: gs) := by simpa using h
  have hsorted := List.pairwise_append.mp h'.sorted
  have hqp : q < p := hsorted.2.2 q (by simp) p (by simp)
  have hlist : fl.list ≠ 0 := fun hz => by simpa using h.list_eq_zero.mp hz
  have hfind := h'.findLastLesser_again
  rw [List.map_append, List.map_singleton, lastTwo_concat] at hfind
  have hcut : Chain 0 (read32 (write32 m (frame p) 0)) fl.list
      (ls.map frame ++ frame q :: [frame p]) := by
    simpa using h'.cutAt
  obtain ⟨r, hleft, rfl, -, hafter, -, -⟩ := chain_append.mp hcut
  have hrun : relink m fl (frame p) = .ok (0,
      write32 (write32 (write32 m (frame p) 0) (frame p) (frame p)) (frame q) (frame p),
      { fl with items := wrap (fl.items + 1) }) := by
    rw [relink, putWith, setNext_of_ne hne]
    simp only [bind, Except.bind]
    rw [if_neg hlist, hfind]
    by_cases hflag : fl.disableSquashing = true
    · simp only [if_pos hflag, if_neg hqne, next_of_ne hqne, hafter, setNext_of_ne hne,
        setNext_of_ne hqne]
    · have hno : ¬ (areConsequent (frame q) (frame p) fl.order &&
          isTheFirstInBuddy (frame q) fl.order) = true := by
        rw [h.order, squashable_iff hk (h.aligned q (by simp)) hqp hlt]
        intro heq
        subst heq
        exact h.noBuddies (by simpa using hflag) q (by simp) (by simp)
      have hself := not_squashable_self hk hlt
      rw [← h.order] at hself
      simp only [if_neg hflag, if_neg hqne, next_of_ne hqne, if_neg hno, hafter, hself,
        Bool.false_eq_true, if_false, setNext_of_ne hne, setNext_of_ne hqne]
  -- the block is its own successor, behind its predecessor in the list
  apply caught_of_self hrun (ls.map frame ++ [frame q]) hne
  · refine segment_append.mpr ⟨frame q, segment_congr hleft (map_agree fun a ha => ?_), rfl, hqne,
      read32_write32 (frame_lt hlt)⟩
    have haq := (List.pairwise_append.mp hsorted.1).2.2 a ha q (by simp)
    rw [read32_write32_frame_of_ne haq.ne', read32_write32_frame_of_ne (by omega)]
  · rw [read32_write32_frame_of_ne hqp.ne, read32_write32 (frame_lt hlt)]
  · exact h.list_lt

/-- Releasing a block twice into the same list: the list that the call has built in front of its
sanity check runs in a cycle, and the check stops the call. -/
theorem put_again_caught (h : Inv m fl k ps) (hk : k ≤ 10) (hp : p ∈ ps) :
    (∃ m' fl', relink m fl (frame p) = .ok (0, m', fl') ∧ Cyclic 0 (read32 m') fl'.list ∧
      sanityCheck m' fl' = .error (.panic "FreeList loop detected!")) ∧
    put m fl (frame p) = .error (.panic "FreeList loop detected!") := by
  have hcaught : Caught m fl (frame p) := by
    obtain ⟨ls, gs, rfl⟩ := List.append_of_mem hp
    rcases List.eq_nil_or_concat' ls with rfl | ⟨ls, q, rfl⟩
    · exact put_again_front h hk
    · rw [List.append_assoc, List.singleton_append] at h
      exact put_again_behind h hk
  exact ⟨hcaught, hcaught.panics⟩

theorem put_again_single : ∃ m' fl',
    relink (fun _ => 0) { list := frame 3, order := 0, items := 1 } (frame 3) = .ok (0, m', fl') ∧
      Cyclic 0 (read32 m') fl'.list ∧
      put (fun _ => 0) { list := frame 3, order := 0, items := 1 } (frame 3) =
        .error (.panic "FreeList loop detected!") := by
  obtain ⟨⟨m', fl', hrun, hcyclic, -⟩, hput⟩ :=
    put_again_caught (inv_single (k := 0) (p := 3) (by decide) (by decide) (by decide) (by decide))
      (by decide) (List.mem_singleton_self 3)
  exact ⟨m', fl', hrun, hcyclic, hput⟩

end FreeList

end Bolgenos
