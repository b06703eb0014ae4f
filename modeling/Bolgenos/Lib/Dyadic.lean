import Mathlib.Tactic
import Mathlib.Algebra.Order.Ring.Nat
import Mathlib.Data.Nat.Bitwise
import Mathlib.Order.CompletePartialOrder

/-!
# Dyadic blocks and the maximal decomposition of a set of naturals

`block k p` is the run of `2 ^ k` numbers from `p`, naturally aligned when
`2 ^ k ∣ p`. Two aligned blocks are nested or disjoint. For a cap `N` on the order,
`Maximal N F k p` says that the aligned block of order `k` at `p` lies in `F` and that
no larger aligned block of order at most `N` around it does. The maximal blocks form
the unique decomposition of `F` (`maximal_cover`, `maximal_disjoint`), and the two
edits of a buddy system act on it locally: `maximal_diff` takes a maximal block away,
`maximal_union` adds a block whose buddy is not free.
-/

namespace Dyadic

def block (k p : ℕ) : Set ℕ := {x | p ≤ x ∧ x < p + 2 ^ k}

def parent (k p : ℕ) : ℕ := p / 2 ^ (k + 1) * 2 ^ (k + 1)

def buddy (k p : ℕ) : ℕ := p ^^^ 2 ^ k

def Maximal (N : ℕ) (F : Set ℕ) (k p : ℕ) : Prop :=
  k ≤ N ∧ 2 ^ k ∣ p ∧ block k p ⊆ F ∧ (k < N → ¬ block (k + 1) (parent k p) ⊆ F)

variable {N j k p q x : ℕ} {F : Set ℕ}

@[simp]
theorem mem_block : x ∈ block k p ↔ p ≤ x ∧ x < p + 2 ^ k := Iff.rfl

theorem left_mem_block (k p : ℕ) : p ∈ block k p :=
  ⟨le_rfl, Nat.lt_add_of_pos_right (Nat.two_pow_pos k)⟩

theorem add_le_of_dvd {d a b : ℕ} (ha : d ∣ a) (hb : d ∣ b) (h : a < b) : a + d ≤ b := by
  have hle := Nat.le_of_dvd (by omega) (Nat.dvd_sub hb ha)
  omega

theorem block_subset_of_mem (hp : 2 ^ j ∣ p) (hq : 2 ^ k ∣ q) (hjk : j ≤ k)
    (hx : x ∈ block j p) (hx' : x ∈ block k q) : block j p ⊆ block k q := by
  have hdvd : 2 ^ j ∣ 2 ^ k := Nat.pow_dvd_pow 2 hjk
  have hq' : 2 ^ j ∣ q := hdvd.trans hq
  obtain ⟨hx1, hx2⟩ := hx
  obtain ⟨hx3, hx4⟩ := hx'
  have hupper : p + 2 ^ j ≤ q + 2 ^ k := add_le_of_dvd hp (Nat.dvd_add hq' hdvd) (by omega)
  have hlower : q ≤ p := by
    by_contra hlt
    have := add_le_of_dvd hp hq' (by omega)
    omega
  intro y hparts
  obtain ⟨hy1, hy2⟩ := hparts
  exact ⟨by omega, by omega⟩

theorem eq_of_mem_of_mem (hp : 2 ^ k ∣ p) (hq : 2 ^ k ∣ q) (hx : x ∈ block k p)
    (hx' : x ∈ block k q) : p = q := by
  have h1 := block_subset_of_mem hp hq le_rfl hx hx' (left_mem_block k p)
  have h2 := block_subset_of_mem hq hp le_rfl hx' hx (left_mem_block k q)
  exact le_antisymm h2.1 h1.1

theorem dvd_parent (k p : ℕ) : 2 ^ (k + 1) ∣ parent k p := Dvd.intro_left _ rfl

theorem parent_le (k p : ℕ) : parent k p ≤ p := Nat.div_mul_le_self _ _

theorem block_subset_parent (hp : 2 ^ k ∣ p) : block k p ⊆ block (k + 1) (parent k p) := by
  refine block_subset_of_mem hp (dvd_parent k p) (by omega) (left_mem_block k p) ⟨parent_le k p, ?_⟩
  have := Nat.lt_div_mul_add (a := p) (Nat.two_pow_pos (k + 1))
  simpa [parent] using this

theorem parent_subset_of_mem (hp : 2 ^ j ∣ p) (hq : 2 ^ k ∣ q) (hjk : j < k)
    (hx : x ∈ block j p) (hx' : x ∈ block k q) : block (j + 1) (parent j p) ⊆ block k q :=
  block_subset_of_mem (dvd_parent j p) hq hjk (block_subset_parent hp hx) hx'

theorem buddy_eq (hp : 2 ^ k ∣ p) :
    buddy k p = if p.testBit k then p - 2 ^ k else p + 2 ^ k := by
  obtain ⟨a, rfl⟩ := hp
  have hx : buddy k (2 ^ k * a) = 2 ^ k * (a ^^^ 1) := by
    have h := Nat.shiftLeft_xor_distrib (i := k) (a := a) (b := 1)
    rw [Nat.shiftLeft_eq, Nat.shiftLeft_eq, Nat.shiftLeft_eq, Nat.one_mul] at h
    rw [buddy, Nat.mul_comm (2 ^ k) a, ← h, Nat.mul_comm]
  have hbit : (2 ^ k * a).testBit k = decide (a % 2 = 1) := by
    rw [Nat.testBit_eq_decide_div_mod_eq, Nat.mul_div_cancel_left _ (Nat.two_pow_pos k)]
  rw [hx, hbit]
  rcases Nat.even_or_odd a with ha | ha
  · rw [Nat.xor_one_of_even ha, if_neg (by simp [Nat.even_iff.mp ha])]
    ring
  · rw [Nat.xor_one_of_odd ha, if_pos (by simp [Nat.odd_iff.mp ha]), Nat.mul_sub_one]

theorem dvd_buddy (hp : 2 ^ k ∣ p) : 2 ^ k ∣ buddy k p := by
  rw [buddy_eq hp]
  split_ifs
  · exact Nat.dvd_sub hp dvd_rfl
  · exact Nat.dvd_add hp dvd_rfl

theorem buddy_buddy (k p : ℕ) : buddy k (buddy k p) = p := by
  simp [buddy]

theorem pow_le_of_testBit (h : p.testBit k = true) : 2 ^ k ≤ p := Nat.ge_two_pow_of_testBit h

theorem buddy_ne (hp : 2 ^ k ∣ p) : buddy k p ≠ p := by
  have hpos := Nat.two_pow_pos k
  rw [buddy_eq hp]
  split_ifs with h
  · have := pow_le_of_testBit h
    omega
  · omega

theorem parent_eq_min (hp : 2 ^ k ∣ p) : parent k p = min p (buddy k p) := by
  have hpos := Nat.two_pow_pos k
  obtain ⟨a, rfl⟩ := hp
  have hdiv : parent k (2 ^ k * a) = 2 ^ k * (a / 2 * 2) := by
    rw [parent, pow_succ, ← Nat.div_div_eq_div_mul, Nat.mul_div_cancel_left _ hpos]
    ring
  have hbit : (2 ^ k * a).testBit k = decide (a % 2 = 1) := by
    rw [Nat.testBit_eq_decide_div_mod_eq, Nat.mul_div_cancel_left _ hpos]
  rw [hdiv, buddy_eq (Dvd.intro _ rfl), hbit]
  rcases Nat.mod_two_eq_zero_or_one a with ha | ha
  · have hsplit : a / 2 * 2 = a := by omega
    rw [if_neg (by simp [ha]), hsplit]
    omega
  · have hsplit : a / 2 * 2 = a - 1 := by omega
    rw [if_pos (by simp [ha]), hsplit, Nat.mul_sub_one]
    omega

theorem parent_buddy (hp : 2 ^ k ∣ p) : parent k (buddy k p) = parent k p := by
  rw [parent_eq_min hp, parent_eq_min (dvd_buddy hp), buddy_buddy, min_comm]

theorem block_parent (hp : 2 ^ k ∣ p) :
    block (k + 1) (parent k p) = block k p ∪ block k (buddy k p) := by
  have hb := dvd_buddy hp
  refine Set.Subset.antisymm ?_ (Set.union_subset (block_subset_parent hp) ?_)
  · rw [parent_eq_min hp, buddy_eq hp]
    intro x hparts
    obtain ⟨hx1, hx2⟩ := hparts
    rw [pow_succ] at hx2
    simp only [Set.mem_union, mem_block]
    split_ifs at hx1 hx2 ⊢ with h
    · have := pow_le_of_testBit h
      omega
    · omega
  · rw [← parent_buddy hp]
    exact block_subset_parent hb

theorem block_disjoint_buddy (hp : 2 ^ k ∣ p) : Disjoint (block k p) (block k (buddy k p)) := by
  apply Set.disjoint_left.mpr
  intro x hx hx'
  exact buddy_ne hp (eq_of_mem_of_mem (dvd_buddy hp) hp hx' hx)

theorem exists_maximal (hjN : j ≤ N) (hq : 2 ^ j ∣ q) (hF : block j q ⊆ F) :
    ∃ k p, j ≤ k ∧ Maximal N F k p ∧ block j q ⊆ block k p := by
  obtain ⟨d, rfl⟩ : ∃ d, N = j + d := ⟨N - j, by omega⟩
  induction d generalizing j q with
  | zero => exact ⟨j, q, le_rfl, ⟨le_rfl, hq, hF, by omega⟩, subset_rfl⟩
  | succ d ih =>
    by_cases hpar : block (j + 1) (parent j q) ⊆ F
    · obtain ⟨k, p, hk, hmax, hsub⟩ := ih (dvd_parent j q) hpar (by omega)
      rw [show j + 1 + d = j + (d + 1) by omega] at hmax
      exact ⟨k, p, by omega, hmax, (block_subset_parent hq).trans hsub⟩
    · exact ⟨j, q, le_rfl, ⟨hjN, hq, hF, fun _ => hpar⟩, subset_rfl⟩

theorem maximal_cover (hx : x ∈ F) : ∃ k p, Maximal N F k p ∧ x ∈ block k p := by
  have hblock : block 0 x ⊆ F := by
    intro y hparts
    obtain ⟨hy1, hy2⟩ := hparts
    obtain rfl : y = x := by
      rw [pow_zero] at hy2
      omega
    exact hx
  obtain ⟨k, p, -, hmax, hsub⟩ := exists_maximal (j := 0) (by omega) (by simp) hblock
  exact ⟨k, p, hmax, hsub (left_mem_block 0 x)⟩

theorem maximal_subset (h : Maximal N F k p) : block k p ⊆ F := h.2.2.1

theorem subset_maximal (h : Maximal N F k p) (hjN : j ≤ N) (hq : 2 ^ j ∣ q)
    (hF : block j q ⊆ F) (hx : x ∈ block j q) (hx' : x ∈ block k p) :
    j ≤ k ∧ block j q ⊆ block k p := by
  obtain ⟨-, hp, -, hmax⟩ := h
  by_cases hkj : k < j
  · exact absurd ((parent_subset_of_mem hp hq hkj hx' hx).trans hF) (hmax (by omega))
  · exact ⟨by omega, block_subset_of_mem hq hp (by omega) hx hx'⟩

theorem maximal_unique (h : Maximal N F k p) (h' : Maximal N F j q)
    (hx : x ∈ block k p) (hx' : x ∈ block j q) : k = j ∧ p = q := by
  obtain ⟨hkj, -⟩ := subset_maximal h' h.1 h.2.1 h.2.2.1 hx hx'
  obtain ⟨hjk, -⟩ := subset_maximal h h'.1 h'.2.1 h'.2.2.1 hx' hx
  obtain rfl : k = j := by omega
  exact ⟨rfl, eq_of_mem_of_mem h.2.1 h'.2.1 hx hx'⟩

theorem maximal_disjoint (h : Maximal N F k p) (h' : Maximal N F j q)
    (hne : ¬ (k = j ∧ p = q)) : Disjoint (block k p) (block j q) :=
  Set.disjoint_left.mpr fun _ hx hx' => hne (maximal_unique h h' hx hx')

theorem buddy_subset_iff (hk : k ≤ N) (hp : 2 ^ k ∣ p) (hdisj : Disjoint (block k p) F) :
    block k (buddy k p) ⊆ F ↔ Maximal N F k (buddy k p) := by
  refine ⟨fun h => ⟨hk, dvd_buddy hp, h, fun _ hpar => ?_⟩, maximal_subset⟩
  rw [parent_buddy hp] at hpar
  exact Set.disjoint_left.mp hdisj (left_mem_block k p)
    (hpar (block_subset_parent hp (left_mem_block k p)))

theorem not_maximal_buddies (hk : k < N) (h : Maximal N F k p)
    (h' : Maximal N F k (buddy k p)) : False := by
  apply h.2.2.2 hk
  rw [block_parent h.2.1]
  exact Set.union_subset h.2.2.1 h'.2.2.1

theorem maximal_diff (h : Maximal N F k p) :
    Maximal N (F \ block k p) j q ↔ Maximal N F j q ∧ ¬ (j = k ∧ q = p) := by
  constructor
  · intro hparts
    obtain ⟨hj, hq, hsub, hmax⟩ := hparts
    have hF : block j q ⊆ F := hsub.trans Set.sdiff_subset
    refine ⟨⟨hj, hq, hF, fun hjN hpar => hmax hjN fun x hx => ⟨hpar hx, fun hx' => ?_⟩⟩, ?_⟩
    · have hin := (subset_maximal h hjN (dvd_parent j q) hpar hx hx').2
      have hq' := block_subset_parent hq (left_mem_block j q)
      exact (hsub (left_mem_block j q)).2 (hin hq')
    · intro hparts
      obtain ⟨rfl, rfl⟩ := hparts
      exact (hsub (left_mem_block j q)).2 (left_mem_block j q)
  · intro hparts
    obtain ⟨h', hne⟩ := hparts
    have hdisj := maximal_disjoint h' h hne
    refine ⟨h'.1, h'.2.1, fun x hx => ⟨h'.2.2.1 hx, ?_⟩, fun hjN hpar => ?_⟩
    · exact Set.disjoint_left.mp hdisj hx
    · exact h'.2.2.2 hjN (hpar.trans Set.sdiff_subset)

/-- Adding a block whose buddy is not free (or that has the largest order) adds just
that block to the decomposition. -/
theorem maximal_union (hk : k ≤ N) (hp : 2 ^ k ∣ p) (hdisj : Disjoint (block k p) F)
    (hbuddy : k < N → ¬ block k (buddy k p) ⊆ F) :
    Maximal N (F ∪ block k p) j q ↔ Maximal N F j q ∨ (j = k ∧ q = p) := by
  have houter : ∀ i r, 2 ^ i ∣ r → k < i → i ≤ N → (∃ x, x ∈ block k p ∧ x ∈ block i r) →
      ¬ block i r ⊆ F ∪ block k p := by
    intro i r hr hki hiN hexists hsub
    obtain ⟨x, hx, hx'⟩ := hexists
    have hpar := (parent_subset_of_mem hp hr hki hx hx').trans hsub
    apply hbuddy (by omega)
    intro y hy
    rw [block_parent hp] at hpar
    apply (hpar (Or.inr hy)).resolve_right
    intro hy'
    exact Set.disjoint_left.mp (block_disjoint_buddy hp) hy' hy
  constructor
  · intro hparts
    obtain ⟨hj, hq, hsub, hmax⟩ := hparts
    by_cases hmeet : ∃ x, x ∈ block k p ∧ x ∈ block j q
    · obtain ⟨x, hx, hx'⟩ := hmeet
      rcases lt_trichotomy j k with hjk | rfl | hkj
      · refine absurd ?_ (hmax (by omega))
        exact (parent_subset_of_mem hq hp hjk hx' hx).trans Set.subset_union_right
      · exact Or.inr ⟨rfl, eq_of_mem_of_mem hq hp hx' hx⟩
      · exact absurd hsub (houter j q hq hkj hj ⟨x, hx, hx'⟩)
    · refine Or.inl ⟨hj, hq, fun x hx => (hsub hx).resolve_right fun hx' => hmeet ⟨x, hx', hx⟩, ?_⟩
      exact fun hjN hpar => hmax hjN (hpar.trans Set.subset_union_left)
  · intro hcase
    rcases hcase with ⟨hj, hq, hsub, hmax⟩ | ⟨rfl, rfl⟩
    · refine ⟨hj, hq, hsub.trans Set.subset_union_left, fun hjN hpar => ?_⟩
      by_cases hmeet : ∃ x, x ∈ block k p ∧ x ∈ block (j + 1) (parent j q)
      · obtain ⟨x, hx, hx'⟩ := hmeet
        by_cases hkj : k < j + 1
        · exact houter (j + 1) (parent j q) (dvd_parent j q) hkj hjN ⟨x, hx, hx'⟩ hpar
        · have hin := block_subset_of_mem (dvd_parent j q) hp (by omega) hx' hx
          have hqp := hin (block_subset_parent hq (left_mem_block j q))
          exact Set.disjoint_left.mp hdisj hqp (hsub (left_mem_block j q))
      · refine hmax hjN fun x hx => (hpar hx).resolve_right fun hx' => hmeet ⟨x, hx', hx⟩
    · refine ⟨hk, hp, Set.subset_union_right, fun hjN hpar => ?_⟩
      refine houter (j + 1) (parent j q) (dvd_parent j q) (by omega) hjN ⟨q, ?_, ?_⟩ hpar
      · exact left_mem_block j q
      · exact block_subset_parent hp (left_mem_block j q)

def Spare (k c : ℕ) (F : Set ℕ) : Prop :=
  ∃ S : Finset ℕ, c ≤ S.card ∧ ∀ p ∈ S, 2 ^ k ∣ p ∧ block k p ⊆ F

theorem Spare.exists_maximal {c : ℕ} (hk : k ≤ N) (h : Spare k (c + 1) F) :
    ∃ j p, k ≤ j ∧ Maximal N F j p := by
  obtain ⟨S, hcard, hS⟩ := h
  obtain ⟨q, hq⟩ := Finset.card_pos.mp (show 0 < S.card by omega)
  obtain ⟨hdvd, hsub⟩ := hS q hq
  have hmem := left_mem_block k q
  obtain ⟨j, p, hmax, hqp⟩ := maximal_cover (N := N) (hsub hmem)
  exact ⟨j, p, (subset_maximal hmax hk hdvd hsub hmem hqp).1, hmax⟩

theorem Spare.take {c n : ℕ} (hk : k ≤ N) (h : Spare k (c + 1) F)
    (hmax : Maximal N F j p) (hn : n ≤ 2 ^ k) (hnj : n ≤ 2 ^ j) :
    Spare k c (F \ Set.Ico p (p + n)) := by
  obtain ⟨S, hcard, hS⟩ := h
  refine ⟨S.erase p, ?_, fun q hq => ?_⟩
  · have := Finset.pred_card_le_card_erase (s := S) (a := p)
    omega
  · obtain ⟨hne, hq⟩ := Finset.mem_erase.mp hq
    obtain ⟨hdvd, hsub⟩ := hS q hq
    refine ⟨hdvd, fun x hx => ⟨hsub hx, fun hxp => hne ?_⟩⟩
    -- a shared page makes the maximal block at least as large, hence aligned to `2 ^ k`
    have hxj : x ∈ block j p := ⟨hxp.1, by have := hxp.2; omega⟩
    have hkj := (subset_maximal hmax hk hdvd hsub hx hxj).1
    exact eq_of_mem_of_mem hdvd ((Nat.pow_dvd_pow 2 hkj).trans hmax.2.1) hx
      ⟨hxp.1, by have := hxp.2; omega⟩

end Dyadic
