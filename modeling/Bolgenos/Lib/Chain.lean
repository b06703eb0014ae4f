import Mathlib.Tactic

/-!
# Null-terminated chains

`Chain null next p xs` says that following `next` from `p` visits exactly the nodes
`xs`, none of them `null`, and then arrives at `null`. `Segment` is the same with an
arbitrary end point; a chain is cut and glued at any place through its segments. The
lemmas below are the edits of a singly linked list: change of the links outside the
list, insertion and removal. A walk through finitely many nodes that is no chain is
`Cyclic`; two walkers of different speed meet there.
-/

namespace LinkedChain

variable {α : Type*} {null : α} {next next' : α → α}

def Segment (null : α) (next : α → α) : α → List α → α → Prop
  | p, [], q => p = q
  | p, x :: xs, q => p = x ∧ x ≠ null ∧ Segment null next (next x) xs q

def Chain (null : α) (next : α → α) (p : α) (xs : List α) : Prop :=
  Segment null next p xs null

theorem segment_append {p q : α} {xs ys : List α} :
    Segment null next p (xs ++ ys) q ↔
      ∃ r, Segment null next p xs r ∧ Segment null next r ys q := by
  induction xs generalizing p with
  | nil => simp [Segment]
  | cons x xs ih =>
    simp only [List.cons_append, Segment, ih]
    constructor
    · intro hparts
      obtain ⟨hp, hx, r, h⟩ := hparts
      exact ⟨r, ⟨hp, hx, h.1⟩, h.2⟩
    · intro hexists
      obtain ⟨r, ⟨hp, hx, h⟩, h'⟩ := hexists
      exact ⟨hp, hx, r, h, h'⟩

theorem segment_congr {p q : α} {xs : List α} (h : Segment null next p xs q)
    (hagree : ∀ x ∈ xs, next' x = next x) : Segment null next' p xs q := by
  induction xs generalizing p with
  | nil => exact h
  | cons x xs ih =>
    obtain ⟨hp, hx, h⟩ := h
    refine ⟨hp, hx, ?_⟩
    rw [hagree x (by simp)]
    exact ih h fun y hy => hagree y (by simp [hy])

theorem segment_ne_null {p q : α} {xs : List α} (h : Segment null next p xs q) :
    ∀ x ∈ xs, x ≠ null := by
  induction xs generalizing p with
  | nil => simp
  | cons x xs ih =>
    obtain ⟨-, hx, h⟩ := h
    intro y hy
    rcases List.mem_cons.mp hy with rfl | hy
    · exact hx
    · exact ih h y hy

theorem chain_congr {p : α} {xs : List α} (h : Chain null next p xs)
    (hagree : ∀ x ∈ xs, next' x = next x) : Chain null next' p xs :=
  segment_congr h hagree

theorem chain_nil {p : α} : Chain null next p [] ↔ p = null := Iff.rfl

theorem chain_cons {p x : α} {xs : List α} :
    Chain null next p (x :: xs) ↔ p = x ∧ x ≠ null ∧ Chain null next (next x) xs := Iff.rfl

theorem chain_append {p : α} {xs ys : List α} :
    Chain null next p (xs ++ ys) ↔
      ∃ r, Segment null next p xs r ∧ Chain null next r ys :=
  segment_append

theorem chain_head {p : α} {xs : List α} (h : Chain null next p xs) : p = xs.headD null := by
  cases xs with
  | nil => exact h
  | cons x xs => exact h.1

theorem chain_null_iff {p : α} {xs : List α} (h : Chain null next p xs) :
    p = null ↔ xs = [] := by
  cases xs with
  | nil => exact ⟨fun _ => rfl, fun _ => h⟩
  | cons x xs =>
    obtain ⟨rfl, hx, -⟩ := h
    simp [hx]

theorem chain_unique {p : α} {xs ys : List α} (hx : Chain null next p xs)
    (hy : Chain null next p ys) : xs = ys := by
  induction xs generalizing p ys with
  | nil => exact (((chain_null_iff hy).mp hx)).symm
  | cons x xs ih =>
    obtain ⟨rfl, hne, hx⟩ := hx
    cases ys with
    | nil => exact absurd hy hne
    | cons y ys =>
      obtain ⟨rfl, -, hy⟩ := hy
      rw [ih hx hy]

theorem chain_nodup {p : α} {xs : List α} (h : Chain null next p xs) : xs.Nodup := by
  induction xs generalizing p with
  | nil => exact List.nodup_nil
  | cons x xs ih =>
    obtain ⟨rfl, hx, htail⟩ := h
    refine List.nodup_cons.mpr ⟨fun hmem => ?_, ih htail⟩
    -- a second visit would start the same chain again, one node shorter
    obtain ⟨as, bs, rfl⟩ := List.append_of_mem hmem
    obtain ⟨r, -, rfl, hr⟩ := chain_append.mp htail
    have hshort : Chain null next r (r :: bs) := ⟨rfl, hr⟩
    have hlong : Chain null next r (r :: (as ++ r :: bs)) := ⟨rfl, hx, htail⟩
    have hlen := congrArg List.length (chain_unique hshort hlong)
    simp only [List.length_cons, List.length_append] at hlen
    omega

/-- Insertion of `x` between two parts of a chain, `x` new to it: the last node of the
left part, or the head when there is none, now leads to `x`, and `x` to the right part. -/
theorem chain_insert {p x : α} {xs ys : List α} {l : α}
    (h : Chain null next p (xs ++ l :: ys)) (hx : x ≠ null)
    (hl : next' l = x) (hxn : next' x = next l)
    (hxs : ∀ y ∈ xs, next' y = next y) (hys : ∀ y ∈ ys, next' y = next y) :
    Chain null next' p (xs ++ l :: x :: ys) := by
  obtain ⟨r, hleft, rfl, hr, hright⟩ := chain_append.mp h
  refine chain_append.mpr ⟨r, segment_congr hleft hxs, rfl, hr, hl, hx, ?_⟩
  rw [hxn]
  exact chain_congr hright hys

theorem chain_remove {p x : α} {xs ys : List α} {l : α}
    (h : Chain null next p (xs ++ l :: x :: ys)) (hl : next' l = next x)
    (hxs : ∀ y ∈ xs, next' y = next y) (hys : ∀ y ∈ ys, next' y = next y) :
    Chain null next' p (xs ++ l :: ys) := by
  obtain ⟨r, hleft, rfl, hr, -, -, hright⟩ := chain_append.mp h
  refine chain_append.mpr ⟨r, segment_congr hleft hxs, rfl, hr, ?_⟩
  rw [hl]
  exact chain_congr hright hys

theorem chain_drop {p : α} {xs : List α} (h : Chain null next p xs) (i : ℕ) :
    Chain null next (((xs.drop i).headD null)) (xs.drop i) := by
  induction xs generalizing p i with
  | nil => simp [Chain, Segment]
  | cons x xs ih =>
    cases i with
    | zero =>
      rw [List.drop_zero, ← chain_head h]
      exact h
    | succ i => exact ih h.2.2 i

theorem chain_next_drop {p : α} {xs : List α} (h : Chain null next p xs) {i : ℕ}
    (hi : i < xs.length) :
    next ((xs.drop i).headD null) = (xs.drop (i + 1)).headD null := by
  have hd := chain_drop h i
  have hcons : xs.drop i = xs[i] :: xs.drop (i + 1) := List.drop_eq_getElem_cons hi
  rw [hcons] at hd ⊢
  exact chain_head hd.2.2

def Cyclic (null : α) (next : α → α) (p : α) : Prop :=
  ∃ xs q ys, Segment null next p xs q ∧ Segment null next q ys q ∧ ys ≠ []

theorem segment_iterate {p q : α} {xs : List α} (h : Segment null next p xs q) :
    next^[xs.length] p = q := by
  induction xs generalizing p with
  | nil => exact h
  | cons x xs ih =>
    obtain ⟨rfl, -, h⟩ := h
    rw [List.length_cons, Function.iterate_succ_apply]
    exact ih h

theorem segment_iterate_ne {p q : α} {xs : List α} (h : Segment null next p xs q) {i : ℕ}
    (hi : i < xs.length) : next^[i] p ≠ null := by
  induction xs generalizing p i with
  | nil => simp at hi
  | cons x xs ih =>
    obtain ⟨rfl, hp, h⟩ := h
    cases i with
    | zero => exact hp
    | succ i =>
      rw [Function.iterate_succ_apply]
      exact ih h (by simpa using hi)

theorem Cyclic.iterate_ne {p : α} (h : Cyclic null next p) (i : ℕ) : next^[i] p ≠ null := by
  obtain ⟨xs, q, ys, hlead, hcycle, hys⟩ := h
  by_cases hi : i < xs.length
  · exact segment_iterate_ne hlead hi
  · have hperiod : Function.IsPeriodicPt next ys.length q := segment_iterate hcycle
    have hsplit : next^[i] p = next^[(i - xs.length) % ys.length] q := by
      rw [hperiod.iterate_mod_apply, ← segment_iterate hlead, ← Function.iterate_add_apply,
        Nat.sub_add_cancel (by omega)]
    rw [hsplit]
    exact segment_iterate_ne hcycle (Nat.mod_lt _ (List.length_pos_iff.mpr hys))

theorem Cyclic.not_chain {p : α} (h : Cyclic null next p) (xs : List α) :
    ¬ Chain null next p xs := by
  intro hchain
  exact h.iterate_ne xs.length (segment_iterate hchain)

theorem segment_of_iterate {p : α} {n : ℕ} (h : ∀ i < n, next^[i] p ≠ null) :
    Segment null next p (List.iterate next p n) (next^[n] p) := by
  induction n generalizing p with
  | zero => rfl
  | succ n ih =>
    refine ⟨rfl, h 0 (Nat.succ_pos n), ?_⟩
    apply ih
    intro i hi
    exact h (i + 1) (Nat.succ_lt_succ hi)

theorem exists_chain {p : α} {n : ℕ} (h : next^[n] p = null) : ∃ xs, Chain null next p xs := by
  classical
  have hexists : ∃ n, next^[n] p = null := ⟨n, h⟩
  have hne : ∀ i < Nat.find hexists, next^[i] p ≠ null := fun i hi => Nat.find_min hexists hi
  have hseg := segment_of_iterate hne
  rw [Nat.find_spec hexists] at hseg
  exact ⟨_, hseg⟩

theorem cyclic_of_iterate {p : α} {i j : ℕ} (hne : ∀ k, next^[k] p ≠ null) (hij : i < j)
    (heq : next^[i] p = next^[j] p) : Cyclic null next p := by
  have hlead := segment_of_iterate (p := p) (n := i) fun k _ => hne k
  have hlater : ∀ k < j - i, next^[k] (next^[i] p) ≠ null := by
    intro k _
    rw [← Function.iterate_add_apply]
    exact hne (k + i)
  have hround := segment_of_iterate hlater
  rw [← Function.iterate_add_apply, Nat.sub_add_cancel hij.le, ← heq] at hround
  refine ⟨_, _, _, hlead, hround, ?_⟩
  intro hnil
  have hlen := congrArg List.length hnil
  rw [List.length_iterate, List.length_nil] at hlen
  omega

theorem exists_iterate_eq {p : α} (S : Finset α) (h : ∀ i, next^[i] p ∈ S) :
    ∃ i j, i < j ∧ j ≤ S.card ∧ next^[i] p = next^[j] p := by
  have hcard : S.card < (Finset.range (S.card + 1)).card := by
    rw [Finset.card_range]
    omega
  obtain ⟨i, hi, j, hj, hne, heq⟩ :=
    Finset.exists_ne_map_eq_of_card_lt_of_maps_to hcard (f := fun i => next^[i] p) fun i _ => h i
  rw [Finset.mem_range] at hi hj
  rcases Nat.lt_or_gt_of_ne hne with hlt | hgt
  · exact ⟨i, j, hlt, by omega, heq⟩
  · exact ⟨j, i, hgt, by omega, heq.symm⟩

/-- Two walkers, one of them twice as fast, meet before the slow one is at the node that it
visits twice for the second time, or there. -/
theorem iterate_meet {p : α} {i j : ℕ} (hij : i < j) (heq : next^[i] p = next^[j] p) :
    ∃ d, 0 < d ∧ d ≤ j ∧ next^[d] p = next^[2 * d] p := by
  have hperiod : Function.IsPeriodicPt next (j - i) (next^[i] p) := by
    rw [Function.IsPeriodicPt, Function.IsFixedPt, ← Function.iterate_add_apply,
      Nat.sub_add_cancel hij.le, heq]
  -- the first multiple of the period behind position `i`
  have hdiv := Nat.div_add_mod i (j - i)
  have hmod := Nat.mod_lt i (Nat.sub_pos_of_lt hij)
  have hexpand : (j - i) * (i / (j - i) + 1) = (j - i) * (i / (j - i)) + (j - i) := by ring
  have hle : i ≤ (j - i) * (i / (j - i) + 1) := by omega
  refine ⟨(j - i) * (i / (j - i) + 1), by omega, by omega, ?_⟩
  have hshift : next^[(j - i) * (i / (j - i) + 1)] p =
      next^[(j - i) * (i / (j - i) + 1) - i] (next^[i] p) := by
    rw [← Function.iterate_add_apply, Nat.sub_add_cancel hle]
  have hround : Function.IsPeriodicPt next ((j - i) * (i / (j - i) + 1))
      (next^[(j - i) * (i / (j - i) + 1)] p) := by
    rw [hshift]
    exact (hperiod.apply_iterate _).mul_const _
  rw [Nat.two_mul, Function.iterate_add_apply]
  exact hround.symm

end LinkedChain
