import Bolgenos.Sched.CircularIntrusiveList

/-!
# Runs of the circular list

In every state that insertions and removals lead to, the elements form one cycle through the
element that the list points to, and everything else is unlinked. A range-for goes round this
cycle once. On the empty list it takes the null pointer for an element, because only an
iterator that was incremented can equal the end marker.
-/

namespace Bolgenos

open FuelLoop LinkedRing

namespace CircularIntrusiveList

inductive Run : CircularIntrusiveList → List ℕ → Prop where
  | empty : Run {} []
  | insert {l l' : CircularIntrusiveList} {members : List ℕ} {v : ℕ} : Run l members →
      v ≠ 0 → v < 2 ^ 32 → v ∉ members → l.insert v = .ok l' → Run l' (v :: members)
  | remove {l l' : CircularIntrusiveList} {members : List ℕ} {v r : ℕ} : Run l members →
      v ∈ members → l.remove v = .ok (r, l') → Run l' (members.erase v)

def Holds (l : CircularIntrusiveList) : List ℕ → Prop
  | [] => l.some = 0
  | a :: xs => l.IsRing a xs

structure Shape (l : CircularIntrusiveList) (ring : List ℕ) : Prop where
  holds : l.Holds ring
  unlinked : ∀ y ∉ ring, l.next y = 0 ∧ l.prev y = 0

def insertBehind (v : ℕ) : List ℕ → List ℕ
  | [] => [v]
  | a :: xs => a :: v :: xs

variable {l : CircularIntrusiveList} {a v y : ℕ} {xs ys ring members : List ℕ}

theorem perm_insertBehind (v : ℕ) (ring : List ℕ) : (insertBehind v ring).Perm (v :: ring) := by
  cases ring with
  | nil => exact List.Perm.refl [v]
  | cons a xs => exact List.Perm.swap v a xs

theorem Shape.nodup (h : l.Shape ring) : ring.Nodup := by
  cases ring with
  | nil => exact List.nodup_nil
  | cons a xs => exact h.holds.nodup

theorem Shape.some_eq (h : l.Shape ring) : l.some = ring.headD 0 := by
  cases ring with
  | nil => exact h.holds
  | cons a xs => exact h.holds.some_eq

theorem Shape.linked_both (h : l.Shape ring) (hy : y ∈ ring) :
    l.prev (l.next y) = y ∧ l.next (l.prev y) = y := by
  cases ring with
  | nil => cases hy
  | cons a xs =>
    refine ⟨linked_prev_next h.holds.linked y hy, linked_next_prev h.holds.linked y ?_⟩
    rw [List.mem_append, List.mem_singleton]
    exact (List.mem_cons.1 hy).symm

theorem Shape.next_ne_null (h : l.Shape ring) (hy : y ∈ ring) : l.next y ≠ 0 := by
  intro hnext
  have hnull : ∀ x ∈ ring, x ≠ 0 := by
    cases ring with
    | nil => simp
    | cons a xs => exact h.holds.ne_null
  have hprev := (h.linked_both hy).1
  rw [hnext, (h.unlinked 0 fun hmem => hnull 0 hmem rfl).2] at hprev
  exact hnull y hy hprev.symm

theorem shape_empty : Shape {} [] where
  holds := rfl
  unlinked _ _ := ⟨rfl, rfl⟩

theorem Shape.insert (h : l.Shape ring) (hv : v ≠ 0) (hnew : v ∉ ring) :
    ∃ l', l.insert v = .ok l' ∧ l'.Shape (insertBehind v ring) := by
  have hfar : ∀ {y}, y ∉ insertBehind v ring → y ≠ v ∧ y ∉ ring := by
    intro y hy
    rw [(perm_insertBehind v ring).mem_iff, List.mem_cons, not_or] at hy
    exact hy
  cases ring with
  | nil =>
    obtain ⟨l', hrun, hring, hframe⟩ := insert_empty h.holds hv
    refine ⟨l', hrun, hring, ?_⟩
    intro y hy
    rw [(hframe y (hfar hy).1).1, (hframe y (hfar hy).1).2]
    exact h.unlinked y (hfar hy).2
  | cons a xs =>
    obtain ⟨l', hrun, hring, hframe⟩ := insert_ring h.holds hnew hv
    refine ⟨l', hrun, hring, ?_⟩
    intro y hy
    obtain ⟨hyv, hyring⟩ := hfar hy
    rw [(hframe y hyv hyring).1, (hframe y hyv hyring).2]
    exact h.unlinked y hyring

theorem Shape.remove_last (h : l.Shape [v]) :
    ∃ l', l.remove v = .ok (0, l') ∧ l'.Shape [] := by
  have hself : v = l.next v := h.holds.linked.1.symm
  refine ⟨_, if_pos hself, rfl, ?_⟩
  intro y _
  by_cases hy : y = v
  · simp [setNext, setPrev, hy]
  · have hfree := h.unlinked y (by simpa using hy)
    simp [setNext, setPrev, hy, hfree]

theorem Shape.remove_first (h : l.Shape (a :: y :: ys)) :
    ∃ l', l.remove a = .ok (l.next a, l') ∧ l'.Shape (y :: ys) := by
  have hmem : ∀ z, z ∈ y :: (ys ++ a :: []) ↔ z ∈ a :: y :: ys := by
    intro z
    simp only [List.mem_cons, List.mem_append, List.not_mem_nil, or_false]
    tauto
  have hnd : (y :: (ys ++ a :: [])).Nodup := by
    have hperm : (y :: (ys ++ a :: [])).Perm (a :: y :: ys) :=
      (List.perm_append_singleton a (y :: ys))
    exact hperm.nodup_iff.2 h.nodup
  obtain ⟨l', hrun, hlinked, hsome, hnext, hprev, hframe⟩ :=
    remove_linked (linked_rotate h.holds.linked) hnd
      fun z hz => h.holds.ne_null z ((hmem z).1 hz)
  have hfirst : l.next a = y := h.holds.linked.1.1
  rw [List.append_nil] at hlinked
  refine ⟨l', hrun, ⟨?_, hlinked, h.nodup.of_cons, ?_⟩, ?_⟩
  · rw [hsome, if_pos h.holds.some_eq, hfirst]
  · intro z hz
    exact h.holds.ne_null z (List.mem_cons_of_mem a hz)
  · intro z hz
    by_cases hza : z = a
    · rw [hza]
      exact ⟨hnext, hprev⟩
    · have hout : z ∉ a :: y :: ys := by
        intro hmem
        rcases List.mem_cons.1 hmem with heq | hin
        · exact hza heq
        · exact hz hin
      rw [(hframe z fun hin => hout ((hmem z).1 hin)).1,
        (hframe z fun hin => hout ((hmem z).1 hin)).2]
      exact h.unlinked z hout

theorem Shape.remove_behind (h : l.Shape (a :: (xs ++ v :: ys))) :
    ∃ l', l.remove v = .ok (l.next v, l') ∧ l'.Shape (a :: (xs ++ ys)) := by
  obtain ⟨l', hrun, hlinked, hsome, hnext, hprev, hframe⟩ :=
    remove_linked h.holds.linked h.nodup h.holds.ne_null
  have hav : a ≠ v := by
    intro heq
    exact (List.nodup_cons.mp h.nodup).1 (by simp [heq])
  have hsub : (a :: (xs ++ ys)).Sublist (a :: (xs ++ v :: ys)) :=
    ((List.sublist_cons_self v ys).append_left xs).cons_cons a
  refine ⟨l', hrun, ⟨?_, hlinked, h.nodup.sublist hsub, ?_⟩, ?_⟩
  · rw [hsome, h.holds.some_eq, if_neg hav]
  · intro z hz
    exact h.holds.ne_null z (hsub.subset hz)
  · intro z hz
    by_cases hzv : z = v
    · rw [hzv]
      exact ⟨hnext, hprev⟩
    · have hout : z ∉ a :: (xs ++ v :: ys) := by
        simp only [List.mem_cons, List.mem_append, not_or] at hz ⊢
        exact ⟨hz.1, hz.2.1, hzv, hz.2.2⟩
      rw [(hframe z hout).1, (hframe z hout).2]
      exact h.unlinked z hout

theorem Shape.remove (h : l.Shape ring) (hv : v ∈ ring) :
    ∃ l', l.remove v = .ok (if ring = [v] then 0 else l.next v, l') ∧ l'.Shape (ring.erase v) := by
  cases ring with
  | nil => cases hv
  | cons a xs =>
    by_cases hav : a = v
    · subst hav
      rw [List.erase_cons_head]
      cases xs with
      | nil =>
        rw [if_pos rfl]
        exact h.remove_last
      | cons y ys =>
        rw [if_neg (by simp)]
        exact h.remove_first
    · have hmem : v ∈ xs := (List.mem_cons.1 hv).resolve_left (Ne.symm hav)
      obtain ⟨as, bs, rfl⟩ := List.append_of_mem hmem
      have hfirst : v ∉ as := by
        intro hin
        have hnd := (List.nodup_append.1 h.nodup.of_cons).2.2
        exact hnd v hin v List.mem_cons_self rfl
      rw [List.erase_cons_tail (by simpa using hav), List.erase_append_right _ hfirst,
        List.erase_cons_head, if_neg (by simp)]
      exact h.remove_behind

theorem erase_eq_nil_iff (hv : v ∈ ring) : ring.erase v = [] ↔ ring = [v] := by
  have hlen := List.length_erase_of_mem hv
  constructor
  · intro hnil
    rw [hnil, List.length_nil] at hlen
    have hpos := List.length_pos_of_mem hv
    obtain ⟨x, hx⟩ := List.length_eq_one_iff.1 (show ring.length = 1 by omega)
    rw [hx, List.mem_singleton] at hv
    rw [hx, hv]
  · intro hone
    rw [hone, List.erase_cons_head]

theorem Shape.headD_erase (h : l.Shape ring) (hv : v ∈ ring) : (ring.erase v).headD 0 =
    if l.some = v then if ring = [v] then 0 else l.next v else l.some := by
  cases ring with
  | nil => cases hv
  | cons a xs =>
    rw [h.holds.some_eq]
    by_cases hav : a = v
    · subst hav
      rw [List.erase_cons_head, if_pos rfl]
      cases xs with
      | nil => simp
      | cons y ys => rw [if_neg (by simp), h.holds.linked.1.1, List.headD_cons]
    · rw [List.erase_cons_tail (by simpa using hav), if_neg hav, List.headD_cons]

theorem Run.shape (h : Run l members) : ∃ ring, ring.Perm members ∧ l.Shape ring := by
  induction h with
  | empty => exact ⟨[], List.Perm.refl [], shape_empty⟩
  | insert _ hv _ hnew hins ih =>
    obtain ⟨ring, hperm, hshape⟩ := ih
    obtain ⟨l', hrun, hshape'⟩ := hshape.insert hv (mt hperm.mem_iff.1 hnew)
    rw [hins] at hrun
    cases hrun
    exact ⟨_, (perm_insertBehind _ ring).trans (hperm.cons _), hshape'⟩
  | remove _ hmem hrem ih =>
    obtain ⟨ring, hperm, hshape⟩ := ih
    obtain ⟨l', hrun, hshape'⟩ := hshape.remove (hperm.mem_iff.2 hmem)
    rw [hrem] at hrun
    cases hrun
    exact ⟨_, hperm.erase _, hshape'⟩

/-- In every state the elements form one cycle, and both operations do what they are for. -/
theorem run_cycle (h : Run l members) : ∃ ring, ring.Perm members ∧ l.Shape ring ∧
    (∀ x ∈ members, l.prev (l.next x) = x ∧ l.next (l.prev x) = x) ∧
    (∀ v, v ≠ 0 → v < 2 ^ 32 → v ∉ members → ∃ l', l.insert v = .ok l' ∧
      l'.Shape (insertBehind v ring)) ∧
    ∀ v ∈ members, ∃ r l', l.remove v = .ok (r, l') ∧ l'.Shape (ring.erase v) ∧
      l'.next v = 0 ∧ l'.prev v = 0 ∧ (r = 0 ↔ ring.erase v = []) ∧ (r ≠ 0 → r = l.next v) ∧
      (l.some ≠ v → l'.some = l.some) ∧ (l.some = v → l'.some = r) := by
  obtain ⟨ring, hperm, hshape⟩ := h.shape
  refine ⟨ring, hperm, hshape, ?_, ?_, ?_⟩
  · intro x hx
    exact hshape.linked_both (hperm.mem_iff.2 hx)
  · intro v hv _ hnew
    exact hshape.insert hv (mt hperm.mem_iff.1 hnew)
  · intro v hv
    have hmem := hperm.mem_iff.2 hv
    obtain ⟨l', hrun, hshape'⟩ := hshape.remove hmem
    have hfree := hshape'.unlinked v (hshape.nodup.not_mem_erase)
    have hsome := hshape'.some_eq.trans (hshape.headD_erase hmem)
    refine ⟨_, l', hrun, hshape', hfree.1, hfree.2, ?_, ?_, ?_, ?_⟩
    · rw [erase_eq_nil_iff hmem]
      simp [hshape.next_ne_null hmem]
    · intro hr
      by_cases hone : ring = [v]
      · exact absurd (if_pos hone) hr
      · exact if_neg hone
    · intro hother
      rw [hsome, if_neg hother]
    · intro hself
      rw [hsome, if_pos hself]

theorem exists_run_single (hv : v ≠ 0) (hlt : v < 2 ^ 32) : ∃ l, Run l [v] := by
  obtain ⟨l, hrun, -⟩ := shape_empty.insert hv (List.not_mem_nil (a := v))
  exact ⟨l, .insert .empty hv hlt List.not_mem_nil hrun⟩

theorem run_cycle_three : ∃ l ring, Run l [12288, 8192, 4096] ∧ l.some = 4096 ∧
    ring.Perm [12288, 8192, 4096] ∧ l.Shape ring ∧
    (∃ l', l.insert 16384 = .ok l' ∧ l'.Shape (insertBehind 16384 ring)) ∧
    ∃ l', l.remove 4096 = .ok (12288, l') ∧ l'.Shape (ring.erase 4096) ∧ l'.some = 12288 := by
  have hone := Run.empty.insert (v := 4096) (by decide) (by decide) (by decide) rfl
  have htwo := hone.insert (v := 8192) (by decide) (by decide) (by decide) rfl
  have hrun := htwo.insert (v := 12288) (by decide) (by decide) (by decide) rfl
  obtain ⟨ring, hperm, hshape, -, hinsert, hremove⟩ := run_cycle hrun
  obtain ⟨r, l', hrem, hshape', -, -, hnil, hnext, -, hsome⟩ := hremove 4096 (by decide)
  have hrest : ring.erase 4096 ≠ [] := by
    intro hempty
    have hlen := (hperm.erase 4096).length_eq
    rw [hempty] at hlen
    cases hlen
  have hr : r = 12288 := hnext fun hzero => hrest (hnil.1 hzero)
  rw [hr] at hrem hsome
  exact ⟨_, ring, hrun, rfl, hperm, hshape, hinsert 16384 (by decide) (by decide) (by decide), l',
    hrem, hshape', hsome rfl⟩

/-- A round of a range-for that collects the elements; `last` is the node of the end marker. -/
def rangeForStep (l : CircularIntrusiveList) (last : ℕ) (s : ListIterator × List ℕ) :
    Result ((ListIterator × List ℕ) ⊕ List ℕ) :=
  if atEnd s.1 last then .ok (.inr s.2)
  else do
    let value ← deref s.1
    let it ← advance l s.1
    .ok (.inl (it, s.2 ++ [value]))

def rangeFor (l : CircularIntrusiveList) : Result (List ℕ) :=
  loop .divergence (rangeForStep l l.some) budget (l.begin_, [])

theorem rangeForStep_go {k : ℕ} (hy : y ≠ 0) (hgo : y ≠ a ∨ k = 0) (hk : k + 1 < 2 ^ 32)
    (seen : List ℕ) :
    rangeForStep l a (⟨y, k⟩, seen) = .ok (.inl (⟨l.next y, k + 1⟩, seen ++ [y])) := by
  have hend : atEnd ⟨y, k⟩ a = false := by
    simp only [atEnd, decide_eq_false_iff_not]
    tauto
  simp only [rangeForStep, hend, deref, advance, if_neg hy, wrap_of_lt hk, bind, Except.bind,
    Bool.false_eq_true, if_false]

theorem rangeFor_loop {k n : ℕ} (h : Linked l.next l.prev y ys a) (hne : ∀ x ∈ y :: ys, x ≠ 0)
    (hgo : y ≠ a ∨ k = 0) (hlast : a ∉ ys) (hk : k + ys.length + 1 < 2 ^ 32)
    (hn : ys.length + 1 < n) (seen : List ℕ) :
    loop .divergence (rangeForStep l a) n (⟨y, k⟩, seen) = .ok (seen ++ y :: ys) := by
  have hy : y ≠ 0 := hne y List.mem_cons_self
  induction ys generalizing y k n seen with
  | nil =>
    have hend : rangeForStep l a (⟨a, k + 1⟩, seen ++ [y]) = .ok (.inr (seen ++ [y])) := by
      simp [rangeForStep, atEnd]
    rw [loop_next_of_lt hn (rangeForStep_go hy hgo (by simpa using hk) seen), h.1,
      loop_exit_of_lt (Nat.lt_sub_of_add_lt hn) hend]
  | cons x ys ih =>
    rw [List.length_cons] at hk
    have hx : x ≠ a := by
      intro heq
      exact hlast (by simp [heq])
    have hcount : k + 1 + ys.length + 1 < 2 ^ 32 := by omega
    have hrest := ih h.2 (fun z hz => hne z (List.mem_cons_of_mem y hz)) (Or.inl hx)
      (fun hmem => hlast (List.mem_cons_of_mem x hmem)) hcount (Nat.lt_sub_of_add_lt hn)
      (seen ++ [y]) (hne x (by simp))
    rw [loop_next_of_lt hn (rangeForStep_go hy hgo (by omega) seen), h.1.1, hrest,
      List.append_assoc, List.singleton_append]

theorem rangeFor_ring (h : l.IsRing a xs) (hlt : ∀ x ∈ a :: xs, x < 2 ^ 32) :
    l.rangeFor = .ok (a :: xs) := by
  have hlen := length_lt_of_pointers h.nodup fun x hx => ⟨h.ne_null x hx, hlt x hx⟩
  rw [List.length_cons] at hlen
  have hbudget : xs.length + 1 < budget := lt_budget (by omega)
  have hrun := rangeFor_loop h.linked h.ne_null (Or.inr rfl) (List.nodup_cons.1 h.nodup).1
    (by omega : 0 + xs.length + 1 < 2 ^ 32) hbudget []
  rw [rangeFor, begin_, h.some_eq]
  exact hrun

/-- The empty list: the iterator was not incremented, so it is not at the end. -/
theorem rangeFor_empty (h : l.some = 0) : l.rangeFor = .error .nullDereference := by
  have hbody : rangeForStep l 0 (⟨0, 0⟩, []) = .error .nullDereference := rfl
  rw [rangeFor, begin_, h]
  exact loop_error hbody (2 ^ 33 - 1)

theorem Run.lt (h : Run l members) : ∀ x ∈ members, x < 2 ^ 32 := by
  induction h with
  | empty => simp
  | insert _ _ hlt _ _ ih => simpa using ⟨hlt, ih⟩
  | remove _ _ _ ih =>
    intro x hx
    exact ih x (List.mem_of_mem_erase hx)

/-- A range-for comes to an end without an access through null and yields each element once,
from the one that the list points to along the forward links. -/
def Traverses (l : CircularIntrusiveList) (members : List ℕ) : Prop :=
  ∃ visited, l.rangeFor = .ok visited ∧ visited.Perm members ∧ visited.Nodup ∧
    (∀ x ∈ visited.head?, x = l.some) ∧ visited.IsChain fun x y => l.next x = y

theorem traverses_iff (h : Run l members) : Traverses l members ↔ members ≠ [] := by
  obtain ⟨ring, hperm, hshape⟩ := h.shape
  cases ring with
  | nil =>
    rw [List.Perm.nil_eq hperm]
    simp [Traverses, rangeFor_empty hshape.holds]
  | cons a xs =>
    have hne : members ≠ [] := by
      intro hnil
      rw [hnil] at hperm
      exact List.cons_ne_nil a xs hperm.eq_nil
    have hrun := rangeFor_ring hshape.holds fun x hx => h.lt x (hperm.mem_iff.1 hx)
    refine iff_of_true ⟨a :: xs, hrun, hperm, hshape.nodup, ?_, ?_⟩ hne
    · intro x hx
      rw [hshape.holds.some_eq]
      simpa using hx.symm
    · exact linked_isChain hshape.holds.linked

theorem traverses_single : ∃ l, Run l [4096] ∧ Traverses l [4096] := by
  obtain ⟨l, hrun⟩ := exists_run_single (v := 4096) (by decide) (by decide)
  exact ⟨l, hrun, (traverses_iff hrun).2 (by simp)⟩

theorem not_traverses_empty :
    Run {} [] ∧ rangeFor {} = .error .nullDereference ∧ ¬ Traverses {} [] := by
  have hfail : rangeFor {} = .error .nullDereference := rangeFor_empty rfl
  refine ⟨.empty, hfail, ?_⟩
  intro htraverses
  obtain ⟨visited, hrun, -⟩ := htraverses
  rw [hfail] at hrun
  cases hrun

end CircularIntrusiveList

end Bolgenos
