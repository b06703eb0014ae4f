import Bolgenos.Lib.Ring
import Bolgenos.Machine

/-!
# Circular intrusive lists

The links of an element are fields of the element itself, so a node is known by the
address of its owner. The list keeps a pointer to some element; a new element is linked
in behind it.
-/

namespace Bolgenos

open LinkedRing

structure CircularIntrusiveList where
  next : ℕ → ℕ := fun _ => 0
  prev : ℕ → ℕ := fun _ => 0
  some : ℕ := 0

/-- The iterator counts its increments, which tells the end from the beginning. -/
structure ListIterator where
  node : ℕ
  shift : ℕ := 0
  deriving DecidableEq, Repr

namespace CircularIntrusiveList

def setNext (l : CircularIntrusiveList) (node value : ℕ) : CircularIntrusiveList :=
  { l with next := Function.update l.next node value }

def setPrev (l : CircularIntrusiveList) (node value : ℕ) : CircularIntrusiveList :=
  { l with prev := Function.update l.prev node value }

def insert (l : CircularIntrusiveList) (value : ℕ) : Result CircularIntrusiveList :=
  if l.some = 0 then
    .ok { (l.setPrev value value).setNext value value with some := value }
  else
    let l := (l.setNext value (l.next l.some)).setPrev value l.some
    if l.next l.some = 0 then .error .nullDereference
    else .ok ((l.setPrev (l.next l.some) value).setNext l.some value)

def remove (l : CircularIntrusiveList) (value : ℕ) : Result (ℕ × CircularIntrusiveList) :=
  if value = l.next value then
    .ok (0, { (l.setNext value 0).setPrev value 0 with some := 0 })
  else
    let ret := l.next value
    if l.prev value = 0 then .error .nullDereference
    else
      let l := l.setNext (l.prev value) (l.next value)
      if l.next value = 0 then .error .nullDereference
      else
        let l := l.setPrev (l.next value) (l.prev value)
        let l := (l.setNext value 0).setPrev value 0
        .ok (ret, if l.some = value then { l with some := ret } else l)

def begin_ (l : CircularIntrusiveList) : ListIterator := ⟨l.some, 0⟩

def atEnd (it : ListIterator) (node : ℕ) : Bool := it.node = node ∧ it.shift ≠ 0

def deref (it : ListIterator) : Result ℕ :=
  if it.node = 0 then .error .nullDereference else .ok it.node

def advance (l : CircularIntrusiveList) (it : ListIterator) : Result ListIterator :=
  if it.node = 0 then .error .nullDereference
  else .ok ⟨l.next it.node, wrap (it.shift + 1)⟩

/-- The elements are `a`, to which the list points, and then `xs` in the order of the
forward links. -/
structure IsRing (l : CircularIntrusiveList) (a : ℕ) (xs : List ℕ) : Prop where
  some_eq : l.some = a
  linked : Linked l.next l.prev a xs a
  nodup : (a :: xs).Nodup
  ne_null : ∀ y ∈ a :: xs, y ≠ 0

variable {l : CircularIntrusiveList} {a v : ℕ} {xs ys : List ℕ}

theorem insert_empty (h : l.some = 0) (hv : v ≠ 0) :
    ∃ l', l.insert v = .ok l' ∧ l'.IsRing v [] ∧
      ∀ y, y ≠ v → l'.next y = l.next y ∧ l'.prev y = l.prev y := by
  refine ⟨_, if_pos h, ⟨rfl, ?_, by simp, by simpa using hv⟩, ?_⟩
  · simp [Linked, setNext, setPrev]
  · intro y hy
    simp [setNext, setPrev, hy]

theorem IsRing.next_mem (h : l.IsRing a xs) : l.next a ∈ a :: xs := by
  rw [linked_next h.linked]
  cases xs <;> simp

theorem insert_ring (h : l.IsRing a xs) (hmem : v ∉ a :: xs) (hv : v ≠ 0) :
    ∃ l', l.insert v = .ok l' ∧ l'.IsRing a (v :: xs) ∧
      ∀ y, y ≠ v → y ∉ a :: xs → l'.next y = l.next y ∧ l'.prev y = l.prev y := by
  have ha : a ≠ 0 := h.ne_null a (by simp)
  have hav : a ≠ v := by
    intro heq
    exact hmem (by simp [heq])
  have hnv : l.next a ≠ v := by
    intro heq
    exact hmem (heq ▸ h.next_mem)
  have hn0 : l.next a ≠ 0 := h.ne_null _ h.next_mem
  have hsome := h.some_eq
  refine ⟨_, by
    simp only [insert, hsome, if_neg ha, setNext, setPrev, Function.update_of_ne hav, if_neg hn0]
    rfl, ⟨rfl, ?_, ?_, ?_⟩, ?_⟩
  · apply ring_insert h.linked h.nodup hmem
    · simp
    · simp [Function.update_of_ne hav.symm]
    · simp [Function.update_of_ne hnv.symm]
    · simp
    · intro y hya hyv
      simp [hya, hyv]
    · intro y hyv hyn
      simp [hyv, hyn]
  · have hnd := List.nodup_cons.mp h.nodup
    simp only [List.mem_cons, not_or] at hmem
    simp only [List.nodup_cons, List.mem_cons, not_or]
    exact ⟨⟨hav, hnd.1⟩, hmem.2, hnd.2⟩
  · intro y hy
    rcases List.mem_cons.mp hy with heq | hy
    · rw [heq]
      exact ha
    · rcases List.mem_cons.mp hy with heq | hy
      · rw [heq]
        exact hv
      · exact h.ne_null y (by simp [hy])
  · intro y hyv hy
    have hya : y ≠ a := by
      intro heq
      exact hy (by simp [heq])
    have hyn : y ≠ l.next a := by
      intro heq
      exact hy (heq ▸ h.next_mem)
    simp [hyv, hya, hyn]

theorem next_of_linked (h : Linked l.next l.prev a (xs ++ v :: ys) a) :
    l.next v = (ys ++ [a]).headD v :=
  linked_next (linked_append.mp h).2

theorem prev_mem_of_linked (h : Linked l.next l.prev a (xs ++ v :: ys) a) :
    l.prev v ∈ a :: xs := by
  obtain ⟨hleft, -⟩ := linked_append.mp h
  rcases List.eq_nil_or_concat' xs with hxs | ⟨zs, p, hxs⟩
  · subst hxs
    rw [hleft.2]
    exact List.mem_cons_self
  · subst hxs
    rw [(linked_append.mp hleft).2.2]
    simp

theorem next_mem_of_linked (h : Linked l.next l.prev a (xs ++ v :: ys) a) :
    l.next v ∈ ys ++ [a] := by
  rw [next_of_linked h]
  cases ys <;> simp

theorem remove_eq (hn : v ≠ l.next v) (hp : v ≠ l.prev v) (hn0 : l.next v ≠ 0)
    (hp0 : l.prev v ≠ 0) :
    l.remove v = .ok (l.next v,
      { next := Function.update (Function.update l.next (l.prev v) (l.next v)) v 0
        prev := Function.update (Function.update l.prev (l.next v) (l.prev v)) v 0
        some := if l.some = v then l.next v else l.some }) := by
  simp only [remove, if_neg hn, if_neg hp0, setNext, setPrev, Function.update_of_ne hp,
    if_neg hn0]
  split_ifs <;> rfl

theorem remove_linked (h : Linked l.next l.prev a (xs ++ v :: ys) a)
    (hnd : (a :: (xs ++ v :: ys)).Nodup) (hne : ∀ y ∈ a :: (xs ++ v :: ys), y ≠ 0) :
    ∃ l', l.remove v = .ok (l.next v, l') ∧ Linked l'.next l'.prev a (xs ++ ys) a ∧
      l'.some = (if l.some = v then l.next v else l.some) ∧ l'.next v = 0 ∧ l'.prev v = 0 ∧
      ∀ y ∉ a :: (xs ++ v :: ys), l'.next y = l.next y ∧ l'.prev y = l.prev y := by
  have hnext := next_mem_of_linked h
  have hprev := prev_mem_of_linked h
  have hbehind : ∀ y ∈ ys ++ [a], y ∈ a :: (xs ++ v :: ys) ∧ v ≠ y := by
    intro y hy
    simp only [List.nodup_cons, List.nodup_append, List.mem_append, List.mem_cons] at hnd hy ⊢
    grind
  have hbefore : ∀ y ∈ a :: xs, y ∈ a :: (xs ++ v :: ys) ∧ v ≠ y := by
    intro y hy
    simp only [List.nodup_cons, List.nodup_append, List.mem_append, List.mem_cons] at hnd hy ⊢
    grind
  obtain ⟨hnmem, hvn⟩ := hbehind _ hnext
  obtain ⟨hpmem, hvp⟩ := hbefore _ hprev
  refine ⟨_, remove_eq hvn hvp (hne _ hnmem) (hne _ hpmem), ?_, rfl, by simp, by simp, ?_⟩
  · apply ring_remove h hnd
    · simp [Function.update_of_ne hvp.symm]
    · simp [Function.update_of_ne hvn.symm]
    · intro y hy hyv
      simp [hy, hyv]
    · intro y hy hyv
      simp [hy, hyv]
  · intro y hy
    have hyv : y ≠ v := by
      intro heq
      exact hy (by simp [heq])
    have hyn : y ≠ l.next v := by
      intro heq
      exact hy (heq ▸ hnmem)
    have hyp : y ≠ l.prev v := by
      intro heq
      exact hy (heq ▸ hpmem)
    simp [hyv, hyn, hyp]

theorem remove_ring (h : l.IsRing a (xs ++ v :: ys)) :
    ∃ r l', l.remove v = .ok (r, l') ∧ l'.IsRing a (xs ++ ys) := by
  obtain ⟨l', hrun, hlinked, hsome, -, -, -⟩ := remove_linked h.linked h.nodup h.ne_null
  have hav : a ≠ v := by
    intro heq
    exact (List.nodup_cons.mp h.nodup).1 (by simp [heq])
  have hsub : (a :: (xs ++ ys)).Sublist (a :: (xs ++ v :: ys)) :=
    ((List.sublist_cons_self v ys).append_left xs).cons_cons a
  refine ⟨l.next v, l', hrun, ?_, hlinked, h.nodup.sublist hsub, ?_⟩
  · rw [hsome, h.some_eq, if_neg hav]
  · intro y hy
    exact h.ne_null y (hsub.subset hy)

end CircularIntrusiveList

end Bolgenos
