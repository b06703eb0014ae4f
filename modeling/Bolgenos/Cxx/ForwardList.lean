import Bolgenos.Lib.Chain
import Bolgenos.Machine

/-!
# Singly linked lists

A `forward_list` is a node inside the list object and the nodes that the allocator gave out,
linked by raw pointers. The nodes that are alive are kept by their addresses, with a number
for each allocation, so that a use after the deallocation and a second deallocation fail.
`kmalloc` answers with null or with any block at whose place nothing lives.
-/

namespace Bolgenos

open FuelLoop LinkedChain

/-- `fwd_list_node`; the node inside the list object was not allocated and has no number. -/
structure FwdListNode (α : Type) where
  next : ℕ := 0
  value : α
  ticket : Option ℕ

/-- A list whose own node is at `beforeBegin`, with the number of allocations so far and the
numbers of the nodes deallocated. -/
structure ForwardList (α : Type) where
  beforeBegin : ℕ
  nodes : ℕ → Option (FwdListNode α)
  allocated : ℕ := 0
  freed : List ℕ := []

namespace ForwardList

variable {α : Type}

def construct [Inhabited α] (address : ℕ) : ForwardList α where
  beforeBegin := address
  nodes := Function.update (fun _ => none) address (some ⟨0, default, none⟩)

def node (l : ForwardList α) (p : ℕ) : Result (FwdListNode α) :=
  if p = 0 then .error .nullDereference
  else
    match l.nodes p with
    | none => .error .useAfterFree
    | some n => .ok n

def setNode (l : ForwardList α) (p : ℕ) (n : FwdListNode α) : ForwardList α :=
  { l with nodes := Function.update l.nodes p (some n) }

def setNext (l : ForwardList α) (p next : ℕ) : Result (ForwardList α) := do
  let n ← l.node p
  .ok (l.setNode p { n with next := next })

def setValue (l : ForwardList α) (p : ℕ) (value : α) : Result (ForwardList α) := do
  let n ← l.node p
  .ok (l.setNode p { n with value := value })

/-- The number of elements that an array of nodes has in front of it. -/
def arrayCookie : ℕ := 4

/-- `new T[1]` of `default_allocator`, where `kmalloc` answers `block`. The `operator new[]` is
not `noexcept`, so that the node is constructed without a look at the answer. -/
def allocate [Inhabited α] (block : ℕ) (l : ForwardList α) : ℕ × ForwardList α :=
  let node := block + arrayCookie
  (node, { l.setNode node ⟨0, default, some l.allocated⟩ with allocated := l.allocated + 1 })

def deallocate (l : ForwardList α) (p : ℕ) : Result (ForwardList α) :=
  if p = 0 then .ok l
  else
    match (l.nodes p).bind FwdListNode.ticket with
    | none => .error .useAfterFree
    | some ticket =>
      .ok { l with nodes := Function.update l.nodes p none, freed := l.freed ++ [ticket] }

/-- `basic_forward_list::push_after` -/
def linkAfter (l : ForwardList α) (after node : ℕ) : Result (ℕ × ForwardList α) := do
  let n ← l.node after
  let l ← l.setNext node n.next
  let l ← l.setNext after node
  .ok (node, l)

/-- `basic_forward_list::erase_after` -/
def unlinkAfter (l : ForwardList α) (after : ℕ) : Result (ℕ × ForwardList α) := do
  let n ← l.node after
  let erased ← l.node n.next
  let l ← l.setNext after erased.next
  .ok (n.next, l)

def begin_ (l : ForwardList α) : Result ℕ := do
  let n ← l.node l.beforeBegin
  .ok n.next

def end_ : ℕ := 0

def increment (l : ForwardList α) (it : ℕ) : Result ℕ := do
  let n ← l.node it
  .ok n.next

def increments (l : ForwardList α) : ℕ → ℕ → Result ℕ
  | 0, it => .ok it
  | n + 1, it => do
    let it ← l.increment it
    l.increments n it

def advance (l : ForwardList α) (it : ℕ) (n : ℤ) : Result ℕ := l.increments n.toNat it

def next (l : ForwardList α) (it : ℕ) : Result ℕ := l.advance it 1

def deref (l : ForwardList α) (it : ℕ) : Result α := do
  let n ← l.node it
  .ok n.value

def pushAfter [Inhabited α] (position : ℕ) (value : α) (block : ℕ) (l : ForwardList α) :
    Result (ℕ × ForwardList α) :=
  let (node, l) := l.allocate block
  if node = 0 then .ok (end_, l)
  else do
    let l ← l.setValue node value
    l.linkAfter position node

def pushFront [Inhabited α] (value : α) (block : ℕ) (l : ForwardList α) :
    Result (ℕ × ForwardList α) :=
  l.pushAfter l.beforeBegin value block

def eraseAfter (position : ℕ) (l : ForwardList α) : Result (ForwardList α) := do
  let (erased, l) ← l.unlinkAfter position
  l.deallocate erased

def popFront (l : ForwardList α) : Result (ForwardList α) := l.eraseAfter l.beforeBegin

def empty (l : ForwardList α) : Result Bool := do
  let first ← l.begin_
  .ok (first = end_)

def clearStep (l : ForwardList α) : Result (ForwardList α ⊕ ForwardList α) := do
  let isEmpty ← l.empty
  if isEmpty then .ok (.inr l)
  else do
    let l ← l.eraseAfter l.beforeBegin
    .ok (.inl l)

def clear (l : ForwardList α) : Result (ForwardList α) :=
  loop .divergence clearStep budget l

def destroyStep (l : ForwardList α) : Result (ForwardList α ⊕ ForwardList α) := do
  let isEmpty ← l.empty
  if isEmpty then .ok (.inr l)
  else do
    let l ← l.popFront
    .ok (.inl l)

def destroy (l : ForwardList α) : Result (ForwardList α) :=
  loop .divergence destroyStep budget l

def removeStep [BEq α] (value : α) (s : ℕ × ℕ × ForwardList α) :
    Result ((ℕ × ℕ × ForwardList α) ⊕ (ℕ × ForwardList α)) := do
  let (it, removed, l) := s
  let following ← l.next it
  if following ≠ end_ then do
    let nextIt ← l.next it
    if nextIt = end_ then .ok (.inr (removed, l))
    else do
      let element ← l.deref nextIt
      if element == value then do
        let l ← l.eraseAfter it
        .ok (.inl (it, wrap (removed + 1), l))
      else do
        let it ← l.increment it
        .ok (.inl (it, removed, l))
  else .ok (.inr (removed, l))

def remove [BEq α] (value : α) (l : ForwardList α) : Result (ℕ × ForwardList α) :=
  loop .divergence (removeStep value) budget (l.beforeBegin, 0, l)

def rangeForStep (l : ForwardList α) (s : ℕ × List α) : Result ((ℕ × List α) ⊕ List α) :=
  if s.1 ≠ end_ then do
    let value ← l.deref s.1
    let it ← l.increment s.1
    .ok (.inl (it, s.2 ++ [value]))
  else .ok (.inr s.2)

def contents (l : ForwardList α) : Result (List α) := do
  let first ← l.begin_
  loop .divergence l.rangeForStep budget (first, [])

end ForwardList

structure ForwardList.Item (α : Type) where
  ptr : ℕ
  ticket : ℕ
  value : α

namespace ForwardList

variable {α : Type} {l : ForwardList α} {n : FwdListNode α} {p q : ℕ} {x : Item α}
  {xs as bs : List (Item α)}

def link (l : ForwardList α) (p : ℕ) : ℕ := ((l.nodes p).map FwdListNode.next).getD 0

/-- The nodes that are alive are the one of the list itself and those of the elements `xs`,
linked in this order. -/
structure Holds (l : ForwardList α) (xs : List (Item α)) : Prop where
  chain : Chain 0 l.link l.beforeBegin (l.beforeBegin :: xs.map Item.ptr)
  own : ∃ n, l.nodes l.beforeBegin = some n ∧ n.ticket = none
  cells : ∀ x ∈ xs, ∃ n, l.nodes x.ptr = some n ∧ n.value = x.value ∧ n.ticket = some x.ticket
  only : ∀ p, l.nodes p ≠ none → p ∈ l.beforeBegin :: xs.map Item.ptr
  lt : ∀ x ∈ xs, x.ptr < 2 ^ 32

def position (l : ForwardList α) (xs : List (Item α)) : ℕ :=
  (xs.map Item.ptr).getLastD l.beforeBegin

theorem node_eq (hp : p ≠ 0) (h : l.nodes p = some n) : l.node p = .ok n := by
  simp only [node, if_neg hp, h]

theorem link_eq (h : l.nodes p = some n) : l.link p = n.next := by
  rw [link, h]
  rfl

theorem arrayCookie_ne (block : ℕ) : block + arrayCookie ≠ 0 := Nat.succ_ne_zero _

def pushConstructed [Inhabited α] (position : ℕ) (value : α) (node : ℕ) (l : ForwardList α) :
    Result (ℕ × ForwardList α) := do
  let l ← ForwardList.setValue
    { l.setNode node ⟨0, default, some l.allocated⟩ with allocated := l.allocated + 1 } node value
  l.linkAfter position node

theorem pushAfter_constructed [Inhabited α] (l : ForwardList α) (p : ℕ) (v : α) (block : ℕ) :
    l.pushAfter p v block = l.pushConstructed p v (block + arrayCookie) := rfl

theorem pushAfter_eq [Inhabited α] {block : ℕ} (hp : p ≠ 0) (h : l.nodes p = some n)
    (hfree : l.nodes (block + arrayCookie) = none) (v : α) :
    l.pushAfter p v block = .ok (block + arrayCookie,
      { l with
        nodes := Function.update
          (Function.update l.nodes (block + arrayCookie) (some ⟨n.next, v, some l.allocated⟩)) p
          (some { n with next := block + arrayCookie })
        allocated := l.allocated + 1 }) := by
  have hptr := arrayCookie_ne block
  rw [pushAfter_constructed]
  generalize block + arrayCookie = ptr at hptr hfree ⊢
  have hne : p ≠ ptr := by
    intro heq
    rw [← heq, h] at hfree
    cases hfree
  simp [pushConstructed, setValue, linkAfter, setNext, setNode, node, hp, hptr, h, hne,
    Function.update_of_ne, bind, Except.bind]

theorem pushAfter_ok [Inhabited α] (hp : p ≠ 0) (h : l.nodes p = some n) (v : α) (block : ℕ) :
    ∃ l', l.pushAfter p v block = .ok (block + arrayCookie, l') := by
  have hptr := arrayCookie_ne block
  rw [pushAfter_constructed]
  generalize block + arrayCookie = ptr at hptr ⊢
  by_cases hne : p = ptr
  · simp [pushConstructed, setValue, linkAfter, setNext, setNode, node, hptr, hne, bind,
      Except.bind]
  · simp [pushConstructed, setValue, linkAfter, setNext, setNode, node, hp, hptr, h, hne,
      Function.update_of_ne, bind, Except.bind]

theorem pushAfter_ne_end [Inhabited α] (l l' : ForwardList α) (p : ℕ) (v : α) (block : ℕ) :
    l.pushAfter p v block ≠ .ok (end_, l') := by
  intro hpush
  rw [pushAfter_constructed, pushConstructed] at hpush
  obtain ⟨l₁, -, hlink⟩ := Result.bind_ok.1 hpush
  obtain ⟨n, -, hlink⟩ := Result.bind_ok.1 hlink
  obtain ⟨l₂, -, hlink⟩ := Result.bind_ok.1 hlink
  obtain ⟨l₃, -, hlink⟩ := Result.bind_ok.1 hlink
  exact arrayCookie_ne block (congrArg Prod.fst (Except.ok.inj hlink))

theorem eraseAfter_eq {e : FwdListNode α} {t : ℕ} (hp : p ≠ 0) (h : l.nodes p = some n)
    (hnext : n.next = q) (hq : q ≠ 0) (he : l.nodes q = some e) (ht : e.ticket = some t)
    (hqp : q ≠ p) :
    l.eraseAfter p = .ok
      { l with
        nodes := Function.update (Function.update l.nodes p (some { n with next := e.next })) q none
        freed := l.freed ++ [t] } := by
  simp [eraseAfter, unlinkAfter, deallocate, setNext, setNode, node, hp, h, hnext, hq, he, ht, hqp,
    bind, Except.bind]

theorem split_position (l : ForwardList α) (as : List (Item α)) :
    ∃ cs, ∀ bs : List (Item α), l.beforeBegin :: (as ++ bs).map Item.ptr =
      cs ++ l.position as :: bs.map Item.ptr := by
  rcases List.eq_nil_or_concat' as with has | ⟨ys, y, has⟩
  · refine ⟨[], ?_⟩
    intro bs
    rw [has]
    rfl
  · refine ⟨l.beforeBegin :: ys.map Item.ptr, ?_⟩
    intro bs
    rw [has, position, List.map_append, List.map_append, List.map_singleton, List.getLastD_concat,
      List.append_assoc, List.cons_append]
    rfl

theorem Holds.live (h : Holds l xs) (hp : p ∈ l.beforeBegin :: xs.map Item.ptr) :
    p ≠ 0 ∧ ∃ n, l.nodes p = some n ∧ n.next = l.link p := by
  refine ⟨segment_ne_null h.chain p hp, ?_⟩
  rcases List.mem_cons.1 hp with heq | hmem
  · obtain ⟨n, hown, -⟩ := h.own
    rw [heq]
    exact ⟨n, hown, (link_eq hown).symm⟩
  · obtain ⟨x, hx, heq⟩ := List.mem_map.1 hmem
    obtain ⟨n, hcell, -⟩ := h.cells x hx
    rw [← heq]
    exact ⟨n, hcell, (link_eq hcell).symm⟩

theorem position_mem (l : ForwardList α) (as bs : List (Item α)) :
    l.position as ∈ l.beforeBegin :: (as ++ bs).map Item.ptr := by
  obtain ⟨cs, hcs⟩ := split_position l as
  rw [hcs]
  simp

theorem Holds.link_position (h : Holds l (as ++ bs)) :
    l.link (l.position as) = (bs.map Item.ptr).headD 0 := by
  obtain ⟨cs, hcs⟩ := split_position l as
  have hchain := h.chain
  rw [hcs] at hchain
  obtain ⟨r, -, rfl, -, hrest⟩ := chain_append.1 hchain
  exact chain_head hrest

theorem Holds.increment (h : Holds l (as ++ bs)) :
    l.increment (l.position as) = .ok ((bs.map Item.ptr).headD 0) := by
  obtain ⟨hp, n, hn, hnext⟩ := h.live (position_mem l as bs)
  simp only [ForwardList.increment, node_eq hp hn, bind, Except.bind]
  rw [hnext, h.link_position]

theorem Holds.nodup (h : Holds l xs) : (l.beforeBegin :: xs.map Item.ptr).Nodup :=
  chain_nodup h.chain

theorem Holds.relink {l' : ForwardList α} {xs' : List (Item α)} (h : Holds l xs)
    (hbegin : l'.beforeBegin = l.beforeBegin)
    (hchain : Chain 0 l'.link l.beforeBegin (l.beforeBegin :: xs'.map Item.ptr))
    (hkeep : ∀ q n, l.nodes q = some n → q ∈ l.beforeBegin :: xs'.map Item.ptr →
      ∃ n', l'.nodes q = some n' ∧ n'.value = n.value ∧ n'.ticket = n.ticket)
    (hcells : ∀ x ∈ xs', x ∈ xs ∨ x.ptr < 2 ^ 32 ∧
      ∃ n, l'.nodes x.ptr = some n ∧ n.value = x.value ∧ n.ticket = some x.ticket)
    (honly : ∀ q, l'.nodes q ≠ none → q ∈ l.beforeBegin :: xs'.map Item.ptr) : Holds l' xs' where
  chain := by
    rw [hbegin]
    exact hchain
  own := by
    obtain ⟨n, hn, hticket⟩ := h.own
    obtain ⟨n', hn', -, hticket'⟩ := hkeep _ n hn List.mem_cons_self
    rw [hbegin]
    exact ⟨n', hn', hticket'.trans hticket⟩
  cells := by
    intro x hx
    rcases hcells x hx with hold | ⟨-, hnew⟩
    · obtain ⟨n, hn, hvalue, hticket⟩ := h.cells x hold
      obtain ⟨n', hn', hvalue', hticket'⟩ :=
        hkeep _ n hn (List.mem_cons_of_mem _ (List.mem_map_of_mem hx))
      exact ⟨n', hn', hvalue'.trans hvalue, hticket'.trans hticket⟩
    · exact hnew
  only := by
    rw [hbegin]
    exact honly
  lt := by
    intro x hx
    rcases hcells x hx with hold | ⟨hlt, -⟩
    · exact h.lt x hold
    · exact hlt

theorem Holds.ne_position (h : Holds l (as ++ bs)) {cs : List ℕ}
    (hcs : ∀ bs : List (Item α), l.beforeBegin :: (as ++ bs).map Item.ptr =
      cs ++ l.position as :: bs.map Item.ptr) {y : ℕ} (hy : y ∈ cs ∨ y ∈ bs.map Item.ptr) :
    y ≠ l.position as := by
  have hnd := h.nodup
  rw [hcs] at hnd
  obtain ⟨-, hback, hapart⟩ := List.nodup_append.1 hnd
  rcases hy with hy | hy
  · exact hapart y hy _ List.mem_cons_self
  · intro heq
    exact (List.nodup_cons.1 hback).1 (heq ▸ hy)

theorem Holds.pushAfter [Inhabited α] (h : Holds l (as ++ bs)) (v : α) {block : ℕ}
    (hlt : block + arrayCookie < 2 ^ 32) (hfree : l.nodes (block + arrayCookie) = none) :
    ∃ l', l.pushAfter (l.position as) v block = .ok (block + arrayCookie, l') ∧
      Holds l' (as ++ ⟨block + arrayCookie, l.allocated, v⟩ :: bs) ∧
      l'.beforeBegin = l.beforeBegin ∧ l'.allocated = l.allocated + 1 ∧ l'.freed = l.freed := by
  obtain ⟨hp, n, hn, -⟩ := h.live (position_mem l as bs)
  have hpush := pushAfter_eq hp hn hfree v
  have hptr := arrayCookie_ne block
  generalize block + arrayCookie = ptr at hlt hfree hpush hptr ⊢
  have hlive : ∀ q ∈ l.beforeBegin :: (as ++ bs).map Item.ptr, q ≠ ptr := by
    intro q hq heq
    obtain ⟨-, m, hm, -⟩ := h.live hq
    rw [heq, hfree] at hm
    cases hm
  have hpp := hlive _ (position_mem l as bs)
  obtain ⟨cs, hcs⟩ := split_position l as
  rw [hcs] at hlive
  have hchain := h.chain
  rw [hcs] at hchain
  refine ⟨_, hpush, h.relink ?begin ?_ ?_ ?_ ?_, rfl, rfl, rfl⟩
  case begin => rfl
  · rw [hcs]
    refine chain_insert hchain hptr ?_ ?_ ?_ ?_
    · simp [link]
    · simp [link, Function.update_of_ne hpp.symm, hn]
    · intro y hy
      simp [link, h.ne_position hcs (Or.inl hy), hlive y (by simp [hy])]
    · intro y hy
      simp [link, h.ne_position hcs (Or.inr hy), hlive y (by simp [hy])]
  · intro q m hq _
    by_cases hqp : q = l.position as
    · rw [hqp, hn] at hq
      cases hq
      exact ⟨{ n with next := ptr }, by simp [hqp], rfl, rfl⟩
    · have hqn : q ≠ ptr := by
        intro heq
        rw [heq, hfree] at hq
        cases hq
      exact ⟨m, by simp [hqp, hqn, hq], rfl, rfl⟩
  · intro x hx
    simp only [List.mem_append, List.mem_cons] at hx
    rcases hx with hx | hx | hx
    · exact Or.inl (List.mem_append_left _ hx)
    · subst hx
      refine Or.inr ⟨hlt, ⟨n.next, v, some l.allocated⟩, ?_, rfl, rfl⟩
      simp [Function.update_of_ne hpp.symm]
    · exact Or.inl (List.mem_append_right _ hx)
  · intro q hq
    rw [hcs]
    by_cases hqp : q = l.position as
    · simp [hqp]
    · by_cases hqn : q = ptr
      · simp [hqn]
      · have hmem := h.only q (by simpa [hqp, hqn] using hq)
        rw [hcs] at hmem
        simp only [List.mem_append, List.mem_cons, List.map_cons] at hmem ⊢
        tauto

theorem Holds.eraseAfter (h : Holds l (as ++ x :: bs)) :
    ∃ l', l.eraseAfter (l.position as) = .ok l' ∧ Holds l' (as ++ bs) ∧
      l'.beforeBegin = l.beforeBegin ∧ l'.allocated = l.allocated ∧
      l'.freed = l.freed ++ [x.ticket] := by
  obtain ⟨hp, n, hn, hlink⟩ := h.live (position_mem l as (x :: bs))
  have hnext : n.next = x.ptr := hlink.trans h.link_position
  obtain ⟨e, he, -, hticket⟩ := h.cells x (by simp)
  obtain ⟨cs, hcs⟩ := split_position l as
  have hchain := h.chain
  have hnd := h.nodup
  rw [hcs] at hchain hnd
  have hx0 : x.ptr ≠ 0 := segment_ne_null hchain _ (by simp)
  have hxp : x.ptr ≠ l.position as := h.ne_position hcs (Or.inr (by simp))
  have hpx : ∀ {y}, y ∈ cs ++ l.position as :: bs.map Item.ptr → y ≠ x.ptr := by
    intro y hy heq
    subst heq
    simp only [List.map_cons, List.nodup_append, List.nodup_cons, List.mem_cons,
      List.mem_append] at hnd hy
    grind
  refine ⟨_, eraseAfter_eq hp hn hnext hx0 he hticket hxp, h.relink ?begin ?_ ?_ ?_ ?_,
    rfl, rfl, rfl⟩
  case begin => rfl
  · rw [hcs]
    refine chain_remove hchain ?_ ?_ ?_
    · simp [link, Function.update_of_ne hxp.symm, he]
    · intro y hy
      simp [link, h.ne_position hcs (Or.inl hy), hpx (y := y) (by simp [hy])]
    · intro y hy
      simp [link, h.ne_position hcs (Or.inr (List.mem_cons_of_mem _ hy)),
        hpx (y := y) (by simp [hy])]
  · intro q m hq hmem
    rw [hcs] at hmem
    by_cases hqp : q = l.position as
    · rw [hqp, hn] at hq
      cases hq
      exact ⟨{ n with next := e.next }, by simp [hqp, Function.update_of_ne hxp.symm], rfl, rfl⟩
    · exact ⟨m, by simp [hqp, hpx hmem, hq], rfl, rfl⟩
  · intro y hy
    refine Or.inl ?_
    simp only [List.mem_append, List.mem_cons] at hy ⊢
    tauto
  · intro q hq
    have hqx : q ≠ x.ptr := by
      intro heq
      exact hq (by simp [heq])
    rw [hcs]
    by_cases hqp : q = l.position as
    · simp [hqp]
    · have hmem := h.only q (by simpa [hqp, hqx] using hq)
      rw [hcs] at hmem
      simp only [List.mem_append, List.mem_cons, List.map_cons] at hmem ⊢
      tauto

end ForwardList

end Bolgenos
