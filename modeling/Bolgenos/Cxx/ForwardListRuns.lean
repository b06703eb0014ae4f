import Bolgenos.Cxx.ForwardList

/-!
# Forward lists as sequences

What the class stands for: a sequence of elements, each with the number of its allocation,
and the numbers given back. Every call on a list does to it what the operation of the same
name does to the sequence. A number is in the sequence or was given back, and only once. A push
that `kmalloc` answers with null is the exception: its node is constructed in page 0.
-/

namespace Bolgenos

open FuelLoop LinkedChain

namespace ForwardList

section Loops

variable {α : Type} {l : ForwardList α} {x : Item α} {xs as bs : List (Item α)}

theorem position_concat (l : ForwardList α) (as : List (Item α)) (x : Item α) :
    l.position (as ++ [x]) = x.ptr := by
  rw [position, List.map_append, List.map_singleton, List.getLastD_concat]

theorem Holds.ptr_ne (h : Holds l xs) (hx : x ∈ xs) : x.ptr ≠ 0 :=
  segment_ne_null h.chain _ (List.mem_cons_of_mem _ (List.mem_map_of_mem hx))

theorem Holds.length_lt (h : Holds l xs) : xs.length < 2 ^ 32 := by
  have hlen := length_lt_of_pointers h.nodup.of_cons (by
    intro p hp
    obtain ⟨x, hx, heq⟩ := List.mem_map.1 hp
    rw [← heq]
    exact ⟨h.ptr_ne hx, h.lt x hx⟩)
  rw [List.length_map] at hlen
  exact hlen

theorem Holds.deref (h : Holds l xs) (hx : x ∈ xs) : l.deref x.ptr = .ok x.value := by
  obtain ⟨n, hn, hvalue, -⟩ := h.cells x hx
  simp only [ForwardList.deref, node_eq (h.ptr_ne hx) hn, bind, Except.bind, hvalue]

theorem Holds.increments (h : Holds l (as ++ bs)) {k : ℕ} (hk : k ≤ bs.length) :
    l.increments k (l.position as) = .ok (l.position (as ++ bs.take k)) := by
  induction k generalizing as bs with
  | zero =>
    rw [List.take_zero, List.append_nil]
    rfl
  | succ k ih =>
    cases bs with
    | nil => simp at hk
    | cons b bs =>
      rw [List.append_cons] at h
      have hstep := ih h (by simpa using hk)
      rw [position_concat, List.append_assoc, List.singleton_append] at hstep
      have hinc := (show Holds l (as ++ b :: bs) by simpa using h).increment
      simp only [ForwardList.increments, hinc, bind, Except.bind, List.map_cons, List.headD_cons]
      exact hstep

theorem Holds.next (h : Holds l (as ++ bs)) :
    l.next (l.position as) = .ok ((bs.map Item.ptr).headD 0) := by
  have hinc := h.increment
  simp only [ForwardList.next, advance, Int.toNat_one, ForwardList.increments, hinc, bind,
    Except.bind]

theorem Holds.begin_ (h : Holds l xs) : l.begin_ = .ok ((xs.map Item.ptr).headD 0) :=
  (show Holds l ([] ++ xs) from h).increment

theorem Holds.empty (h : Holds l xs) : l.empty = .ok (decide (xs = [])) := by
  simp only [ForwardList.empty, h.begin_, bind, Except.bind, end_]
  cases xs with
  | nil => rfl
  | cons x xs => simp [h.ptr_ne (x := x)]

theorem Holds.rangeFor (h : Holds l (as ++ bs)) {n : ℕ} (hn : bs.length < n) (seen : List α) :
    loop .divergence l.rangeForStep n ((bs.map Item.ptr).headD 0, seen) =
      .ok (seen ++ bs.map Item.value) := by
  induction bs generalizing as n seen with
  | nil =>
    rw [List.map_nil, List.map_nil, List.append_nil]
    exact loop_exit_of_lt hn rfl
  | cons b bs ih =>
    have hb : b.ptr ≠ 0 := h.ptr_ne (by simp)
    have hderef : l.deref b.ptr = .ok b.value := h.deref (by simp)
    rw [List.append_cons] at h
    have hinc := h.increment
    rw [position_concat] at hinc
    have hbody : l.rangeForStep (b.ptr, seen) =
        .ok (.inl ((bs.map Item.ptr).headD 0, seen ++ [b.value])) := by
      simp only [rangeForStep, end_, if_pos hb, hderef, hinc, bind, Except.bind]
    rw [List.map_cons, List.headD_cons, loop_next_of_lt hn hbody,
      ih h (Nat.lt_sub_of_add_lt hn) (seen ++ [b.value])]
    simp

theorem Holds.contents (h : Holds l xs) : l.contents = .ok (xs.map Item.value) := by
  simp only [ForwardList.contents, h.begin_, bind, Except.bind]
  exact (show Holds l ([] ++ xs) from h).rangeFor (lt_budget h.length_lt.le) []

theorem Holds.clear_loop (h : Holds l xs) {n : ℕ} (hn : xs.length < n) :
    ∃ l', loop .divergence clearStep n l = .ok l' ∧ Holds l' [] ∧
      l'.allocated = l.allocated ∧ l'.freed = l.freed ++ xs.map Item.ticket := by
  induction xs generalizing l n with
  | nil =>
    have hbody : clearStep l = .ok (.inr l) := by
      simp [clearStep, h.empty, bind, Except.bind]
    exact ⟨l, loop_exit_of_lt hn hbody, h, rfl, by simp⟩
  | cons x xs ih =>
    obtain ⟨l₁, herase, hholds, -, halloc, hfreed⟩ :=
      (show Holds l ([] ++ x :: xs) from h).eraseAfter
    have hfirst : l.eraseAfter l.beforeBegin = .ok l₁ := herase
    have hbody : clearStep l = .ok (.inl l₁) := by
      simp [clearStep, h.empty, hfirst, bind, Except.bind]
    obtain ⟨l', hrun, hholds', halloc', hfreed'⟩ := ih hholds (Nat.lt_sub_of_add_lt hn)
    refine ⟨l', ?_, hholds', halloc'.trans halloc, ?_⟩
    · rw [loop_next_of_lt hn hbody, hrun]
    · rw [hfreed', hfreed, List.append_assoc]
      rfl

theorem Holds.clear (h : Holds l xs) : ∃ l', l.clear = .ok l' ∧ Holds l' [] ∧
    l'.allocated = l.allocated ∧ l'.freed = l.freed ++ xs.map Item.ticket :=
  h.clear_loop (lt_budget h.length_lt.le)

theorem Holds.remove_loop [BEq α] (h : Holds l (as ++ bs)) (value : α) {n r : ℕ}
    (hn : bs.length < n) (hr : r + bs.length < 2 ^ 32) :
    ∃ l', loop .divergence (removeStep value) n (l.position as, r, l) =
        .ok (r + bs.countP (fun x => x.value == value), l') ∧
      Holds l' (as ++ bs.filter fun x => !(x.value == value)) ∧ l'.allocated = l.allocated ∧
      l'.freed = l.freed ++ (bs.filter fun x => x.value == value).map Item.ticket := by
  induction bs generalizing as l n r with
  | nil =>
    have hbody : removeStep value (l.position as, r, l) = .ok (.inr (r, l)) := by
      simp [removeStep, h.next, end_, bind, Except.bind]
    exact ⟨l, by rw [loop_exit_of_lt hn hbody]; simp, by simpa using h, rfl, by simp⟩
  | cons b bs ih =>
    rw [List.length_cons] at hr
    have hrest := Nat.lt_sub_of_add_lt hn
    have hb : b.ptr ≠ 0 := h.ptr_ne (by simp)
    have hnext : l.next (l.position as) = .ok b.ptr := h.next
    have hderef : l.deref b.ptr = .ok b.value := h.deref (by simp)
    by_cases hvalue : (b.value == value) = true
    · obtain ⟨l₁, herase, hholds, hbegin, halloc, hfreed⟩ := h.eraseAfter
      have hsame : l.position as = l₁.position as := by simp only [position, hbegin]
      have hwrap : wrap (r + 1) = r + 1 := wrap_of_lt (by omega)
      have hbody : removeStep value (l.position as, r, l) =
          .ok (.inl (l.position as, r + 1, l₁)) := by
        simp [removeStep, hnext, end_, hb, hderef, hvalue, herase, hwrap, bind, Except.bind]
      obtain ⟨l', hrun, hholds', halloc', hfreed'⟩ :=
        ih hholds hrest (show r + 1 + bs.length < 2 ^ 32 by omega)
      refine ⟨l', ?_, ?_, halloc'.trans halloc, ?_⟩
      · rw [loop_next_of_lt hn hbody, hsame, hrun, List.countP_cons, if_pos hvalue]
        congr 2
        omega
      · rw [List.filter_cons, if_neg (by simpa using hvalue)]
        exact hholds'
      · rw [hfreed', hfreed, List.filter_cons, if_pos hvalue, List.append_assoc]
        rfl
    · have hinc : l.increment (l.position as) = .ok b.ptr := h.increment
      rw [List.append_cons] at h
      have hbody : removeStep value (l.position as, r, l) =
          .ok (.inl (l.position (as ++ [b]), r, l)) := by
        simp [removeStep, hnext, end_, hb, hderef, hvalue, hinc, position_concat, bind, Except.bind]
      obtain ⟨l', hrun, hholds', halloc', hfreed'⟩ :=
        ih h hrest (show r + bs.length < 2 ^ 32 by omega)
      refine ⟨l', ?_, ?_, halloc', ?_⟩
      · rw [loop_next_of_lt hn hbody, hrun, List.countP_cons, if_neg hvalue]
        rfl
      · rw [List.filter_cons, if_pos (by simpa using hvalue), List.append_cons]
        exact hholds'
      · rw [hfreed', List.filter_cons, if_neg hvalue]

theorem Holds.remove [BEq α] (h : Holds l xs) (value : α) :
    ∃ l', l.remove value = .ok (xs.countP fun x => x.value == value, l') ∧
      Holds l' (xs.filter fun x => !(x.value == value)) ∧ l'.allocated = l.allocated ∧
      l'.freed = l.freed ++ (xs.filter fun x => x.value == value).map Item.ticket := by
  have hlen := h.length_lt
  obtain ⟨l', hrun, hparts⟩ :=
    (show Holds l ([] ++ xs) from h).remove_loop value (lt_budget hlen.le) (r := 0) (by omega)
  rw [Nat.zero_add] at hrun
  exact ⟨l', hrun, hparts⟩

end Loops

end ForwardList

/-- The elements with the numbers of their allocations, the number of allocations, and the
numbers given back in order. -/
structure Sequence (α : Type) where
  items : List (ℕ × α) := []
  issued : ℕ := 0
  freed : List ℕ := []

/-- The calls; a position is the number of elements in front of it, and `block` is the answer of
`kmalloc`. -/
inductive ListCall (α : Type) where
  | pushFront (value : α) (block : ℕ)
  | pushAfter (k : ℕ) (value : α) (block : ℕ)
  | popFront
  | eraseAfter (k : ℕ)
  | remove (value : α)
  | clear

namespace Sequence

variable {α : Type}

def values (s : Sequence α) : List α := s.items.map Prod.snd

def tickets (s : Sequence α) : List ℕ := s.items.map Prod.fst

def insert (k : ℕ) (value : α) (s : Sequence α) : Sequence α :=
  { s with items := s.items.insertIdx k (s.issued, value), issued := s.issued + 1 }

def erase (kept gone : List (ℕ × α)) (s : Sequence α) : Sequence α :=
  { s with items := kept, freed := s.freed ++ gone.map Prod.fst }

def eraseAt (k : ℕ) (s : Sequence α) : Sequence α :=
  s.erase (s.items.eraseIdx k) s.items[k]?.toList

/-- Every number issued so far belongs to one element or was given back once. -/
def Balanced (s : Sequence α) : Prop := (s.tickets ++ s.freed).Perm (List.range s.issued)

variable {s : Sequence α} {k : ℕ}

theorem Balanced.insert (h : s.Balanced) (hk : k ≤ s.items.length) (value : α) :
    (s.insert k value).Balanced := by
  have hitems : (s.items.insertIdx k (s.issued, value)).Perm ((s.issued, value) :: s.items) :=
    List.perm_insertIdx _ _ hk
  have htickets : (s.insert k value).tickets.Perm (s.issued :: s.tickets) := hitems.map Prod.fst
  have hrange : (List.range (s.issued + 1)).Perm (s.issued :: List.range s.issued) := by
    rw [List.range_succ]
    exact List.perm_append_singleton s.issued _
  have hnew : (s.issued :: s.tickets ++ s.freed).Perm (s.issued :: List.range s.issued) :=
    h.cons s.issued
  exact ((htickets.append_right s.freed).trans hnew).trans hrange.symm

theorem Balanced.erase (h : s.Balanced) {kept gone : List (ℕ × α)}
    (hperm : (kept ++ gone).Perm s.items) : (s.erase kept gone).Balanced := by
  have htickets : (kept.map Prod.fst ++ gone.map Prod.fst).Perm s.tickets := by
    rw [← List.map_append]
    exact hperm.map Prod.fst
  have hmove : (kept.map Prod.fst ++ (s.freed ++ gone.map Prod.fst)).Perm
      (kept.map Prod.fst ++ gone.map Prod.fst ++ s.freed) := by
    rw [List.append_assoc]
    exact List.perm_append_comm.append_left _
  exact (hmove.trans (htickets.append_right s.freed)).trans h

theorem Balanced.eraseAt (h : s.Balanced) (hk : k < s.items.length) : (s.eraseAt k).Balanced := by
  apply h.erase
  rw [List.getElem?_eq_getElem hk, Option.toList_some]
  exact (List.perm_append_singleton _ _).trans (List.getElem_cons_eraseIdx_perm hk)

end Sequence

namespace ListCall

open ForwardList

variable {α : Type}

def onList [BEq α] : ListCall α → List α → List α
  | .pushFront value block, xs => if block = 0 then xs else value :: xs
  | .pushAfter k value block, xs => if block = 0 then xs else xs.insertIdx k value
  | .popFront, xs => xs.tail
  | .eraseAfter k, xs => xs.eraseIdx k
  | .remove value, xs => xs.filter fun x => !(x == value)
  | .clear, _ => []

def apply [BEq α] : ListCall α → Sequence α → Sequence α
  | .pushFront value block, s => if block = 0 then s else s.insert 0 value
  | .pushAfter k value block, s => if block = 0 then s else s.insert k value
  | .popFront, s => s.eraseAt 0
  | .eraseAfter k, s => s.eraseAt k
  | .remove value, s =>
    s.erase (s.items.filter fun x => !(x.2 == value)) (s.items.filter fun x => x.2 == value)
  | .clear, s => s.erase [] s.items

/-- What the call is to return: the iterator to the new element or `end()`, or the number of
elements removed. -/
def answer [BEq α] : ListCall α → Sequence α → ℕ
  | .pushFront _ block, _ => if block = 0 then end_ else block + arrayCookie
  | .pushAfter _ _ block, _ => if block = 0 then end_ else block + arrayCookie
  | .remove value, s => s.values.countP fun x => x == value
  | _, _ => 0

def exec [Inhabited α] [BEq α] : ListCall α → ForwardList α → Result (ℕ × ForwardList α)
  | .pushFront value block, l => l.pushFront value block
  | .pushAfter k value block, l => do
    let it ← l.increments k l.beforeBegin
    l.pushAfter it value block
  | .popFront, l => do
    let l ← l.popFront
    .ok (0, l)
  | .eraseAfter k, l => do
    let it ← l.increments k l.beforeBegin
    let l ← l.eraseAfter it
    .ok (0, l)
  | .remove value, l => l.remove value
  | .clear, l => do
    let l ← l.clear
    .ok (0, l)

/-- `kmalloc` answers null, or a block in which no node lives. -/
def Offers (l : ForwardList α) (block : ℕ) : Prop :=
  block ≠ 0 → block + arrayCookie < 2 ^ 32 ∧ l.nodes (block + arrayCookie) = none

def Served : ListCall α → Prop
  | .pushFront _ block => block ≠ 0
  | .pushAfter _ _ block => block ≠ 0
  | _ => True

def Valid (l : ForwardList α) (s : Sequence α) : ListCall α → Prop
  | .pushFront _ block => Offers l block
  | .pushAfter k _ block => k ≤ s.items.length ∧ Offers l block
  | .popFront => s.items ≠ []
  | .eraseAfter k => k < s.items.length
  | .remove _ => True
  | .clear => True

end ListCall

namespace ForwardList

section Runs

variable {α : Type} {l l' : ForwardList α} {s : Sequence α} {xs as bs : List (Item α)}
  {calls : List (ListCall α)}

inductive Run [Inhabited α] [BEq α] : List (ListCall α) → ForwardList α → Sequence α → Prop where
  | construct {address : ℕ} : address ≠ 0 → Run [] (construct address) {}
  | call {calls : List (ListCall α)} {l l' : ForwardList α} {s : Sequence α} {c : ListCall α}
      {r : ℕ} : Run calls l s → c.Valid l s → c.exec l = .ok (r, l') →
      Run (calls ++ [c]) l' (c.apply s)

def Item.tagged (x : Item α) : ℕ × α := (x.ticket, x.value)

structure Refines (l : ForwardList α) (s : Sequence α) (xs : List (Item α)) : Prop where
  holds : Holds l xs
  items : s.items = xs.map Item.tagged
  allocated : l.allocated = s.issued
  freed : l.freed = s.freed

theorem construct_holds [Inhabited α] {address : ℕ} (h : address ≠ 0) :
    Holds (construct address : ForwardList α) [] where
  chain := by
    refine ⟨rfl, h, ?_⟩
    simp [construct, link, Segment]
  own := ⟨⟨0, default, none⟩, by simp [construct], rfl⟩
  cells x hx := by cases hx
  only p hp := by
    rw [List.map_nil, List.mem_singleton]
    by_contra hne
    exact hp (by simp [construct, show p ≠ address from hne])
  lt x hx := by cases hx

theorem insertIdx_eq {β : Type} {ys : List β} {k : ℕ} (hk : k ≤ ys.length) (y : β) :
    ys.insertIdx k y = ys.take k ++ y :: ys.drop k := by
  induction ys generalizing k with
  | nil =>
    rw [List.length_nil, Nat.le_zero] at hk
    rw [hk]
    rfl
  | cons z ys ih =>
    cases k with
    | zero => rfl
    | succ k => rw [List.insertIdx_succ_cons, ih (by simpa using hk), List.take_succ_cons,
        List.drop_succ_cons, List.cons_append]

theorem Refines.length (h : Refines l s xs) : s.items.length = xs.length := by
  rw [h.items, List.length_map]

theorem Refines.insert [Inhabited α] (h : Refines l s xs) (value : α) {k block : ℕ}
    (hk : k ≤ s.items.length) (hblock : block ≠ 0) (hoffer : ListCall.Offers l block) :
    ∃ l' xs', l.pushAfter (l.position (xs.take k)) value block = .ok (block + arrayCookie, l') ∧
      Refines l' (s.insert k value) xs' := by
  obtain ⟨hlt, hfree⟩ := hoffer hblock
  have hholds := h.holds
  rw [← List.take_append_drop k xs] at hholds
  obtain ⟨l', hrun, hholds', -, halloc, hfreed⟩ := hholds.pushAfter value hlt hfree
  refine ⟨l', _, hrun, hholds', ?_, ?_, hfreed.trans h.freed⟩
  · rw [Sequence.insert, insertIdx_eq hk, h.items, ← h.allocated]
    simp [Item.tagged]
  · rw [halloc, h.allocated]
    rfl

theorem Refines.eraseAt (h : Refines l s xs) {k : ℕ} (hk : k < s.items.length) :
    ∃ l' xs', l.eraseAfter (l.position (xs.take k)) = .ok l' ∧ Refines l' (s.eraseAt k) xs' := by
  rw [h.length] at hk
  have hholds := h.holds
  rw [← List.take_append_drop k xs, List.drop_eq_getElem_cons hk] at hholds
  obtain ⟨l', hrun, hholds', -, halloc, hfreed⟩ := hholds.eraseAfter
  refine ⟨l', _, hrun, hholds', ?_, halloc.trans h.allocated, ?_⟩
  · rw [Sequence.eraseAt, Sequence.erase, h.items, List.eraseIdx_map,
      List.eraseIdx_eq_take_drop_succ]
  · rw [hfreed, h.freed]
    simp [Sequence.eraseAt, Sequence.erase, h.items, hk, Item.tagged]

theorem Refines.increments (h : Refines l s xs) {k : ℕ} (hk : k ≤ s.items.length) :
    l.increments k l.beforeBegin = .ok (l.position (xs.take k)) := by
  rw [h.length] at hk
  exact (show Holds l ([] ++ xs) from h.holds).increments hk

theorem exec_pushAfter [Inhabited α] [BEq α] {k p : ℕ} (value : α) (block : ℕ)
    (h : l.increments k l.beforeBegin = .ok p) :
    (ListCall.pushAfter k value block).exec l = l.pushAfter p value block := by
  simp only [ListCall.exec, h, bind, Except.bind]

theorem Refines.exec [Inhabited α] [BEq α] (h : Refines l s xs) {call : ListCall α}
    (hvalid : call.Valid l s) (hserved : call.Served) :
    ∃ l' xs', call.exec l = .ok (call.answer s, l') ∧ Refines l' (call.apply s) xs' := by
  cases call with
  | pushFront value block =>
    have hblock : block ≠ 0 := hserved
    obtain ⟨l', xs', hrun, href⟩ := h.insert value (k := 0) (Nat.zero_le _) hblock hvalid
    refine ⟨l', xs', ?_, ?_⟩
    · rw [ListCall.answer, if_neg hblock]
      exact hrun
    · rw [ListCall.apply, if_neg hblock]
      exact href
  | pushAfter k value block =>
    have hblock : block ≠ 0 := hserved
    obtain ⟨l', xs', hrun, href⟩ := h.insert value hvalid.1 hblock hvalid.2
    refine ⟨l', xs', ?_, ?_⟩
    · rw [ListCall.answer, if_neg hblock, exec_pushAfter value block (h.increments hvalid.1)]
      exact hrun
    · rw [ListCall.apply, if_neg hblock]
      exact href
  | popFront =>
    obtain ⟨l', xs', hrun, href⟩ := h.eraseAt (List.length_pos_iff.2 hvalid)
    have hpop : l.popFront = .ok l' := hrun
    refine ⟨l', xs', ?_, href⟩
    simp only [ListCall.exec, hpop, bind, Except.bind]
    rfl
  | eraseAfter k =>
    obtain ⟨l', xs', hrun, href⟩ := h.eraseAt hvalid
    refine ⟨l', xs', ?_, href⟩
    simp only [ListCall.exec, h.increments (Nat.le_of_lt hvalid), hrun, bind, Except.bind]
    rfl
  | remove value =>
    obtain ⟨l', hrun, hholds, halloc, hfreed⟩ := h.holds.remove value
    refine ⟨l', _, ?_, hholds, ?_, halloc.trans h.allocated, ?_⟩
    · rw [ListCall.exec, hrun, ListCall.answer, Sequence.values, h.items]
      simp [List.countP_map, Function.comp_def, Item.tagged]
    · simp [ListCall.apply, Sequence.erase, h.items, List.filter_map, Function.comp_def,
        Item.tagged]
    · rw [hfreed, h.freed]
      simp [ListCall.apply, Sequence.erase, h.items, List.filter_map, Function.comp_def,
        Item.tagged]
  | clear =>
    obtain ⟨l', hrun, hholds, halloc, hfreed⟩ := h.holds.clear
    refine ⟨l', [], ?_, hholds, rfl, halloc.trans h.allocated, ?_⟩
    · simp only [ListCall.exec, hrun, bind, Except.bind]
      rfl
    · rw [hfreed, h.freed]
      simp [ListCall.apply, Sequence.erase, h.items, Function.comp_def, Item.tagged]

theorem served_of_exec [Inhabited α] [BEq α] {call : ListCall α}
    (hexec : call.exec l = .ok (call.answer s, l')) : call.Served := by
  cases call with
  | pushFront value block =>
    intro hblock
    rw [ListCall.answer, if_pos hblock] at hexec
    exact pushAfter_ne_end l l' _ value block hexec
  | pushAfter k value block =>
    intro hblock
    rw [ListCall.answer, if_pos hblock] at hexec
    obtain ⟨it, -, hpush⟩ := Result.bind_ok.1 hexec
    exact pushAfter_ne_end l l' it value block hpush
  | popFront => trivial
  | eraseAfter k => trivial
  | remove value => trivial
  | clear => trivial

theorem Run.refines [Inhabited α] [BEq α] (h : Run calls l s)
    (hserved : ∀ call ∈ calls, call.Served) : ∃ xs, Refines l s xs := by
  induction h with
  | construct haddress => exact ⟨[], construct_holds haddress, rfl, rfl, rfl⟩
  | call _ hvalid hexec ih =>
    rw [List.forall_mem_append, List.forall_mem_singleton] at hserved
    obtain ⟨xs, href⟩ := ih hserved.1
    obtain ⟨l', xs', hrun, href'⟩ := href.exec hvalid hserved.2
    rw [hexec] at hrun
    cases hrun
    exact ⟨xs', href'⟩

theorem apply_values [BEq α] (call : ListCall α) (s : Sequence α) :
    (call.apply s).values = call.onList s.values := by
  cases call with
  | pushFront value block =>
    simp only [ListCall.apply, ListCall.onList]
    split_ifs with hblock
    · rfl
    · simp [Sequence.insert, Sequence.values]
  | pushAfter k value block =>
    simp only [ListCall.apply, ListCall.onList]
    split_ifs with hblock
    · rfl
    · simp [Sequence.insert, Sequence.values, List.map_insertIdx]
  | popFront => simp [ListCall.apply, ListCall.onList, Sequence.eraseAt, Sequence.erase,
      Sequence.values]
  | eraseAfter k => simp [ListCall.apply, ListCall.onList, Sequence.eraseAt, Sequence.erase,
      Sequence.values, List.eraseIdx_map]
  | remove value => simp [ListCall.apply, ListCall.onList, Sequence.erase, Sequence.values,
      List.filter_map, Function.comp_def]
  | clear => rfl

theorem apply_balanced [BEq α] {call : ListCall α} (h : s.Balanced) (hvalid : call.Valid l s) :
    (call.apply s).Balanced := by
  cases call with
  | pushFront value block =>
    rw [ListCall.apply]
    split_ifs with hblock
    · exact h
    · exact h.insert (Nat.zero_le _) value
  | pushAfter k value block =>
    rw [ListCall.apply]
    split_ifs with hblock
    · exact h
    · exact h.insert hvalid.1 value
  | popFront => exact h.eraseAt (List.length_pos_iff.2 hvalid)
  | eraseAfter k => exact h.eraseAt hvalid
  | remove value =>
    apply h.erase
    exact List.perm_append_comm.trans (List.filter_append_perm _ _)
  | clear => exact h.erase (List.Perm.refl _)

theorem Run.balanced [Inhabited α] [BEq α] (h : Run calls l s) : s.Balanced := by
  induction h with
  | construct _ => exact List.Perm.refl _
  | call _ hvalid _ ih => exact apply_balanced ih hvalid

theorem Refines.contents (h : Refines l s xs) : l.contents = .ok s.values := by
  rw [h.holds.contents, Sequence.values, h.items]
  simp [Item.tagged, Function.comp_def]

theorem Refines.live_iff (h : Refines l s xs) (ticket : ℕ) :
    (∃ p n, l.nodes p = some n ∧ n.ticket = some ticket) ↔ ticket ∈ s.tickets := by
  rw [Sequence.tickets, h.items, List.map_map]
  constructor
  · intro hlive
    obtain ⟨p, n, hn, hticket⟩ := hlive
    rcases List.mem_cons.1 (h.holds.only p (by simp [hn])) with heq | hmem
    · obtain ⟨m, hm, hnone⟩ := h.holds.own
      rw [heq, hm] at hn
      cases hn
      rw [hnone] at hticket
      cases hticket
    · obtain ⟨x, hx, heq⟩ := List.mem_map.1 hmem
      obtain ⟨m, hm, -, hticket'⟩ := h.holds.cells x hx
      rw [heq, hn] at hm
      cases hm
      rw [hticket'] at hticket
      cases hticket
      exact List.mem_map.2 ⟨x, hx, rfl⟩
  · intro hmem
    obtain ⟨x, hx, heq⟩ := List.mem_map.1 hmem
    obtain ⟨n, hn, -, hticket⟩ := h.holds.cells x hx
    exact ⟨x.ptr, n, hn, hticket.trans (congrArg some heq)⟩

theorem Refines.destroy (h : Refines l s xs) (hbal : s.Balanced) :
    ∃ l', l.destroy = .ok l' ∧ ∀ ticket < l.allocated, l'.freed.count ticket = 1 := by
  obtain ⟨l', hrun, -, -, hfreed⟩ := h.holds.clear
  refine ⟨l', hrun, ?_⟩
  intro ticket hlt
  have hperm : l'.freed.Perm (List.range l.allocated) := by
    rw [hfreed, h.freed, h.allocated]
    have htickets : xs.map Item.ticket = s.tickets := by
      simp [Sequence.tickets, h.items, Item.tagged, Function.comp_def]
    rw [htickets]
    exact List.perm_append_comm.trans hbal
  rw [hperm.count_eq]
  exact List.count_eq_one_of_mem List.nodup_range (List.mem_range.2 hlt)

/-- A list behaves as a sequence over every run with a block for each push: iteration yields it,
and each node is deallocated once, when its element goes. The next call changes the list and
answers as the operation on the sequence does, exactly if it gets its block too. -/
theorem run_refines_sequence [Inhabited α] [BEq α] (h : Run calls l s)
    (hserved : ∀ call ∈ calls, call.Served) :
    l.contents = .ok s.values ∧
    (∀ call : ListCall α, call.Valid l s →
      ((∃ l', call.exec l = .ok (call.answer s, l') ∧
        l'.contents = .ok (call.onList s.values)) ↔ call.Served)) ∧
    (l.allocated = s.issued ∧ l.freed = s.freed ∧
      (s.tickets ++ s.freed).Perm (List.range s.issued) ∧
      ∀ ticket, (∃ p n, l.nodes p = some n ∧ n.ticket = some ticket) ↔ ticket ∈ s.tickets) ∧
    ∃ l', l.destroy = .ok l' ∧ ∀ ticket < l.allocated, l'.freed.count ticket = 1 := by
  obtain ⟨xs, href⟩ := h.refines hserved
  refine ⟨href.contents, ?_, ⟨href.allocated, href.freed, h.balanced, href.live_iff⟩,
    href.destroy h.balanced⟩
  intro call hvalid
  constructor
  · intro hmeets
    obtain ⟨l', hexec, -⟩ := hmeets
    exact served_of_exec hexec
  · intro hcall
    obtain ⟨l', xs', hexec, href'⟩ := href.exec hvalid hcall
    exact ⟨l', hexec, by rw [href'.contents, apply_values]⟩

theorem run_refines_sequence_ends : ∃ l l' : ForwardList ℕ, l.contents = .ok [7, 7, 5, 7, 7] ∧
    (ListCall.remove 7).exec l = .ok (4, l') ∧ l'.contents = .ok [5] ∧
    ∀ ticket, (∃ p n, l.nodes p = some n ∧ n.ticket = some ticket) ↔ ticket ∈ [4, 3, 0, 1, 2] := by
  have hstart : Run [] (construct 4096 : ForwardList ℕ) {} := .construct (by decide)
  have hfirst := hstart.call (c := .pushFront 5 8192) (fun _ => by decide)
    (pushAfter_eq (by decide) rfl rfl 5)
  have hsecond := hfirst.call (c := .pushAfter 1 7 8448) ⟨by decide, fun _ => by decide⟩
    ((exec_pushAfter 7 8448 (p := 8196) rfl).trans (pushAfter_eq (by decide) rfl rfl 7))
  have hthird := hsecond.call (c := .pushAfter 2 7 8704) ⟨by decide, fun _ => by decide⟩
    ((exec_pushAfter 7 8704 (p := 8452) rfl).trans (pushAfter_eq (by decide) rfl rfl 7))
  have hfourth := hthird.call (c := .pushFront 7 8960) (fun _ => by decide)
    (pushAfter_eq (by decide) rfl rfl 7)
  have hrun := hfourth.call (c := .pushFront 7 9216) (fun _ => by decide)
    (pushAfter_eq (by decide) rfl rfl 7)
  obtain ⟨hcontents, hcall, ⟨-, -, -, hlive⟩, -⟩ :=
    run_refines_sequence hrun (by simp [ListCall.Served])
  obtain ⟨l', hremove, hcontents'⟩ := (hcall (.remove 7) trivial).2 trivial
  exact ⟨_, l', hcontents, hremove, hcontents', hlive⟩

/-- The first push of a kernel that has no memory left. -/
theorem pushFront_without_block :
    (ListCall.pushFront 7 0).Valid (construct 4096) ({} : Sequence ℕ) ∧
    (∀ l', (ListCall.pushFront 7 0).exec (construct 4096) ≠ .ok (end_, l')) ∧
    ∃ l' : ForwardList ℕ, (ListCall.pushFront 7 0).exec (construct 4096) = .ok (arrayCookie, l') ∧
      l'.contents = .ok [7] := by
  have hstart : Holds (construct 4096 : ForwardList ℕ) ([] ++ []) := construct_holds (by decide)
  have hfree : (construct 4096 : ForwardList ℕ).nodes (0 + arrayCookie) = none := rfl
  obtain ⟨l', hpush, hholds, -⟩ := hstart.pushAfter 7 (by decide) hfree
  refine ⟨?_, ?_, l', hpush, hholds.contents⟩
  · intro hblock
    cases hblock rfl
  · intro l'
    exact pushAfter_ne_end _ l' _ 7 0

end Runs

end ForwardList

end Bolgenos
