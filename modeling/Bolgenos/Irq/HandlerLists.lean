import Bolgenos.Cxx.ForwardListRuns
import Bolgenos.Irq.InterruptsManager

/-!
# The lists of interrupt handlers

`InterruptsManager` keeps a `forward_list` of handler objects for each vector and for each
exception. `InterruptsManager.table` is what the interrupts are dispatched with after some
registrations; here the lists themselves are walked with `for_each` and `find_if`. The handlers
leave the lists alone.
-/

namespace Bolgenos

open FuelLoop

namespace ForwardList

variable {α σ : Type}

def forEachStep (l : ForwardList α) (func : α → σ → σ) (s : ℕ × σ) : Result ((ℕ × σ) ⊕ σ) :=
  if s.1 ≠ end_ then do
    let value ← l.deref s.1
    let it ← l.increment s.1
    .ok (.inl (it, func value s.2))
  else .ok (.inr s.2)

def forEach (l : ForwardList α) (func : α → σ → σ) (st : σ) : Result σ := do
  let first ← l.begin_
  loop .divergence (l.forEachStep func) budget (first, st)

def findIfStep (l : ForwardList α) (pred : α → σ → Bool × σ) (s : ℕ × σ) :
    Result ((ℕ × σ) ⊕ (ℕ × σ)) :=
  if s.1 ≠ end_ then do
    let value ← l.deref s.1
    let (found, st) := pred value s.2
    if found then .ok (.inr (s.1, st))
    else do
      let it ← l.increment s.1
      .ok (.inl (it, st))
  else .ok (.inr s)

def findIf (l : ForwardList α) (pred : α → σ → Bool × σ) (st : σ) : Result (ℕ × σ) := do
  let first ← l.begin_
  loop .divergence (l.findIfStep pred) budget (first, st)

def search (pred : α → σ → Bool × σ) : List α → σ → Bool × σ
  | [], st => (false, st)
  | x :: xs, st =>
    match pred x st with
    | (true, st) => (true, st)
    | (false, st) => search pred xs st

variable {l : ForwardList α} {xs as bs : List (Item α)}

theorem Holds.forEach_loop (h : Holds l (as ++ bs)) (func : α → σ → σ) {n : ℕ}
    (hn : bs.length < n) (st : σ) :
    loop .divergence (l.forEachStep func) n ((bs.map Item.ptr).headD 0, st) =
      .ok ((bs.map Item.value).foldl (fun st x => func x st) st) := by
  induction bs generalizing as n st with
  | nil => exact loop_exit_of_lt hn rfl
  | cons b bs ih =>
    have hb : b.ptr ≠ 0 := h.ptr_ne (by simp)
    have hderef : l.deref b.ptr = .ok b.value := h.deref (by simp)
    rw [List.append_cons] at h
    have hinc := h.increment
    rw [position_concat] at hinc
    have hbody : l.forEachStep func (b.ptr, st) =
        .ok (.inl ((bs.map Item.ptr).headD 0, func b.value st)) := by
      simp only [forEachStep, end_, if_pos hb, hderef, hinc, bind, Except.bind]
    rw [List.map_cons, List.headD_cons, loop_next_of_lt hn hbody]
    exact ih h (Nat.lt_sub_of_add_lt hn) (func b.value st)

theorem Holds.findIf_loop (h : Holds l (as ++ bs)) (pred : α → σ → Bool × σ) {n : ℕ}
    (hn : bs.length < n) (st : σ) :
    ∃ it, loop .divergence (l.findIfStep pred) n ((bs.map Item.ptr).headD 0, st) =
        .ok (it, (search pred (bs.map Item.value) st).2) ∧
      (it = end_ ↔ (search pred (bs.map Item.value) st).1 = false) := by
  induction bs generalizing as n st with
  | nil => exact ⟨0, loop_exit_of_lt hn rfl, by simp [search, end_]⟩
  | cons b bs ih =>
    have hb : b.ptr ≠ 0 := h.ptr_ne (by simp)
    have hderef : l.deref b.ptr = .ok b.value := h.deref (by simp)
    rw [List.append_cons] at h
    have hinc := h.increment
    rw [position_concat] at hinc
    rw [List.map_cons, List.headD_cons, List.map_cons, search]
    cases hpred : pred b.value st with
    | mk found st' =>
      cases found with
      | true =>
        have hbody : l.findIfStep pred (b.ptr, st) = .ok (.inr (b.ptr, st')) := by
          simp [findIfStep, end_, if_pos hb, hderef, hpred, bind, Except.bind]
        exact ⟨b.ptr, loop_exit_of_lt hn hbody, by simp [end_, hb]⟩
      | false =>
        have hbody : l.findIfStep pred (b.ptr, st) =
            .ok (.inl ((bs.map Item.ptr).headD 0, st')) := by
          simp [findIfStep, end_, if_pos hb, hderef, hpred, hinc, bind, Except.bind]
        rw [loop_next_of_lt hn hbody]
        exact ih h (Nat.lt_sub_of_add_lt hn) st'

theorem Holds.forEach (h : Holds l xs) (func : α → σ → σ) (st : σ) :
    l.forEach func st = .ok ((xs.map Item.value).foldl (fun st x => func x st) st) := by
  simp only [ForwardList.forEach, h.begin_, bind, Except.bind]
  exact (show Holds l ([] ++ xs) from h).forEach_loop func (lt_budget h.length_lt.le) st

theorem Holds.findIf (h : Holds l xs) (pred : α → σ → Bool × σ) (st : σ) :
    ∃ it, l.findIf pred st = .ok (it, (search pred (xs.map Item.value) st).2) ∧
      (it = end_ ↔ (search pred (xs.map Item.value) st).1 = false) := by
  simp only [ForwardList.findIf, h.begin_, bind, Except.bind]
  exact (show Holds l ([] ++ xs) from h).findIf_loop pred (lt_budget h.length_lt.le) st

end ForwardList

/-- The virtual functions of the handler objects, by the addresses of the objects. -/
structure HandlerObjects (σ : Type) where
  handleIrq : ℕ → UInt8 → σ → IrqStatus × σ
  handleException : ℕ → ℕ → σ → σ

inductive Registration where
  | irq (vector : UInt8) (handler block : ℕ)
  | exception (exception : UInt8) (handler block : ℕ)

structure ManagerLists where
  irqHandlers : UInt8 → ForwardList ℕ
  exceptionsHandlers : UInt8 → ForwardList ℕ

namespace ManagerLists

open ForwardList

def register (handlersList : ForwardList ℕ) (handler block : ℕ) (message : String) :
    Result (ForwardList ℕ) := do
  let (it, l) ← handlersList.pushFront handler block
  if it = end_ then .error (.panic message) else .ok l

def addHandler (m : ManagerLists) : Registration → Result ManagerLists
  | .irq vector handler block => do
    let l ← register (m.irqHandlers vector) handler block "failed to register interrupt handler"
    .ok { m with irqHandlers := Function.update m.irqHandlers vector l }
  | .exception exception handler block => do
    let l ← register (m.exceptionsHandlers exception) handler block
      "failed to register exception handler"
    .ok { m with exceptionsHandlers := Function.update m.exceptionsHandlers exception l }

variable {σ : Type}

def dispatchException (objects : HandlerObjects σ) (m : ManagerLists) (exception : UInt8)
    (frame : ℕ) (kernel : σ) : Result (IrqStatus × σ) := do
  let handlers := m.exceptionsHandlers exception
  if ← handlers.empty then .ok (.none, kernel)
  else do
    let kernel ← handlers.forEach (fun handler => objects.handleException handler frame) kernel
    .ok (.handled, kernel)

def dispatchInterrupt (objects : HandlerObjects σ) (m : ManagerLists) (vector : UInt8)
    (kernel : σ) : Result (IrqStatus × σ) := do
  let handlers := m.irqHandlers vector
  let (usedHandler, kernel) ← handlers.findIf (fun handler kernel =>
    let (status, kernel) := objects.handleIrq handler vector kernel
    (status = .handled, kernel)) kernel
  if usedHandler = end_ then .ok (.none, kernel) else .ok (.handled, kernel)

end ManagerLists

def irqsOf (regs : List Registration) (vector : UInt8) : List ℕ :=
  regs.reverse.filterMap fun
    | .irq v handler _ => if v = vector then some handler else none
    | .exception .. => none

def exceptionsOf (regs : List Registration) (exception : UInt8) : List ℕ :=
  regs.reverse.filterMap fun
    | .irq .. => none
    | .exception e handler _ => if e = exception then some handler else none

/-- The tables that interrupts are dispatched with after the registrations. -/
def InterruptsManager.table {σ : Type} (objects : HandlerObjects σ) (regs : List Registration) :
    InterruptsManager σ where
  irqHandlers vector := (irqsOf regs vector).map objects.handleIrq
  exceptionsHandlers exception := (exceptionsOf regs exception).map objects.handleException

namespace ManagerLists

open ForwardList

def Offered (m : ManagerLists) : Registration → Prop
  | .irq vector _ block => ListCall.Offers (m.irqHandlers vector) block
  | .exception exception _ block => ListCall.Offers (m.exceptionsHandlers exception) block

def Served : Registration → Prop
  | .irq _ _ block => block ≠ 0
  | .exception _ _ block => block ≠ 0

inductive Registered : List Registration → ManagerLists → Prop where
  | init {irqs exceptions : UInt8 → ℕ} : (∀ v, irqs v ≠ 0) → (∀ e, exceptions e ≠ 0) →
      Registered [] ⟨fun v => construct (irqs v), fun e => construct (exceptions e)⟩
  | add {regs : List Registration} {m m' : ManagerLists} {reg : Registration} :
      Registered regs m → m.Offered reg → m.addHandler reg = .ok m' →
      Registered (regs ++ [reg]) m'

structure Represents (regs : List Registration) (m : ManagerLists) : Prop where
  irqs : ∀ vector, ∃ xs, Holds (m.irqHandlers vector) xs ∧
    xs.map Item.value = irqsOf regs vector
  exceptions : ∀ exception, ∃ xs, Holds (m.exceptionsHandlers exception) xs ∧
    xs.map Item.value = exceptionsOf regs exception

variable {regs : List Registration} {m : ManagerLists}

theorem irqsOf_concat (regs : List Registration) (reg : Registration) (vector : UInt8) :
    irqsOf (regs ++ [reg]) vector = match reg with
      | .irq v handler _ => if v = vector then handler :: irqsOf regs vector else irqsOf regs vector
      | .exception .. => irqsOf regs vector := by
  rw [irqsOf, List.reverse_concat, List.filterMap_cons]
  cases reg with
  | irq v handler block => by_cases hv : v = vector <;> simp [hv, irqsOf]
  | exception e handler block => rfl

theorem exceptionsOf_concat (regs : List Registration) (reg : Registration) (exception : UInt8) :
    exceptionsOf (regs ++ [reg]) exception = match reg with
      | .irq .. => exceptionsOf regs exception
      | .exception e handler _ =>
        if e = exception then handler :: exceptionsOf regs exception
        else exceptionsOf regs exception := by
  rw [exceptionsOf, List.reverse_concat, List.filterMap_cons]
  cases reg with
  | irq v handler block => rfl
  | exception e handler block => by_cases he : e = exception <;> simp [he, exceptionsOf]

theorem register_eq {l l' : ForwardList ℕ} {handler block : ℕ}
    (hpush : l.pushFront handler block = .ok (block + arrayCookie, l')) (message : String) :
    register l handler block message = .ok l' := by
  simp only [register, hpush, bind, Except.bind]
  exact if_neg (arrayCookie_ne block)

theorem register_ok {l : ForwardList ℕ} {xs : List (Item ℕ)} (h : Holds l xs) (handler : ℕ)
    {block : ℕ} (hblock : block ≠ 0) (hoffer : ListCall.Offers l block) (message : String) :
    ∃ l', register l handler block message = .ok l' ∧
      Holds l' (⟨block + arrayCookie, l.allocated, handler⟩ :: xs) := by
  obtain ⟨hlt, hfree⟩ := hoffer hblock
  obtain ⟨l', hpush, hholds, -⟩ := (show Holds l ([] ++ xs) from h).pushAfter handler hlt hfree
  exact ⟨l', register_eq hpush message, hholds⟩

theorem register_comes_through {l : ForwardList ℕ} {xs : List (Item ℕ)} (h : Holds l xs)
    (handler block : ℕ) (message : String) : ∃ l', register l handler block message = .ok l' := by
  obtain ⟨hbegin, n, hn, -⟩ := h.live List.mem_cons_self
  obtain ⟨l', hpush⟩ := pushAfter_ok hbegin hn handler block
  exact ⟨l', register_eq hpush message⟩

theorem register_table {lists : UInt8 → ForwardList ℕ} {handlers : UInt8 → List ℕ}
    (h : ∀ v, ∃ xs, Holds (lists v) xs ∧ xs.map Item.value = handlers v) {v : UInt8}
    (handler : ℕ) {block : ℕ} (hblock : block ≠ 0) (hoffer : ListCall.Offers (lists v) block)
    (message : String) :
    ∃ l, register (lists v) handler block message = .ok l ∧
      ∀ w, ∃ xs, Holds (Function.update lists v l w) xs ∧
        xs.map Item.value = if v = w then handler :: handlers w else handlers w := by
  obtain ⟨xs, hholds, hvalues⟩ := h v
  obtain ⟨l, hreg, hl⟩ := register_ok hholds handler hblock hoffer message
  refine ⟨l, hreg, fun w => ?_⟩
  by_cases hw : v = w
  · subst hw
    rw [Function.update_self, if_pos rfl, ← hvalues]
    exact ⟨_, hl, rfl⟩
  · rw [Function.update_of_ne (Ne.symm hw), if_neg hw]
    exact h w

theorem Represents.add (h : Represents regs m) {reg : Registration} (hoffer : m.Offered reg)
    (hserved : Served reg) : ∃ m', m.addHandler reg = .ok m' ∧ Represents (regs ++ [reg]) m' := by
  cases reg with
  | irq vector handler block =>
    obtain ⟨l, hreg, htable⟩ := register_table h.irqs handler hserved hoffer
      "failed to register interrupt handler"
    refine ⟨{ m with irqHandlers := Function.update m.irqHandlers vector l }, ?_, ?_, ?_⟩
    · rw [addHandler, hreg]
      rfl
    · intro v
      rw [irqsOf_concat]
      exact htable v
    · intro e
      rw [exceptionsOf_concat]
      exact h.exceptions e
  | exception exception handler block =>
    obtain ⟨l, hreg, htable⟩ := register_table h.exceptions handler hserved hoffer
      "failed to register exception handler"
    refine ⟨{ m with exceptionsHandlers := Function.update m.exceptionsHandlers exception l },
      ?_, ?_, ?_⟩
    · rw [addHandler, hreg]
      rfl
    · intro v
      rw [irqsOf_concat]
      exact h.irqs v
    · intro e
      rw [exceptionsOf_concat]
      exact htable e

theorem Registered.represents (h : Registered regs m) (hserved : ∀ reg ∈ regs, Served reg) :
    Represents regs m := by
  induction h with
  | init hirqs hexceptions =>
    exact ⟨fun v => ⟨[], construct_holds (hirqs v), rfl⟩,
      fun e => ⟨[], construct_holds (hexceptions e), rfl⟩⟩
  | @add regs m m' reg _ hoffer hadd ih =>
    rw [List.forall_mem_append, List.forall_mem_singleton] at hserved
    obtain ⟨m'', hadd', hrep⟩ := (ih hserved.1).add hoffer hserved.2
    rw [hadd] at hadd'
    cases hadd'
    exact hrep

theorem Represents.addHandler_ok (h : Represents regs m) (reg : Registration) :
    ∃ m', m.addHandler reg = .ok m' := by
  cases reg with
  | irq vector handler block =>
    obtain ⟨xs, hholds, -⟩ := h.irqs vector
    obtain ⟨l, hreg⟩ := register_comes_through hholds handler block
      "failed to register interrupt handler"
    exact ⟨{ m with irqHandlers := Function.update m.irqHandlers vector l }, by
      rw [addHandler, hreg]
      rfl⟩
  | exception exception handler block =>
    obtain ⟨xs, hholds, -⟩ := h.exceptions exception
    obtain ⟨l, hreg⟩ := register_comes_through hholds handler block
      "failed to register exception handler"
    exact ⟨{ m with exceptionsHandlers := Function.update m.exceptionsHandlers exception l }, by
      rw [addHandler, hreg]
      rfl⟩

theorem search_findHandler {σ : Type} (objects : HandlerObjects σ) (vector : UInt8)
    (handlers : List ℕ) (kernel : σ) :
    InterruptsManager.findHandler vector (handlers.map objects.handleIrq) kernel =
      let r := search (fun handler kernel =>
        let (status, kernel) := objects.handleIrq handler vector kernel
        (decide (status = .handled), kernel)) handlers kernel
      (if r.1 then .handled else .none, r.2) := by
  induction handlers generalizing kernel with
  | nil => rfl
  | cons handler handlers ih =>
    rw [List.map_cons, InterruptsManager.findHandler, search]
    cases hstatus : objects.handleIrq handler vector kernel with
    | mk status kernel' =>
      cases status with
      | handled => rfl
      | none => exact ih kernel'

/-- After any registrations the lists are dispatched as the tables: the handlers of a vector are
asked in the reverse order of their registration, up to the first one that takes the interrupt,
and all handlers of an exception are called. No registration panics, also not for lack of memory:
then its node is constructed in page 0. -/
theorem dispatch_registered {σ : Type} (objects : HandlerObjects σ) (h : Registered regs m)
    (hserved : ∀ reg ∈ regs, Served reg) :
    (∀ vector kernel, m.dispatchInterrupt objects vector kernel =
      .ok ((InterruptsManager.table objects regs).dispatchInterrupt vector kernel)) ∧
    (∀ exception frame kernel, m.dispatchException objects exception frame kernel =
      .ok ((InterruptsManager.table objects regs).dispatchException exception frame kernel)) ∧
    ∀ reg, ∃ m', m.addHandler reg = .ok m' ∧ (m.Offered reg → Registered (regs ++ [reg]) m') := by
  have hrep := h.represents hserved
  refine ⟨?_, ?_, ?_⟩
  · intro vector kernel
    obtain ⟨xs, hholds, hvalues⟩ := hrep.irqs vector
    obtain ⟨it, hfind, hit⟩ := hholds.findIf (fun handler kernel =>
      let (status, kernel) := objects.handleIrq handler vector kernel
      (decide (status = .handled), kernel)) kernel
    rw [hvalues] at hfind hit
    rw [InterruptsManager.dispatchInterrupt, InterruptsManager.table, search_findHandler]
    simp only [dispatchInterrupt, hfind, bind, Except.bind, hit]
    cases (search (fun handler kernel =>
      let (status, kernel) := objects.handleIrq handler vector kernel
      (decide (status = .handled), kernel)) (irqsOf regs vector) kernel).1 with
    | true => rfl
    | false => rfl
  · intro exception frame kernel
    obtain ⟨xs, hholds, hvalues⟩ := hrep.exceptions exception
    have heach := hholds.forEach (fun handler => objects.handleException handler frame) kernel
    rw [hvalues] at heach
    simp only [dispatchException, hholds.empty, heach, bind, Except.bind]
    rw [InterruptsManager.dispatchException, InterruptsManager.table]
    cases hlist : exceptionsOf regs exception with
    | nil =>
      have hnil : xs = [] := by simpa [hlist] using hvalues
      simp [hnil, hlist]
    | cons handler handlers =>
      have hcons : xs ≠ [] := by
        intro hnil
        rw [hnil, hlist] at hvalues
        cases hvalues
      simp [hcons, hlist, List.foldl_map]
  · intro reg
    obtain ⟨m', hadd⟩ := hrep.addHandler_ok reg
    exact ⟨m', hadd, fun hoffer => h.add hoffer hadd⟩

theorem dispatch_registered_two : ∃ m : ManagerLists,
    m.dispatchInterrupt ⟨fun handler _ asked =>
      (if handler = 0x5000 then .handled else .none, asked ++ [handler]), fun _ _ asked => asked⟩
      0x21 [] = .ok (.handled, [0x6000, 0x5000]) := by
  let objects : HandlerObjects (List ℕ) := ⟨fun handler _ asked =>
    (if handler = 0x5000 then .handled else .none, asked ++ [handler]), fun _ _ asked => asked⟩
  have hinit : Registered [] ⟨fun _ => construct 4096, fun _ => construct 4096⟩ :=
    .init (fun _ => by decide) (fun _ => by decide)
  have hone : Registered [.irq 0x21 0x5000 8192] _ := hinit.add (fun _ => ⟨by decide, rfl⟩) rfl
  have htwo : Registered [.irq 0x21 0x5000 8192, .irq 0x21 0x6000 8448] _ :=
    hone.add (fun _ => ⟨by decide, rfl⟩) rfl
  exact ⟨_, (dispatch_registered objects htwo (by simp [Served])).1 0x21 []⟩

end ManagerLists

end Bolgenos
