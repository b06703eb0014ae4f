import Bolgenos.Irq.IrqGuard
import Bolgenos.Sched.SchedulerPass

/-!
# Interrupts in the scheduler

The steps of the scheduler are refined by what they do to the interrupt flag, to its mirror
and to the flags word that a suspended task keeps on its stack. The instructions of a step
stand in a list and are executed one by one, and an interrupt may come between any two of
them. The operations on the lists of tasks of a step are made at once where it switches
tasks, since nothing else reads them.
-/

namespace Bolgenos

namespace Kernel

variable {k k' : Kernel} {act : Action} {e : Event} {t : ℕ}

/-- What a step leaves of the control, of the current task, of the live tasks and of the
flag of the current task. -/
inductive Turn (k : Kernel) (act : Action) : Event → Kernel → Prop
  | start {k' : Kernel} {t : ℕ} : k.control = .start → k'.control = .idle →
      k'.sched.current = k.sched.schedulerTask → k'.live = k.live →
      Turn k act (.switchTo t) k'
  | passBegin {k' : Kernel} {it : ListIterator} {last : ℕ} : k.control = .idle →
      k'.control = .iterating it last → k'.sched.current = k.sched.current →
      k'.live = k.live → Turn k act .passBegin k'
  | listEnd {k' : Kernel} {it : ListIterator} {last : ℕ} {rest : List ℕ} :
      k.control = .iterating it last → k'.control = .deleting rest →
      k'.sched.current = k.sched.current → k'.live = k.live → Turn k act .listEnd k'
  | skip {k' : Kernel} {it it' : ListIterator} {last t : ℕ} : k.control = .iterating it last →
      k'.control = .iterating it' last → k'.sched.current = k.sched.current →
      k'.live = k.live → Turn k act (.skip t) k'
  | resume {k' : Kernel} {it : ListIterator} {last t : ℕ} : k.control = .iterating it last →
      t ≠ k.sched.schedulerTask → k'.control = .switched it last → k'.sched.current = t →
      k'.live = k.live → t ∈ k.live → Turn k act (.switchTo t) k'
  | yield {k' : Kernel} {it it' : ListIterator} {last t : ℕ} : k.control = .switched it last →
      (k.exited k.sched.current = true ∨ act = .yield) → k'.control = .iterating it' last →
      k'.sched.current = k.sched.schedulerTask → k'.live = k.live →
      Turn k act (.switchTo t) k'
  | create {k' : Kernel} {it : ListIterator} {last t : ℕ} : k.control = .switched it last →
      act = .createTask t → k.exited k.sched.current = false → k'.control = k.control →
      k'.sched.current = k.sched.current → k'.live = insert t k.live →
      k'.exited k'.sched.current = false → Turn k act (.create t) k'
  | finish {k' : Kernel} {it : ListIterator} {last : ℕ} : k.control = .switched it last →
      act = .ret → k.exited k.sched.current = false → k'.control = k.control →
      k'.sched.current = k.sched.current → k'.live = k.live →
      Turn k act (.finish k.sched.current) k'
  | delete {k' : Kernel} {t : ℕ} {rest : List ℕ} : k.control = .deleting (t :: rest) →
      k'.control = .deleting rest → k'.sched.current = k.sched.current →
      k'.live ⊆ k.live → Turn k act (.delete t) k'
  | passEnd {k' : Kernel} : k.control = .deleting [] → k'.control = .idle →
      k'.sched.current = k.sched.current → k'.live = k.live → Turn k act .passEnd k'

theorem Reached.current {s : ℕ} (h : Reached s k) :
    k.sched.schedulerTask = s ∧ s ∈ k.live ∧ k.sched.current ∈ k.live ∧
      match k.control with
      | .switched _ _ => k.sched.current ≠ s
      | _ => k.sched.current = s := by
  cases h with
  | start M hc hcur ht hq =>
    refine ⟨ht.scheduler, ht.scheduler_live, ?_⟩
    simp [hc, hcur, ht.scheduler_live]
  | idle M hi =>
    refine ⟨hi.tasks.scheduler, hi.tasks.scheduler_live, ?_⟩
    simp [hi.control, hi.current, hi.tasks.scheduler_live]
  | pass M es hp =>
    cases hp with
    | atStart hw hc hcur =>
      refine ⟨hw.tasks.scheduler, hw.tasks.scheduler_live, ?_⟩
      simp [hc, hcur, hw.tasks.scheduler_live]
    | iterating todo hw hc hcur hM =>
      refine ⟨hw.tasks.scheduler, hw.tasks.scheduler_live, ?_⟩
      simp [hc, hcur, hw.tasks.scheduler_live]
    | switched todo hw hc hcur hR hM =>
      have hmem : k.sched.current ∈ (created es).reverse ++ M :=
        Walking.mem_ring (by simp [hM, hcur])
      refine ⟨hw.tasks.scheduler, hw.tasks.scheduler_live, hw.tasks.mem_live hmem, ?_⟩
      rw [hc]
      exact hw.tasks.ne_scheduler hmem
    | deleting hall ht hq hsub hnd hdel hc hcur hres hD =>
      refine ⟨ht.scheduler, ht.scheduler_live, ?_⟩
      simp [hc, hcur, ht.scheduler_live]

theorem access_ok {u : Unit} (h : k.access t = .ok u) : t ∈ k.live := by
  rw [access] at h
  split_ifs at h with ht
  exact ht

theorem switchTo_ok (h : k.switchTo t = .ok k') :
    t ∈ k.live ∧ k' = { k with sched := { k.sched with current := t } } := by
  obtain ⟨-, -, h⟩ := Result.bind_ok.mp h
  obtain ⟨_, ht, h⟩ := Result.bind_ok.mp h
  cases h
  exact ⟨access_ok ht, rfl⟩

theorem resumeScheduler_turn {it : ListIterator} {last : ℕ}
    (hc : k.control = .switched it last) (hact : k.exited k.sched.current = true ∨ act = .yield)
    (h : k.resumeScheduler it last = .ok (e, k')) : k.Turn act e k' := by
  obtain ⟨k₁, hk₁, h⟩ := Result.bind_ok.mp h
  obtain ⟨it', -, h⟩ := Result.bind_ok.mp h
  obtain ⟨-, hk₁⟩ := switchTo_ok hk₁
  subst hk₁
  cases h
  exact .yield hc hact rfl rfl rfl

theorem next_turn (hact : k.Admissible act) (hcur : k.sched.current ∈ k.live)
    (h : k.next act = .ok (e, k')) : k.Turn act e k' := by
  rw [next] at h
  cases hc : k.control with
  | start =>
    rw [hc] at h
    obtain ⟨k₁, hk₁, h⟩ := Result.bind_ok.mp h
    obtain ⟨-, hk₁⟩ := switchTo_ok hk₁
    subst hk₁
    cases h
    exact .start hc rfl rfl rfl
  | idle =>
    rw [hc] at h
    cases h
    exact .passBegin hc rfl rfl rfl
  | iterating it last =>
    rw [hc] at h
    simp only at h
    split_ifs at h with hend
    · cases h
      exact .listEnd hc rfl rfl rfl
    · obtain ⟨-, -, h⟩ := Result.bind_ok.mp h
      obtain ⟨t, -, h⟩ := Result.bind_ok.mp h
      obtain ⟨b, hb, h⟩ := Result.bind_ok.mp h
      cases b with
      | true =>
        obtain ⟨k₁, hk₁, h⟩ := Result.bind_ok.mp h
        obtain ⟨ht, hk₁⟩ := switchTo_ok hk₁
        subst hk₁
        cases h
        refine .resume hc ?_ rfl rfl rfl ht
        intro heq
        rw [shouldSchedule, if_pos heq] at hb
        cases hb
      | false =>
        obtain ⟨it', -, h⟩ := Result.bind_ok.mp h
        cases h
        exact .skip hc rfl rfl rfl
  | switched it last =>
    rw [hc] at h
    simp only at h
    split_ifs at h with hexit
    · exact resumeScheduler_turn hc (.inl hexit) h
    · cases act with
      | yield => exact resumeScheduler_turn hc (.inr rfl) h
      | createTask t =>
        obtain ⟨k₁, hk₁, h⟩ := Result.bind_ok.mp h
        obtain ⟨l, -, hk₁⟩ := Result.bind_ok.mp hk₁
        cases hk₁
        cases h
        have hne : k.sched.current ≠ t := by
          intro heq
          rw [heq] at hcur
          exact hact.1 hcur
        refine .create hc rfl (by simpa using hexit) rfl rfl rfl ?_
        simpa [Function.update_of_ne hne] using hexit
      | ret =>
        obtain ⟨k₁, hk₁, h⟩ := Result.bind_ok.mp h
        obtain ⟨-, -, hk₁⟩ := Result.bind_ok.mp hk₁
        cases hk₁
        cases h
        exact .finish hc rfl (by simpa using hexit) rfl rfl rfl
  | deleting rest =>
    rw [hc] at h
    cases rest with
    | nil =>
      cases h
      exact .passEnd hc rfl rfl rfl
    | cons t rest =>
      obtain ⟨k₁, hk₁, h⟩ := Result.bind_ok.mp h
      obtain ⟨-, -, hk₁⟩ := Result.bind_ok.mp hk₁
      obtain ⟨l, -, hk₁⟩ := Result.bind_ok.mp hk₁
      cases hk₁
      cases h
      exact .delete hc rfl rfl (Finset.erase_subset _ _)

end Kernel

inductive Op where
  | store
  | sti
  | cli
  | exchange
  -- the exchange in `RecursiveIrqLocker::lock`, which keeps the result
  | lockExchange
  | unlock
  -- the two halves of the comparison in `irq::is_enabled`
  | readFlags
  | compare
  -- `panic` unless `irq::is_enabled` returned true
  | require (msg : String)
  -- the first stack frame of a new task, with the flags of its creator
  | sample (task : ℕ)
  -- calls of `kmalloc` and `kfree`, which may take the guard of the page allocator
  | heap
  deriving DecidableEq, Repr

def irqEnable : List Op := [.store, .sti]

def irqDisable : List Op := [.cli, .exchange]

def irqIsEnabled (msg : String) : List Op := [.readFlags, .compare, .require msg]

def irqLock : List Op := [.cli, .lockExchange]

def irqGuard : List Op := irqLock ++ [.unlock]

def enterSwitch : List Op :=
  irqIsEnabled "switching while interrupts are disabled" ++ irqDisable

inductive IrqCall where
  | enable
  | disable
  | lock
  | unlock
  | isEnabled
  deriving DecidableEq, Repr

def IrqCall.ops : IrqCall → List Op
  | .enable => irqEnable
  | .disable => irqDisable
  | .lock => irqLock
  | .unlock => [.unlock]
  | .isEnabled => [.readFlags, .compare]

def irqBefore (k : Kernel) (act : Action) : List Op :=
  match k.next act with
  | .ok (.switchTo _, _) =>
    match k.control with
    | .iterating _ _ => irqEnable ++ enterSwitch
    | _ => enterSwitch
  | .ok (.passBegin, _) => irqDisable
  | .ok (.listEnd, _) => irqLock
  | .ok (.create _, _) => .heap :: irqGuard
  | .ok (.finish _, _) => irqLock ++ [.heap]
  | .ok (.passEnd, _) => [.heap]
  | _ => []

def irqAfter (k : Kernel) : Event → List Op
  | .switchTo _ =>
    match k.control with
    | .start => irqEnable ++ irqIsEnabled "started scheduling with blocked interrupts"
    | .iterating _ _ => irqEnable ++ irqDisable
    | _ => irqEnable
  | .create task => [.sample task]
  | .finish _ => [.unlock]
  | .delete _ => irqGuard ++ [.heap]
  | .passEnd => .unlock :: irqEnable
  | _ => []

/-- `lockers` are the lockers each task holds, `savedFlags` the interrupt bit of the flags
word on its stack and `resume` what it does when it is switched to; `frames` are the flags
saved by the interrupts being served. -/
structure IrqMachine where
  kernel : Kernel
  irq : IrqState
  flags : Bool := false
  lockers : ℕ → List Bool := fun _ => []
  savedFlags : ℕ → Bool := fun _ => false
  resume : ℕ → List Op := fun _ => []
  pending : List Op := []
  todo : Option Action := none
  frames : List Bool := []

namespace IrqMachine

def exec (m : IrqMachine) (op : Op) (rest : List Op) : Result IrqMachine :=
  let cur := m.kernel.sched.current
  match op with
  | .store => .ok { m with irq := m.irq.store, pending := rest }
  | .sti => .ok { m with irq := m.irq.sti, pending := rest }
  | .cli => .ok { m with irq := m.irq.cli, pending := rest }
  | .exchange => .ok { m with irq := m.irq.exchange, pending := rest }
  | .lockExchange => .ok { m with
      irq := m.irq.exchange
      lockers := Function.update m.lockers cur (m.irq.interruptsEnabled :: m.lockers cur)
      pending := rest }
  | .unlock => .ok { m with
      lockers := Function.update m.lockers cur (m.lockers cur).tail
      pending := if (m.lockers cur).headD false then irqEnable ++ rest else rest }
  | .readFlags => .ok { m with flags := m.irq.interruptFlag, pending := rest }
  | .compare =>
    if m.flags ≠ m.irq.interruptsEnabled then .error (.panic "irq enabled state not synced")
    else .ok { m with pending := rest }
  | .require msg =>
    if m.irq.interruptsEnabled then .ok { m with pending := rest } else .error (.panic msg)
  | .sample task => .ok { m with
      savedFlags := Function.update m.savedFlags task m.irq.interruptFlag
      -- `Task::run` begins with `irq::enable`
      resume := Function.update m.resume task irqEnable
      pending := rest }
  | .heap => .ok { m with pending := rest }

def commit (m : IrqMachine) (act : Action) : Result IrqMachine := do
  let (e, k) ← m.kernel.next act
  let after := irqAfter m.kernel e
  match e with
  | .switchTo _ =>
    let savedFlags := Function.update m.savedFlags m.kernel.sched.current m.irq.interruptFlag
    let resume := Function.update m.resume m.kernel.sched.current after
    .ok { m with
      kernel := k
      irq := m.irq.popFlags (savedFlags k.sched.current)
      savedFlags := savedFlags
      resume := resume
      pending := resume k.sched.current
      todo := none }
  | _ => .ok { m with kernel := k, pending := after, todo := none }

end IrqMachine

/-- What happens next: the running code executes an instruction, its heap call takes the
guard, it goes on to its next step or calls an irq function; or an interrupt is served. -/
inductive IrqChoice where
  | run
  | heapGuard
  | act (a : Action)
  | routine (call : IrqCall)
  | interrupt
  | iret
  deriving DecidableEq, Repr

namespace IrqMachine

def step (m : IrqMachine) : IrqChoice → Result IrqMachine
  | .run =>
    match m.pending, m.todo with
    | op :: rest, _ => m.exec op rest
    | [], some act => m.commit act
    | [], none => .ok m
  | .heapGuard => .ok { m with pending := irqGuard ++ m.pending }
  | .act a => .ok { m with pending := irqBefore m.kernel a, todo := some a }
  | .routine call => .ok { m with pending := call.ops }
  | .interrupt => .ok { m with
      irq := m.irq.cli, frames := m.irq.interruptFlag :: m.frames }
  | .iret => .ok { m with
      irq := m.irq.popFlags (m.frames.headD false), frames := m.frames.tail }

def InRoutine (k : Kernel) : Prop :=
  (∃ it last, k.control = .switched it last) ∧ k.exited k.sched.current = false

/-- An interrupt comes only with the flag set, and its handler does nothing but return. A
routine yields and returns with interrupts enabled. -/
def Allowed (m : IrqMachine) : IrqChoice → Prop
  | .run => m.frames = [] ∧ (m.pending ≠ [] ∨ m.todo ≠ none)
  | .heapGuard => m.frames = [] ∧ ∃ rest, m.pending = .heap :: rest
  | .act a => m.frames = [] ∧ m.pending = [] ∧ m.todo = none ∧ m.kernel.Admissible a ∧
      (InRoutine m.kernel → a = .yield ∨ a = .ret → m.irq.interruptFlag = true)
  | .routine _ => m.frames = [] ∧ m.pending = [] ∧ m.todo = none ∧ InRoutine m.kernel
  | .interrupt => m.irq.interruptFlag = true
  | .iret => m.frames ≠ []

instance (k : Kernel) : Decidable (InRoutine k) :=
  match h : k.control with
  | .switched it last =>
    decidable_of_iff (k.exited k.sched.current = false) (by simp [InRoutine, h])
  | .start | .idle | .iterating _ _ | .deleting _ => .isFalse (by simp [InRoutine, h])

instance (m : IrqMachine) (c : IrqChoice) : Decidable (m.Allowed c) :=
  match c with
  | .run => inferInstanceAs (Decidable (_ ∧ _))
  | .heapGuard => decidable_of_iff (m.frames = [] ∧ m.pending.head? = some .heap) (by
      cases hp : m.pending <;> simp [Allowed, hp, eq_comm])
  | .act a => inferInstanceAs (Decidable (_ ∧ _ ∧ _ ∧ _ ∧ _))
  | .routine _ => inferInstanceAs (Decidable (_ ∧ _ ∧ _ ∧ _))
  | .interrupt => inferInstanceAs (Decidable (_ = _))
  | .iret => inferInstanceAs (Decidable (¬ _))

/-- `init_scheduling` with interrupts on: the instructions of the constructor, which
creates the scheduler task `s` and the main task `t`. -/
def init (k : Kernel) (s t : ℕ) : IrqMachine where
  kernel := k
  irq := ⟨true, true⟩
  pending := [.heap] ++ irqLock ++ [.heap] ++ irqGuard ++ [.sample s, .heap] ++ irqGuard ++
    [.sample t, .unlock]

inductive Reachable (m₀ : IrqMachine) : IrqMachine → Prop
  | init : Reachable m₀ m₀
  | step {m m' : IrqMachine} {c : IrqChoice} : Reachable m₀ m → m.Allowed c →
      m.step c = .ok m' → Reachable m₀ m'

def follow : List IrqChoice → IrqMachine → Option IrqMachine
  | [], m => some m
  | c :: cs, m => if m.Allowed c then (m.step c).toOption.bind (follow cs) else none

theorem Reachable.follow {m₀ m m' : IrqMachine} {cs : List IrqChoice} (h : Reachable m₀ m)
    (hcs : follow cs m = some m') : Reachable m₀ m' := by
  induction cs generalizing m with
  | nil =>
    cases hcs
    exact h
  | cons c cs ih =>
    rw [IrqMachine.follow] at hcs
    split_ifs at hcs with hc
    cases hstep : m.step c with
    | error e =>
      rw [hstep] at hcs
      cases hcs
    | ok m₁ =>
      rw [hstep] at hcs
      exact ih (h.step hc hstep) hcs

def Boundary (k : Kernel) (i : IrqState) (ls : List Bool) : Prop :=
  match k.control with
  | .start | .idle => i = ⟨true, true⟩
  | .iterating _ _ => i = ⟨false, false⟩
  | .switched _ _ => i.interruptFlag = i.interruptsEnabled ∧
      (k.exited k.sched.current = true → i.interruptFlag = true)
  | .deleting _ => i = ⟨false, false⟩ ∧ ls.headD false = false

/-- The instructions cause no panic and end with `Q`. Heap calls are made only where flag
and mirror agree. -/
def Safe (Q : IrqState → List Bool → Prop) : List Op → IrqState → Bool → List Bool → Prop
  | [], i, _, ls => Q i ls
  | .store :: ops, i, f, ls => Safe Q ops i.store f ls
  | .sti :: ops, i, f, ls => Safe Q ops i.sti f ls
  | .cli :: ops, i, f, ls => Safe Q ops i.cli f ls
  | .exchange :: ops, i, f, ls => Safe Q ops i.exchange f ls
  | .lockExchange :: ops, i, f, ls => Safe Q ops i.exchange f (i.interruptsEnabled :: ls)
  | .unlock :: ops, i, f, ls =>
    if ls.headD false then Safe Q ops i.store.sti f ls.tail else Safe Q ops i f ls.tail
  | .readFlags :: ops, i, _, ls => Safe Q ops i i.interruptFlag ls
  | .compare :: ops, i, f, ls => f = i.interruptsEnabled ∧ Safe Q ops i f ls
  | .require _ :: ops, i, f, ls => i.interruptsEnabled = true ∧ Safe Q ops i f ls
  | .sample _ :: ops, i, f, ls => Safe Q ops i f ls
  | .heap :: ops, i, f, ls => i.interruptFlag = i.interruptsEnabled ∧ Safe Q ops i f ls

/-- The effect of the step on the tasks can be made: behind a switch another task goes on,
otherwise the rest of the step follows. -/
def Ready (k : Kernel) (act : Action) (i : IrqState) (ls : List Bool) : Prop :=
  ∀ e k', k.next act = .ok (e, k') → (∀ t, e ≠ .switchTo t) →
    ∀ f, Safe (Boundary k') (irqAfter k e) i f ls

/-- What a suspended task does when it is switched to: every task turns interrupts on, a
new one in `Task::run` and the others at the end of `switch_to`. -/
def continuation (s t : ℕ) : List Op :=
  if t = s then irqEnable ++ irqDisable else irqEnable

def view (m : IrqMachine) : IrqState :=
  match m.frames with
  | [] => m.irq
  | b :: _ => m.irq.popFlags b

def goal (m : IrqMachine) : IrqState → List Bool → Prop :=
  match m.todo with
  | none => Boundary m.kernel
  | some act => Ready m.kernel act

structure Inv (s : ℕ) (m : IrqMachine) : Prop where
  reached : Kernel.Reached s m.kernel
  frames : m.frames = [] ∨ m.frames = [true] ∧ m.irq.interruptFlag = false
  admissible : ∀ act, m.todo = some act → m.kernel.Admissible act
  safe : Safe m.goal m.pending m.view m.flags (m.lockers m.kernel.sched.current)
  sampled : .sample s ∈ m.pending → m.kernel.sched.current = s
  resume : ∀ t ∈ m.kernel.live, t ≠ m.kernel.sched.current →
    (t ≠ s ∧ .sample t ∈ m.pending) ∨ m.resume t = continuation s t

variable {s : ℕ} {m : IrqMachine} {k k' : Kernel} {act : Action} {e : Event}
  {Q : IrqState → List Bool → Prop} {ops : List Op} {i : IrqState} {f : Bool} {ls : List Bool}

theorem safe_guard (ops : List Op) (hi : i.interruptFlag = i.interruptsEnabled)
    (h : Safe Q ops i f ls) : Safe Q (irqGuard ++ ops) i f ls := by
  obtain ⟨a, b⟩ := i
  cases hi
  cases a <;> exact h

theorem safe_enterSwitch (h : Q ⟨false, false⟩ ls) :
    Safe Q enterSwitch ⟨true, true⟩ f ls :=
  ⟨rfl, rfl, h⟩

theorem safe_enable (h : Q ⟨true, true⟩ ls) : Safe Q irqEnable i f ls := h

theorem safe_before (hk : Kernel.Reached s k) (hact : k.Admissible act) (hb : Boundary k i ls)
    (hr : InRoutine k → act = .yield ∨ act = .ret → i.interruptFlag = true) :
    Safe (Ready k act) (irqBefore k act) i f ls := by
  obtain ⟨e, k', hnext, -, -⟩ := hk.step hact
  obtain ⟨-, -, hlive, -⟩ := hk.current
  have hready : ∀ i ls, ((∀ t, e ≠ .switchTo t) → ∀ f, Safe (Boundary k') (irqAfter k e) i f ls) →
      Ready k act i ls := by
    intro i ls h e' k'' hnext'
    rw [hnext] at hnext'
    cases hnext'
    exact h
  have hturn := Kernel.next_turn hact hlive hnext
  obtain ⟨a, b⟩ := i
  cases hturn with
  | start hc hc' _ _ =>
    simp only [Boundary, hc] at hb
    cases hb
    simp only [irqBefore, hnext, hc]
    exact safe_enterSwitch (hready _ _ (by simp))
  | passBegin hc hc' _ _ =>
    simp only [Boundary, hc] at hb
    cases hb
    simp only [irqBefore, hnext]
    refine hready _ _ (fun _ f => ?_)
    simp only [irqAfter, Safe, Boundary, hc']
    rfl
  | listEnd hc hc' _ _ =>
    simp only [Boundary, hc] at hb
    cases hb
    simp only [irqBefore, hnext]
    refine hready _ _ (fun _ f => ?_)
    simp only [irqAfter, Safe, Boundary, hc']
    exact ⟨rfl, rfl⟩
  | skip hc hc' _ _ =>
    simp only [Boundary, hc] at hb
    cases hb
    simp only [irqBefore, hnext]
    refine hready _ _ (fun _ f => ?_)
    simp only [irqAfter, Safe, Boundary, hc']
  | resume hc _ hc' _ _ _ =>
    simp only [irqBefore, hnext, hc]
    exact safe_enterSwitch (f := f) (hready _ _ (by simp))
  | yield hc hy hc' _ _ =>
    simp only [Boundary, hc] at hb
    have ha : a = true := by
      rcases Bool.eq_false_or_eq_true (k.exited k.sched.current) with hx | hx
      · exact hb.2 hx
      · refine hr ⟨⟨_, _, hc⟩, hx⟩ (.inl ?_)
        rw [hx] at hy
        simpa using hy
    obtain ⟨hab, -⟩ := hb
    cases hab
    subst ha
    simp only [irqBefore, hnext, hc]
    exact safe_enterSwitch (hready _ _ (by simp))
  | create hc _ hx hc' hcur' _ hx' =>
    simp only [Boundary, hc] at hb
    simp only [irqBefore, hnext]
    refine ⟨hb.1, safe_guard [] hb.1 (hready _ _ (fun _ f => ?_))⟩
    simp only [irqAfter, Safe, Boundary, hc', hc]
    exact ⟨hb.1, fun h => by simp [hx'] at h⟩
  | finish hc hy hx hc' hcur' _ =>
    simp only [Boundary, hc] at hb
    have ha : a = true := hr ⟨⟨_, _, hc⟩, hx⟩ (.inr hy)
    obtain ⟨hab, -⟩ := hb
    cases hab
    subst ha
    simp only [irqBefore, hnext]
    refine ⟨rfl, hready _ _ (fun _ f => ?_)⟩
    simp only [irqAfter, Safe, Boundary, hc', hc]
    exact ⟨rfl, fun _ => rfl⟩
  | delete hc hc' _ _ =>
    simp only [Boundary, hc] at hb
    obtain ⟨hab, hls⟩ := hb
    cases hab
    simp only [irqBefore, hnext]
    refine hready _ _ (fun _ f => ?_)
    refine safe_guard [.heap] rfl ⟨rfl, ?_⟩
    simp only [Safe, Boundary, hc']
    exact ⟨trivial, hls⟩
  | passEnd hc hc' _ _ =>
    simp only [Boundary, hc] at hb
    obtain ⟨hab, hls⟩ := hb
    cases hab
    simp only [irqBefore, hnext]
    refine ⟨rfl, hready _ _ (fun _ f => ?_)⟩
    simp only [irqAfter, Safe, hls, irqEnable, Boundary, hc']
    rfl

theorem Inv.exec_ok (h : Inv s m) (hf : m.frames = []) {lk : ℕ → List Bool} {sf : ℕ → Bool}
    {re : ℕ → List Op} (hsafe : Safe m.goal ops i f (lk m.kernel.sched.current))
    (hsub : ∀ v, .sample v ∈ ops → .sample v ∈ m.pending)
    (hre : ∀ t, t ≠ m.kernel.sched.current →
      (t ≠ s ∧ .sample t ∈ m.pending) ∨ m.resume t = continuation s t →
      (t ≠ s ∧ .sample t ∈ ops) ∨ re t = continuation s t) :
    Inv s { m with
      irq := i, flags := f, lockers := lk, savedFlags := sf, resume := re, pending := ops } := by
  refine ⟨h.reached, .inl hf, h.admissible, ?_, fun hs => h.sampled (hsub s hs), ?_⟩
  · simp only [view, hf]
    exact hsafe
  · intro t ht hne
    exact hre t hne (h.resume t ht hne)

theorem exec_inv {op : Op} {rest : List Op} (h : Inv s m) (hf : m.frames = [])
    (hp : m.pending = op :: rest) : ∃ m', m.exec op rest = .ok m' ∧ Inv s m' := by
  have hsafe := h.safe
  simp only [view, hf, hp] at hsafe
  have hsub : ∀ v, .sample v ∈ rest → Op.sample v ∈ m.pending := by
    intro v hv
    rw [hp]
    exact List.mem_cons_of_mem _ hv
  have hre : (∀ v, op ≠ .sample v) → ∀ t, t ≠ m.kernel.sched.current →
      (t ≠ s ∧ .sample t ∈ m.pending) ∨ m.resume t = continuation s t →
      (t ≠ s ∧ .sample t ∈ rest) ∨ m.resume t = continuation s t := by
    intro hop t _ ht
    rw [hp] at ht
    simpa [(hop t).symm] using ht
  cases op with
  | store => exact ⟨_, rfl, h.exec_ok hf hsafe hsub (hre (by simp))⟩
  | sti => exact ⟨_, rfl, h.exec_ok hf hsafe hsub (hre (by simp))⟩
  | cli => exact ⟨_, rfl, h.exec_ok hf hsafe hsub (hre (by simp))⟩
  | exchange => exact ⟨_, rfl, h.exec_ok hf hsafe hsub (hre (by simp))⟩
  | heap => exact ⟨_, rfl, h.exec_ok hf hsafe.2 hsub (hre (by simp))⟩
  | readFlags => exact ⟨_, rfl, h.exec_ok hf hsafe hsub (hre (by simp))⟩
  | lockExchange =>
    refine ⟨_, rfl, h.exec_ok hf ?_ hsub (hre (by simp))⟩
    rw [Function.update_self]
    exact hsafe
  | unlock =>
    simp only [Safe] at hsafe
    refine ⟨_, rfl, ?_⟩
    split_ifs at hsafe ⊢ with hb
    · apply h.exec_ok hf
      · rw [Function.update_self]
        exact hsafe
      · simpa [irqEnable] using hsub
      · simpa [irqEnable] using hre (by simp)
    · refine h.exec_ok hf ?_ hsub (hre (by simp))
      rw [Function.update_self]
      exact hsafe
  | compare =>
    obtain ⟨hcmp, hsafe⟩ := hsafe
    refine ⟨_, if_neg (not_not.mpr hcmp), h.exec_ok hf hsafe hsub (hre (by simp))⟩
  | require msg =>
    obtain ⟨hreq, hsafe⟩ := hsafe
    exact ⟨_, if_pos hreq, h.exec_ok hf hsafe hsub (hre (by simp))⟩
  | sample v =>
    refine ⟨_, rfl, h.exec_ok hf hsafe hsub ?_⟩
    intro t hne ht
    by_cases htv : t = v
    · have hts : t ≠ s := by
        intro hts
        refine hne ((h.sampled ?_).symm ▸ hts)
        rw [hp, ← hts, htv]
        exact List.mem_cons_self
      right
      rw [htv, Function.update_self, continuation, if_neg (htv ▸ hts)]
    · rw [Function.update_of_ne htv]
      rw [hp] at ht
      simpa [htv] using ht

theorem Inv.resume_eq (h : Inv s m) (hp : m.pending = []) {t : ℕ} (ht : t ∈ m.kernel.live)
    (hne : t ≠ m.kernel.sched.current) : m.resume t = continuation s t := by
  simpa [hp] using h.resume t ht hne

theorem commit_switch (ops : List Op) (h : Inv s m) (hf : m.frames = [])
    (hp : m.pending = []) {t : ℕ} (hnext : m.kernel.next act = .ok (.switchTo t, k'))
    (hk' : Kernel.Reached s k') (hlive : k'.live = m.kernel.live)
    (hops : Function.update m.resume m.kernel.sched.current
      (irqAfter m.kernel (.switchTo t)) k'.sched.current = ops)
    (hsafe : ∀ i f ls, Safe (Boundary k') ops i f ls) (hsample : ∀ v, .sample v ∉ ops)
    (hprev : m.kernel.sched.current ≠ k'.sched.current →
      irqAfter m.kernel (.switchTo t) = continuation s m.kernel.sched.current) :
    ∃ m', m.commit act = .ok m' ∧ Inv s m' := by
  rw [commit, hnext]
  refine ⟨_, rfl, hk', .inl hf, by simp, ?_, ?_, ?_⟩
  · simp only [view, hf, goal, hops]
    exact hsafe _ _ _
  · simp only [hops]
    intro hs
    exact absurd hs (hsample s)
  · intro t' ht' hne
    right
    rw [hlive] at ht'
    by_cases heq : t' = m.kernel.sched.current
    · subst heq
      exact (Function.update_self _ _ _).trans (hprev hne)
    · exact (Function.update_of_ne heq _ _).trans (h.resume_eq hp ht' heq)

theorem commit_stay (h : Inv s m) (hf : m.frames = []) (hp : m.pending = [])
    (hnext : m.kernel.next act = .ok (e, k')) (hk' : Kernel.Reached s k')
    (he : ∀ t, e ≠ .switchTo t) (hcur : k'.sched.current = m.kernel.sched.current)
    (hsafe : ∀ f, Safe (Boundary k') (irqAfter m.kernel e) m.irq f
      (m.lockers m.kernel.sched.current))
    (hlive : ∀ t ∈ k'.live, t ∉ m.kernel.live →
      t ≠ s ∧ .sample t ∈ irqAfter m.kernel e)
    (hs : .sample s ∉ irqAfter m.kernel e) :
    ∃ m', m.commit act = .ok m' ∧ Inv s m' := by
  have hcommit : m.commit act =
      .ok { m with kernel := k', pending := irqAfter m.kernel e, todo := none } := by
    rw [commit, hnext]
    cases e with
    | switchTo t => exact absurd rfl (he t)
    | _ => rfl
  refine ⟨_, hcommit, hk', .inl hf, by simp, ?_, fun hmem => absurd hmem hs, ?_⟩
  · simp only [view, hf, goal, hcur]
    exact hsafe _
  · intro t ht hne
    rw [hcur] at hne
    by_cases htl : t ∈ m.kernel.live
    · exact .inr (h.resume_eq hp htl hne)
    · exact .inl (hlive t ht htl)

theorem commit_quiet (h : Inv s m) (hf : m.frames = []) (hp : m.pending = [])
    (hnext : m.kernel.next act = .ok (e, k')) (hk' : Kernel.Reached s k')
    (he : ∀ t, e ≠ .switchTo t) (hcur : k'.sched.current = m.kernel.sched.current)
    (hsafe : ∀ f, Safe (Boundary k') (irqAfter m.kernel e) m.irq f
      (m.lockers m.kernel.sched.current))
    (hlive : k'.live ⊆ m.kernel.live) (hs : .sample s ∉ irqAfter m.kernel e) :
    ∃ m', m.commit act = .ok m' ∧ Inv s m' := by
  apply commit_stay h hf hp hnext hk' he hcur hsafe _ hs
  intro t ht htl
  exact absurd (hlive ht) htl

theorem commit_inv (h : Inv s m) (hf : m.frames = []) (hp : m.pending = [])
    (htodo : m.todo = some act) : ∃ m', m.commit act = .ok m' ∧ Inv s m' := by
  have hact := h.admissible act htodo
  obtain ⟨e, k', hnext, -, hk'⟩ := h.reached.step hact
  obtain ⟨hs, hslive, hlive, hcur⟩ := h.reached.current
  have hsafe := h.safe
  simp only [view, hf, hp, goal, htodo] at hsafe
  have hready := hsafe e k' hnext
  have hturn := Kernel.next_turn hact hlive hnext
  cases hturn with
  | start hc hc' hcur' hl =>
    simp only [hc] at hcur
    refine commit_switch (irqEnable ++
      irqIsEnabled "started scheduling with blocked interrupts") h hf hp hnext hk' hl ?_ ?_ ?_ ?_
    · rw [hcur', hs, hcur, Function.update_self]
      simp only [irqAfter, hc]
    · intro i f ls
      refine ⟨rfl, rfl, ?_⟩
      simp only [Safe, Boundary, hc']
      rfl
    · simp [irqEnable, irqIsEnabled]
    · rw [hcur', hs, hcur]
      exact fun hne => absurd rfl hne
  | @resume _ it last t hc hts hc' hcur' hl htl =>
    simp only [hc] at hcur
    rw [hs] at hts
    apply commit_switch irqEnable h hf hp hnext hk' hl
    · rw [hcur', hcur, Function.update_of_ne hts, h.resume_eq hp htl (hcur ▸ hts), continuation,
        if_neg hts]
    · intro i f ls
      apply safe_enable
      simp [Boundary, hc']
    · simp [irqEnable]
    · rw [hcur, continuation, if_pos rfl]
      simp only [irqAfter, hc, implies_true]
  | yield hc hy hc' hcur' hl =>
    simp only [hc] at hcur
    apply commit_switch (irqEnable ++ irqDisable) h hf hp hnext hk' hl
    · rw [hcur', hs, Function.update_of_ne hcur.symm, h.resume_eq hp hslive hcur.symm,
        continuation, if_pos rfl]
    · intro i f ls
      simp only [irqEnable, irqDisable, List.cons_append, List.nil_append, Safe, Boundary, hc']
      rfl
    · simp [irqEnable, irqDisable]
    · rw [continuation, if_neg hcur]
      simp only [irqAfter, hc, implies_true]
  | passBegin hc hc' hcur' hl =>
    exact commit_quiet h hf hp hnext hk' (by simp) hcur' (hready (by simp)) hl.le
      (by simp [irqAfter])
  | listEnd hc hc' hcur' hl =>
    exact commit_quiet h hf hp hnext hk' (by simp) hcur' (hready (by simp)) hl.le
      (by simp [irqAfter])
  | skip hc hc' hcur' hl =>
    exact commit_quiet h hf hp hnext hk' (by simp) hcur' (hready (by simp)) hl.le
      (by simp [irqAfter])
  | @create _ it last v hc hv hx hc' hcur' hl hx' =>
    subst hv
    have hvs : v ≠ s := by
      intro heq
      rw [heq] at hact
      exact hact.1 hslive
    apply commit_stay h hf hp hnext hk' (by simp) hcur' (hready (by simp))
    · intro t ht htl
      rw [hl, Finset.mem_insert] at ht
      have htv : t = v := ht.resolve_right htl
      rw [htv]
      exact ⟨hvs, by simp [irqAfter]⟩
    · simpa [irqAfter] using hvs.symm
  | finish hc hy hx hc' hcur' hl =>
    exact commit_quiet h hf hp hnext hk' (by simp) hcur' (hready (by simp)) hl.le
      (by simp [irqAfter])
  | delete hc hc' hcur' hl =>
    exact commit_quiet h hf hp hnext hk' (by simp) hcur' (hready (by simp)) hl
      (by simp [irqAfter, irqGuard, irqLock])
  | passEnd hc hc' hcur' hl =>
    exact commit_quiet h hf hp hnext hk' (by simp) hcur' (hready (by simp)) hl.le
      (by simp [irqAfter, irqEnable])

theorem sample_not_mem_before (v : ℕ) : .sample v ∉ irqBefore k act := by
  rw [irqBefore]
  split
  · split <;> simp [irqEnable, enterSwitch, irqIsEnabled, irqDisable]
  all_goals simp [irqDisable, irqLock, irqGuard]

theorem sample_not_mem_ops {call : IrqCall} (v : ℕ) : .sample v ∉ call.ops := by
  cases call <;> simp [IrqCall.ops, irqEnable, irqDisable, irqLock]

theorem safe_call {c : IrqCall} {it : ListIterator} {last : ℕ}
    (hctl : k.control = .switched it last) (hx : k.exited k.sched.current = false)
    (hi : i.interruptFlag = i.interruptsEnabled) : Safe (Boundary k) c.ops i f ls := by
  have hb : ∀ b ls, Boundary k ⟨b, b⟩ ls := by
    intro b ls
    simp [Boundary, hctl, hx]
  obtain ⟨a, b⟩ := i
  cases hi
  cases c with
  | enable => exact hb _ _
  | disable => exact hb _ _
  | lock => exact hb _ _
  | unlock =>
    simp only [IrqCall.ops, Safe]
    split_ifs
    · exact hb _ _
    · exact hb _ _
  | isEnabled => exact ⟨rfl, hb _ _⟩

theorem step_inv {c : IrqChoice} (h : Inv s m) (hc : m.Allowed c) :
    ∃ m', m.step c = .ok m' ∧ Inv s m' := by
  cases c with
  | run =>
    obtain ⟨hf, hne⟩ := hc
    cases hp : m.pending with
    | cons op rest =>
      simp only [step, hp]
      exact exec_inv h hf hp
    | nil =>
      cases htodo : m.todo with
      | none => simp [hp, htodo] at hne
      | some act =>
        simp only [step, hp, htodo]
        exact commit_inv h hf hp htodo
  | heapGuard =>
    obtain ⟨hf, rest, hp⟩ := hc
    have hsafe := h.safe
    simp only [view, hf, hp] at hsafe
    refine ⟨_, rfl, h.exec_ok hf ?_ ?_ ?_⟩
    · rw [hp]
      exact safe_guard _ hsafe.1 hsafe
    · simp [irqGuard, irqLock]
    · simp [irqGuard, irqLock]
  | act a =>
    obtain ⟨hf, hp, htodo, hadm, hr⟩ := hc
    have hsafe := h.safe
    simp only [view, hf, hp, goal, htodo] at hsafe
    refine ⟨_, rfl, h.reached, .inl hf, ?_, ?_, ?_, ?_⟩
    · intro act hact
      cases hact
      exact hadm
    · simp only [view, hf, goal]
      exact safe_before h.reached hadm hsafe hr
    · intro hs
      exact absurd hs (sample_not_mem_before s)
    · intro t ht hne
      exact .inr (h.resume_eq hp ht hne)
  | routine call =>
    obtain ⟨hf, hp, htodo, ⟨it, last, hctl⟩, hx⟩ := hc
    have hsafe := h.safe
    simp only [view, hf, hp, goal, htodo, Safe, Boundary, hctl] at hsafe
    refine ⟨_, rfl, h.exec_ok hf ?_ ?_ ?_⟩
    · simp only [goal, htodo]
      exact safe_call hctl hx hsafe.1
    · intro v hv
      exact absurd hv (sample_not_mem_ops v)
    · intro t _ ht
      rw [hp] at ht
      exact .inr (by simpa using ht)
  | interrupt =>
    rcases h.frames with hf | ⟨-, hflag⟩
    · refine ⟨_, rfl, h.reached, .inr ⟨?_, rfl⟩, h.admissible, ?_, h.sampled, h.resume⟩
      · rw [hf, hc]
      · have hsafe := h.safe
        simp only [view, hf] at hsafe ⊢
        exact hsafe
    · rw [hc] at hflag
      cases hflag
  | iret =>
    rcases h.frames with hf | ⟨hf, hflag⟩
    · exact absurd hf hc
    · refine ⟨_, rfl, h.reached, .inl (by simp [hf]), h.admissible, ?_, h.sampled, h.resume⟩
      have hsafe := h.safe
      simp only [view, hf] at hsafe ⊢
      exact hsafe

theorem init_inv {c t : ℕ} (hs : s ≠ 0 ∧ s < 2 ^ 32) (ht : t ≠ 0 ∧ t < 2 ^ 32) (hts : t ≠ s)
    (hk : Kernel.construct c s t = .ok k) : Inv s (init k s t) := by
  obtain ⟨hctl, hcur, htasks, hqueue⟩ := Kernel.construct_spec hs ht hts hk
  refine ⟨.start [t] hctl hcur htasks hqueue, .inl rfl, by simp [init], ?_, fun _ => hcur, ?_⟩
  · have hb : ∀ ls, Boundary k ⟨true, true⟩ ls := by
      intro ls
      simp only [Boundary, hctl]
    exact ⟨rfl, rfl, rfl, hb _⟩
  · intro t' ht' hne
    have hne : t' ≠ s := hcur ▸ hne
    have htt : t' = t := by simpa [hne] using (htasks.live t').mp ht'
    left
    rw [htt]
    exact ⟨hts, by simp [init]⟩

theorem reachable_inv {m₀ : IrqMachine} (h : Reachable m₀ m) (h0 : Inv s m₀) : Inv s m := by
  induction h with
  | init => exact h0
  | step _ hc hstep ih =>
    obtain ⟨m', hstep', hinv⟩ := step_inv ih hc
    rw [hstep] at hstep'
    cases hstep'
    exact hinv

/-- From `init_scheduling` with interrupts on no step panics: in particular flag and mirror
agree wherever `irq::is_enabled` compares them, and every call of `switch_to` finds
interrupts enabled. -/
theorem reachable_no_panic {n t : ℕ} (hs : s ≠ 0 ∧ s < 2 ^ 32) (ht : t ≠ 0 ∧ t < 2 ^ 32)
    (hts : t ≠ s) (hk : Kernel.construct n s t = .ok k) (h : Reachable (init k s t) m)
    {c : IrqChoice} (hc : m.Allowed c) : ∃ m', m.step c = .ok m' := by
  obtain ⟨m', hstep, -⟩ := step_inv (reachable_inv h (init_inv hs ht hts hk)) hc
  exact ⟨m', hstep⟩

theorem reachable_no_panic_second_task : ∃ k m m', Kernel.construct 1 4096 8192 = .ok k ∧
    Reachable (init k 4096 8192) m ∧ m.kernel.sched.current = 12288 ∧
    m.pending = .compare :: .require "switching while interrupts are disabled" :: irqDisable ∧
    m.step .run = .ok m' := by
  let choices : List IrqChoice := [.interrupt, .iret] ++ List.replicate 16 .run ++
    [(11, .yield), (3, .yield), (1, .yield), (10, .yield), (8, .createTask 12288),
      (10, .yield), (3, .yield), (5, .yield), (3, .yield), (1, .yield), (10, .yield),
      (1, .yield)].flatMap fun (n, a) => .act a :: List.replicate n .run
  have hrun : ((Kernel.construct 1 4096 8192).toOption.bind fun k =>
      (follow choices (init k 4096 8192)).map fun m =>
        (m.kernel.sched.current, m.pending, m.frames)) = some (12288,
      .compare :: .require "switching while interrupts are disabled" :: irqDisable, []) := by
    decide +kernel
  obtain ⟨k, hk⟩ : ∃ k, Kernel.construct 1 4096 8192 = .ok k := ⟨_, rfl⟩
  rw [hk] at hrun
  obtain ⟨m, hfollow, hm⟩ := Option.map_eq_some_iff.1 hrun
  simp only [Prod.mk.injEq] at hm
  obtain ⟨hcur, hpending, hframes⟩ := hm
  have hreach : Reachable (init k 4096 8192) m := Reachable.init.follow hfollow
  obtain ⟨m', hstep⟩ := reachable_no_panic (by decide) (by decide) (by decide) hk hreach
    (c := .run) ⟨hframes, .inl (by simp [hpending])⟩
  exact ⟨k, m, m', hk, hreach, hcur, hpending, hstep⟩

end IrqMachine

end Bolgenos
