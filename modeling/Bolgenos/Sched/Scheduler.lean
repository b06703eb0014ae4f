import Bolgenos.Sched.CircularIntrusiveList
import Mathlib.Data.Finset.Basic

/-!
# The scheduler

Tasks are switched only by calls of `switch_to`, so at every moment one task runs and all
others stand inside such a call. The loop of `schedule_forever` is cut at its calls:
`Control` says where the scheduler task stands, `Kernel.next` makes the next step of the
task that runs, and `Action` is the choice of a task routine between two calls into the
scheduler. A step reports as an `Event` what it did.
-/

namespace Bolgenos

open CircularIntrusiveList

structure Scheduler where
  tasks : CircularIntrusiveList := {}
  finishedTasks : List ℕ := []
  schedulerTask : ℕ := 0
  current : ℕ := 0

inductive Control where
  -- in `start_scheduling`, before the switch into itself
  | start
  -- at the top of the endless loop
  | idle
  -- in the loop over the tasks, with the iterator and the element of the end marker
  | iterating (it : ListIterator) (last : ℕ)
  -- in the call of `switch_to` in that loop
  | switched (it : ListIterator) (last : ℕ)
  -- in `handle_finished_tasks`, with the tasks still to be visited
  | deleting (rest : List ℕ)

/-- `live` are the `Task` objects that were created and not deleted, `exited` is their
field of this name. -/
structure Kernel where
  sched : Scheduler := {}
  exited : ℕ → Bool := fun _ => false
  live : Finset ℕ := ∅
  control : Control := .start

/-- What a routine does next; the allocator places a new task at the given address. -/
inductive Action where
  | createTask (task : ℕ)
  | yield
  | ret
  deriving DecidableEq, Repr

inductive Event where
  | switchTo (task : ℕ)
  | create (task : ℕ)
  | finish (task : ℕ)
  | delete (task : ℕ)
  | skip (task : ℕ)
  | passBegin
  | listEnd
  | passEnd
  deriving DecidableEq, Repr

namespace Kernel

/-- Every use of a `Task` object through a pointer. -/
def access (k : Kernel) (task : ℕ) : Result Unit :=
  if task ∈ k.live then .ok () else .error .useAfterFree

def createTask (k : Kernel) (task : ℕ) : Result Kernel := do
  let tasks ← k.sched.tasks.insert task
  .ok { k with
    sched := { k.sched with tasks := tasks }
    exited := Function.update k.exited task false
    live := insert task k.live }

def construct (mainContinuation scheduler main : ℕ) : Result Kernel :=
  if mainContinuation = 0 then .error (.panic "no main specified")
  else do
    let k ← createTask {} scheduler
    let k := { k with sched := { k.sched with schedulerTask := scheduler } }
    let k ← createTask k main
    .ok { k with sched := { k.sched with current := k.sched.schedulerTask } }

def switchTo (k : Kernel) (task : ℕ) : Result Kernel := do
  k.access k.sched.current
  k.access task
  .ok { k with sched := { k.sched with current := task } }

def yield (k : Kernel) : Result Kernel := k.switchTo k.sched.schedulerTask

def shouldSchedule (k : Kernel) (task : ℕ) : Result Bool :=
  if task = k.sched.schedulerTask then .ok false
  else do
    k.access task
    .ok (!k.exited task)

/-- The end of `Task::run` up to the switch: the store to `_exited` and the part of
`handle_exit` under the lock. -/
def finish (k : Kernel) (task : ℕ) : Result Kernel := do
  k.access task
  .ok { k with
    sched := { k.sched with finishedTasks := task :: k.sched.finishedTasks }
    exited := Function.update k.exited task true }

def advance (k : Kernel) (it : ListIterator) : Result ListIterator := do
  k.access it.node
  k.sched.tasks.advance it

def deleteTask (k : Kernel) (task : ℕ) : Result Kernel := do
  k.access task
  let (_, tasks) ← k.sched.tasks.remove task
  .ok { k with sched := { k.sched with tasks := tasks }, live := k.live.erase task }

def resumeScheduler (k : Kernel) (it : ListIterator) (last : ℕ) : Result (Event × Kernel) := do
  let k ← k.yield
  let it ← k.advance it
  .ok (.switchTo k.sched.schedulerTask, { k with control := .iterating it last })

def next (k : Kernel) (act : Action) : Result (Event × Kernel) :=
  match k.control with
  | .start => do
    let k ← k.switchTo k.sched.schedulerTask
    .ok (.switchTo k.sched.schedulerTask, { k with control := .idle })
  | .idle => .ok (.passBegin, { k with
      control := .iterating k.sched.tasks.begin_ k.sched.tasks.some })
  | .iterating it last =>
    if atEnd it last then
      .ok (.listEnd, { k with control := .deleting k.sched.finishedTasks })
    else do
      k.access it.node
      let task ← deref it
      if ← k.shouldSchedule task then
        let k ← k.switchTo task
        .ok (.switchTo task, { k with control := .switched it last })
      else
        let it ← k.advance it
        .ok (.skip task, { k with control := .iterating it last })
  | .switched it last =>
    -- a task behind `handle_exit` only yields
    if k.exited k.sched.current then k.resumeScheduler it last
    else match act with
      | .createTask task => do
        let k ← k.createTask task
        .ok (.create task, k)
      | .yield => k.resumeScheduler it last
      | .ret => do
        let k ← k.finish k.sched.current
        .ok (.finish k.sched.current, k)
  | .deleting (task :: rest) => do
    let k ← k.deleteTask task
    .ok (.delete task, { k with control := .deleting rest })
  | .deleting [] =>
    .ok (.passEnd, { k with sched := { k.sched with finishedTasks := [] }, control := .idle })

/-- The allocator returns the address of a fresh object. -/
def Admissible (k : Kernel) : Action → Prop
  | .createTask task => task ∉ k.live ∧ task ≠ 0 ∧ task < 2 ^ 32
  | _ => True

instance (k : Kernel) (act : Action) : Decidable (k.Admissible act) :=
  match act with
  | .createTask task => inferInstanceAs (Decidable (task ∉ k.live ∧ task ≠ 0 ∧ task < 2 ^ 32))
  | .yield | .ret => .isTrue trivial

inductive Run : Kernel → List Event → Kernel → Prop
  | nil (k : Kernel) : Run k [] k
  | step {k k' k'' : Kernel} {es : List Event} {act : Action} {e : Event} :
      Run k es k' → k'.Admissible act → k'.next act = .ok (e, k'') → Run k (es ++ [e]) k''

end Kernel

def resumed (s : ℕ) : List Event → List ℕ :=
  List.filterMap fun
    | .switchTo task => if task = s then none else some task
    | _ => none

def created : List Event → List ℕ :=
  List.filterMap fun
    | .create task => some task
    | _ => none

def finished : List Event → List ℕ :=
  List.filterMap fun
    | .finish task => some task
    | _ => none

def deleted : List Event → List ℕ :=
  List.filterMap fun
    | .delete task => some task
    | _ => none

end Bolgenos
