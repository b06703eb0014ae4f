import Bolgenos.Sched.ContextSwitch

/-!
# Tasks over whole runs of the scheduler

A run interleaves the events of the scheduler with the computing of the task that has the
processor. Every switch of every run brings a task back to where it left: onto its stack,
with the stack as it was, its frame pointer and its flags. All other registers are those of
the task that had the processor before.
-/

namespace Bolgenos

open ByteMemory Ia32

namespace Kernel

variable {k k' : Kernel} {t : ℕ}

theorem switchTo_eq_ok (h : k.switchTo t = .ok k') :
    k' = { k with sched := { k.sched with current := t } } := by
  obtain ⟨-, -, h⟩ := Result.bind_ok.1 h
  obtain ⟨-, -, h⟩ := Result.bind_ok.1 h
  cases h
  rfl

def Effect (k : Kernel) (act : Action) (k' : Kernel) : Event → Prop
  | .switchTo t => k'.live = k.live ∧ k'.sched.current = t
  | .create t =>
    act = .createTask t ∧ k'.live = insert t k.live ∧ k'.sched.current = k.sched.current
  | .delete t => k'.live = k.live.erase t ∧ k'.sched.current = k.sched.current
  | _ => k'.live = k.live ∧ k'.sched.current = k.sched.current

variable {act : Action} {e : Event}

theorem resumeScheduler_effect {it : ListIterator} {last : ℕ}
    (h : k.resumeScheduler it last = .ok (e, k')) : Effect k act k' e := by
  obtain ⟨k₁, hyield, h⟩ := Result.bind_ok.1 h
  obtain ⟨it', -, h⟩ := Result.bind_ok.1 h
  cases h
  cases switchTo_eq_ok hyield
  exact ⟨rfl, rfl⟩

theorem next_effect (h : k.next act = .ok (e, k')) : Effect k act k' e := by
  rw [next] at h
  split at h
  · obtain ⟨k₁, hswitch, h⟩ := Result.bind_ok.1 h
    cases h
    cases switchTo_eq_ok hswitch
    exact ⟨rfl, rfl⟩
  · cases h
    exact ⟨rfl, rfl⟩
  · split_ifs at h
    · cases h
      exact ⟨rfl, rfl⟩
    · obtain ⟨-, -, h⟩ := Result.bind_ok.1 h
      obtain ⟨task, -, h⟩ := Result.bind_ok.1 h
      obtain ⟨b, -, h⟩ := Result.bind_ok.1 h
      split_ifs at h
      · obtain ⟨k₁, hswitch, h⟩ := Result.bind_ok.1 h
        cases h
        cases switchTo_eq_ok hswitch
        exact ⟨rfl, rfl⟩
      · obtain ⟨it', -, h⟩ := Result.bind_ok.1 h
        cases h
        exact ⟨rfl, rfl⟩
  · split_ifs at h
    · exact resumeScheduler_effect h
    · split at h
      · obtain ⟨k₁, hcreate, h⟩ := Result.bind_ok.1 h
        obtain ⟨l, -, hcreate⟩ := Result.bind_ok.1 hcreate
        cases h
        cases hcreate
        exact ⟨rfl, rfl, rfl⟩
      · exact resumeScheduler_effect h
      · obtain ⟨k₁, hfinish, h⟩ := Result.bind_ok.1 h
        obtain ⟨-, -, hfinish⟩ := Result.bind_ok.1 hfinish
        cases h
        cases hfinish
        exact ⟨rfl, rfl⟩
  · obtain ⟨k₁, hdelete, h⟩ := Result.bind_ok.1 h
    obtain ⟨-, -, hdelete⟩ := Result.bind_ok.1 hdelete
    obtain ⟨l, -, hdelete⟩ := Result.bind_ok.1 hdelete
    cases h
    cases hdelete
    exact ⟨rfl, rfl⟩
  · cases h
    exact ⟨rfl, rfl⟩

end Kernel

/-- What happened to the stacks: a switch with the states before and behind it, or a new task
with the state behind its creation. -/
inductive Label where
  | switch (prev next : ℕ) (before after : Cpu)
  | create (task stack : ℕ) (cpu : Cpu)

def left (es : List Label) : ℕ → Option Cpu :=
  es.foldl (fun f e => match e with
    | .switch prev _ before _ => Function.update f prev (some before)
    | .create task stack cpu => Function.update f task (some (newContext stack cpu)))
    fun _ => none

namespace TaskMachine

/-- The scheduler task stays on the stack of the boot, the other tasks have their own. -/
def area (boot : Area) (s : ℕ) (m : TaskMachine) (t : ℕ) : Area :=
  if t = s then boot else .ofStack (m.stack t)

def construct (entry : Word) (scheduler schedulerStack main mainStack : ℕ) (m : TaskMachine) :
    TaskMachine :=
  { (m.createTask entry scheduler schedulerStack).createTask entry main mainStack with
    current := scheduler }

end TaskMachine

structure Confined (boot : Area) (s : ℕ) (k : Kernel) (m : TaskMachine) (cpu : Cpu) : Prop where
  room : (m.area boot s m.current).Room cpu.esp
  others : ∀ t ∈ k.live, t ≠ m.current →
    SameOn (m.area boot s t).lo (m.area boot s t).hi m.cpu.mem cpu.mem

structure Fresh (boot : Area) (s : ℕ) (k : Kernel) (m : TaskMachine) (stack : ℕ) : Prop where
  fits : stackTop stack ≤ 2 ^ 32
  apart : ∀ t ∈ k.live, (Area.ofStack stack).Apart (m.area boot s t)

inductive Exec (entry : Word) (boot : Area) (s : ℕ) : List Label → Kernel → TaskMachine → Prop where
  | start {c main schedulerStack mainStack : ℕ} {k : Kernel} {m : TaskMachine} :
      (s ≠ 0 ∧ s < 2 ^ 32) → (main ≠ 0 ∧ main < 2 ^ 32) → main ≠ s →
      Kernel.construct c s main = .ok k → boot.Room m.cpu.esp →
      stackTop schedulerStack ≤ 2 ^ 32 → stackTop mainStack ≤ 2 ^ 32 →
      (Area.ofStack schedulerStack).Apart boot → (Area.ofStack mainStack).Apart boot →
      (Area.ofStack mainStack).Apart (.ofStack schedulerStack) →
      Exec entry boot s
        [.create main mainStack (m.construct entry s schedulerStack main mainStack).cpu] k
        (m.construct entry s schedulerStack main mainStack)
  | compute {es : List Label} {k : Kernel} {m : TaskMachine} {cpu : Cpu} :
      Exec entry boot s es k m → Confined boot s k m cpu →
      Exec entry boot s es k { m with cpu := cpu }
  | switch {es : List Label} {k k' : Kernel} {m : TaskMachine} {act : Action} {t : ℕ} :
      Exec entry boot s es k m → k.Admissible act → k.next act = .ok (.switchTo t, k') →
      Exec entry boot s (es ++ [.switch m.current t m.cpu (m.switchTo t).cpu]) k' (m.switchTo t)
  | create {es : List Label} {k k' : Kernel} {m : TaskMachine} {act : Action} {t stack : ℕ} :
      Exec entry boot s es k m → k.Admissible act → k.next act = .ok (.create t, k') →
      Fresh boot s k m stack →
      Exec entry boot s (es ++ [.create t stack (m.createTask entry t stack).cpu]) k'
        (m.createTask entry t stack)
  | other {es : List Label} {k k' : Kernel} {m : TaskMachine} {act : Action} {e : Event} :
      Exec entry boot s es k m → k.Admissible act → k.next act = .ok (e, k') →
      (∀ t, e ≠ .switchTo t) → (∀ t, e ≠ .create t) → Exec entry boot s es k' m

theorem left_switch (es : List Label) (prev next : ℕ) (before after : Cpu) :
    left (es ++ [.switch prev next before after]) =
      Function.update (left es) prev (some before) := by
  rw [left, List.foldl_append]
  rfl

theorem left_create (es : List Label) (task stack : ℕ) (cpu : Cpu) :
    left (es ++ [.create task stack cpu]) =
      Function.update (left es) task (some (newContext stack cpu)) := by
  rw [left, List.foldl_append]
  rfl

/-- The tasks that have not had the processor yet, with the stack and the state behind their
creation. -/
def unstarted (es : List Label) : ℕ → Option (ℕ × Cpu) :=
  es.foldl (fun f e => match e with
    | .switch _ next _ _ => Function.update f next none
    | .create task stack cpu => Function.update f task (some (stack, cpu)))
    fun _ => none

theorem unstarted_switch (es : List Label) (prev next : ℕ) (before after : Cpu) :
    unstarted (es ++ [.switch prev next before after]) =
      Function.update (unstarted es) next none := by
  rw [unstarted, List.foldl_append]
  rfl

theorem unstarted_create (es : List Label) (task stack : ℕ) (cpu : Cpu) :
    unstarted (es ++ [.create task stack cpu]) =
      Function.update (unstarted es) task (some (stack, cpu)) := by
  rw [unstarted, List.foldl_append]
  rfl

structure Stacked (boot : Area) (s : ℕ) (es : List Label) (k : Kernel) (m : TaskMachine) :
    Prop where
  reached : Kernel.Reached s k
  current : m.current = k.sched.current
  room : (m.area boot s m.current).Room m.cpu.esp
  apart : ∀ t ∈ k.live, ∀ t' ∈ k.live, t ≠ t' → (m.area boot s t).Apart (m.area boot s t')
  suspended : ∀ t ∈ k.live, t ≠ m.current →
    ∃ c, left es t = some c ∧ Suspended (m.area boot s t) m.cpu.mem (m.esp t) c

variable {entry : Word} {boot : Area} {s t : ℕ} {es : List Label} {k k' : Kernel}
  {m : TaskMachine} {act : Action}

theorem Stacked.current_live (h : Stacked boot s es k m) : m.current ∈ k.live := by
  rw [h.current]
  exact h.reached.current.2.2.1

theorem Stacked.compute {cpu : Cpu} (h : Stacked boot s es k m) (hc : Confined boot s k m cpu) :
    Stacked boot s es k { m with cpu := cpu } := by
  refine ⟨h.reached, h.current, hc.room, h.apart, ?_⟩
  intro t ht hne
  obtain ⟨c, hleft, hsus⟩ := h.suspended t ht hne
  exact ⟨c, hleft, hsus.sameOn (hc.others t ht hne)⟩

theorem Stacked.leave (h : Stacked boot s es k m) (next : ℕ) (after : Cpu) :
    ∀ t ∈ k.live, ∃ c, left (es ++ [.switch m.current next m.cpu after]) t = some c ∧
      Suspended (m.area boot s t) (m.cpu.pushfl.push m.cpu.ebp).mem
        (Function.update m.esp m.current (m.cpu.pushfl.push m.cpu.ebp).esp t) c := by
  intro t ht
  rw [left_switch]
  by_cases hcur : t = m.current
  · subst hcur
    rw [Function.update_self, Function.update_self]
    exact ⟨_, rfl, suspended_pushes h.room⟩
  · rw [Function.update_of_ne hcur, Function.update_of_ne hcur]
    obtain ⟨c, hleft, hsus⟩ := h.suspended t ht hcur
    have hapart := h.apart m.current h.current_live t ht (Ne.symm hcur)
    exact ⟨c, hleft, hsus.sameOn (sameOn_pushes h.room hapart)⟩

theorem area_switchTo (t' : ℕ) : (m.switchTo t).area boot s t' = m.area boot s t' := by
  rw [TaskMachine.area, TaskMachine.stack_switchTo, TaskMachine.area]

theorem Stacked.switch (h : Stacked boot s es k m) (hact : k.Admissible act)
    (hnext : k.next act = .ok (.switchTo t, k')) :
    Stacked boot s (es ++ [.switch m.current t m.cpu (m.switchTo t).cpu]) k' (m.switchTo t) ∧
      ∃ c, left (es ++ [.switch m.current t m.cpu (m.switchTo t).cpu]) t = some c ∧
        Resumes (m.area boot s t) c (m.switchTo t).cpu := by
  obtain ⟨e, k₁, hnext₁, hsafe, hreached⟩ := h.reached.step hact
  rw [hnext] at hnext₁
  cases hnext₁
  obtain ⟨hlive, hcurrent⟩ := Kernel.next_effect hnext
  have ht := (hsafe.switchTo t rfl).1
  have hleave := h.leave t (m.switchTo t).cpu
  obtain ⟨c, hleft, hsus⟩ := hleave t ht
  have hres : Resumes (m.area boot s t) c (m.switchTo t).cpu := by
    rw [TaskMachine.cpu_switchTo]
    exact hsus.resumes
  refine ⟨⟨hreached, hcurrent.symm, ?_, ?_, ?_⟩, c, hleft, hres⟩
  · rw [area_switchTo, hres.esp]
    exact hsus.room
  · intro t₁ ht₁ t₂ ht₂
    rw [hlive] at ht₁ ht₂
    rw [area_switchTo, area_switchTo]
    exact h.apart t₁ ht₁ t₂ ht₂
  · intro t' ht' hne
    rw [hlive] at ht'
    rw [area_switchTo, TaskMachine.mem_switchTo, TaskMachine.esp_switchTo]
    exact hleave t' ht'

theorem area_createTask {stack : ℕ} (hne : t ≠ s) (t' : ℕ) :
    (m.createTask entry t stack).area boot s t' =
      if t' = t then .ofStack stack else m.area boot s t' := by
  simp only [TaskMachine.area, TaskMachine.createTask, Function.update_apply]
  by_cases h : t' = t
  · subst h
    simp [hne]
  · simp [h]

theorem Stacked.create {stack : ℕ} (h : Stacked boot s es k m) (hact : k.Admissible act)
    (hnext : k.next act = .ok (.create t, k')) (hfresh : Fresh boot s k m stack) :
    Stacked boot s (es ++ [.create t stack (m.createTask entry t stack).cpu]) k'
      (m.createTask entry t stack) := by
  obtain ⟨e, k₁, hnext₁, -, hreached⟩ := h.reached.step hact
  rw [hnext] at hnext₁
  cases hnext₁
  obtain ⟨rfl, hlive, hcurrent⟩ := Kernel.next_effect hnext
  obtain ⟨hnew, -, -⟩ := hact
  have hts : t ≠ s := fun heq => hnew (heq ▸ h.reached.current.2.1)
  have hcur : m.current ≠ t := fun heq => hnew (heq ▸ h.current_live)
  have hold {t' : ℕ} (ht' : t' ∈ k.live) :
      (m.createTask entry t stack).area boot s t' = m.area boot s t' := by
    rw [area_createTask hts, if_neg (fun heq : t' = t => hnew (heq ▸ ht'))]
  have harea : (m.createTask entry t stack).area boot s t = .ofStack stack := by
    rw [area_createTask hts, if_pos rfl]
  obtain ⟨mem, hcpu, hsus, -, hframe⟩ :=
    TaskMachine.createTask_suspended entry t hfresh.fits h.room
      (hfresh.apart m.current h.current_live)
  refine ⟨hreached, h.current.trans hcurrent.symm, ?_, ?_, ?_⟩
  · rw [TaskMachine.current_createTask, hold h.current_live, hcpu]
    exact h.room
  · intro t₁ ht₁ t₂ ht₂ hne
    rw [hlive, Finset.mem_insert] at ht₁ ht₂
    rcases ht₁ with rfl | ht₁
    · have ht₂ := ht₂.resolve_left (Ne.symm hne)
      rw [harea, hold ht₂]
      exact hfresh.apart t₂ ht₂
    · rcases ht₂ with rfl | ht₂
      · rw [harea, hold ht₁]
        exact (hfresh.apart t₁ ht₁).symm
      · rw [hold ht₁, hold ht₂]
        exact h.apart t₁ ht₁ t₂ ht₂ hne
  · intro t' ht' hne
    rw [hlive, Finset.mem_insert] at ht'
    rw [TaskMachine.current_createTask] at hne
    rw [left_create, hcpu]
    by_cases heq : t' = t
    · subst heq
      rw [harea, Function.update_self]
      exact ⟨_, rfl, hsus⟩
    · have ht' := ht'.resolve_left heq
      rw [hold ht', Function.update_of_ne heq, TaskMachine.esp_createTask_of_ne heq]
      obtain ⟨c, hleft, hsus'⟩ := h.suspended t' ht' hne
      exact ⟨c, hleft, hsus'.sameOn (hframe _ (h.apart _ h.current_live t' ht' (Ne.symm hne))
        (hfresh.apart t' ht'))⟩

theorem Stacked.other {e : Event} (h : Stacked boot s es k m) (hact : k.Admissible act)
    (hnext : k.next act = .ok (e, k')) (hswitch : ∀ t, e ≠ .switchTo t)
    (hcreate : ∀ t, e ≠ .create t) : Stacked boot s es k' m := by
  obtain ⟨e₁, k₁, hnext₁, -, hreached⟩ := h.reached.step hact
  rw [hnext] at hnext₁
  cases hnext₁
  have heffect : k'.live ⊆ k.live ∧ k'.sched.current = k.sched.current := by
    have heffect := Kernel.next_effect hnext
    cases e with
    | switchTo t => exact absurd rfl (hswitch t)
    | create t => exact absurd rfl (hcreate t)
    | delete t => exact ⟨heffect.1 ▸ Finset.erase_subset t k.live, heffect.2⟩
    | finish t | skip t | passBegin | listEnd | passEnd => exact ⟨heffect.1 ▸ subset_rfl, heffect.2⟩
  exact ⟨hreached, h.current.trans heffect.2.symm, h.room,
    fun t ht t' ht' => h.apart t (heffect.1 ht) t' (heffect.1 ht'),
    fun t ht => h.suspended t (heffect.1 ht)⟩

theorem stacked_construct {c main schedulerStack mainStack : ℕ} (hs : s ≠ 0 ∧ s < 2 ^ 32)
    (hmain : main ≠ 0 ∧ main < 2 ^ 32) (hne : main ≠ s) (hk : Kernel.construct c s main = .ok k)
    (hroom : boot.Room m.cpu.esp) (hfits : stackTop mainStack ≤ 2 ^ 32)
    (hapart : (Area.ofStack mainStack).Apart boot) :
    Stacked boot s
      [.create main mainStack (m.construct entry s schedulerStack main mainStack).cpu] k
      (m.construct entry s schedulerStack main mainStack) := by
  obtain ⟨hcontrol, hcurrent, htasks, hqueue⟩ := Kernel.construct_spec hs hmain hne hk
  have hroom₁ : boot.Room (m.createTask entry s schedulerStack).cpu.esp := by
    rw [TaskMachine.esp_cpu_createTask]
    exact hroom
  obtain ⟨mem', hcpu', hsus, -⟩ :=
    TaskMachine.createTask_suspended entry main hfits hroom₁ hapart
  set m' := m.construct entry s schedulerStack main mainStack with hm'
  have hcpum : m'.cpu = { (m.createTask entry s schedulerStack).cpu with mem := mem' } := hcpu'
  have hboot : m'.area boot s s = boot := if_pos rfl
  have harea : m'.area boot s main = .ofStack mainStack := by
    rw [TaskMachine.area, if_neg hne, hm']
    simp only [TaskMachine.construct, TaskMachine.createTask, Function.update_self]
  have hlive {t : ℕ} (ht : t ∈ k.live) : t = s ∨ t = main := by
    simpa using (htasks.live t).1 ht
  refine ⟨.start _ hcontrol hcurrent htasks hqueue, hcurrent.symm, ?_, ?_, ?_⟩
  · change (m'.area boot s s).Room m'.cpu.esp
    rw [hboot, hcpum]
    exact hroom₁
  · intro t ht t' ht' htt
    rcases hlive ht with rfl | rfl
    · rw [(hlive ht').resolve_left (Ne.symm htt), hboot, harea]
      exact hapart.symm
    · rw [(hlive ht').resolve_right (Ne.symm htt), hboot, harea]
      exact hapart
  · intro t ht hcur
    rw [(hlive ht).resolve_left hcur, harea]
    exact ⟨_, left_create [] main mainStack m'.cpu ▸ Function.update_self main _ _, hcpum ▸ hsus⟩

theorem Exec.stacked (h : Exec entry boot s es k m) : Stacked boot s es k m := by
  induction h with
  | start hs hmain hne hk hroom _ hfits _ hapart =>
    exact stacked_construct hs hmain hne hk hroom hfits hapart
  | compute _ hconfined ih => exact ih.compute hconfined
  | switch _ hact hnext ih => exact (ih.switch hact hnext).1
  | create _ hact hnext hfresh ih => exact ih.create hact hnext hfresh
  | other _ hact hnext hswitch hcreate ih => exact ih.other hact hnext hswitch hcreate

/-- Whatever the tasks have done: a switch brings the next task back to the stack, the frame
pointer and the flags it left with, and all other registers stay as the previous task has them,
also those that a function has to preserve. -/
theorem switch_resumes (h : Exec entry boot s es k m) (hact : k.Admissible act)
    (hnext : k.next act = .ok (.switchTo t, k')) :
    ∃ c, left (es ++ [.switch m.current t m.cpu (m.switchTo t).cpu]) t = some c ∧
      Resumes (m.area boot s t) c (m.switchTo t).cpu ∧
      (m.switchTo t).cpu = { m.cpu with
        esp := (m.switchTo t).cpu.esp
        ebp := (m.switchTo t).cpu.ebp
        eflags := (m.switchTo t).cpu.eflags
        mem := (m.switchTo t).cpu.mem } := by
  obtain ⟨c, hleft, hres⟩ := (h.stacked.switch hact hnext).2
  refine ⟨c, hleft, hres, ?_⟩
  rw [TaskMachine.cpu_switchTo, popEbp_popfl]
  rfl

theorem exec_first_pass : ∃ es k k' k'' m, Exec 0x100000 ⟨0x6000, 0x8000⟩ 4096 es k m ∧
    m.current = 4096 ∧ k.next .yield = .ok (.switchTo 8192, k') ∧
    k'.next .yield = .ok (.switchTo 4096, k'') ∧ (unstarted es 8192).isSome := by
  have hyield : ∀ k : Kernel, k.Admissible .yield := fun _ => trivial
  have hstart : Exec 0x100000 ⟨0x6000, 0x8000⟩ 4096 _ _
      (TaskMachine.construct 0x100000 4096 0x10000 8192 0x20000
        { cpu := { esp := 0x7000 }, stack := fun _ => 0, esp := fun _ => 0, current := 0 }) :=
    .start (c := 1) (by decide) (by decide) (by decide) rfl (by decide) (by decide) (by decide)
      (by decide) (by decide) (by decide)
  have hself := hstart.switch (hyield _) rfl
  have hpass := hself.other (e := .passBegin) (hyield _) rfl nofun nofun
  have hskip := hpass.other (e := .skip 4096) (hyield _) rfl nofun nofun
  refine ⟨_, _, _, _, _, hskip, rfl, rfl, rfl, ?_⟩
  rw [unstarted_switch]
  rfl

theorem switch_resumes_scheduler : ∃ m m' : TaskMachine, m.current = 4096 ∧
    m'.current = 8192 ∧ m'.cpu = { (m.switchTo 8192).cpu with ebp := 0, ebx := 7 } ∧
    (m'.switchTo 4096).cpu.esp = m.cpu.esp ∧ (m'.switchTo 4096).cpu.ebp = m.cpu.ebp ∧
    (m'.switchTo 4096).cpu.ebx = 7 := by
  obtain ⟨es, k, k', k'', m, hrun, hcurrent, hto, hback, -⟩ := exec_first_pass
  have hyield : ∀ k : Kernel, k.Admissible .yield := fun _ => trivial
  have hmain := hrun.switch (hyield k) hto
  have hspoil : Exec 0x100000 ⟨0x6000, 0x8000⟩ 4096 _ k' { m.switchTo 8192 with
      cpu := { (m.switchTo 8192).cpu with ebp := 0, ebx := 7 } } :=
    hmain.compute ⟨hmain.stacked.room, fun _ _ _ _ _ _ => rfl⟩
  obtain ⟨c, hleft, hres, hcpu⟩ := switch_resumes hspoil (hyield k') hback
  have hother : 4096 ≠ (m.switchTo 8192).current := by
    change 4096 ≠ 8192
    decide
  rw [left_switch, Function.update_of_ne hother, left_switch, hcurrent,
    Function.update_self] at hleft
  cases hleft
  exact ⟨m, _, hcurrent, rfl, rfl, hres.esp, hres.ebp, congrArg (fun c => c.ebx) hcpu⟩

structure Unstarted (entry : Word) (s : ℕ) (es : List Label) (m : TaskMachine) (t stack : ℕ)
    (cpu : Cpu) : Prop where
  ne_scheduler : t ≠ s
  ne_current : t ≠ m.current
  stack_eq : m.stack t = stack
  fits : stackTop stack ≤ 2 ^ 32
  left_eq : left es t = some (newContext stack cpu)
  holds : Holds cpu.mem (newContext stack cpu).esp.toNat [.ofNat 32 stack - 8, entry, .ofNat 32 t]

theorem holds_createTask {stack : ℕ} {a : Area} (hfits : stackTop stack ≤ 2 ^ 32)
    (hroom : a.Room m.cpu.esp) (hapart : (Area.ofStack stack).Apart a) :
    Holds (m.createTask entry t stack).cpu.mem
      (newContext stack (m.createTask entry t stack).cpu).esp.toNat
      [.ofNat 32 stack - 8, entry, .ofNat 32 t] := by
  obtain ⟨mem, hcpu, -, hholds, -⟩ :=
    TaskMachine.createTask_suspended entry t hfits hroom hapart
  rw [hcpu]
  exact hholds

theorem stack_createTask (m : TaskMachine) (t stack : ℕ) :
    (m.createTask entry t stack).stack = Function.update m.stack t stack := rfl

theorem Exec.unstarted (h : Exec entry boot s es k m) {stack : ℕ} {cpu : Cpu}
    (ht : unstarted es t = some (stack, cpu)) : Unstarted entry s es m t stack cpu := by
  induction h generalizing stack cpu with
  | @start c main schedulerStack mainStack k m _ _ hne _ hroom _ hfits _ hapart _ =>
    have hroom₁ : boot.Room (m.createTask entry s schedulerStack).cpu.esp := by
      rw [TaskMachine.esp_cpu_createTask]
      exact hroom
    rw [← List.nil_append [_], unstarted_create, Function.update_apply] at ht
    split_ifs at ht with heq
    · cases ht
      subst heq
      refine ⟨hne, hne, Function.update_self .., hfits, ?_, holds_createTask hfits hroom₁ hapart⟩
      rw [← List.nil_append [_], left_create, Function.update_self]
    · cases ht
  | compute _ hconfined ih =>
    have h' := ih ht
    exact ⟨h'.ne_scheduler, h'.ne_current, h'.stack_eq, h'.fits, h'.left_eq, h'.holds⟩
  | @switch es k k' m act next hrun hact hnext ih =>
    rw [unstarted_switch, Function.update_apply] at ht
    split_ifs at ht with hne
    have h' := ih ht
    refine ⟨h'.ne_scheduler, hne, h'.stack_eq, h'.fits, ?_, h'.holds⟩
    rw [left_switch, Function.update_of_ne h'.ne_current]
    exact h'.left_eq
  | @create es k k' m act task stack' hrun hact hnext hfresh ih =>
    rw [unstarted_create, Function.update_apply] at ht
    have hstacked := hrun.stacked
    obtain ⟨rfl, -, -⟩ := Kernel.next_effect hnext
    split_ifs at ht with heq
    · cases ht
      subst heq
      refine ⟨fun heq => hact.1 (heq ▸ hstacked.reached.current.2.1),
        fun heq => hact.1 (heq ▸ hstacked.current_live), Function.update_self .., hfresh.fits, ?_,
        holds_createTask hfresh.fits hstacked.room
          (hfresh.apart m.current hstacked.current_live)⟩
      rw [left_create, Function.update_self]
    · have h' := ih ht
      refine ⟨h'.ne_scheduler, h'.ne_current, ?_, h'.fits, ?_, h'.holds⟩
      · rw [stack_createTask, Function.update_of_ne heq]
        exact h'.stack_eq
      · rw [left_create, Function.update_of_ne heq]
        exact h'.left_eq
  | other _ hact hnext hswitch hcreate ih => exact ih ht

/-- Whatever the tasks do between the creation of a task and the first switch to it: behind a
switch in a function with a frame pointer it starts with `start_on_new_frame`, which calls
`wrapperForRun` with the task for its argument, on a stack that holds nothing but the address
to return to, with the flags of its creation. -/
theorem new_task_starts (h : Exec entry boot s es k m) (hact : k.Admissible act)
    (hnext : k.next act = .ok (.switchTo t, k')) {stack : ℕ} {cpu : Cpu}
    (hnew : unstarted es t = some (stack, cpu)) (wrapperForRun returnAddress : Word) :
    (frameEpilogue (m.switchTo t).cpu).eip = entry ∧
      ∃ u, startOnNewFrame wrapperForRun returnAddress (frameEpilogue (m.switchTo t).cpu) = u ∧
        u.eip = wrapperForRun ∧ u.ecx = .ofNat 32 t ∧ u.ebp = .ofNat 32 stack - 8 ∧
        u.esp = .ofNat 32 (stackTop stack) - 4 ∧ u.top = returnAddress ∧
        u.eflags &&& Cpu.loadedFlags = cpu.eflags &&& Cpu.loadedFlags := by
  have hun := h.unstarted hnew
  obtain ⟨c, hleft, hres⟩ := (h.stacked.switch hact hnext).2
  rw [left_switch, Function.update_of_ne hun.ne_current, hun.left_eq] at hleft
  cases hleft
  have hsize : stackTop stack = 65536 + stack := Nat.add_comm _ _
  have hfits := hun.fits
  have hesp : (newContext stack cpu).esp.toNat = stackTop stack - 12 :=
    TaskMachine.toNat_below (n := 12) (by omega) (by omega) hfits
  have harea : m.area boot s t = .ofStack stack := by
    rw [TaskMachine.area, if_neg hun.ne_scheduler, hun.stack_eq]
  have hstack := hres.stack
  rw [harea, newContext, mem_onStack, ← newContext] at hstack
  have heflags := hres.eflags
  rw [newContext, eflags_onStack] at heflags
  have hholds : Holds (m.switchTo t).cpu.mem (m.switchTo t).cpu.esp.toNat
      [.ofNat 32 stack - 8, entry, .ofNat 32 t] := by
    rw [hres.esp]
    apply hun.holds.sameOn hstack le_rfl
    change _ + 12 ≤ stackTop stack
    omega
  have hroom : (m.switchTo t).cpu.esp.toNat + 12 ≤ 2 ^ 32 := by
    rw [hres.esp]
    omega
  obtain ⟨heip, hstart⟩ := frameEpilogue_startOnNewFrame hholds hroom wrapperForRun returnAddress
  refine ⟨heip, _, hstart, rfl, rfl, rfl, ?_, ?_, heflags⟩
  · change (m.switchTo t).cpu.esp + 8 = _
    rw [hres.esp, newContext, onStack]
    simp only
    bv_omega
  · exact loadWord_storeWord _ _ _

theorem new_task_starts_main : ∃ m : TaskMachine,
    (frameEpilogue (m.switchTo 8192).cpu).eip = 0x100000 ∧
      (startOnNewFrame 0x100100 0x100010 (frameEpilogue (m.switchTo 8192).cpu)).ecx = 8192 := by
  obtain ⟨es, k, k', -, m, hrun, -, hto, -, hsome⟩ := exec_first_pass
  obtain ⟨⟨stack, cpu⟩, hnew⟩ := Option.isSome_iff_exists.mp hsome
  have hyield : k.Admissible .yield := trivial
  obtain ⟨heip, u, hu, -, hecx, -⟩ := new_task_starts hrun hyield hto hnew 0x100100 0x100010
  refine ⟨m, heip, ?_⟩
  rw [hu, hecx]
  rfl

end Bolgenos
