import Bolgenos.Lib.Ia32
import Bolgenos.Sched.SchedulerIrq

/-!
# Switching the stacks of the tasks

The scheduler of `Kernel` decides which task runs; this module follows its events on the
processor. `switch_tasks_impl` leaves the stack pointer, the frame pointer and the flags of a
task on the stack of this task and takes those of the next one from the other stack, and
`create_task` lays out a stack as if the new task had left the processor there. Between two
events the running task computes what it likes, on its own stack.
-/

namespace Bolgenos

open ByteMemory Ia32

def stackPages : ℕ := 16

def stackTop (stack : ℕ) : ℕ := stack + pageSize * stackPages

structure TaskMachine where
  cpu : Cpu
  stack : ℕ → ℕ
  esp : ℕ → Word
  current : ℕ

namespace TaskMachine

def flags (s : Cpu) : Word × Cpu :=
  let s := s.pushfl
  (s.top, s.addEsp 4)

/-- The fields of a `NewTaskStack` at the address that are assigned before its flags. They lie in
the order `ebp2`, `flags`, `ebp1`, `eip`, `task`. -/
def layOut (m : Mem) (newTaskStack ebp1 eip task : Word) : Mem :=
  let m := storeWord m (newTaskStack + 12).toNat eip
  let m := storeWord m (newTaskStack + 16).toNat task
  let m := storeWord m (newTaskStack + 8).toNat ebp1
  storeWord m newTaskStack.toNat ebp1

/-- The constructor of `Task` with the stack the allocator returned, and what `create_task` lays
out on it. -/
def createTask (startOnNewFrame : Word) (task stack : ℕ) (k : TaskMachine) : TaskMachine :=
  let newTaskStack : Word := .ofNat 32 (stackTop stack) - 20
  let mem := layOut k.cpu.mem newTaskStack (.ofNat 32 stack - 8) startOnNewFrame (.ofNat 32 task)
  let (flags, cpu) := flags { k.cpu with mem := mem }
  { k with
    cpu := { cpu with mem := storeWord cpu.mem (newTaskStack + 4).toNat flags }
    stack := Function.update k.stack task stack
    esp := Function.update k.esp task newTaskStack }

/-- The assembler block; what the compiler puts before and behind it is part of the tasks. -/
def switchTasksImpl (prev next : ℕ) (k : TaskMachine) : TaskMachine :=
  let s := k.cpu.pushfl.push k.cpu.ebp
  let esp := Function.update k.esp prev s.esp
  let s := { s with esp := esp next }
  { k with cpu := s.popEbp.popfl, esp := esp }

def switchTo (task : ℕ) (k : TaskMachine) : TaskMachine :=
  switchTasksImpl k.current task { k with current := task }

end TaskMachine

def frameEpilogue (s : Cpu) : Cpu := s.popEbp.ret

/-- `Task::start_on_new_frame` up to the entry of `wrapperForRun`. -/
def startOnNewFrame (wrapperForRun returnAddress : Word) (s : Cpu) : Cpu :=
  { s.popEcx.push returnAddress with eip := wrapperForRun }

structure Area where
  lo : ℕ
  hi : ℕ

namespace Area

def Apart (a b : Area) : Prop := a.hi ≤ b.lo ∨ b.hi ≤ a.lo

instance (a b : Area) : Decidable (a.Apart b) :=
  inferInstanceAs (Decidable (a.hi ≤ b.lo ∨ b.hi ≤ a.lo))

theorem Apart.symm {a b : Area} (h : a.Apart b) : b.Apart a := Or.symm h

def ofStack (stack : ℕ) : Area := ⟨stack, stackTop stack⟩

def Room (a : Area) (esp : Word) : Prop := a.lo + 8 ≤ esp.toNat ∧ esp.toNat ≤ a.hi

instance (a : Area) (esp : Word) : Decidable (a.Room esp) :=
  inferInstanceAs (Decidable (a.lo + 8 ≤ esp.toNat ∧ esp.toNat ≤ a.hi))

end Area

structure Suspended (a : Area) (m : Mem) (esp : Word) (c : Cpu) : Prop where
  room : a.Room c.esp
  esp_eq : esp = c.esp - 8
  saved : Holds m esp.toNat [c.ebp, c.flagsImage]
  stack : SameOn c.esp.toNat a.hi c.mem m

structure Resumes (a : Area) (c u : Cpu) : Prop where
  esp : u.esp = c.esp
  ebp : u.ebp = c.ebp
  eflags : u.eflags &&& Cpu.loadedFlags = c.eflags &&& Cpu.loadedFlags
  stack : SameOn c.esp.toNat a.hi c.mem u.mem

variable {a b : Area} {m m' : Mem} {esp : Word} {c s : Cpu}

theorem Suspended.toNat_esp (h : Suspended a m esp c) : esp.toNat = c.esp.toNat - 8 := by
  have hroom := h.room.1
  rw [h.esp_eq, BitVec.toNat_sub_of_le]
  · rfl
  · change 8 ≤ c.esp.toNat
    omega

theorem Suspended.sameOn (h : Suspended a m esp c) (hm : SameOn a.lo a.hi m m') :
    Suspended a m' esp c := by
  have hroom := h.room
  have hesp := h.toNat_esp
  rw [Area.Room] at hroom
  have hsaved : Holds m' esp.toNat [c.ebp, c.flagsImage] := by
    apply h.saved.sameOn hm (by omega)
    change esp.toNat + 8 ≤ a.hi
    omega
  exact ⟨h.room, h.esp_eq, hsaved, h.stack.trans (hm.mono (by omega) le_rfl)⟩

theorem suspended_pushes (hroom : a.Room s.esp) :
    Suspended a (s.pushfl.push s.ebp).mem (s.pushfl.push s.ebp).esp s := by
  have hroom8 : 8 ≤ s.esp.toNat := by
    have := hroom.1
    omega
  have hholds : Holds (s.pushAll [s.ebp, s.flagsImage]).mem _ [s.ebp, s.flagsImage] :=
    Cpu.holds_pushAll hroom8
  exact ⟨hroom, Cpu.esp_pushAll s [s.ebp, s.flagsImage], hholds,
    Cpu.sameOn_pushAll [s.ebp, s.flagsImage] hroom8 (Or.inr le_rfl)⟩

theorem sameOn_pushes (hroom : a.Room s.esp) (hapart : a.Apart b) :
    SameOn b.lo b.hi s.mem (s.pushfl.push s.ebp).mem := by
  rw [Area.Room] at hroom
  rw [Area.Apart] at hapart
  apply Cpu.sameOn_pushAll [s.ebp, s.flagsImage]
  · change 8 ≤ s.esp.toNat
    omega
  · change b.hi ≤ s.esp.toNat - 8 ∨ s.esp.toNat ≤ b.lo
    omega

theorem loadedFlags_popfl (v w : Word) :
    (v &&& 0xfcffff &&& Cpu.loadedFlags ||| w &&& 0xffda802a) &&& Cpu.loadedFlags =
      v &&& Cpu.loadedFlags := by
  rw [BitVec.and_or_distrib_right, BitVec.and_assoc, BitVec.and_assoc, BitVec.and_assoc,
    show (0xffda802a &&& Cpu.loadedFlags : Word) = 0#32 by decide, BitVec.and_zero,
    BitVec.or_zero]
  congr 1

theorem popEbp_popfl (s : Cpu) (esp : Word) :
    ({ s with esp := esp } : Cpu).popEbp.popfl =
      { s with
        esp := esp + 4 + 4
        ebp := loadWord s.mem esp.toNat
        eflags := loadWord s.mem (esp + 4).toNat &&& Cpu.loadedFlags |||
          s.eflags &&& 0xffda802a } := by
  simp only [Cpu.popEbp, Cpu.popfl, Cpu.addEsp, Cpu.top]

theorem frameEpilogue_startOnNewFrame {w₀ w₁ w₂ : Word}
    (h : Holds s.mem s.esp.toNat [w₀, w₁, w₂]) (hfits : s.esp.toNat + 12 ≤ 2 ^ 32)
    (wrapperForRun returnAddress : Word) :
    (frameEpilogue s).eip = w₁ ∧
      startOnNewFrame wrapperForRun returnAddress (frameEpilogue s) =
        { s with
          esp := s.esp + 8
          ebp := w₀
          eip := wrapperForRun
          ecx := w₂
          mem := storeWord s.mem (s.esp + 8).toNat returnAddress } := by
  have h4 : (s.esp + 4).toNat = s.esp.toNat + 4 := by bv_omega
  have h8 : (s.esp + 4 + 4).toNat = s.esp.toNat + 8 := by bv_omega
  have hw₁ : loadWord s.mem (s.esp + 4).toNat = w₁ := by
    rw [h4]
    exact h.2.1
  have hw₂ : loadWord s.mem (s.esp + 4 + 4).toNat = w₂ := by
    rw [h8]
    exact h.2.2.1
  have hback : s.esp + 4 + 4 + 4 - 4 = s.esp + 8 := by bv_omega
  refine ⟨hw₁, ?_⟩
  simp only [startOnNewFrame, frameEpilogue, Cpu.popEcx, Cpu.ret, Cpu.popEbp, Cpu.push, Cpu.addEsp,
    Cpu.top, hw₂, hback, h.1]

theorem Suspended.resumes (h : Suspended a s.mem esp c) :
    Resumes a c ({ s with esp := esp } : Cpu).popEbp.popfl := by
  have hnext : (esp + 4).toNat = esp.toNat + 4 := by
    have hroom := h.room.1
    have hesp := h.toNat_esp
    have hlt := c.esp.isLt
    rw [BitVec.toNat_add, Nat.mod_eq_of_lt]
    · rfl
    · change esp.toNat + 4 < 2 ^ 32
      omega
  have hflags : loadWord s.mem (esp + 4).toNat = c.flagsImage := by
    rw [hnext]
    exact h.saved.2.1
  rw [popEbp_popfl]
  constructor
  · rw [h.esp_eq]
    bv_omega
  · exact h.saved.1
  · simp only [hflags, Cpu.flagsImage]
    exact loadedFlags_popfl c.eflags s.eflags
  · exact h.stack

def onStack (s : Cpu) (esp ebp : Word) : Cpu := { s with esp := esp, ebp := ebp }

theorem flagsImage_onStack (s : Cpu) (esp ebp : Word) :
    (onStack s esp ebp).flagsImage = s.flagsImage := rfl

theorem mem_onStack (s : Cpu) (esp ebp : Word) : (onStack s esp ebp).mem = s.mem := rfl

theorem eflags_onStack (s : Cpu) (esp ebp : Word) : (onStack s esp ebp).eflags = s.eflags := rfl

def newContext (stack : ℕ) (s : Cpu) : Cpu :=
  onStack s (.ofNat 32 (stackTop stack) - 12) (.ofNat 32 stack - 8)

namespace TaskMachine

variable {base ebp1 eip arg : Word} {lo hi : ℕ}

theorem toNat_field (h : base.toNat + 20 ≤ 2 ^ 32) {i : ℕ} (hi : i < 20) :
    (base + .ofNat 32 i).toNat = base.toNat + i := by
  rw [BitVec.toNat_add, BitVec.toNat_ofNat, Nat.mod_eq_of_lt (a := i) (by omega),
    Nat.mod_eq_of_lt (by omega)]

theorem sameOn_layOut (h : base.toNat + 20 ≤ 2 ^ 32)
    (hapart : hi ≤ base.toNat ∨ base.toNat + 20 ≤ lo) :
    SameOn lo hi m (layOut m base ebp1 eip arg) := by
  have h8 := toNat_field h (i := 8) (by omega)
  have h12 := toNat_field h (i := 12) (by omega)
  have h16 := toNat_field h (i := 16) (by omega)
  simp only [layOut, BitVec.ofNat_eq_ofNat, h8, h12, h16]
  exact ((sameOn_storeWord (by omega)).trans (sameOn_storeWord (by omega))).trans
    ((sameOn_storeWord (by omega)).trans (sameOn_storeWord (by omega)))

theorem holds_layOut (h : base.toNat + 20 ≤ 2 ^ 32) :
    loadWord (layOut m base ebp1 eip arg) base.toNat = ebp1 ∧
      Holds (layOut m base ebp1 eip arg) (base.toNat + 8) [ebp1, eip, arg] := by
  have h8 := toNat_field h (i := 8) (by omega)
  have h12 := toNat_field h (i := 12) (by omega)
  have h16 := toNat_field h (i := 16) (by omega)
  simp only [layOut, BitVec.ofNat_eq_ofNat, h8, h12, h16]
  -- a word is what the last write to its address left
  have hread {m : Mem} {a b : ℕ} {v : Word} (hab : a + 4 ≤ b ∨ b + 4 ≤ a) :
      loadWord (storeWord m b v) a = loadWord m a := by
    have hsame : SameOn a (a + 4) m (storeWord m b v) := sameOn_storeWord hab
    exact hsame.load le_rfl le_rfl
  refine ⟨loadWord_storeWord _ _ _, ?_, ?_, ?_, trivial⟩
  · rw [hread (by omega), loadWord_storeWord]
  · rw [hread (by omega), hread (by omega), hread (by omega), loadWord_storeWord]
  · rw [hread (by omega), hread (by omega), loadWord_storeWord]

variable {k : TaskMachine} {entry : Word} {task stack : ℕ}

theorem toNat_below {x n : ℕ} (hn : 0 < n) (hx : n ≤ x) (hfits : x ≤ 2 ^ 32) :
    (.ofNat 32 x - .ofNat 32 n : Word).toNat = x - n := by
  rw [BitVec.toNat_sub, BitVec.toNat_ofNat, BitVec.toNat_ofNat]
  omega

theorem flags_eq (s : Cpu) :
    flags s = (s.flagsImage, { s with mem := storeWord s.mem (s.esp - 4).toNat s.flagsImage }) := by
  simp only [flags, Cpu.pushfl, Cpu.push, Cpu.addEsp, Cpu.top, loadWord_storeWord,
    BitVec.sub_add_cancel]

theorem esp_cpu_createTask : (k.createTask entry task stack).cpu.esp = k.cpu.esp := by
  simp only [createTask, flags_eq]

/-- A new stack is laid out as that of a task that has left, and nothing else is written but the
word below the stack pointer. -/
theorem createTask_suspended (entry : Word) (task : ℕ) (hfits : stackTop stack ≤ 2 ^ 32)
    (hroom : a.Room k.cpu.esp) (hapart : (Area.ofStack stack).Apart a) :
    ∃ mem, (k.createTask entry task stack).cpu = { k.cpu with mem := mem } ∧
      Suspended (.ofStack stack) mem ((k.createTask entry task stack).esp task)
        (newContext stack { k.cpu with mem := mem }) ∧
      Holds mem (newContext stack k.cpu).esp.toNat
        [.ofNat 32 stack - 8, entry, .ofNat 32 task] ∧
      ∀ b, a.Apart b → (Area.ofStack stack).Apart b → SameOn b.lo b.hi k.cpu.mem mem := by
  have hsize : stackTop stack = 65536 + stack := Nat.add_comm _ _
  have hbase : (.ofNat 32 (stackTop stack) - .ofNat 32 20 : Word).toNat = stackTop stack - 20 :=
    toNat_below (by omega) (by omega) hfits
  have htop : (newContext stack k.cpu).esp.toNat = stackTop stack - 12 :=
    toNat_below (n := 12) (by omega) (by omega) hfits
  have hapart' : stackTop stack ≤ a.lo ∨ a.hi ≤ stack := hapart
  rw [Area.Room] at hroom
  have hbelow : (k.cpu.esp - 4).toNat = k.cpu.esp.toNat - 4 := by
    rw [BitVec.toNat_sub_of_le]
    · rfl
    · change 4 ≤ k.cpu.esp.toNat
      omega
  set base : Word := .ofNat 32 (stackTop stack) - .ofNat 32 20 with hbase_eq
  have hend : base.toNat + 20 ≤ 2 ^ 32 := by omega
  have h4 : (base + 4).toNat = base.toNat + 4 := toNat_field hend (i := 4) (by omega)
  set mem₁ := layOut k.cpu.mem base (.ofNat 32 stack - 8) entry (.ofNat 32 task)
  set mem₂ := storeWord mem₁ (k.cpu.esp - 4).toNat k.cpu.flagsImage
  set mem₃ := storeWord mem₂ (base + 4).toNat k.cpu.flagsImage
  have hcpu : (k.createTask entry task stack).cpu = { k.cpu with mem := mem₃ } := by
    simp only [createTask, flags_eq]
    rfl
  have hesp : (k.createTask entry task stack).esp task = base := by
    simp only [createTask, Function.update_self]
    exact hbase_eq.symm
  have hlaid : loadWord mem₁ base.toNat = .ofNat 32 stack - 8 ∧
      Holds mem₁ (base.toNat + 8) [.ofNat 32 stack - 8, entry, .ofNat 32 task] :=
    holds_layOut hend
  obtain ⟨hebp2, hargs⟩ := hlaid
  have hpush : SameOn base.toNat (base.toNat + 20) mem₁ mem₂ := sameOn_storeWord (by omega)
  have hsaved : Holds mem₃ base.toNat [.ofNat 32 stack - 8, k.cpu.flagsImage] := by
    refine ⟨?_, ?_, trivial⟩
    · have hsame : SameOn base.toNat (base.toNat + 4) mem₁ mem₃ :=
        (hpush.mono le_rfl (by omega)).trans (sameOn_storeWord (by omega))
      exact (hsame.load le_rfl le_rfl).trans hebp2
    · rw [← h4]
      exact loadWord_storeWord _ _ _
  have hrest : Holds mem₃ (base.toNat + 8) [.ofNat 32 stack - 8, entry, .ofNat 32 task] := by
    have hsame : SameOn (base.toNat + 8) (base.toNat + 20) mem₁ mem₃ :=
      (hpush.mono (by omega) le_rfl).trans (sameOn_storeWord (by omega))
    apply hargs.sameOn hsame le_rfl
    simp only [List.length_cons, List.length_nil]
    omega
  refine ⟨mem₃, hcpu, ⟨⟨?_, ?_⟩, ?_, ?_, fun _ _ _ => rfl⟩, ?_, ?_⟩
  · change stack + 8 ≤ (newContext stack k.cpu).esp.toNat
    omega
  · change (newContext stack k.cpu).esp.toNat ≤ stackTop stack
    omega
  · rw [hesp, hbase_eq, newContext, onStack]
    simp only
    bv_omega
  · rw [hesp, newContext, flagsImage_onStack]
    exact hsaved
  · rw [htop, show stackTop stack - 12 = base.toNat + 8 by omega]
    exact hrest
  · intro b hb hstack
    rw [Area.Apart] at hb
    have hstack' : stackTop stack ≤ b.lo ∨ b.hi ≤ stack := hstack
    exact ((sameOn_layOut hend (by omega)).trans (sameOn_storeWord (by omega))).trans
      (sameOn_storeWord (by omega))

theorem current_createTask : (k.createTask entry task stack).current = k.current := rfl

theorem esp_createTask_of_ne {t : ℕ} (h : t ≠ task) :
    (k.createTask entry task stack).esp t = k.esp t := by
  simp only [createTask, Function.update_of_ne h]

theorem cpu_switchTo (k : TaskMachine) (task : ℕ) :
    (k.switchTo task).cpu = ({ k.cpu.pushfl.push k.cpu.ebp with
      esp := Function.update k.esp k.current (k.cpu.pushfl.push k.cpu.ebp).esp task } :
        Cpu).popEbp.popfl :=
  rfl

theorem stack_switchTo (k : TaskMachine) (task : ℕ) : (k.switchTo task).stack = k.stack := by
  rw [switchTo, switchTasksImpl]

theorem esp_switchTo (k : TaskMachine) (task : ℕ) :
    (k.switchTo task).esp =
      Function.update k.esp k.current (k.cpu.pushfl.push k.cpu.ebp).esp :=
  rfl

theorem mem_switchTo (k : TaskMachine) (task : ℕ) :
    (k.switchTo task).cpu.mem = (k.cpu.pushfl.push k.cpu.ebp).mem := by
  rw [cpu_switchTo, popEbp_popfl]

end TaskMachine

end Bolgenos
