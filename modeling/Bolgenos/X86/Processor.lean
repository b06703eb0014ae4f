import Bolgenos.X86.Idt

/-!
# The tables of the processor

`Processor::load_kernel_segments` fills the global descriptor table, makes the processor use it
and loads the segment registers and the task register; `load_interrupts_table` makes it use the
interrupt table.
-/

namespace Bolgenos

open ByteMemory Bitfields Ia32

namespace Segments

def null : MemorySegmentDescriptor :=
  .make 0x0 0x0 SegmentType.null .null .null .null .null .null .null

def kernelCode : MemorySegmentDescriptor :=
  .make 0x0 0xfffff (SegmentType.code ||| SegmentType.codeRead) .codeOrData .kernel .present
    .other .db32Bit .fourKPages

def kernelData : MemorySegmentDescriptor :=
  .make 0x0 0xfffff (SegmentType.data ||| SegmentType.dataWrite) .codeOrData .kernel .present
    .other .db32Bit .fourKPages

/-- The task state segment has 104 bytes. -/
def singleTaskDescriptor (singleTask : UInt32) : TaskStateSegmentDescriptor :=
  .make singleTask (104 - 1) false .kernel .present .bytes

end Segments

/-- Why a function on the tables did not return: the kernel panicked or the processor raised an
exception. -/
inductive SegmentFault where
  | kernel (fault : Fault)
  | exception
  deriving DecidableEq, Repr

def raised {α : Type} : Option α → Except SegmentFault α
  | some x => .ok x
  | none => .error .exception

structure Processor where
  gdt : GDT
  idt : IDT
  cpu : Cpu

def dataSelector : BitVec 16 := .ofNat 16 kernelDataSelector

def taskSelector : BitVec 16 :=
  .ofNat 16 (segmentSelector SegmentIndex.singleTask.value .global .kernel)

def reloadSegmentRegisters (cpu : Cpu) : Option Cpu := do
  let cpu ← cpu.loadData dataSelector
  let cpu ← { cpu with ds := dataSelector }.loadData dataSelector
  let cpu ← { cpu with es := dataSelector }.loadData dataSelector
  let cpu ← { cpu with ss := dataSelector }.loadData dataSelector
  let cpu ← { cpu with fs := dataSelector }.loadData dataSelector
  { cpu with gs := dataSelector }.ljmp codeSelector

def initTaskRegister (cpu : Cpu) : Option Cpu := cpu.ltr taskSelector

namespace Processor

def kernelEntries (singleTask : UInt32) : List Entry :=
  [.memorySegment Segments.null, .memorySegment Segments.kernelCode,
    .memorySegment Segments.kernelData, .task (Segments.singleTaskDescriptor singleTask)]

theorem length_kernelEntries (singleTask : UInt32) : (kernelEntries singleTask).length = 4 := rfl

def pushEntries (g : GDT) (m : Mem) : List Entry → Result (GDT × Mem)
  | [] => .ok (g, m)
  | e :: es => do
    let (_, g, m) ← g.pushBack m e
    pushEntries g m es

def loadKernelSegments (p : Processor) (singleTask : UInt32) : Except SegmentFault Processor := do
  let (gdt, m) ← (pushEntries p.gdt p.cpu.mem (kernelEntries singleTask)).mapError .kernel
  let gdt := gdt.reloadTable
  let cpu := { p.cpu with mem := m, gdtr := gdt.gdtPointer }
  let cpu ← raised (reloadSegmentRegisters cpu)
  let cpu ← raised (initTaskRegister cpu)
  return { p with gdt := gdt, cpu := cpu }

def loadInterruptsTable (p : Processor) : Processor := { p with cpu := p.idt.reloadTable p.cpu }

end Processor

def flatSegment (type : ℕ) : Segment where
  base := 0
  limit := 0xfffff
  type := type
  isCodeOrData := true
  dpl := 0
  present := true
  isLong := false
  is32 := true
  inPages := true

def taskSegment (singleTask : UInt32) (type : ℕ) : Segment where
  base := singleTask.toNat
  limit := 103
  type := type
  isCodeOrData := false
  dpl := 0
  present := true
  isLong := false
  is32 := false
  inPages := false

/-- The table in memory with the types of the code, the data and the task segment, which the
processor changes. -/
structure KernelTable (gdtr : TableRegister) (singleTask : UInt32) (code data task : ℕ) (m : Mem) :
    Prop where
  limit : 31 ≤ gdtr.limit
  code : Segment.read (read64 m (gdtr.base + 8 * 1)) = flatSegment code
  data : Segment.read (read64 m (gdtr.base + 8 * 2)) = flatSegment data
  task : Segment.read (read64 m (gdtr.base + 8 * 3)) = taskSegment singleTask task

def OnlyEntries (base n : ℕ) (m m' : Mem) : Prop :=
  ∀ x, x < base ∨ base + 8 * n ≤ x → m' x = m x

theorem OnlyEntries.trans {base n : ℕ} {m m' m'' : Mem} (h : OnlyEntries base n m m')
    (h' : OnlyEntries base n m' m'') : OnlyEntries base n m m'' :=
  fun x hx => (h' x hx).trans (h x hx)

theorem onlyEntries_setType {base n i : ℕ} (hi : i < n) (m : Mem) (flags : BitVec 8) :
    OnlyEntries base n m (Cpu.setType m (base + 8 * i) flags) :=
  fun _ hx => write8_of_ne (by omega)

variable {singleTask : UInt32} {code data task : ℕ} {s : Cpu}

theorem selectorIndex_codeSelector : selectorIndex codeSelector = 1 := by decide

theorem selectorIndex_dataSelector : selectorIndex dataSelector = 2 := by decide

theorem selectorIndex_taskSelector : selectorIndex taskSelector = 3 := by decide

namespace KernelTable

theorem segment_code (h : KernelTable s.gdtr singleTask code data task s.mem) :
    s.segment codeSelector = some (flatSegment code) :=
  have hlimit := h.limit
  Cpu.segment_eq selectorIndex_codeSelector (by decide) (by decide) (by omega) h.code rfl

theorem segment_data (h : KernelTable s.gdtr singleTask code data task s.mem) :
    s.segment dataSelector = some (flatSegment data) :=
  have hlimit := h.limit
  Cpu.segment_eq selectorIndex_dataSelector (by decide) (by decide) (by omega) h.data rfl

theorem segment_task (h : KernelTable s.gdtr singleTask code data task s.mem) :
    s.segment taskSelector = some (taskSegment singleTask task) :=
  have hlimit := h.limit
  Cpu.segment_eq selectorIndex_taskSelector (by decide) (by decide) (by omega) h.task rfl

theorem loadData (h : KernelTable s.gdtr singleTask code data task s.mem)
    (hdata : data = 2 ∨ data = 3) :
    ∃ m, s.loadData dataSelector = some { s with mem := m } ∧
      KernelTable s.gdtr singleTask code 3 task m ∧ OnlyEntries s.gdtr.base 4 s.mem m := by
  have hwritable : (flatSegment data).isWritableData = true := by
    rcases hdata with rfl | rfl <;> decide
  have htype : data ||| (1#8).toNat = 3 := by
    rcases hdata with rfl | rfl <;> decide
  refine ⟨_, Cpu.loadData_eq h.segment_data hwritable rfl, ?_⟩
  rw [selectorIndex_dataSelector]
  refine ⟨⟨h.limit, ?_, ?_, ?_⟩, onlyEntries_setType (by decide) s.mem 1⟩
  · rw [Cpu.read64_setType_frame (by omega), h.code]
  · rw [Cpu.read_setType _ _ (by decide), h.data]
    exact congrArg flatSegment htype
  · rw [Cpu.read64_setType_frame (by omega), h.task]

theorem ljmp (h : KernelTable s.gdtr singleTask code data task s.mem)
    (hcode : code = 10 ∨ code = 11) :
    ∃ m, s.ljmp codeSelector = some { s with cs := codeSelector, mem := m } ∧
      KernelTable s.gdtr singleTask 11 data task m ∧ OnlyEntries s.gdtr.base 4 s.mem m := by
  have hisCode : (flatSegment code).isCode = true := by
    rcases hcode with rfl | rfl <;> decide
  have htype : code ||| (1#8).toNat = 11 := by
    rcases hcode with rfl | rfl <;> decide
  refine ⟨_, Cpu.ljmp_eq (Cpu.codeSegment_eq h.segment_code hisCode rfl), ?_⟩
  rw [selectorIndex_codeSelector]
  refine ⟨⟨h.limit, ?_, ?_, ?_⟩, onlyEntries_setType (by decide) s.mem 1⟩
  · rw [Cpu.read_setType _ _ (by decide), h.code]
    exact congrArg flatSegment htype
  · rw [Cpu.read64_setType_frame (by omega), h.data]
  · rw [Cpu.read64_setType_frame (by omega), h.task]

theorem ltr (h : KernelTable s.gdtr singleTask code data 9 s.mem) :
    ∃ m, s.ltr taskSelector = some { s with tr := taskSelector, mem := m } ∧
      KernelTable s.gdtr singleTask code data 11 m ∧ OnlyEntries s.gdtr.base 4 s.mem m := by
  have htype : 9 ||| (2#8).toNat = 11 := by decide
  refine ⟨_, (Cpu.ltr_eq h.segment_task).trans (if_pos rfl), ?_⟩
  rw [selectorIndex_taskSelector]
  refine ⟨⟨h.limit, ?_, ?_, ?_⟩, onlyEntries_setType (by decide) s.mem 2⟩
  · rw [Cpu.read64_setType_frame (by omega), h.code]
  · rw [Cpu.read64_setType_frame (by omega), h.data]
  · rw [Cpu.read_setType _ _ (by decide), h.task]
    exact congrArg (taskSegment singleTask) htype

theorem ltr_busy (h : KernelTable s.gdtr singleTask code data 11 s.mem) :
    s.ltr taskSelector = none :=
  (Cpu.ltr_eq h.segment_task).trans (if_neg Bool.false_ne_true)

theorem mono {gdtr gdtr' : TableRegister} {m m' : Mem}
    (h : KernelTable gdtr singleTask code data task m) (hlimit : 31 ≤ gdtr'.limit)
    (hbase : gdtr'.base = gdtr.base) (hsame : SameOn gdtr.base (gdtr.base + 32) m m') :
    KernelTable gdtr' singleTask code data task m' := by
  refine ⟨hlimit, ?_, ?_, ?_⟩ <;> rw [hbase]
  · rw [read64_congr fun x hx hx' => hsame x (by omega) (by omega), h.code]
  · rw [read64_congr fun x hx hx' => hsame x (by omega) (by omega), h.data]
  · rw [read64_congr fun x hx hx' => hsame x (by omega) (by omega), h.task]

theorem reloadSegmentRegisters (h : KernelTable s.gdtr singleTask code data task s.mem)
    (hdata : data = 2 ∨ data = 3) (hcode : code = 10 ∨ code = 11) :
    ∃ m, reloadSegmentRegisters s = some { s with
        ds := dataSelector, es := dataSelector, ss := dataSelector, fs := dataSelector,
        gs := dataSelector, cs := codeSelector, mem := m } ∧
      KernelTable s.gdtr singleTask 11 3 task m ∧ OnlyEntries s.gdtr.base 4 s.mem m := by
  obtain ⟨m1, h1, ht1, ho1⟩ := h.loadData hdata
  obtain ⟨m2, h2, ht2, ho2⟩ := loadData
    (s := { s with ds := dataSelector, mem := m1 }) ht1 (.inr rfl)
  obtain ⟨m3, h3, ht3, ho3⟩ := loadData
    (s := { s with ds := dataSelector, es := dataSelector, mem := m2 }) ht2 (.inr rfl)
  obtain ⟨m4, h4, ht4, ho4⟩ := loadData (s := { s with
    ds := dataSelector, es := dataSelector, ss := dataSelector, mem := m3 }) ht3 (.inr rfl)
  obtain ⟨m5, h5, ht5, ho5⟩ := loadData (s := { s with
    ds := dataSelector, es := dataSelector, ss := dataSelector, fs := dataSelector, mem := m4 })
    ht4 (.inr rfl)
  obtain ⟨m6, h6, ht6, ho6⟩ := ljmp (s := { s with
    ds := dataSelector, es := dataSelector, ss := dataSelector, fs := dataSelector,
    gs := dataSelector, mem := m5 }) ht5 hcode
  refine ⟨m6, ?_, ht6, ho1.trans (ho2.trans (ho3.trans (ho4.trans (ho5.trans ho6))))⟩
  simp only [Bolgenos.reloadSegmentRegisters, h1, h2, h3, h4, h5, h6, Option.bind_eq_bind,
    Option.bind_some]

end KernelTable

namespace Processor

theorem pushEntries_ok {g : GDT} (m : Mem) (es : List Entry)
    (h : g.gdt.size + es.length ≤ 1024) :
    ∃ g' m', pushEntries g m es = .ok (g', m') ∧ g'.gdt.data = g.gdt.data ∧
      g'.gdt.size = g.gdt.size + es.length ∧
      (∀ i e, es[i]? = some e → read64 m' (g.gdt.data + 8 * (g.gdt.size + i)) = e.bits) ∧
      OnlyEntries (g.gdt.data + 8 * g.gdt.size) es.length m m' := by
  induction es generalizing g m with
  | nil => exact ⟨g, m, rfl, rfl, rfl, by simp, fun _ _ => rfl⟩
  | cons e es ih =>
    rw [List.length_cons] at h
    have hlt : g.gdt.size < 1024 := by omega
    set g₁ : GDT := { g with gdt := { g.gdt with size := g.gdt.size + 1, size_le := hlt } } with hg₁
    set m₁ := write64 m (g.gdt.data + 8 * g.gdt.size) e.bits with hm₁
    obtain ⟨g', m', hpush, hdata, hsize, hread, hsame⟩ := ih (g := g₁) (m := m₁)
      (show g.gdt.size + 1 + es.length ≤ 1024 by omega)
    refine ⟨g', m', ?_, hdata, ?_, ?_, ?_⟩
    · rw [pushEntries, GDT.pushBack_of_lt hlt m e]
      exact hpush
    · rw [hsize, List.length_cons]
      change g.gdt.size + 1 + es.length = _
      omega
    · intro i e' hi
      cases i with
      | zero =>
        obtain rfl : e = e' := Option.some.inj hi
        rw [Nat.add_zero, read64_congr fun x hx hx' => hsame x (Or.inl ?_)]
        · exact read64_write64 e.bits_lt
        · change x < g.gdt.data + 8 * (g.gdt.size + 1)
          omega
      | succ i =>
        rw [show g.gdt.size + (i + 1) = g.gdt.size + 1 + i by omega]
        exact hread i e' hi
    · intro x hx
      rw [List.length_cons] at hx
      have hsame' : m' x = m₁ x := hsame x (by
        change x < g.gdt.data + 8 * (g.gdt.size + 1) ∨
          g.gdt.data + 8 * (g.gdt.size + 1) + 8 * es.length ≤ x
        omega)
      rw [hsame']
      exact write64_frame (by omega)

theorem kernelTable_of_fresh {g : GDT} (hfresh : g.gdt.size = 0) (m : Mem) (singleTask : UInt32) :
    ∃ g' m', pushEntries g m (kernelEntries singleTask) = .ok (g', m') ∧ g'.gdt.size = 4 ∧
      KernelTable g'.reloadTable.gdtPointer singleTask 10 2 9 m' ∧
      g'.gdt.data = g.gdt.data ∧ OnlyEntries g.gdt.data 4 m m' := by
  obtain ⟨g', m', hpush, hdata, hsize, hread, honly⟩ := pushEntries_ok (g := g) m
    (kernelEntries singleTask) (by rw [hfresh, length_kernelEntries]; decide)
  rw [hfresh, length_kernelEntries] at hsize
  rw [hfresh, length_kernelEntries] at honly
  rw [hfresh] at hread
  have hlimit : g'.reloadTable.gdtPointer.limit = 31 :=
    (congrArg GDT.tableLimit hsize).trans (GDT.tableLimit_eq (by decide) (by decide))
  refine ⟨g', m', hpush, hsize, ⟨hlimit.ge, ?_, ?_, ?_⟩, hdata, honly⟩
  all_goals change Segment.read (read64 m' (g'.gdt.data + _)) = _; rw [hdata]
  · rw [hread 1 _ rfl]
    exact MemorySegmentDescriptor.read_bits_make _ _ _ _ _ _ _ _ _
  · rw [hread 2 _ rfl]
    exact MemorySegmentDescriptor.read_bits_make _ _ _ _ _ _ _ _ _
  · rw [hread 3 _ rfl]
    exact TaskStateSegmentDescriptor.read_bits_make _ _ _ _ _ _

def withKernelSegments (cpu : Cpu) (gdtr : TableRegister) (m : Mem) : Cpu :=
  { cpu with
    gdtr := gdtr, ds := dataSelector, es := dataSelector, ss := dataSelector, fs := dataSelector,
    gs := dataSelector, cs := codeSelector, tr := taskSelector, mem := m }

theorem loadKernelSegments_of_fresh {p : Processor} (hfresh : p.gdt.gdt.size = 0)
    (singleTask : UInt32) :
    ∃ (g : GDT) (m : Mem), p.loadKernelSegments singleTask = .ok { p with
        gdt := g.reloadTable, cpu := withKernelSegments p.cpu g.reloadTable.gdtPointer m } ∧
      g.gdt.size = 4 ∧ KernelTable g.reloadTable.gdtPointer singleTask 11 3 11 m ∧
      g.gdt.data = p.gdt.gdt.data ∧ OnlyEntries p.gdt.gdt.data 4 p.cpu.mem m := by
  obtain ⟨g, m, hpush, hsize, htable, hdata, honly⟩ :=
    kernelTable_of_fresh hfresh p.cpu.mem singleTask
  obtain ⟨m₁, hload, htable₁, honly₁⟩ := KernelTable.reloadSegmentRegisters
    (s := { p.cpu with mem := m, gdtr := g.reloadTable.gdtPointer }) htable (.inl rfl) (.inl rfl)
  obtain ⟨m₂, htask, htable₂, honly₂⟩ := KernelTable.ltr (s := { p.cpu with
    gdtr := g.reloadTable.gdtPointer, ds := dataSelector, es := dataSelector, ss := dataSelector,
    fs := dataSelector, gs := dataSelector, cs := codeSelector, mem := m₁ }) htable₁
  have hbase : g.reloadTable.gdtPointer.base = p.gdt.gdt.data := hdata
  simp only [hbase] at honly₁ honly₂
  refine ⟨g, m₂, ?_, hsize, htable₂, hdata, honly.trans (honly₁.trans honly₂)⟩
  simp only [loadKernelSegments, hpush, hload, htask, initTaskRegister, raised, Except.mapError,
    bind, Except.bind, pure, Except.pure, withKernelSegments]

theorem loadKernelSegments_of_busy {p : Processor} (hsize : 4 ≤ p.gdt.gdt.size)
    (hfits : p.gdt.gdt.size + 4 ≤ 1024) {singleTask : UInt32} {gdtr : TableRegister}
    (hbase : gdtr.base = p.gdt.gdt.data) (htable : KernelTable gdtr singleTask 11 3 11 p.cpu.mem)
    (task : UInt32) : p.loadKernelSegments task = .error .exception := by
  obtain ⟨g, m, hpush, hdata, hsize', -, hsame⟩ := pushEntries_ok p.cpu.mem
    (kernelEntries task) hfits
  rw [length_kernelEntries] at hsize'
  have hlimit : 31 ≤ g.reloadTable.gdtPointer.limit := by
    change 31 ≤ GDT.tableLimit g.gdt.size
    rw [GDT.tableLimit_eq (by omega) (by omega)]
    omega
  have htable' : KernelTable g.reloadTable.gdtPointer singleTask 11 3 11 m :=
    htable.mono hlimit (hdata.trans hbase.symm) fun x _ hx => hsame x (by omega)
  obtain ⟨m₁, hload, htable₁, -⟩ := KernelTable.reloadSegmentRegisters
    (s := { p.cpu with mem := m, gdtr := g.reloadTable.gdtPointer }) htable' (.inr rfl) (.inr rfl)
  have htask := KernelTable.ltr_busy (s := { p.cpu with
    gdtr := g.reloadTable.gdtPointer, ds := dataSelector, es := dataSelector, ss := dataSelector,
    fs := dataSelector, gs := dataSelector, cs := codeSelector, mem := m₁ }) htable₁
  simp only [loadKernelSegments, hpush, hload, htask, initTaskRegister, raised, Except.mapError,
    bind, Except.bind]

/-- From an empty table the segment registers get flat segments of the highest privilege level
and the task register the kernel's task. The processor marks the segments as used, so that a
second call ends in an exception. -/
theorem loadKernelSegments_once {p : Processor} (hfresh : p.gdt.gdt.size = 0)
    (singleTask : UInt32) :
    ∃ p', p.loadKernelSegments singleTask = .ok p' ∧
      p'.cpu.cs = codeSelector ∧ p'.cpu.ds = dataSelector ∧ p'.cpu.es = dataSelector ∧
      p'.cpu.ss = dataSelector ∧ p'.cpu.fs = dataSelector ∧ p'.cpu.gs = dataSelector ∧
      p'.cpu.tr = taskSelector ∧
      p'.cpu.segment codeSelector = some (flatSegment 11) ∧
      p'.cpu.segment dataSelector = some (flatSegment 3) ∧
      p'.cpu.segment taskSelector = some (taskSegment singleTask 11) ∧
      ∀ task, p'.loadKernelSegments task = .error .exception := by
  obtain ⟨g, m, hload, hsize, htable, -, -⟩ := loadKernelSegments_of_fresh hfresh singleTask
  refine ⟨_, hload, rfl, rfl, rfl, rfl, rfl, rfl, rfl, ?_, ?_, ?_, fun task => ?_⟩
  · exact KernelTable.segment_code
      (s := withKernelSegments p.cpu g.reloadTable.gdtPointer m) htable
  · exact KernelTable.segment_data
      (s := withKernelSegments p.cpu g.reloadTable.gdtPointer m) htable
  · exact KernelTable.segment_task
      (s := withKernelSegments p.cpu g.reloadTable.gdtPointer m) htable
  · have hsize' : g.reloadTable.gdt.size = 4 := hsize
    have hfits : g.reloadTable.gdt.size + 4 ≤ 1024 := by omega
    exact loadKernelSegments_of_busy hsize'.ge hfits rfl htable task

theorem loadKernelSegments_once_at_start :
    ∃ p', loadKernelSegments
        { gdt := { gdt := .empty 0x1000 }, idt := { idt := 0, idtPointer := {} }, cpu := {} }
          0x5000 = .ok p' ∧
      p'.loadKernelSegments 0x5000 = .error .exception := by
  obtain ⟨p', hok, -, -, -, -, -, -, -, -, -, -, hagain⟩ := loadKernelSegments_once
    (p := { gdt := { gdt := .empty 0x1000 }, idt := { idt := 0, idtPointer := {} }, cpu := {} })
    rfl 0x5000
  exact ⟨p', hok, hagain 0x5000⟩

/-- With both tables loaded the kernel can be interrupted. -/
theorem interruptible_loaded {p : Processor} (m : Mem) (idt hi : ℕ)
    (asmIrqHandlers : UInt8 → UInt32) (hfresh : p.gdt.gdt.size = 0)
    (hidt : p.idt = (IDT.make m idt asmIrqHandlers).1)
    (hmem : SameOn idt (idt + 2048) (IDT.make m idt asmIrqHandlers).2 p.cpu.mem)
    (hapart : p.gdt.gdt.data + 32 ≤ idt ∨ idt + 2048 ≤ p.gdt.gdt.data)
    (hroom : 60 ≤ p.cpu.esp.toNat) (htop : p.cpu.esp.toNat ≤ hi)
    (hstack : p.gdt.gdt.data + 16 ≤ p.cpu.esp.toNat - 60 ∨ p.cpu.esp.toNat ≤ p.gdt.gdt.data + 8)
    (singleTask : UInt32) :
    ∃ p', p.loadKernelSegments singleTask = .ok p' ∧
      Interruptible asmIrqHandlers hi p'.loadInterruptsTable.cpu ∧
      p'.loadInterruptsTable.cpu.eip = p.cpu.eip ∧
      p'.loadInterruptsTable.cpu.eflags = p.cpu.eflags := by
  obtain ⟨g, m', hload, hsize, htable, hdata, honly⟩ :=
    loadKernelSegments_of_fresh hfresh singleTask
  have hcode := KernelTable.segment_code (s := p.idt.reloadTable
    (withKernelSegments p.cpu g.reloadTable.gdtPointer m')) htable
  have hdescriptor : codeDescriptor (p.idt.reloadTable
      (withKernelSegments p.cpu g.reloadTable.gdtPointer m')) = p.gdt.gdt.data + 8 := by
    rw [codeDescriptor, selectorIndex_codeSelector]
    exact congrArg (· + 8) hdata
  refine ⟨_, hload, ⟨?_, ?_, rfl, hroom, htop, ?_⟩, rfl, rfl⟩
  · change IDT.Loaded asmIrqHandlers (p.idt.reloadTable _)
    rw [hidt]
    exact IDT.loaded_reloadTable m idt asmIrqHandlers _ (hmem.trans fun x hx hx' =>
      honly x (by omega))
  · exact ⟨flatSegment 11, Cpu.codeSegment_eq hcode rfl rfl, rfl⟩
  · change codeDescriptor (p.idt.reloadTable _) + 8 ≤ p.cpu.esp.toNat - 60 ∨
      p.cpu.esp.toNat ≤ codeDescriptor (p.idt.reloadTable _)
    rw [hdescriptor]
    exact hstack

/-- The processor has the table of the boot, and the room below the stack pointer holds nothing
of it. -/
structure Segmented (singleTask : UInt32) (s : Cpu) : Prop where
  limit : s.gdtr.limit = 31
  table : KernelTable s.gdtr singleTask 11 3 11 s.mem
  apart : s.gdtr.base + 32 ≤ s.esp.toNat - 60 ∨ s.esp.toNat ≤ s.gdtr.base

theorem segmented_loaded {p : Processor} (hfresh : p.gdt.gdt.size = 0)
    (hstack : p.gdt.gdt.data + 32 ≤ p.cpu.esp.toNat - 60 ∨ p.cpu.esp.toNat ≤ p.gdt.gdt.data)
    (singleTask : UInt32) :
    ∃ p', p.loadKernelSegments singleTask = .ok p' ∧
      Segmented singleTask p'.loadInterruptsTable.cpu := by
  obtain ⟨g, m, hload, hsize, htable, hdata, -⟩ := loadKernelSegments_of_fresh hfresh singleTask
  have hlimit : g.reloadTable.gdtPointer.limit = 31 :=
    (congrArg GDT.tableLimit hsize).trans (GDT.tableLimit_eq (by decide) (by decide))
  refine ⟨_, hload, hlimit, htable, ?_⟩
  change g.gdt.data + 32 ≤ p.cpu.esp.toNat - 60 ∨ p.cpu.esp.toNat ≤ g.gdt.data
  rw [hdata]
  exact hstack

end Processor

/-- A processor with a table at 0x1000 and a stack below 0x8000. -/
def sampleProcessor (made : IDT × Mem) (eip : Word) : Processor where
  gdt := { gdt := .empty 0x1000 }
  idt := made.1
  cpu := { esp := 0x8000, eip := eip, mem := made.2 }

theorem mem_sampleProcessor (made : IDT × Mem) (eip : Word) :
    (sampleProcessor made eip).cpu.mem = made.2 := rfl

theorem exists_interruptible (eip : Word) : ∃ s : Cpu,
    Interruptible (fun _ => 0x2000) 0x9000 s ∧ Processor.Segmented 0 s ∧ s.eip = eip ∧
      s.eflags = 2 := by
  let p := sampleProcessor (IDT.make (fun _ => 0) 0x4000 fun _ => 0x2000) eip
  obtain ⟨p', hload, h, heip, heflags⟩ := Processor.interruptible_loaded (p := p)
    (fun _ => 0) 0x4000 0x9000 (fun _ => 0x2000)
    rfl rfl (fun x _ _ => congrFun (mem_sampleProcessor _ _) x)
    (.inl (show 0x1000 + 32 ≤ 0x4000 by norm_num))
    (show 60 ≤ 0x8000 by norm_num) (show 0x8000 ≤ 0x9000 by norm_num)
    (.inl (show 0x1000 + 16 ≤ 0x8000 - 60 by norm_num)) 0
  obtain ⟨p'', hload', hsegments⟩ := Processor.segmented_loaded (p := p) rfl
    (.inl (show 0x1000 + 32 ≤ 0x8000 - 60 by norm_num)) 0
  rw [hload] at hload'
  cases hload'
  exact ⟨_, h, hsegments, heip, heflags⟩

end Bolgenos
