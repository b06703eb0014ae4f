import Bolgenos.Lib.InterruptController

/-!
# Hardware interrupts and their acknowledgement

`handle_irq` dispatches an interrupt to its handlers and ends it at the controller. Handlers
are arbitrary functions on the state `σ` of the kernel; none of them writes to the ports of the
interrupt controllers. A gate clears the interrupt flag, so an interrupt is served to its end
before the next one is delivered.
-/

namespace Bolgenos

open Pic

inductive PicPort where
  | masterComm
  | masterData
  | slaveComm
  | slaveData
  deriving DecidableEq, Repr

def PicPort.address : PicPort → UInt16
  | .masterComm => 0x20 + 0
  | .masterData => 0x20 + 1
  | .slaveComm => 0xa0 + 0
  | .slaveData => 0xa0 + 1

namespace PicCommand

def icw1 : UInt8 := 0x11

def icw3Master : UInt8 := 0x4

def icw3Slave : UInt8 := 0x2

def icw48086 : UInt8 := 0x1

def endOfInterrupt : UInt8 := 0x20

end PicCommand

/-- Why a function of the driver did not return: it panicked, or it sent a byte that the
controllers' model has no meaning for. -/
inductive PicFault where
  | panic (msg : String)
  | unsupported (port : PicPort) (byte : UInt8)
  deriving DecidableEq, Repr

structure PIC8259 where
  chips : Cascade := {}
  controllerInitialized : Bool := false

namespace PIC8259

def minIrqVector : ℕ := 0x20

def outb (pic : PIC8259) (port : PicPort) (byte : UInt8) : Except PicFault PIC8259 :=
  match pic.chips.outb port.address byte with
  | some chips => .ok { pic with chips := chips }
  | none => .error (.unsupported port byte)

def endOfInterrupt (pic : PIC8259) (vector : UInt8) : Except PicFault PIC8259 := do
  let pic ← if vector.toNat > 8 + 0x20 then
      pic.outb .slaveComm PicCommand.endOfInterrupt
    else
      pure pic
  pic.outb .masterComm PicCommand.endOfInterrupt

def initializeController (pic : PIC8259) : Except PicFault PIC8259 := do
  if pic.controllerInitialized then
    throw (.panic "Attempt to initialize PIC8259 twice!")
  let offset1 : UInt8 := 0x20
  let offset2 : UInt8 := 0x28
  let pic ← pic.outb .masterComm PicCommand.icw1
  let pic ← pic.outb .slaveComm PicCommand.icw1
  let pic ← pic.outb .masterData offset1
  let pic ← pic.outb .slaveData offset2
  let pic ← pic.outb .masterData PicCommand.icw3Master
  let pic ← pic.outb .slaveData PicCommand.icw3Slave
  let pic ← pic.outb .masterData PicCommand.icw48086
  let pic ← pic.outb .slaveData PicCommand.icw48086
  let pic ← pic.outb .masterData 0x00
  return { pic with controllerInitialized := true }

/-- The controllers as `initialize_controller` leaves them: the slave is behind input 2 of the
master and no line is masked. -/
def programmed : Cascade where
  master := { needsMode := true, vectors := 0x20, wiring := PicCommand.icw3Master }
  slave := { needsMode := true, vectors := 0x28, wiring := PicCommand.icw3Slave }

theorem initializeController_eq :
    initializeController {} = .ok { chips := programmed, controllerInitialized := true } := by
  rfl

theorem vector_programmed (line : Line) :
    (programmed.vector line).toNat = minIrqVector + line.irq := by
  cases line with
  | master i => revert i; decide
  | slave i => revert i; decide

theorem delivers_programmed {line : Line} (h : programmed.Wired line) :
    programmed.Delivers line := by
  have hfree : ∀ i, programmed.master.Delivers i ∧ programmed.slave.Delivers i := by decide
  cases line with
  | master i => exact ⟨h, (hfree i).1⟩
  | slave i => exact ⟨h, (hfree i).2, (hfree _).1⟩

/-- The slave is told only about vectors strictly above its first one. -/
theorem endOfInterrupt_eq (pic : PIC8259) (vector : UInt8) :
    pic.endOfInterrupt vector = .ok { pic with chips :=
      { master := pic.chips.master.endOfInterrupt
        slave := if vector.toNat > 8 + 0x20 then pic.chips.slave.endOfInterrupt
          else pic.chips.slave } } := by
  unfold endOfInterrupt
  split <;> rfl

end PIC8259

inductive IrqStatus where
  | none
  | handled
  deriving DecidableEq, Repr

structure InterruptsManager (σ : Type) where
  irqHandlers : UInt8 → List (UInt8 → σ → IrqStatus × σ)
  exceptionsHandlers : UInt8 → List (ℕ → σ → σ)

structure InterruptState (σ : Type) where
  pic : PIC8259
  kernel : σ
  /-- The critical messages, each with the vector it names. -/
  log : List (String × UInt8) := []

namespace InterruptsManager

variable {σ : Type}

def isException (vector : UInt8) : Bool := vector.toNat < 0x20

def dispatchException (m : InterruptsManager σ) (exception : UInt8) (frame : ℕ) (kernel : σ) :
    IrqStatus × σ :=
  match m.exceptionsHandlers exception with
  | [] => (.none, kernel)
  | handlers => (.handled, handlers.foldl (fun kernel handler => handler frame kernel) kernel)

/-- `find_if` over the handlers: the first one that takes the interrupt ends the search. -/
def findHandler (vector : UInt8) : List (UInt8 → σ → IrqStatus × σ) → σ → IrqStatus × σ
  | [], kernel => (.none, kernel)
  | handler :: handlers, kernel =>
    match handler vector kernel with
    | (.handled, kernel) => (.handled, kernel)
    | (.none, kernel) => findHandler vector handlers kernel

def dispatchInterrupt (m : InterruptsManager σ) (vector : UInt8) (kernel : σ) : IrqStatus × σ :=
  findHandler vector (m.irqHandlers vector) kernel

def handleIrq (m : InterruptsManager σ) (vector : UInt8) (frame : ℕ) (s : InterruptState σ) :
    Except PicFault (InterruptState σ) := do
  let (status, kernel) := if isException vector then
      m.dispatchException vector frame s.kernel
    else
      m.dispatchInterrupt vector s.kernel
  let log := if status ≠ .handled then s.log ++ [("Unhandled IRQ", vector)] else s.log
  let pic ← s.pic.endOfInterrupt vector
  return { pic := pic, kernel := kernel, log := log }

def serve (m : InterruptsManager σ) (line : Line) (frame : ℕ) (s : InterruptState σ) :
    Except PicFault (InterruptState σ) :=
  m.handleIrq (s.pic.chips.vector line) frame
    { s with pic := { s.pic with chips := s.pic.chips.accept line } }

inductive Run (m : InterruptsManager σ) :
    List (Line × InterruptState σ) → InterruptState σ → Prop where
  | start {pic : PIC8259} (kernel : σ) :
      PIC8259.initializeController {} = .ok pic → Run m [] { pic := pic, kernel := kernel }
  | step {steps : List (Line × InterruptState σ)} {s s' : InterruptState σ} {line : Line}
      (frame : ℕ) :
      Run m steps s → s.pic.chips.Delivers line → m.serve line frame s = .ok s' →
      Run m (steps ++ [(line, s')]) s'

variable {m : InterruptsManager σ} {s s' : InterruptState σ} {line : Line} {frame : ℕ}

theorem serve_ok (m : InterruptsManager σ) (line : Line) (frame : ℕ) (s : InterruptState σ) :
    ∃ s', m.serve line frame s = .ok s' ∧
      PIC8259.endOfInterrupt { s.pic with chips := s.pic.chips.accept line }
        (s.pic.chips.vector line) = .ok s'.pic := by
  simp only [serve, handleIrq, PIC8259.endOfInterrupt_eq]
  exact ⟨_, rfl, rfl⟩

theorem chips_serve (hchips : s.pic.chips = PIC8259.programmed)
    (hdel : s.pic.chips.Delivers line) (hserve : m.serve line frame s = .ok s')
    (hline : line ≠ .slave 0) : s'.pic.chips = PIC8259.programmed := by
  obtain ⟨t, hok, hend⟩ := serve_ok m line frame s
  obtain rfl : s' = t := Except.ok.inj (hserve.symm.trans hok)
  rw [hchips] at hend hdel
  rw [PIC8259.endOfInterrupt_eq, PIC8259.vector_programmed] at hend
  rw [← Except.ok.inj hend]
  cases line with
  | master i =>
    have hlow : ¬ PIC8259.minIrqVector + (Line.master i).irq > 8 + 0x20 := by
      simp only [PIC8259.minIrqVector, Line.irq]
      omega
    simp only [if_neg hlow, Cascade.accept]
    rw [Chip.endOfInterrupt_accept hdel.2]
  | slave i =>
    have hi : i ≠ 0 := fun hi => hline (by rw [hi])
    have hhigh : PIC8259.minIrqVector + (Line.slave i).irq > 8 + 0x20 := by
      simp only [PIC8259.minIrqVector, Line.irq]
      have := Fin.pos_iff_ne_zero.2 hi
      omega
    simp only [if_pos hhigh, Cascade.accept]
    rw [Chip.endOfInterrupt_accept hdel.2.1, Chip.endOfInterrupt_accept hdel.2.2]

theorem mem_inService_serve (hchips : s.pic.chips = PIC8259.programmed)
    (hserve : m.serve (.slave 0) frame s = .ok s') : 0 ∈ s'.pic.chips.slave.inService := by
  obtain ⟨t, hok, hend⟩ := serve_ok m (.slave 0) frame s
  obtain rfl : s' = t := Except.ok.inj (hserve.symm.trans hok)
  rw [hchips, PIC8259.endOfInterrupt_eq, PIC8259.vector_programmed] at hend
  rw [← Except.ok.inj hend]
  have hlow : ¬ PIC8259.minIrqVector + (Line.slave 0).irq > 8 + 0x20 := by decide
  rw [if_neg hlow]
  exact Finset.mem_insert_self 0 _

/-- No line is in service, and every line that is wired can be delivered. -/
def Acknowledged (p : Cascade) : Prop :=
  p.Idle ∧ ∀ line, p.Wired line → p.Delivers line

theorem acknowledged_programmed : Acknowledged PIC8259.programmed :=
  ⟨⟨rfl, rfl⟩, fun _ => PIC8259.delivers_programmed⟩

theorem Run.chips {steps : List (Line × InterruptState σ)} (h : Run m steps s)
    (hlines : ∀ st ∈ steps, st.1 ≠ .slave 0) : s.pic.chips = PIC8259.programmed := by
  induction h with
  | start kernel hinit =>
    rw [PIC8259.initializeController_eq] at hinit
    rw [← Except.ok.inj hinit]
  | @step steps s s' line frame hrun hdel hserve ih =>
    rw [List.forall_mem_append] at hlines
    exact chips_serve (ih hlines.1) hdel hserve (hlines.2 (line, s') (List.mem_singleton_self _))

theorem exists_run_single (m : InterruptsManager σ) (kernel : σ) {l : Line}
    (h : PIC8259.programmed.Wired l) : ∃ s, Run m [(l, s)] s ∧
      m.serve l 0 ⟨⟨PIC8259.programmed, true⟩, kernel, []⟩ = .ok s := by
  obtain ⟨s, hok, -⟩ := serve_ok m l 0 ⟨⟨PIC8259.programmed, true⟩, kernel, []⟩
  have hstart := Run.start (m := m) kernel PIC8259.initializeController_eq
  exact ⟨s, hstart.step 0 (PIC8259.delivers_programmed h) hok, hok⟩

/-- Every delivered interrupt is handled to its end. After each of them both controllers are
idle and open for every line, if and only if none of them was on line 0 of the slave. -/
theorem run_acknowledged_iff {steps : List (Line × InterruptState σ)} (h : Run m steps s) :
    (∀ line frame, s.pic.chips.Delivers line → ∃ s', m.serve line frame s = .ok s') ∧
      ((∀ st ∈ steps, Acknowledged st.2.pic.chips) ↔ ∀ st ∈ steps, st.1 ≠ .slave 0) := by
  refine ⟨fun line frame _ => ?_, ?_⟩
  · obtain ⟨s', hok, -⟩ := serve_ok m line frame s
    exact ⟨s', hok⟩
  induction h with
  | start kernel hinit => simp
  | @step steps s s' line frame hrun hdel hserve ih =>
    simp only [List.forall_mem_append, List.forall_mem_singleton, ih]
    apply and_congr_right
    intro hlines
    have hchips := hrun.chips hlines
    constructor
    · intro hack hline
      rw [hline] at hserve
      have hmem := mem_inService_serve hchips hserve
      rw [hack.1.2] at hmem
      exact Finset.notMem_empty 0 hmem
    · intro hline
      rw [chips_serve hchips hdel hserve hline]
      exact acknowledged_programmed

theorem run_acknowledged_mouse :
    ∃ (m : InterruptsManager Unit) (s : InterruptState Unit), Run m [(.slave 4, s)] s ∧
      Acknowledged s.pic.chips := by
  obtain ⟨s, hrun, -⟩ := exists_run_single ⟨fun _ => [], fun _ => []⟩ () (l := .slave 4) rfl
  refine ⟨_, s, hrun, ?_⟩
  exact (run_acknowledged_iff hrun).2.2 (by simp) _ (List.mem_singleton_self _)

theorem run_not_idle_clock :
    ¬ ∀ (m : InterruptsManager Unit) (steps : List (Line × InterruptState Unit))
      (s : InterruptState Unit), Run m steps s → ∀ st ∈ steps, st.2.pic.chips.Idle := by
  intro hall
  obtain ⟨s, hrun, hserve⟩ := exists_run_single ⟨fun _ => [], fun _ => []⟩ () (l := .slave 0) rfl
  have hidle := hall _ _ _ hrun _ (List.mem_singleton_self _)
  have hmem := mem_inService_serve rfl hserve
  rw [hidle.2] at hmem
  exact Finset.notMem_empty 0 hmem

end InterruptsManager

end Bolgenos
