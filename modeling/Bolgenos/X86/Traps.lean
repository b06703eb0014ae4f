import Bolgenos.X86.Processor

/-!
# Traps

The handlers that `install_traps` registers read the interrupt frame through structures that
alias the stack. The frame with an error code and the one without it differ, and the processor
decides by the vector which one there is.
-/

namespace Bolgenos

open ByteMemory Ia32

structure RegistersDump where
  edi : Word
  esi : Word
  ebp : Word
  esp : Word
  ebx : Word
  edx : Word
  ecx : Word
  eax : Word
  deriving DecidableEq

/-- The structure is packed: `cs` takes two bytes and `eflags` follows it. -/
structure ExecutionInfoDump where
  eip : Word
  cs : BitVec 16
  eflags : Word
  deriving DecidableEq

structure IntFrameError where
  regs : RegistersDump
  errorCode : Word
  exe : ExecutionInfoDump
  deriving DecidableEq

structure IntFrameNoerror where
  regs : RegistersDump
  exe : ExecutionInfoDump
  deriving DecidableEq

def RegistersDump.at (m : Mem) (a : ℕ) : RegistersDump where
  edi := loadWord m a
  esi := loadWord m (a + 4)
  ebp := loadWord m (a + 8)
  esp := loadWord m (a + 12)
  ebx := loadWord m (a + 16)
  edx := loadWord m (a + 20)
  ecx := loadWord m (a + 24)
  eax := loadWord m (a + 28)

def ExecutionInfoDump.at (m : Mem) (a : ℕ) : ExecutionInfoDump where
  eip := loadWord m a
  cs := (loadWord m (a + 4)).setWidth 16
  eflags := loadWord m (a + 6)

def IntFrameError.at (m : Mem) (a : ℕ) : IntFrameError where
  regs := .at m a
  errorCode := loadWord m (a + 32)
  exe := .at m (a + 36)

def IntFrameNoerror.at (m : Mem) (a : ℕ) : IntFrameNoerror where
  regs := .at m a
  exe := .at m (a + 32)

/-- What the handler of an exception expects on the stack, and the message it prints. -/
inductive TrapHandler where
  | printingErrcodeHandler (message : String)
  | printingNoErrcodeHandler (message : String)
  deriving DecidableEq, Repr

namespace Exception

def divideByZero : UInt8 := 0
def debugException : UInt8 := 1
def breakpoint : UInt8 := 3
def overflowException : UInt8 := 4
def boundRangeExceeded : UInt8 := 5
def invalidOpcode : UInt8 := 6
def deviceNotAvailable : UInt8 := 7
def invalidTss : UInt8 := 10
def segmentNotPresent : UInt8 := 11
def stackSegmentFault : UInt8 := 12
def generalProtectionFault : UInt8 := 13
def pageFault : UInt8 := 14
def x87FpException : UInt8 := 16
def alignmentError : UInt8 := 17
def machineCheckError : UInt8 := 18
def simdFpException : UInt8 := 19
def virtualizationException : UInt8 := 20
def securityException : UInt8 := 30

end Exception

open Exception in
def installTraps : List (UInt8 × TrapHandler) :=
  [(divideByZero, .printingNoErrcodeHandler "Division by zero"),
    (debugException, .printingNoErrcodeHandler "Debug exception"),
    (breakpoint, .printingNoErrcodeHandler "Breakpoint"),
    (overflowException, .printingNoErrcodeHandler "Overflow"),
    (boundRangeExceeded, .printingNoErrcodeHandler "Bound range exceeded"),
    (invalidOpcode, .printingNoErrcodeHandler "Invalid opcode"),
    (deviceNotAvailable, .printingNoErrcodeHandler "Device not available"),
    (invalidTss, .printingErrcodeHandler "Invalid TSS"),
    (segmentNotPresent, .printingErrcodeHandler "MemorySegmentDescriptor not present"),
    (stackSegmentFault, .printingErrcodeHandler "Stack segment fault"),
    (generalProtectionFault, .printingErrcodeHandler "General protection fault"),
    (pageFault, .printingErrcodeHandler "Page fault"),
    (x87FpException, .printingNoErrcodeHandler "x87 FPU exception"),
    (alignmentError, .printingErrcodeHandler "Alignment error"),
    (machineCheckError, .printingNoErrcodeHandler "Machine check error"),
    (simdFpException, .printingNoErrcodeHandler "SIMD exception"),
    (virtualizationException, .printingNoErrcodeHandler "Virtualization error"),
    (securityException, .printingErrcodeHandler "Security exception")]

/-- The exceptions for which the processor pushes an error code. -/
def pushesErrorCode (vector : UInt8) : Bool :=
  vector ∈ [8, 10, 11, 12, 13, 14, 17, 21, 29, 30]

variable {asmIrqHandlers : UInt8 → UInt32} {hi : ℕ} {s : Cpu}

/-- The registers of the interrupted code, with the stack pointer behind the frame of the
processor. -/
def dumpOf (s : Cpu) (esp : Word) : RegistersDump where
  edi := s.edi
  esi := s.esi
  ebp := s.ebp
  esp := esp
  ebx := s.ebx
  edx := s.edx
  ecx := s.ecx
  eax := s.eax

theorem loadWord_add_two {m : Mem} {a : ℕ} {cs : BitVec 16} {eflags : Word}
    (hcs : loadWord m a = cs.setWidth 32) (hflags : loadWord m (a + 4) = eflags) :
    loadWord m (a + 2) = eflags <<< 16 := by
  have hcs' : read32 m a < 2 ^ 16 := by
    rw [← toNat_loadWord, hcs, BitVec.toNat_setWidth]
    exact (Nat.mod_le _ _).trans_lt cs.isLt
  have hflags' : read32 m (a + 4) = eflags.toNat := by
    rw [← toNat_loadWord, hflags]
  apply BitVec.eq_of_toNat_eq
  rw [toNat_loadWord, BitVec.toNat_shiftLeft, Nat.shiftLeft_eq]
  have h4 := (m (a + 4)).isLt
  have h5 := (m (a + 4 + 1)).isLt
  simp only [read32] at hcs' hflags' ⊢
  rw [show a + 2 + 2 = a + 4 by omega, show a + 2 + 3 = a + 4 + 1 by omega,
    show a + 2 + 1 = a + 3 by omega]
  omega

theorem registersDump_at {m : Mem} {a : ℕ} {esp : Word}
    (h : Holds m a [s.edi, s.esi, s.ebp, esp, s.ebx, s.edx, s.ecx, s.eax]) :
    RegistersDump.at m a = dumpOf s esp := by
  have h0 : loadWord m a = s.edi := h.load (i := 0) rfl
  have h1 : loadWord m (a + 4) = s.esi := h.load (i := 1) rfl
  have h2 : loadWord m (a + 8) = s.ebp := h.load (i := 2) rfl
  have h3 : loadWord m (a + 12) = esp := h.load (i := 3) rfl
  have h4 : loadWord m (a + 16) = s.ebx := h.load (i := 4) rfl
  have h5 : loadWord m (a + 20) = s.edx := h.load (i := 5) rfl
  have h6 : loadWord m (a + 24) = s.ecx := h.load (i := 6) rfl
  have h7 : loadWord m (a + 28) = s.eax := h.load (i := 7) rfl
  rw [RegistersDump.at, dumpOf, h0, h1, h2, h3, h4, h5, h6, h7]

theorem executionInfoDump_at {m : Mem} {a : ℕ}
    (h : Holds m a [s.eip, s.cs.setWidth 32, s.eflags]) :
    ExecutionInfoDump.at m a = ⟨s.eip, s.cs, s.eflags <<< 16⟩ := by
  have h0 : loadWord m a = s.eip := h.load (i := 0) rfl
  have h1 : loadWord m (a + 4) = s.cs.setWidth 32 := h.load (i := 1) rfl
  have h2 : loadWord m (a + 4 + 4) = s.eflags := h.load (i := 2) rfl
  have hflags : loadWord m (a + 6) = s.eflags <<< 16 := loadWord_add_two h1 h2
  rw [ExecutionInfoDump.at, h0, h1, hflags, BitVec.setWidth_setWidth_of_le _ (by decide),
    BitVec.setWidth_eq]

def TrapHandler.Shows (handler : TrapHandler) (m : Mem) (frame : ℕ) (s : Cpu) (errorCode : Word) :
    Prop :=
  match handler with
  | .printingErrcodeHandler _ => IntFrameError.at m frame =
      ⟨dumpOf s (s.esp - 16), errorCode, s.eip, s.cs, s.eflags <<< 16⟩
  | .printingNoErrcodeHandler _ => IntFrameNoerror.at m frame =
      ⟨dumpOf s (s.esp - 12), s.eip, s.cs, s.eflags <<< 16⟩

def TrapHandler.readsCode (handler : TrapHandler) (errorCode : Word) : Option Word :=
  match handler with
  | .printingErrcodeHandler _ => some errorCode
  | .printingNoErrcodeHandler _ => none

theorem readsCode_of_mem {trap : UInt8 × TrapHandler} (h : trap ∈ installTraps)
    (errorCode : Word) :
    trap.2.readsCode errorCode = if pushesErrorCode trap.1 then some errorCode else none := by
  have hkind : ∀ trap ∈ installTraps, (trap.2.readsCode 0).isSome = pushesErrorCode trap.1 := by
    decide
  rw [← hkind trap h]
  cases trap.2 <;> rfl

theorem shiftLeft_ne_self {eflags : Word} (h : eflags.getLsbD 1 = true) :
    eflags <<< 16 ≠ eflags := by
  intro heq
  have hbit : (eflags <<< 16).getLsbD 1 = false := by simp
  rw [heq, h] at hbit
  cases hbit

theorem TrapHandler.shows_of_holds {handler : TrapHandler} {m : Mem} {frame : ℕ}
    {errorCode : Word} (h : Holds m frame (frameWords (handler.readsCode errorCode) s)) :
    handler.Shows m frame s errorCode := by
  cases handler with
  | printingErrcodeHandler message =>
    obtain ⟨hregs, herror, hexe⟩ := holds_append.1 h
    have hregs' : RegistersDump.at m frame = dumpOf s (s.esp - 16) := registersDump_at hregs
    have hexe' : ExecutionInfoDump.at m (frame + 36) = ⟨s.eip, s.cs, s.eflags <<< 16⟩ :=
      executionInfoDump_at hexe
    have herror' : loadWord m (frame + 32) = errorCode := herror
    rw [Shows, IntFrameError.at, hregs', herror', hexe']
  | printingNoErrcodeHandler message =>
    obtain ⟨hregs, hexe⟩ := holds_append.1 h
    have hregs' : RegistersDump.at m frame = dumpOf s (s.esp - 12) := registersDump_at hregs
    have hexe' : ExecutionInfoDump.at m (frame + 32) = ⟨s.eip, s.cs, s.eflags <<< 16⟩ :=
      executionInfoDump_at hexe
    rw [Shows, IntFrameNoerror.at, hregs', hexe']

/-- Each installed handler fits its exception: the structure it reads shows the registers, the
instruction pointer, the code segment and the error code of the interrupted code. The flags it
shows are the true ones shifted by two bytes, and never the true ones. -/
theorem installTraps_shows (h : Interruptible asmIrqHandlers hi s)
    (hflags : s.eflags.getLsbD 1 = true) (trap : UInt8 × TrapHandler)
    (htrap : trap ∈ installTraps) (returnAddress errorCode : Word) :
    ∃ d : Cpu, ∃ frame : Word,
      s.deliver trap.1 (if pushesErrorCode trap.1 then some errorCode else none) = some d ∧
      (∀ handler, cIrqDispatcher handler (dispatcherEntry trap.1 returnAddress d) =
        (callHandler handler trap.1 frame (dispatcherEntry trap.1 returnAddress d)).ret) ∧
      trap.2.Shows (dispatcherEntry trap.1 returnAddress d).mem frame.toNat s errorCode ∧
      s.eflags <<< 16 ≠ s.eflags := by
  have hroom := h.room
  rw [← readsCode_of_mem htrap]
  have hent := h.entered trap.1 (trap.2.readsCode errorCode)
  have hlen := length_interruptFrame (trap.2.readsCode errorCode) s
  refine ⟨_, _, h.deliver trap.1 _, fun handler => cIrqDispatcher_entry handler ?_,
    TrapHandler.shows_of_holds (hent.holds_frame hroom trap.1 returnAddress),
    shiftLeft_ne_self hflags⟩
  rw [hent.toNat_esp]
  omega

theorem installTraps_shows_page_fault :
    ∃ s d : Cpu, ∃ frame : Word, s.deliver 14 (some 2) = some d ∧
      (IntFrameError.at (dispatcherEntry 14 0 d).mem frame.toNat).errorCode = 2 ∧
      (IntFrameError.at (dispatcherEntry 14 0 d).mem frame.toNat).exe.eip = 0x3000 := by
  obtain ⟨s, h, -, heip, heflags⟩ := exists_interruptible 0x3000
  obtain ⟨d, frame, hd, -, hshows, -⟩ := installTraps_shows h (by rw [heflags]; decide)
    (14, .printingErrcodeHandler "Page fault") (by decide) 0 2
  simp only [TrapHandler.Shows] at hshows
  exact ⟨s, d, frame, hd, by rw [hshows], by rw [hshows, heip]⟩

end Bolgenos
