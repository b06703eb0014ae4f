import Bolgenos.X86.Gdt

/-!
# Interrupt gates and the handlers behind them

`IDT` fills the interrupt table with one gate for each vector. The gate of a vector leads to
`_asm_irq_handler` of that vector, which saves the registers, calls `c_irq_dispatcher_` and
returns from the interrupt. The functions called there are arbitrary; what the C calling
convention promises about them is `Cpu.Kept`. Nothing runs in a handler before its first
instruction.
-/

namespace Bolgenos

open ByteMemory Bitfields Ia32

structure IDT where
  /-- The address of `_idt`. -/
  idt : ℕ
  idtPointer : TableRegister

namespace IDT

def numberOfLines : ℕ := 256

def makeGates (asmIrqHandlers : UInt8 → UInt32) : List Gate :=
  (List.range numberOfLines).map fun n => Gate.interruptGate (asmIrqHandlers (.ofNat n))

def storeGates (m : Mem) (a : ℕ) : List Gate → Mem
  | [] => m
  | g :: gs => storeGates (write64 m a g.bits) (a + 8) gs

def make (m : Mem) (idt : ℕ) (asmIrqHandlers : UInt8 → UInt32) : IDT × Mem :=
  let gates := makeGates asmIrqHandlers
  ({ idt := idt, idtPointer := { limit := (gates.length * 8 - 1) % 2 ^ 16, base := idt } },
    storeGates m idt gates)

def reloadTable (t : IDT) (cpu : Cpu) : Cpu := { cpu with idtr := t.idtPointer }

theorem storeGates_frame {m : Mem} {a x : ℕ} {gs : List Gate}
    (h : x < a ∨ a + 8 * gs.length ≤ x) : storeGates m a gs x = m x := by
  induction gs generalizing m a with
  | nil => rfl
  | cons g gs ih =>
    rw [List.length_cons] at h
    rw [storeGates, ih (by omega), write64_frame (by omega)]

theorem read64_storeGates {m : Mem} {a i : ℕ} {gs : List Gate} {g : Gate} (h : gs[i]? = some g) :
    read64 (storeGates m a gs) (a + 8 * i) = g.bits := by
  induction gs generalizing m a i with
  | nil => simp at h
  | cons g' gs ih =>
    cases i with
    | zero =>
      obtain rfl : g' = g := Option.some.inj h
      rw [storeGates, read64_congr fun x hx hx' => storeGates_frame (by omega)]
      exact read64_write64 g'.bits_lt
    | succ i =>
      rw [storeGates, show a + 8 * (i + 1) = a + 8 + 8 * i by ring]
      exact ih h

theorem length_makeGates (asmIrqHandlers : UInt8 → UInt32) :
    (makeGates asmIrqHandlers).length = 256 := by
  simp [makeGates, numberOfLines]

theorem getElem?_makeGates (asmIrqHandlers : UInt8 → UInt32) (vector : UInt8) :
    (makeGates asmIrqHandlers)[vector.toNat]? =
      some (Gate.interruptGate (asmIrqHandlers vector)) := by
  have hlt : vector.toNat < numberOfLines := vector.toNat_lt
  rw [makeGates, List.getElem?_map, List.getElem?_range hlt, Option.map_some, UInt8.ofNat_toNat]

structure Loaded (asmIrqHandlers : UInt8 → UInt32) (s : Cpu) : Prop where
  limit : s.idtr.limit = 2047
  gates : ∀ vector : UInt8, read64 s.mem (s.idtr.base + 8 * vector.toNat) =
    (Gate.interruptGate (asmIrqHandlers vector)).bits

theorem loaded_reloadTable (m : Mem) (idt : ℕ) (asmIrqHandlers : UInt8 → UInt32) (cpu : Cpu)
    (hmem : SameOn idt (idt + 2048) (make m idt asmIrqHandlers).2 cpu.mem) :
    Loaded asmIrqHandlers ((make m idt asmIrqHandlers).1.reloadTable cpu) := by
  simp only [make] at hmem
  refine ⟨by simp [reloadTable, make, length_makeGates], fun vector => ?_⟩
  have hlt := vector.toNat_lt
  simp only [reloadTable, make]
  rw [← read64_storeGates (m := m) (a := idt) (getElem?_makeGates asmIrqHandlers vector)]
  exact read64_congr fun x hx hx' => hmem x (by omega) (by omega)

theorem Loaded.fetch {asmIrqHandlers : UInt8 → UInt32} {s : Cpu} (h : Loaded asmIrqHandlers s)
    (vector : UInt8) : s.idtr.fetch s.mem vector.toNat =
      some (Gate.interruptGate (asmIrqHandlers vector)).bits := by
  have hlt := vector.toNat_lt
  rw [TableRegister.fetch, if_pos (by rw [h.limit]; omega), h.gates]

end IDT

abbrev GlobalIrqHandler := UInt8 → Word → Cpu → Cpu

def callHandler (globalHandler : Option GlobalIrqHandler) (vector : UInt8) (frame : Word)
    (s : Cpu) : Cpu :=
  match globalHandler with
  | some handler => handler vector frame s
  | none => s

/-- The arguments are read from the stack; `irq_t` has eight bits. -/
def cIrqDispatcher (globalHandler : Option GlobalIrqHandler) (s : Cpu) : Cpu :=
  let vector := UInt8.ofNat (loadWord s.mem (s.esp.toNat + 4)).toNat
  let frame := loadWord s.mem (s.esp.toNat + 8)
  (callHandler globalHandler vector frame s).ret

def dispatcherEntry (vector : UInt8) (returnAddress : Word) (s : Cpu) : Cpu :=
  let s := s.pushal
  let s := s.push s.esp
  let s := s.push (.ofNat 32 vector.toNat)
  s.push returnAddress

variable {vector : UInt8} {returnAddress : Word} {hi : ℕ} {s : Cpu}

def entryWords (vector : UInt8) (returnAddress : Word) (s : Cpu) : List Word :=
  [returnAddress, .ofNat 32 vector.toNat, s.pushal.esp] ++ s.generalRegisters

theorem dispatcherEntry_eq (vector : UInt8) (returnAddress : Word) (s : Cpu) :
    dispatcherEntry vector returnAddress s = s.pushAll (entryWords vector returnAddress s) := by
  simp only [dispatcherEntry, entryWords, Cpu.pushAll_append, Cpu.pushAll, Cpu.pushal]

theorem holds_dispatcherEntry (vector : UInt8) (returnAddress : Word) (hroom : 44 ≤ s.esp.toNat) :
    Holds (dispatcherEntry vector returnAddress s).mem
      (dispatcherEntry vector returnAddress s).esp.toNat (entryWords vector returnAddress s) := by
  rw [dispatcherEntry_eq]
  exact Cpu.holds_pushAll hroom

theorem toNat_esp_dispatcherEntry (vector : UInt8) (returnAddress : Word)
    (hroom : 44 ≤ s.esp.toNat) :
    (dispatcherEntry vector returnAddress s).esp.toNat = s.esp.toNat - 44 := by
  rw [dispatcherEntry_eq]
  exact Cpu.toNat_esp_pushAll (entryWords vector returnAddress s) hroom

theorem holds_frame {ws : List Word} (hroom : 44 ≤ s.esp.toNat)
    (hws : Holds s.mem s.esp.toNat ws) :
    Holds (dispatcherEntry vector returnAddress s).mem s.pushal.esp.toNat
      (s.generalRegisters ++ ws) := by
  have hlen : s.generalRegisters.length = 8 := rfl
  have hentry := holds_dispatcherEntry vector returnAddress hroom
  have hsaved := (holds_append.1 hentry).2
  have hpushal : s.pushal.esp.toNat = s.esp.toNat - 32 :=
    Cpu.toNat_esp_pushAll s.generalRegisters (by omega)
  rw [toNat_esp_dispatcherEntry _ _ hroom, show s.esp.toNat - 44 + 4 * [returnAddress,
    BitVec.ofNat 32 vector.toNat, s.pushal.esp].length = s.esp.toNat - 32 by simp; omega,
    ← hpushal] at hsaved
  refine holds_append.2 ⟨hsaved, ?_⟩
  rw [hpushal, hlen, show s.esp.toNat - 32 + 4 * 8 = s.esp.toNat by omega, dispatcherEntry_eq]
  exact hws.sameOn (Cpu.sameOn_pushAll _ hroom (Or.inr le_rfl)) le_rfl le_rfl

theorem cIrqDispatcher_entry (handler : Option GlobalIrqHandler) (hroom : 44 ≤ s.esp.toNat) :
    cIrqDispatcher handler (dispatcherEntry vector returnAddress s) =
      (callHandler handler vector s.pushal.esp (dispatcherEntry vector returnAddress s)).ret := by
  have hholds := holds_dispatcherEntry vector returnAddress hroom
  have hvector := hholds.load (i := 1) rfl
  have hframe := hholds.load (i := 2) rfl
  have hlt := vector.toNat_lt
  simp only [cIrqDispatcher, hframe, hvector, BitVec.toNat_ofNat]
  rw [Nat.mod_eq_of_lt (by omega), UInt8.ofNat_toNat]

def codeSelector : BitVec 16 := .ofNat 16 kernelCodeSelector

def codeDescriptor (s : Cpu) : ℕ := s.gdtr.base + 8 * selectorIndex codeSelector

/-- Code of the kernel that can be interrupted: the tables of the processor are set up, and
below the stack pointer there is room that holds nothing of them. -/
structure Interruptible (asmIrqHandlers : UInt8 → UInt32) (hi : ℕ) (s : Cpu) : Prop where
  idt : IDT.Loaded asmIrqHandlers s
  code : ∃ g, s.codeSegment codeSelector = some g ∧ g.lastByte = 2 ^ 32 - 1
  cs : s.cs = codeSelector
  room : 60 ≤ s.esp.toNat
  top : s.esp.toNat ≤ hi
  apart : codeDescriptor s + 8 ≤ s.esp.toNat - 60 ∨ s.esp.toNat ≤ codeDescriptor s

def gateOf (asmIrqHandlers : UInt8 → UInt32) (vector : UInt8) : GateDescriptor where
  offset := (asmIrqHandlers vector).toNat
  selector := kernelCodeSelector
  type := 0b01110
  dpl := 0
  present := true

theorem read_bits_interruptGate (asmIrqHandlers : UInt8 → UInt32) (vector : UInt8) :
    GateDescriptor.read (Gate.interruptGate (asmIrqHandlers vector)).bits =
      gateOf asmIrqHandlers vector :=
  Gate.read_bits_make (asmIrqHandlers vector) .interrupt

variable {asmIrqHandlers : UInt8 → UInt32}

theorem Interruptible.deliver (h : Interruptible asmIrqHandlers hi s) (vector : UInt8)
    (errorCode : Option Word) :
    s.deliver vector errorCode = some (s.enter errorCode (gateOf asmIrqHandlers vector)) := by
  obtain ⟨g, hcode, hlast⟩ := h.code
  have hlt := (asmIrqHandlers vector).toNat_lt
  have hread := read_bits_interruptGate asmIrqHandlers vector
  have hdeliver := Cpu.deliver_eq errorCode (h.idt.fetch vector)
    (by rw [hread]; rfl) (by rw [hread]; rfl) (by rw [hread]; exact hcode)
    (by rw [hread, hlast]; exact Nat.le_sub_one_of_lt hlt)
  rw [hdeliver, hread]

/-- The frame the dispatcher is given: the registers at the interrupt and what the processor
pushed. The stored stack pointer is the one behind the frame of the processor. -/
def frameWords (errorCode : Option Word) (s : Cpu) : List Word :=
  [s.edi, s.esi, s.ebp, s.esp - .ofNat 32 (4 * (s.interruptFrame errorCode).length), s.ebx, s.edx,
    s.ecx, s.eax] ++ s.interruptFrame errorCode

theorem length_interruptFrame (errorCode : Option Word) (s : Cpu) :
    (s.interruptFrame errorCode).length ≤ 4 := by
  cases errorCode <;> simp [Cpu.interruptFrame]

structure Entered (errorCode : Option Word) (hi : ℕ) (s d : Cpu) : Prop where
  general : s.SameGeneral { d with esp := s.esp }
  esp : d.esp = s.esp - .ofNat 32 (4 * (s.interruptFrame errorCode).length)
  toNat_esp : d.esp.toNat = s.esp.toNat - 4 * (s.interruptFrame errorCode).length
  cs : d.cs = codeSelector
  gdtr : d.gdtr = s.gdtr
  frame : Holds d.mem d.esp.toNat (s.interruptFrame errorCode)
  stack : SameOn s.esp.toNat hi s.mem d.mem
  descriptor : SameOn (codeDescriptor s) (codeDescriptor s + 8) s.mem d.mem

theorem Entered.frameWords_eq {errorCode : Option Word} {d : Cpu}
    (h : Entered errorCode hi s d) :
    frameWords errorCode s = d.generalRegisters ++ s.interruptFrame errorCode := by
  obtain ⟨heax, hecx, hedx, hebx, -, hebp, hesi, hedi⟩ := h.general
  simp only at heax hecx hedx hebx hebp hesi hedi
  rw [frameWords, Cpu.generalRegisters, h.esp, heax, hecx, hedx, hebx, hebp, hesi, hedi]

theorem Entered.holds_frame {errorCode : Option Word} {d : Cpu} (h : Entered errorCode hi s d)
    (hroom : 60 ≤ s.esp.toNat) (vector : UInt8) (returnAddress : Word) :
    Holds (dispatcherEntry vector returnAddress d).mem d.pushal.esp.toNat
      (frameWords errorCode s) := by
  have hlen := length_interruptFrame errorCode s
  have hesp := h.toNat_esp
  rw [h.frameWords_eq]
  exact Bolgenos.holds_frame (by omega) h.frame

theorem Interruptible.entered (h : Interruptible asmIrqHandlers hi s) (vector : UInt8)
    (errorCode : Option Word) :
    Entered errorCode hi s (s.enter errorCode (gateOf asmIrqHandlers vector)) := by
  have hlen := length_interruptFrame errorCode s
  have hroom := h.room
  have hapart := h.apart
  have hregs := Cpu.pushAll_eq s (s.interruptFrame errorCode)
  refine ⟨?_, Cpu.esp_pushAll s _, Cpu.toNat_esp_pushAll _ (by omega), rfl, ?_,
    Cpu.holds_pushAll (by omega), Cpu.sameOn_pushAll _ (by omega) (Or.inr le_rfl),
    Cpu.sameOn_pushAll _ (by omega) (by omega)⟩
  · rw [Cpu.enter, hregs]
    exact ⟨rfl, rfl, rfl, rfl, rfl, rfl, rfl, rfl⟩
  · rw [Cpu.enter, hregs]

end Bolgenos
