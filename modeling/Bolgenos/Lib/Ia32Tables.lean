import Bolgenos.Lib.Bitfields
import Bolgenos.Lib.Ia32

/-!
# Segments, gates and interrupts of an IA-32 processor

What the processor reads out of the eight bytes of a descriptor, how it finds a descriptor in
the table a register points to, and how it enters and leaves an interrupt handler of the
privilege level it runs on. Where the processor would raise a fault instead, there is no
result.
-/

namespace Ia32

open ByteMemory Bitfields

structure Segment where
  base : ℕ
  limit : ℕ
  type : ℕ
  isCodeOrData : Bool
  dpl : ℕ
  present : Bool
  isLong : Bool
  is32 : Bool
  inPages : Bool
  deriving DecidableEq, Repr

def Segment.read (d : ℕ) : Segment where
  base := slice 16 24 d + 2 ^ 24 * slice 56 8 d
  limit := slice 0 16 d + 2 ^ 16 * slice 48 4 d
  type := slice 40 4 d
  isCodeOrData := slice 44 1 d = 1
  dpl := slice 45 2 d
  present := slice 47 1 d = 1
  isLong := slice 53 1 d = 1
  is32 := slice 54 1 d = 1
  inPages := slice 55 1 d = 1

def Segment.lastByte (g : Segment) : ℕ := if g.inPages then g.limit * 4096 + 4095 else g.limit

def Segment.isCode (g : Segment) : Bool := g.isCodeOrData && g.type.testBit 3

def Segment.isWritableData (g : Segment) : Bool :=
  g.isCodeOrData && !g.type.testBit 3 && g.type.testBit 1

def Segment.isAvailableTask (g : Segment) : Bool := !g.isCodeOrData && g.type == 9

structure GateDescriptor where
  offset : ℕ
  selector : ℕ
  type : ℕ
  dpl : ℕ
  present : Bool
  deriving DecidableEq, Repr

def GateDescriptor.read (d : ℕ) : GateDescriptor where
  offset := slice 0 16 d + 2 ^ 16 * slice 48 16 d
  selector := slice 16 16 d
  type := slice 40 5 d
  dpl := slice 45 2 d
  present := slice 47 1 d = 1

def GateDescriptor.isInterrupt32 (g : GateDescriptor) : Bool := g.type == 0b01110

def TableRegister.fetch (t : TableRegister) (m : Mem) (index : ℕ) : Option ℕ :=
  if 8 * index + 7 ≤ t.limit then some (read64 m (t.base + 8 * index)) else none

def selectorIndex (selector : BitVec 16) : ℕ := slice 3 13 selector.toNat

def isGlobal (selector : BitVec 16) : Bool := slice 2 1 selector.toNat = 0

def requestedLevel (selector : BitVec 16) : ℕ := slice 0 2 selector.toNat

namespace Cpu

def segment (s : Cpu) (selector : BitVec 16) : Option Segment := do
  guard (isGlobal selector && selectorIndex selector != 0)
  let d ← s.gdtr.fetch s.mem (selectorIndex selector)
  guard (Segment.read d).present
  return Segment.read d

def setType (m : Mem) (a : ℕ) (flags : BitVec 8) : Mem := write8 m (a + 5) (m (a + 5) ||| flags)

def loadData (s : Cpu) (selector : BitVec 16) : Option Cpu := do
  let g ← s.segment selector
  guard (g.isWritableData && g.dpl == 0)
  return { s with mem := setType s.mem (s.gdtr.base + 8 * selectorIndex selector) 1 }

/-- The code segment for a transfer that stays on the highest privilege level. -/
def codeSegment (s : Cpu) (selector : BitVec 16) : Option Segment := do
  let g ← s.segment selector
  guard (g.isCode && g.dpl == 0)
  return g

def ljmp (s : Cpu) (selector : BitVec 16) : Option Cpu := do
  let _ ← s.codeSegment selector
  return { s with
    cs := selector, mem := setType s.mem (s.gdtr.base + 8 * selectorIndex selector) 1 }

def ltr (s : Cpu) (selector : BitVec 16) : Option Cpu := do
  let g ← s.segment selector
  guard g.isAvailableTask
  return { s with
    tr := selector, mem := setType s.mem (s.gdtr.base + 8 * selectorIndex selector) 2 }

def clearOnInterrupt : Word := ~~~0x34300

/-- What the processor pushes: the flags, the code segment, the instruction pointer and, for
some exceptions, an error code. The resume flag, which is set in the frame of a fault, is left
out. -/
def interruptFrame (s : Cpu) (errorCode : Option Word) : List Word :=
  errorCode.toList ++ [s.eip, s.cs.setWidth 32, s.eflags]

def enter (s : Cpu) (errorCode : Option Word) (gate : GateDescriptor) : Cpu :=
  { s.pushAll (s.interruptFrame errorCode) with
    eip := BitVec.ofNat 32 gate.offset
    cs := BitVec.ofNat 16 gate.selector
    eflags := s.eflags &&& clearOnInterrupt }

def deliver (s : Cpu) (vector : UInt8) (errorCode : Option Word) : Option Cpu := do
  let d ← s.idtr.fetch s.mem vector.toNat
  guard ((GateDescriptor.read d).present && (GateDescriptor.read d).isInterrupt32)
  let code ← s.codeSegment (BitVec.ofNat 16 (GateDescriptor.read d).selector)
  guard ((GateDescriptor.read d).offset ≤ code.lastByte)
  return s.enter errorCode (GateDescriptor.read d)

/-- The return from an interrupt to code of the highest privilege level. -/
def iret (s : Cpu) : Option Cpu := do
  let eip := loadWord s.mem s.esp.toNat
  let cs := (loadWord s.mem (s.esp.toNat + 4)).setWidth 16
  let eflags := loadWord s.mem (s.esp.toNat + 8)
  guard (requestedLevel cs == 0)
  let code ← s.codeSegment cs
  guard (eip.toNat ≤ code.lastByte)
  return { s with eip := eip, cs := cs, eflags := eflags, esp := s.esp + 12 }

variable {m : Mem} {a b : ℕ} {flags : BitVec 8}

theorem read64_setType_frame (h : b + 8 ≤ a ∨ a + 8 ≤ b) :
    read64 (setType m a flags) b = read64 m b :=
  read64_congr fun _ hx hx' => write8_of_ne (by omega)

theorem segment_eq {s : Cpu} {selector : BitVec 16} {index : ℕ} {g : Segment}
    (hindex : selectorIndex selector = index) (hpos : index ≠ 0)
    (hglobal : isGlobal selector = true)
    (hlimit : 8 * index + 7 ≤ s.gdtr.limit)
    (hread : Segment.read (read64 s.mem (s.gdtr.base + 8 * index)) = g)
    (hpresent : g.present = true) : s.segment selector = some g := by
  subst hread
  simp [segment, hglobal, hindex, hpos, TableRegister.fetch, hlimit, hpresent]

theorem loadData_eq {s : Cpu} {selector : BitVec 16} {g : Segment} (h : s.segment selector = some g)
    (hdata : g.isWritableData = true) (hdpl : g.dpl = 0) :
    s.loadData selector =
      some { s with mem := setType s.mem (s.gdtr.base + 8 * selectorIndex selector) 1 } := by
  simp [loadData, h, hdata, hdpl]

theorem codeSegment_eq {s : Cpu} {selector : BitVec 16} {g : Segment}
    (h : s.segment selector = some g) (hcode : g.isCode = true) (hdpl : g.dpl = 0) :
    s.codeSegment selector = some g := by
  simp [codeSegment, h, hcode, hdpl]

theorem ljmp_eq {s : Cpu} {selector : BitVec 16} {g : Segment}
    (h : s.codeSegment selector = some g) :
    s.ljmp selector = some { s with
      cs := selector, mem := setType s.mem (s.gdtr.base + 8 * selectorIndex selector) 1 } := by
  simp [ljmp, h]

theorem ltr_eq {s : Cpu} {selector : BitVec 16} {g : Segment} (h : s.segment selector = some g) :
    s.ltr selector = if g.isAvailableTask then some { s with
      tr := selector, mem := setType s.mem (s.gdtr.base + 8 * selectorIndex selector) 2 }
    else none := by
  cases htask : g.isAvailableTask with
  | false => simp [ltr, h, htask]
  | true => simp [ltr, h, htask]

theorem segment_congr {s s' : Cpu} {selector : BitVec 16} (hgdtr : s'.gdtr = s.gdtr)
    (hmem : SameOn (s.gdtr.base + 8 * selectorIndex selector)
      (s.gdtr.base + 8 * selectorIndex selector + 8) s.mem s'.mem) :
    s'.segment selector = s.segment selector := by
  simp only [segment, TableRegister.fetch, hgdtr, read64_congr hmem]

theorem deliver_eq {s : Cpu} {vector : UInt8} (errorCode : Option Word) {d : ℕ} {code : Segment}
    (hfetch : s.idtr.fetch s.mem vector.toNat = some d)
    (hpresent : (GateDescriptor.read d).present = true)
    (htype : (GateDescriptor.read d).isInterrupt32 = true)
    (hcode : s.codeSegment (BitVec.ofNat 16 (GateDescriptor.read d).selector) = some code)
    (hoffset : (GateDescriptor.read d).offset ≤ code.lastByte) :
    s.deliver vector errorCode = some (s.enter errorCode (GateDescriptor.read d)) := by
  simp [deliver, hfetch, hpresent, htype, hcode, hoffset]

theorem read64_eq_sixth_byte (m : Mem) (a : ℕ) : ∃ low high, low < 2 ^ 40 ∧ high < 2 ^ 16 ∧
    ∀ b : BitVec 8, read64 (write8 m (a + 5) b) a = low + 2 ^ 40 * b.toNat + 2 ^ 48 * high := by
  refine ⟨read32 m a + 2 ^ 32 * (m (a + 4)).toNat,
    (m (a + 6)).toNat + 2 ^ 8 * (m (a + 7)).toNat, ?_, ?_, fun b => ?_⟩
  · have := read32_lt m a
    have := (m (a + 4)).isLt
    omega
  · have := (m (a + 6)).isLt
    have := (m (a + 7)).isLt
    omega
  · have hlow : read32 (write8 m (a + 5) b) a = read32 m a :=
      read32_congr fun x hx hx' => write8_of_ne (by omega)
    have h4 : write8 m (a + 5) b (a + 4) = m (a + 4) := write8_of_ne (by omega)
    have h6 : write8 m (a + 5) b (a + 4 + 2) = m (a + 6) := write8_of_ne (by omega)
    have h7 : write8 m (a + 5) b (a + 4 + 3) = m (a + 7) := write8_of_ne (by omega)
    have h5 : write8 m (a + 5) b (a + 4 + 1) = b := write8_same m (a + 5) b
    have hhigh : read32 (write8 m (a + 5) b) (a + 4) = (m (a + 4)).toNat + 256 * b.toNat +
        65536 * (m (a + 6)).toNat + 16777216 * (m (a + 7)).toNat := by
      rw [read32, h4, h5, h6, h7]
    rw [read64, hlow, hhigh]
    ring

theorem read_setType (m : Mem) (a : ℕ) (h : flags.toNat < 2 ^ 4) :
    Segment.read (read64 (setType m a flags) a) =
      { Segment.read (read64 m a) with
        type := (Segment.read (read64 m a)).type ||| flags.toNat } := by
  obtain ⟨low, high, hlow, hhigh, hread⟩ := read64_eq_sixth_byte m a
  have hself : read64 m a = low + 2 ^ 40 * (m (a + 5)).toNat + 2 ^ 48 * high := by
    rw [← hread, write8, Function.update_eq_self]
  have htype : (m (a + 5) ||| flags).toNat % 16 = (m (a + 5)).toNat % 16 ||| flags.toNat := by
    rw [BitVec.toNat_or, show (16 : ℕ) = 2 ^ 4 from rfl, Nat.or_mod_two_pow, Nat.mod_eq_of_lt h]
  have hrest : (m (a + 5) ||| flags).toNat / 16 = (m (a + 5)).toNat / 16 := by
    rw [BitVec.toNat_or, show (16 : ℕ) = 2 ^ 4 from rfl, Nat.or_div_two_pow, Nat.div_eq_of_lt h,
      Nat.or_zero]
  have hb := (m (a + 5)).isLt
  have hb' := (m (a + 5) ||| flags).isLt
  rw [setType, hread, hself]
  generalize (m (a + 5) ||| flags).toNat = b' at *
  generalize (m (a + 5)).toNat = b at *
  set n' := low + 2 ^ 40 * b' + 2 ^ 48 * high
  set n := low + 2 ^ 40 * b + 2 ^ 48 * high
  have hup : n' / 2 ^ 44 = n / 2 ^ 44 := by omega
  have hdown : n' % 2 ^ 40 = n % 2 ^ 40 := by omega
  have htype' : slice 40 4 n' = slice 40 4 n ||| flags.toNat := by
    rw [show slice 40 4 n' = b' % 16 by simp only [slice]; omega,
      show slice 40 4 n = b % 16 by simp only [slice]; omega, htype]
  simp only [Segment.read, htype', slice_of_div_eq hup (show 44 ≤ 44 by decide),
    slice_of_div_eq hup (show 44 ≤ 45 by decide), slice_of_div_eq hup (show 44 ≤ 47 by decide),
    slice_of_div_eq hup (show 44 ≤ 48 by decide), slice_of_div_eq hup (show 44 ≤ 53 by decide),
    slice_of_div_eq hup (show 44 ≤ 54 by decide), slice_of_div_eq hup (show 44 ≤ 55 by decide),
    slice_of_div_eq hup (show 44 ≤ 56 by decide),
    slice_of_mod_eq hdown (show 0 + 16 ≤ 40 by decide),
    slice_of_mod_eq hdown (show 16 + 24 ≤ 40 by decide)]

end Cpu

end Ia32
