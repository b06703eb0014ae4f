import Mathlib.Tactic

/-!
# A 16550 UART

The registers of the chip that a program can write to, the line status and the bytes that go out
on the line. The divisor latch lies over the data and the interrupt enable register while the top
bit of the line control register is set.
-/

structure Uart where
  lcr : UInt8 := 0
  dll : UInt8 := 0
  dlm : UInt8 := 0
  ier : UInt8 := 0
  fcr : UInt8 := 0
  mcr : UInt8 := 0
  scratch : UInt8 := 0
  /-- The readings of the line status register, in the order of the reads. -/
  lsr : ℕ → UInt8
  lsrReads : ℕ := 0
  /-- The bytes that were given to the transmitter. -/
  sent : List UInt8 := []

namespace Uart

def latch (u : Uart) : Bool := u.lcr &&& 0x80 != 0

/-- A byte to a register; the line and the modem status cannot be written. -/
def write (register : Fin 8) (byte : UInt8) (u : Uart) : Uart :=
  match register with
  | 0 => if u.latch then { u with dll := byte } else { u with sent := u.sent ++ [byte] }
  | 1 => if u.latch then { u with dlm := byte } else { u with ier := byte }
  | 2 => { u with fcr := byte }
  | 3 => { u with lcr := byte }
  | 4 => { u with mcr := byte }
  | 5 => u
  | 6 => u
  | 7 => { u with scratch := byte }

def readLineStatus (u : Uart) : UInt8 × Uart :=
  (u.lsr u.lsrReads, { u with lsrReads := u.lsrReads + 1 })

def divisor (u : Uart) : ℕ := 256 * u.dlm.toNat + u.dll.toNat

def eightBits : UInt8 := 0x03

def program (dll dlm : UInt8) (u : Uart) : Uart :=
  { u with lcr := eightBits, dll := dll, dlm := dlm }

theorem write_latch (u : Uart) (dll dlm : UInt8) :
    (((u.write 3 0x83).write 0 dll).write 1 dlm).write 3 eightBits = u.program dll dlm := by
  have hopen : ((0x83 &&& 0x80 : UInt8) != 0) = true := by decide
  simp only [write, latch, hopen, if_true, program]

theorem latch_eightBits {u : Uart} (h : u.lcr = eightBits) : u.latch = false := by
  rw [latch, h]
  decide

end Uart
