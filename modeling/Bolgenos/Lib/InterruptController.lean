import Mathlib.Tactic

/-!
# Cascaded 8259A interrupt controllers

A chip has eight inputs of falling priority and one in-service bit for each. It is programmed
by an initialization sequence: a first word at its command port, the others at its data port.
Modelled is the fully nested mode with the non-specific end of interrupt; a byte that asks for
anything else has no result here.
-/

namespace Pic

/-- What the chip takes the next byte at its data port for. -/
inductive Expects where
  | mask
  | vectors
  | wiring
  | mode
  deriving DecidableEq, Repr

structure Chip where
  expects : Expects := .mask
  single : Bool := false
  needsMode : Bool := false
  vectors : UInt8 := 0
  wiring : UInt8 := 0
  mask : UInt8 := 0
  inService : Finset (Fin 8) := ∅
  deriving DecidableEq

def bit (byte : UInt8) (i : Fin 8) : Bool := byte.toBitVec.getLsb i

def dropFirst {α : Type*} [LinearOrder α] (s : Finset α) : Finset α :=
  s.filter fun i => ∃ j ∈ s, j < i

theorem dropFirst_insert {α : Type*} [LinearOrder α] {s : Finset α} {i : α}
    (h : ∀ j ∈ s, i < j) : dropFirst (insert i s) = s := by
  ext k
  simp only [dropFirst, Finset.mem_filter, Finset.mem_insert]
  constructor
  · intro hk
    obtain ⟨rfl | hs, j, hj, hlt⟩ := hk
    · rcases hj with rfl | hj
      · exact absurd hlt (lt_irrefl _)
      · exact absurd (h j hj) (lt_asymm hlt)
    · exact hs
  · intro hk
    exact ⟨Or.inr hk, i, Or.inl rfl, h k hk⟩

namespace Chip

def endOfInterrupt (c : Chip) : Chip := { c with inService := dropFirst c.inService }

def command (c : Chip) (byte : UInt8) : Option Chip :=
  if bit byte 4 then
    some { c with
      expects := .vectors, single := bit byte 1, needsMode := bit byte 0, mask := 0 }
  else if byte = 0x20 then some c.endOfInterrupt
  else none

def afterWiring (c : Chip) : Expects := if c.needsMode then .mode else .mask

def data (c : Chip) (byte : UInt8) : Option Chip :=
  match c.expects with
  | .mask => some { c with mask := byte }
  | .vectors =>
    some { c with
      vectors := byte &&& 0xf8, expects := if c.single then c.afterWiring else .wiring }
  | .wiring => some { c with wiring := byte, expects := c.afterWiring }
  -- the 8086 mode without automatic end of interrupt
  | .mode => if byte = 1 then some { c with expects := .mask } else none

/-- The chip passes on a request at the input: it is programmed, the input is not masked and
no input of the same or a higher priority is in service. -/
def Delivers (c : Chip) (i : Fin 8) : Prop :=
  c.expects = .mask ∧ bit c.mask i = false ∧ ∀ j ∈ c.inService, i < j

instance (c : Chip) (i : Fin 8) : Decidable (c.Delivers i) := inferInstanceAs (Decidable (_ ∧ _))

def accept (c : Chip) (i : Fin 8) : Chip := { c with inService := insert i c.inService }

def vector (c : Chip) (i : Fin 8) : UInt8 := c.vectors + UInt8.ofNat i

theorem endOfInterrupt_accept {c : Chip} {i : Fin 8} (h : c.Delivers i) :
    (c.accept i).endOfInterrupt = c := by
  obtain ⟨-, -, hfirst⟩ := h
  simp only [endOfInterrupt, accept, dropFirst_insert hfirst]

end Chip

inductive Line where
  | master (i : Fin 8)
  | slave (i : Fin 8)
  deriving DecidableEq, Repr

def Line.irq : Line → ℕ
  | .master i => i
  | .slave i => 8 + i

structure Cascade where
  master : Chip := {}
  slave : Chip := {}
  deriving DecidableEq

namespace Cascade

def input (p : Cascade) : Fin 8 := Fin.ofNat 8 p.slave.wiring.toNat

def Wired (p : Cascade) : Line → Prop
  | .master i => bit p.master.wiring i = false
  | .slave _ => bit p.master.wiring p.input = true

def Delivers (p : Cascade) : Line → Prop
  | .master i => p.Wired (.master i) ∧ p.master.Delivers i
  | .slave i => p.Wired (.slave i) ∧ p.slave.Delivers i ∧ p.master.Delivers p.input

def accept (p : Cascade) : Line → Cascade
  | .master i => { p with master := p.master.accept i }
  | .slave i => { master := p.master.accept p.input, slave := p.slave.accept i }

def vector (p : Cascade) : Line → UInt8
  | .master i => p.master.vector i
  | .slave i => p.slave.vector i

/-- The ports of a PC; a byte for another port concerns another device. -/
def outb (p : Cascade) (port : UInt16) (byte : UInt8) : Option Cascade :=
  if port = 0x20 then (p.master.command byte).map fun c => { p with master := c }
  else if port = 0x21 then (p.master.data byte).map fun c => { p with master := c }
  else if port = 0xa0 then (p.slave.command byte).map fun c => { p with slave := c }
  else if port = 0xa1 then (p.slave.data byte).map fun c => { p with slave := c }
  else some p

def Idle (p : Cascade) : Prop := p.master.inService = ∅ ∧ p.slave.inService = ∅

end Cascade

end Pic
