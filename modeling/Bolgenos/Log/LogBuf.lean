import Bolgenos.Cxx.Ostream
import Bolgenos.Devices.VgaConsole

/-!
# The buffers of a logger

A logger owns one `CompositeBuf` for each level. It hands every call to a buffer in front of
the text console and to one in front of the serial port. Each of the two drops what is above
the enabled level and writes the prefix of the logger at the start of a line, by a flag of its
own. The sinks keep what they were given.
-/

namespace Bolgenos

open FuelLoop VgaConsole

inductive LogLevel where
  | critical
  | error
  | warning
  | notice
  | info
  | debug
  deriving DecidableEq, Repr

def LogLevel.value : LogLevel → ℕ
  | critical => 0
  | error => 1
  | warning => 2
  | notice => 3
  | info => 4
  | debug => 5

def LogLevel.color : LogLevel → Color
  | critical => .red
  | error => .brightRed
  | warning => .yellow
  | notice => .green
  | info => .brightGreen
  | debug => .brightGreen

/-- `SimpleStreamBuf`: a block goes through `overflow` one character after another. -/
def Streambuf.simple {σ : Type} (overflow : UInt8 → σ → Result σ) : Streambuf σ where
  overflow := overflow
  xsputn str s := str.foldlM (fun s c => overflow c s) s

/-! ### The serial port -/

/-- `lsr` gives the readings of the line status register, in the order of the reads, and `sent`
the bytes that were written to the data register. -/
structure SerialPort where
  lsr : ℕ → UInt8
  lsrReads : ℕ := 0
  sent : List UInt8 := []

namespace SerialPort

def canSend (lsr : UInt8) : Bool := lsr &&& 0x20 != 0

def canWrite (p : SerialPort) : Bool × SerialPort :=
  (canSend (p.lsr p.lsrReads), { p with lsrReads := p.lsrReads + 1 })

def waitStep (p : SerialPort) : Result (SerialPort ⊕ SerialPort) :=
  let (ready, p) := p.canWrite
  if ready then .ok (.inr p) else .ok (.inl p)

def write (polls : ℕ) (chr : UInt8) (p : SerialPort) : Result SerialPort := do
  let p ← loop .divergence waitStep polls p
  return { p with sent := p.sent ++ [chr] }

def Responsive (p : SerialPort) : Prop := ∀ k, ∃ j, canSend (p.lsr (k + j)) = true

end SerialPort

namespace SerialBuf

def overflow (polls : ℕ) (c : UInt8) (p : SerialPort) : Result SerialPort :=
  if c = lf then do
    let p ← p.write polls lf
    p.write polls cr
  else p.write polls c

def streambuf (polls : ℕ) : Streambuf SerialPort := .simple (overflow polls)

end SerialBuf

/-! ### The delegating buffer -/

structure LineHandlers (σ : Type) where
  handlePrePrefix : σ → σ := id
  handlePostPrefix : σ → σ := id
  handleEndLine : σ → σ := id

/-- `StaticDelegatingLogBuf`. `hasDelegate` says that `_delegate` is not null; `sink` is all
that the delegate and the handlers work on. -/
structure LogBuf (σ : Type) where
  logLevel : LogLevel
  showHeader : Bool := true
  hasDelegate : Bool
  sink : σ

namespace LogBuf

variable {σ : Type} (sb : Streambuf σ) (handlers : LineHandlers σ) (pfx : List UInt8)
  (enabled : LogLevel)

def doStartLogLine (b : LogBuf σ) : Result (LogBuf σ) := do
  let sink := handlers.handlePrePrefix b.sink
  let sink ← if b.hasDelegate then pfx.foldlM (fun s c => sb.sputc c s) sink else .ok sink
  return { b with sink := handlers.handlePostPrefix sink }

def doEndLongLine (b : LogBuf σ) : LogBuf σ :=
  if b.hasDelegate then { b with sink := handlers.handleEndLine b.sink } else b

/-- The first branch of `overflow`. -/
def header (b : LogBuf σ) : Result (LogBuf σ) :=
  if b.showHeader then do
    let b ← if b.hasDelegate then doStartLogLine sb handlers pfx b else .ok b
    return { b with showHeader := false }
  else .ok b

/-- The last branch of `overflow`. -/
def lineEnd (c : UInt8) (b : LogBuf σ) : LogBuf σ :=
  if c = lf then
    let b := if b.hasDelegate then doEndLongLine handlers b else b
    { b with showHeader := true }
  else b

def overflow (c : UInt8) (b : LogBuf σ) : Result (LogBuf σ) :=
  if enabled.value < b.logLevel.value then .ok b
  else do
    let b ← header sb handlers pfx b
    let sink ← if b.hasDelegate then sb.sputc c b.sink else .ok b.sink
    return lineEnd handlers c { b with sink := sink }

def streambuf : Streambuf (LogBuf σ) := .simple (overflow sb handlers pfx enabled)

end LogBuf

/-- The console behind `StaticVgaDelegatingLogBuf` with the colours of the buffer. `received`
are the characters that `putc` was given. -/
structure VgaSink where
  console : VgaConsole
  received : List UInt8 := []
  expectedColor : Color
  savedColor : Color := expectedColor

namespace VgaBuf

def overflow (c : UInt8) (s : VgaSink) : Result VgaSink := do
  let console ← putc c s.console
  return { s with console := console, received := s.received ++ [c] }

def streambuf : Streambuf VgaSink := .simple overflow

def handlers : LineHandlers VgaSink where
  handlePrePrefix s :=
    { s with savedColor := s.console.globalFg, console := s.console.setFg s.expectedColor }
  handleEndLine s := { s with console := s.console.setFg s.savedColor }

end VgaBuf

/-! ### The composite -/

structure CompositeBuf (α β : Type) where
  a : Option α
  b : Option β

namespace CompositeBuf

variable {α β : Type} (sa : Streambuf α) (sb : Streambuf β)

def overflow (c : UInt8) (s : CompositeBuf α β) : Result (CompositeBuf α β) := do
  let a ← s.a.mapM (sa.sputc c)
  let b ← s.b.mapM (sb.sputc c)
  return ⟨a, b⟩

def xsputn (str : List UInt8) (s : CompositeBuf α β) : Result (CompositeBuf α β) := do
  let a ← s.a.mapM (sa.sputn str)
  let b ← s.b.mapM (sb.sputn str)
  return ⟨a, b⟩

def streambuf : Streambuf (CompositeBuf α β) := ⟨overflow sa sb, xsputn sa sb⟩

end CompositeBuf

inductive StreambufCall where
  | sputc (c : UInt8)
  | sputn (str : List UInt8)
  deriving DecidableEq, Repr

namespace StreambufCall

def text : StreambufCall → List UInt8
  | sputc c => [c]
  | sputn str => str

def exec {σ : Type} (sb : Streambuf σ) (s : σ) : StreambufCall → Result σ
  | sputc c => sb.sputc c s
  | sputn str => sb.sputn str s

end StreambufCall

def Streambuf.run {σ : Type} (sb : Streambuf σ) (calls : List StreambufCall) (s : σ) : Result σ :=
  calls.foldlM (fun s call => call.exec sb s) s

namespace StaticLogger

abbrev StreambufType := CompositeBuf (LogBuf VgaSink) (LogBuf SerialPort)

def vgaSb (level : LogLevel) (console : VgaConsole) : LogBuf VgaSink where
  logLevel := level
  hasDelegate := true
  sink := { console := console, expectedColor := level.color }

def serialSb (level : LogLevel) (port : SerialPort) : LogBuf SerialPort where
  logLevel := level
  hasDelegate := true
  sink := port

def buildSb (level : LogLevel) (console : VgaConsole) (port : SerialPort) : StreambufType :=
  ⟨some (vgaSb level console), some (serialSb level port)⟩

def streambuf (pfx : List UInt8) (enabled : LogLevel) (polls : ℕ) : Streambuf StreambufType :=
  CompositeBuf.streambuf (LogBuf.streambuf VgaBuf.streambuf VgaBuf.handlers pfx enabled)
    (LogBuf.streambuf (SerialBuf.streambuf polls) {} pfx enabled)

end StaticLogger

end Bolgenos
