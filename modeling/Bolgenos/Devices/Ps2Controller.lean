import Bolgenos.Lib.FaultState
import Bolgenos.Machine

/-!
# The PS/2 controller at boot

What the code reads from outside is given by an `Env`: the bytes of the status and of the
data register and the values of `jiffies`, each in the order of the reads. The run keeps a
trace of its accesses. The loops without a bound of their own, `clean_buffer` and `sleep_`,
get the budget `fuel`.
-/

namespace Bolgenos

open FaultState

structure Env where
  status : ℕ → UInt8
  data : ℕ → UInt8
  jiffies : ℕ → UInt32

inductive BootEvent where
  | command (cmd : UInt8)
  | sent (byte : UInt8)
  | received (byte : UInt8)
  -- a poll of `wait_for_flag`, and whether time is left
  | poll (flag : UInt8) (val : Bool) (left : Bool) (status : UInt8)
  -- a test of the loop in `sleep_`
  | sleep (start ticks now : UInt32)
  -- `sched::yield` while `instance` is null
  | nullYield
  deriving DecidableEq, Repr

/-- `scheduling` says whether `instance` of the scheduler has been set. -/
structure Boot where
  env : Env
  statusReads : ℕ := 0
  dataReads : ℕ := 0
  jiffiesReads : ℕ := 0
  interruptsEnabled : Bool := false
  scheduling : Bool := false
  trace : List BootEvent := []

abbrev BootM := FaultState Fault Boot

def record (e : BootEvent) : BootM Unit :=
  FaultState.modify fun b => { b with trace := b.trace ++ [e] }

/-! ### Time -/

def hz : UInt32 := 10

def msInSec : UInt32 := 1000

def msToTicks (ms : UInt32) : UInt32 :=
  let ticks := ms / msInSec * (hz / msInSec) * 1000
  let ticks := ticks + ms / msInSec * (hz % msInSec)
  let ticks := ticks + ms % msInSec * (hz / msInSec)
  let trunkatedPart := ms % msInSec * (hz % msInSec)
  let ticks := ticks + trunkatedPart / 1000
  if trunkatedPart % 1000 ≠ 0 then ticks + 1 else ticks

def loadJiffies : BootM UInt32 := do
  let now ← gets fun b => b.env.jiffies b.jiffiesReads
  FaultState.modify fun b => { b with jiffiesReads := b.jiffiesReads + 1 }
  return now

/-- `sched::yield`. With a scheduler other tasks run before it returns. -/
def schedYield : BootM Unit := do
  let scheduling ← gets Boot.scheduling
  if scheduling then return ()
  else
    record .nullYield
    fail .nullDereference

def sleepLoop (start ticks : UInt32) : ℕ → BootM Unit
  | 0 => fail .divergence
  | fuel + 1 => do
    let now ← loadJiffies
    record (.sleep start ticks now)
    if now < start + ticks then
      schedYield
      sleepLoop start ticks fuel
    else return ()

def sleepTicks (fuel : ℕ) (ticksTimeout : UInt32) : BootM Unit := do
  let enabled ← gets Boot.interruptsEnabled
  if enabled then
    let start ← loadJiffies
    sleepLoop start ticksTimeout fuel
  else fail (.panic "sleep with disabled interrupts")

theorem loadJiffies_apply (b : Boot) : loadJiffies b =
    (.ok (b.env.jiffies b.jiffiesReads), { b with jiffiesReads := b.jiffiesReads + 1 }) :=
  rfl

theorem record_apply (e : BootEvent) (b : Boot) :
    record e b = (.ok (), { b with trace := b.trace ++ [e] }) :=
  rfl

def sleepMs (fuel : ℕ) (ms : UInt32) : BootM Unit := sleepTicks fuel (msToTicks ms)

namespace Ps2

/-! ### Registers -/

def outBufStatus : UInt8 := 1

def inBufStatus : UInt8 := 2

def status : BootM UInt8 := do
  let byte ← gets fun b => b.env.status b.statusReads
  FaultState.modify fun b => { b with statusReads := b.statusReads + 1 }
  return byte

def receiveByte : BootM UInt8 := do
  let byte ← gets fun b => b.env.data b.dataReads
  FaultState.modify fun b => { b with dataReads := b.dataReads + 1 }
  record (.received byte)
  return byte

def sendByte (byte : UInt8) : BootM Unit := record (.sent byte)

def sendCommand (cmd : UInt8) : BootM Unit := record (.command cmd)

def shows (flag : UInt8) (val : Bool) (st : UInt8) : Bool := (st &&& flag != 0) == val

def waitForFlag (fuel : ℕ) (flag : UInt8) (val : Bool) : ℕ → BootM Bool
  | 0 => do
    let st ← status
    record (.poll flag val false st)
    return st &&& flag != 0
  | ms + 1 => do
    let st ← status
    record (.poll flag val true st)
    if shows flag val st then return st &&& flag != 0
    else
      sleepMs fuel 1
      waitForFlag fuel flag val ms

def waitForInput (fuel ms : ℕ) : BootM Bool := waitForFlag fuel outBufStatus true ms

def waitForOutput (fuel ms : ℕ) : BootM Bool := do
  let set ← waitForFlag fuel inBufStatus false ms
  return !set

def receive (fuel ms : ℕ) : BootM (Option UInt8) := do
  if ← waitForInput fuel ms then
    let byte ← receiveByte
    return some byte
  else return none

def cleanBuffer : ℕ → BootM Unit
  | 0 => fail .divergence
  | fuel + 1 => do
    let st ← status
    if st &&& outBufStatus != 0 then
      let _ ← receiveByte
      cleanBuffer fuel
    else return ()

def conf : BootM UInt8 := do
  sendCommand 0x20
  receiveByte

def setConf (conf : UInt8) : BootM Unit := do
  sendCommand 0x60
  sendByte conf

def selftestTimeout : ℕ := 5

def outputTimeout : ℕ := 1

def doSelftest (fuel : ℕ) : BootM Bool := do
  sendCommand 0xaa
  match ← receive fuel selftestTimeout with
  | some testResult => return testResult == 0x55
  | none => return false

/-! ### Lines -/

structure Line where
  cmdEnable : UInt8
  cmdDisable : UInt8
  cmdTest : UInt8
  needRedirection : Bool
  cmdRedirect : UInt8
  enableInterruptsMask : UInt8
  id : ℕ

def firstLine : Line := ⟨0xae, 0xad, 0xab, false, 0, 1, 0⟩

def secondLine : Line := ⟨0xa8, 0xa7, 0xa9, true, 0xd4, 2, 1⟩

def Line.enable (line : Line) : BootM Unit := sendCommand line.cmdEnable

def Line.disable (line : Line) : BootM Unit := sendCommand line.cmdDisable

def Line.test (fuel : ℕ) (line : Line) : BootM Bool := do
  sendCommand line.cmdTest
  match ← receive fuel selftestTimeout with
  | some reply => return reply == 0
  | none => return false

inductive ErrorCode where
  | ok
  | wrongAck
  | timeout
  deriving DecidableEq, Repr

def Line.send (fuel : ℕ) (line : Line) (byte : UInt8) : BootM ErrorCode := do
  if line.needRedirection then sendCommand line.cmdRedirect
  if ← waitForOutput fuel outputTimeout then
    sendByte byte
    return .ok
  else return .timeout

def Line.sendAck (fuel : ℕ) (line : Line) (byte expectedAck : UInt8) : BootM ErrorCode := do
  let ret ← line.send fuel byte
  if ret ≠ .ok then return ret
  else
    match ← receive fuel outputTimeout with
    | some ack => return if ack = expectedAck then .ok else .wrongAck
    | none => return .timeout

/-! ### The keyboard driver -/

def keyboardAck : UInt8 := 0xfa

def thisDevId : List UInt8 := [0xab, 0x83]

def identify (fuel : ℕ) : List UInt8 → BootM Bool
  | [] => return true
  | idByte :: rest => do
    match ← receive fuel 5 with
    | some reply => if reply = idByte then identify fuel rest else return false
    | none => return false

def probe (fuel : ℕ) (line : Line) : BootM Bool := do
  cleanBuffer fuel
  let ret ← line.sendAck fuel 0xf5 keyboardAck
  if ret ≠ .ok then return false
  else
    let ret ← line.sendAck fuel 0xf2 keyboardAck
    if ret ≠ .ok then return false
    else if ← identify fuel thisDevId then
      let _ ← line.sendAck fuel 0xf4 keyboardAck
      return true
    else return false

/-! ### Initialization -/

def knownDevices : List (ℕ → Line → BootM Bool) := [probe]

def countActive (fuel : ℕ) (line : Line) : List (ℕ → Line → BootM Bool) → BootM ℕ
  | [] => return 0
  | dev :: rest => do
    let active ← dev fuel line
    let count ← countActive fuel line rest
    return if active then count + 1 else count

def probeLine (fuel : ℕ) (line : Line) : BootM Bool := do
  let activeDevCount ← countActive fuel line knownDevices
  if activeDevCount > 1 then fail (.panic "")
  else return activeDevCount == 1

def initializeController (fuel : ℕ) : BootM Unit := do
  firstLine.disable
  secondLine.disable
  cleanBuffer fuel
  let c ← conf
  let c := c &&& ~~~firstLine.enableInterruptsMask &&& ~~~secondLine.enableInterruptsMask
  let c := c &&& ~~~0x40
  setConf c
  if !(← doSelftest fuel) then fail (.panic "PS/2: controller self-test failed!")
  else
    secondLine.enable
    let _ ← conf
    secondLine.disable
    let _ ← firstLine.test fuel
    let _ ← secondLine.test fuel
    firstLine.enable
    secondLine.enable
    let firstActive ← probeLine fuel firstLine
    let secondActive ← probeLine fuel secondLine
    let c ← conf
    let c := if firstActive then c ||| firstLine.enableInterruptsMask else c
    if !firstActive then firstLine.disable
    let c := if secondActive then c ||| secondLine.enableInterruptsMask else c
    if !secondActive then secondLine.disable
    setConf c

end Ps2

end Bolgenos
