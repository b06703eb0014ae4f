import Bolgenos.Lib.Uart
import Bolgenos.Log.LineFraming

/-!
# The serial ports

`SerialPort` reaches its UART through the ports of the processor; the buffers of the logger only
see a `SerialPort` as a line of bytes. Here four UARTs hang on one bus, and any interleaving of
calls on the serial ports is the same as separate lines.
-/

namespace Bolgenos

open FuelLoop

namespace Serial

inductive ComPort where
  | com1
  | com2
  | com3
  | com4
  deriving DecidableEq, Repr

def ComPort.address : ComPort → UInt16
  | .com1 => 0x3f8
  | .com2 => 0x2f8
  | .com3 => 0x3e8
  | .com4 => 0x2e8

structure IOPorts where
  data : UInt16
  enableInterrupt : UInt16
  divisorLsb : UInt16
  divisorMsb : UInt16
  interruptId : UInt16
  lcr : UInt16
  mcr : UInt16
  lsr : UInt16
  msr : UInt16
  scratch : UInt16

def IOPorts.make (firstAddress : UInt16) : IOPorts where
  data := firstAddress
  enableInterrupt := firstAddress + 1
  divisorLsb := firstAddress
  divisorMsb := firstAddress + 1
  interruptId := firstAddress + 2
  lcr := firstAddress + 3
  mcr := firstAddress + 4
  lsr := firstAddress + 5
  msr := firstAddress + 6
  scratch := 7

structure LineControlRegister where
  charSize : BitVec 2 := 0
  other : BitVec 5 := 0
  setBaudRateDivisor : Bool := false

namespace LineControlRegister

def setCharSize (size : UInt8) (r : LineControlRegister) : LineControlRegister :=
  { r with charSize := (size - 5).toBitVec.setWidth 2 }

def setSetBaudRateDivisor (set : Bool) (r : LineControlRegister) : LineControlRegister :=
  { r with setBaudRateDivisor := set }

def clearSetBaudRateDivisor (r : LineControlRegister) : LineControlRegister :=
  r.setSetBaudRateDivisor false

def toByte (r : LineControlRegister) : UInt8 :=
  ⟨BitVec.ofBool r.setBaudRateDivisor ++ r.other ++ r.charSize⟩

end LineControlRegister

structure LineStatusRegister where
  canSend : Bool

def LineStatusRegister.ofByte (byte : UInt8) : LineStatusRegister where
  canSend := byte.toBitVec.getLsbD 5

abbrev Bus := ComPort → Uart

def decode (address : UInt16) : Option (ComPort × Fin 8) :=
  [ComPort.com1, .com2, .com3, .com4].findSome? fun port =>
    (List.finRange 8).findSome? fun (i : Fin 8) =>
      if port.address + UInt16.ofNat i.val = address then some (port, i) else none

def outb (address : UInt16) (byte : UInt8) (bus : Bus) : Bus :=
  match decode address with
  | some (port, i) => Function.update bus port ((bus port).write i byte)
  | none => bus

/-- Reading is modelled for the line status only. -/
def inb (address : UInt16) (bus : Bus) : Result (UInt8 × Bus) :=
  match decode address with
  | some (port, 5) =>
    let (byte, u) := (bus port).readLineStatus
    .ok (byte, Function.update bus port u)
  | _ => .error .outOfBounds

def setBaudRateDivisor (ports : IOPorts) (divisor : UInt16) (bus : Bus) : Bus :=
  let lcr : LineControlRegister := {}
  let lcr := lcr.setSetBaudRateDivisor true
  let lcr := lcr.setCharSize 8
  let bus := outb ports.lcr lcr.toByte bus
  let bus := outb ports.divisorLsb (divisor &&& 0xff).toUInt8 bus
  let bus := outb ports.divisorMsb (divisor >>> 8 &&& 0xff).toUInt8 bus
  let lcr := lcr.clearSetBaudRateDivisor
  outb ports.lcr lcr.toByte bus

def configure (ports : IOPorts) (bus : Bus) : Bus := setBaudRateDivisor ports 1 bus

def canWrite (ports : IOPorts) (bus : Bus) : Result (Bool × Bus) := do
  let (byte, bus) ← inb ports.lsr bus
  .ok ((LineStatusRegister.ofByte byte).canSend, bus)

def waitStep (ports : IOPorts) (bus : Bus) : Result (Bus ⊕ Bus) := do
  let (ready, bus) ← canWrite ports bus
  if ready then .ok (.inr bus) else .ok (.inl bus)

def write (polls : ℕ) (ports : IOPorts) (chr : UInt8) (bus : Bus) : Result Bus := do
  let bus ← loop .divergence (waitStep ports) polls bus
  .ok (outb ports.data chr bus)

theorem decode_address (port : ComPort) (i : Fin 8) :
    decode (port.address + UInt16.ofNat i.val) = some (port, i) := by
  revert i
  cases port <;> decide

variable {port : ComPort} {bus : Bus}

theorem outb_register (port : ComPort) (i : Fin 8) (byte : UInt8) (bus : Bus) :
    outb (port.address + UInt16.ofNat i.val) byte bus =
      Function.update bus port ((bus port).write i byte) := by
  rw [outb, decode_address]

theorem outb_data (port : ComPort) (byte : UInt8) (bus : Bus) :
    outb port.address byte bus = Function.update bus port ((bus port).write 0 byte) := by
  have h := outb_register port 0 byte bus
  rwa [show port.address + UInt16.ofNat (0 : Fin 8).val = port.address from UInt16.add_zero _] at h

theorem setBaudRateDivisor_eq (port : ComPort) (divisor : UInt16) (bus : Bus) :
    setBaudRateDivisor (.make port.address) divisor bus = Function.update bus port
      ((bus port).program (divisor &&& 0xff).toUInt8 (divisor >>> 8 &&& 0xff).toUInt8) := by
  have hlcr (byte : UInt8) (bus : Bus) : outb (IOPorts.make port.address).lcr byte bus = _ :=
    outb_register port 3 byte bus
  have hmsb (byte : UInt8) (bus : Bus) : outb (IOPorts.make port.address).divisorMsb byte bus = _ :=
    outb_register port 1 byte bus
  have hopen : ((({} : LineControlRegister).setSetBaudRateDivisor true).setCharSize 8).toByte =
      0x83 := by decide
  have hclose : ((({} : LineControlRegister).setSetBaudRateDivisor true).setCharSize
      8).clearSetBaudRateDivisor.toByte = Uart.eightBits := by decide
  simp only [setBaudRateDivisor, hlcr, hmsb, hopen, hclose]
  simp only [IOPorts.make, outb_data, Function.update_idem, Function.update_self]
  rw [Uart.write_latch]

theorem divisor_program (u : Uart) (divisor : UInt16) :
    (u.program (divisor &&& 0xff).toUInt8 (divisor >>> 8 &&& 0xff).toUInt8).divisor =
      divisor.toNat := by
  have hlt := divisor.toNat_lt
  have hmask (n : ℕ) : n &&& 255 = n % 256 := Nat.and_two_pow_sub_one_eq_mod n 8
  simp [Uart.program, Uart.divisor, hmask, Nat.shiftRight_eq_div_pow]
  omega

def view (u : Uart) : SerialPort := ⟨u.lsr, u.lsrReads, u.sent⟩

def embed (bus : Bus) (port : ComPort) (p : SerialPort) : Bus :=
  Function.update bus port
    { bus port with lsr := p.lsr, lsrReads := p.lsrReads, sent := p.sent }

theorem canSend_ofByte (byte : UInt8) :
    (LineStatusRegister.ofByte byte).canSend = SerialPort.canSend byte := by
  -- all 256 readings are tried
  cases byte with
  | ofBitVec b =>
    cases b with
    | ofFin i =>
      revert i
      decide +kernel

theorem waitStep_embed (bus : Bus) (port : ComPort) (p : SerialPort) :
    waitStep (.make port.address) (embed bus port p) =
      (SerialPort.waitStep p).map (Sum.map (embed bus port) (embed bus port)) := by
  have hlsr : decode (IOPorts.make port.address).lsr = some (port, 5) := decode_address port 5
  have hpoll : canWrite (.make port.address) (embed bus port p) =
      .ok (SerialPort.canSend (p.lsr p.lsrReads),
        embed bus port { p with lsrReads := p.lsrReads + 1 }) := by
    simp only [canWrite, inb, hlsr, bind, Except.bind, Uart.readLineStatus, embed,
      Function.update_self, Function.update_idem, canSend_ofByte]
  rw [waitStep, hpoll]
  cases hready : SerialPort.canSend (p.lsr p.lsrReads) with
  | true =>
    rw [SerialPort.waitStep_ready hready]
    rfl
  | false =>
    rw [SerialPort.waitStep_busy hready]
    rfl

theorem embed_view (bus : Bus) (port : ComPort) : embed bus port (view (bus port)) = bus :=
  Function.update_eq_self port bus

theorem write_eq (polls : ℕ) (chr : UInt8) (h : (bus port).latch = false) :
    write polls (.make port.address) chr bus =
      ((view (bus port)).write polls chr).map (embed bus port) := by
  have hloop := loop_map (e := Fault.divergence) (waitStep_embed bus port) polls (view (bus port))
  rw [embed_view] at hloop
  rw [write, hloop, SerialPort.write]
  cases loop Fault.divergence SerialPort.waitStep polls (view (bus port)) with
  | error e => rfl
  | ok p =>
    have hlatch :
        Uart.latch { bus port with lsr := p.lsr, lsrReads := p.lsrReads, sent := p.sent } = false :=
      h
    simp only [Except.map, bind, Except.bind, IOPorts.make, outb_data, embed, Function.update_self,
      Function.update_idem, Uart.write, hlatch]
    rfl

inductive Call where
  | construct
  | setBaudRateDivisor (divisor : UInt16)
  | write (chr : UInt8)

def exec (polls : ℕ) (bus : Bus) (call : ComPort × Call) : Result Bus :=
  match call.2 with
  | .construct => .ok (configure (.make call.1.address) bus)
  | .setBaudRateDivisor divisor =>
    .ok (setBaudRateDivisor (.make call.1.address) divisor bus)
  | .write chr => write polls (.make call.1.address) chr bus

def callsOn (port : ComPort) (calls : List (ComPort × Call)) : List Call :=
  calls.filterMap fun call => if call.1 = port then some call.2 else none

def Opened (calls : List Call) : Prop := ∀ call ∈ calls.head?, call = .construct

def written : List Call → List UInt8 :=
  List.filterMap fun
    | .write chr => some chr
    | _ => none

def lastDivisor : List Call → ℕ :=
  List.foldl (fun d call => match call with
    | .construct => 1
    | .setBaudRateDivisor divisor => divisor.toNat
    | .write _ => d) 0

structure Carries (calls : List Call) (before after : Uart) : Prop where
  sent : after.sent = before.sent ++ written calls
  lcr : calls ≠ [] → after.lcr = Uart.eightBits
  divisor : calls ≠ [] → after.divisor = lastDivisor calls
  ier : after.ier = before.ier
  fcr : after.fcr = before.fcr
  mcr : after.mcr = before.mcr
  scratch : after.scratch = before.scratch
  lsr : after.lsr = before.lsr

variable {calls : List Call} {u₀ u : Uart}

theorem written_concat (calls : List Call) (call : Call) :
    written (calls ++ [call]) = written calls ++ written [call] := List.filterMap_append

theorem lastDivisor_concat (calls : List Call) (call : Call) :
    lastDivisor (calls ++ [call]) = match call with
      | .construct => 1
      | .setBaudRateDivisor divisor => divisor.toNat
      | .write _ => lastDivisor calls := by
  rw [lastDivisor, List.foldl_append]
  cases call <;> rfl

theorem carries_nil (u : Uart) : Carries [] u u :=
  ⟨(List.append_nil _).symm, absurd rfl, absurd rfl, rfl, rfl, rfl, rfl, rfl⟩

theorem Carries.responsive (h : Carries calls u₀ u) (hready : (view u₀).Responsive) :
    (view u).Responsive := by
  intro k
  obtain ⟨j, hj⟩ := hready k
  have hlsr : (view u).lsr = (view u₀).lsr := h.lsr
  rw [hlsr]
  exact ⟨j, hj⟩

theorem Carries.program (h : Carries calls u₀ u) {call : Call} {divisor : UInt16}
    (hwritten : written [call] = [])
    (hdivisor : lastDivisor (calls ++ [call]) = divisor.toNat) :
    Carries (calls ++ [call]) u₀
      (u.program (divisor &&& 0xff).toUInt8 (divisor >>> 8 &&& 0xff).toUInt8) where
  sent := by
    rw [written_concat, hwritten, List.append_nil]
    exact h.sent
  lcr _ := rfl
  divisor _ := (divisor_program u divisor).trans hdivisor.symm
  ier := h.ier
  fcr := h.fcr
  mcr := h.mcr
  scratch := h.scratch
  lsr := h.lsr

theorem Carries.write (h : Carries calls u₀ u) (hne : calls ≠ []) (chr : UInt8) (reads : ℕ) :
    Carries (calls ++ [.write chr]) u₀
      { u with lsrReads := reads, sent := u.sent ++ [chr] } where
  sent := by
    rw [written_concat, ← List.append_assoc, ← h.sent]
    rfl
  lcr _ := h.lcr hne
  divisor _ := (h.divisor hne).trans (lastDivisor_concat calls (.write chr)).symm
  ier := h.ier
  fcr := h.fcr
  mcr := h.mcr
  scratch := h.scratch
  lsr := h.lsr

theorem exec_write (hready : (view (bus port)).Responsive) (hlatch : (bus port).latch = false)
    (chr : UInt8) :
    ∃ reads, Returns (fun polls => exec polls bus (port, .write chr)) (Function.update bus port
      { bus port with lsrReads := reads, sent := (bus port).sent ++ [chr] }) := by
  obtain ⟨j, hj⟩ := hready (view (bus port)).lsrReads
  obtain ⟨n, reads, hwait⟩ := SerialPort.exists_wait hj
  refine ⟨reads, ?_⟩
  have hwrite := Returns.of_loop hwait
  filter_upwards [hwrite] with polls hpolls
  change write polls (.make port.address) chr bus = _
  rw [write_eq polls chr hlatch, SerialPort.write, hpolls]
  rfl

theorem callsOn_concat (calls : List (ComPort × Call)) (p port : ComPort) (call : Call) :
    callsOn port (calls ++ [(p, call)]) =
      if p = port then callsOn port calls ++ [call] else callsOn port calls := by
  rw [callsOn, List.filterMap_append]
  by_cases hp : p = port <;> simp [hp, callsOn]

theorem opened_of_concat {call : Call} (h : Opened (calls ++ [call])) : Opened calls := by
  cases calls with
  | nil => exact nofun
  | cons c cs => exact h

theorem exec_carries (h : Carries calls u₀ (bus port)) {call : Call}
    (hopen : Opened (calls ++ [call])) (hready : (view (bus port)).Responsive) :
    ∃ u, Returns (fun polls => exec polls bus (port, call)) (Function.update bus port u) ∧
      Carries (calls ++ [call]) u₀ u := by
  cases call with
  | construct =>
    refine ⟨_, .of_forall fun _ => congrArg _ (setBaudRateDivisor_eq port 1 bus), h.program rfl ?_⟩
    rw [lastDivisor_concat]
    rfl
  | setBaudRateDivisor divisor =>
    refine ⟨_, .of_forall fun _ => congrArg _ (setBaudRateDivisor_eq port divisor bus),
      h.program rfl ?_⟩
    rw [lastDivisor_concat]
  | write chr =>
    have hne : calls ≠ [] := by
      intro hnil
      rw [hnil] at hopen
      cases hopen (.write chr) rfl
    obtain ⟨reads, hrun⟩ := exec_write hready (Uart.latch_eightBits (h.lcr hne)) chr
    exact ⟨_, hrun, h.write hne chr reads⟩

/-- However the calls on the four ports are interleaved, they all return, and each line carries
what its own calls have written, at its own rate. -/
theorem run_lines (bus : Bus) (hready : ∀ port, (view (bus port)).Responsive)
    (calls : List (ComPort × Call)) (hopen : ∀ port, Opened (callsOn port calls)) :
    ∃ bus', Returns (fun polls => calls.foldlM (exec polls) bus) bus' ∧
      ∀ port, Carries (callsOn port calls) (bus port) (bus' port) := by
  induction calls using List.reverseRecOn with
  | nil =>
    exact ⟨bus, .of_forall fun _ => rfl, fun port => carries_nil (bus port)⟩
  | append_singleton calls call ih =>
    obtain ⟨p, call⟩ := call
    have hearlier : ∀ port, Opened (callsOn port calls) := by
      intro port
      have hport := hopen port
      rw [callsOn_concat] at hport
      split_ifs at hport
      · exact opened_of_concat hport
      · exact hport
    obtain ⟨bus₁, hrun, hcarries⟩ := ih hearlier
    have hp := hopen p
    rw [callsOn_concat, if_pos rfl] at hp
    obtain ⟨u, hcall, hu⟩ := exec_carries (hcarries p) hp ((hcarries p).responsive (hready p))
    refine ⟨Function.update bus₁ p u, ?_, ?_⟩
    · simp only [List.foldlM_append, List.foldlM_cons, List.foldlM_nil, bind_pure]
      exact hrun.bind hcall
    · intro port
      rw [callsOn_concat]
      by_cases hport : p = port
      · subst hport
        rw [if_pos rfl, Function.update_self]
        exact hu
      · rw [if_neg hport, Function.update_of_ne (Ne.symm hport)]
        exact hcarries port

theorem run_lines_two : ∃ bus' : Bus, (bus' .com1).sent = [65] ∧ (bus' .com2).divisor = 12 := by
  have hready : ∀ port : ComPort,
      (view ((fun _ => { lsr := fun _ => 0x20 } : Bus) port)).Responsive :=
    fun _ _ => ⟨0, show SerialPort.canSend 0x20 = true by decide⟩
  have hopen : ∀ port, Opened (callsOn port [(.com1, .construct), (.com2, .construct),
      (.com1, .write 65), (.com2, .setBaudRateDivisor 12)]) := by
    intro port call hcall
    cases port <;> cases hcall <;> rfl
  obtain ⟨bus', -, hcarries⟩ := run_lines _ hready _ hopen
  exact ⟨bus', (hcarries .com1).sent, (hcarries .com2).divisor (by decide)⟩

end Serial

end Bolgenos
