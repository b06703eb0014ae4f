import Bolgenos.Lib.IntervalTimer
import Bolgenos.Time.FrequencyDivider

/-!
# The programmable interval timer

`pit::init` writes a command and the two bytes of a count to the timer. The access bits of its
command are those of a latch, so that the timer takes neither the mode nor the base of the count
from it: what the channel does with the two bytes depends on how the firmware left it.
-/

namespace Bolgenos

open IntervalTimer

namespace Pit

def pitFrequency : ℕ := 1193182

def maxDivider : ℕ := 65535

inductive PitPort where
  | timer
  | speaker
  | cmd
  deriving DecidableEq, Repr

def PitPort.offset : PitPort → ℕ
  | .timer => 0x40 - 0x40
  | .speaker => 0x42 - 0x40
  | .cmd => 0x43 - 0x40

inductive NumMode where
  | bcd
  | bin
  deriving DecidableEq, Repr

def NumMode.value : NumMode → UInt8
  | .bcd => 0x00
  | .bin => 0x01

inductive OperMode where
  | m0
  | m1
  | m2
  | m3
  | m4
  | m5
  deriving DecidableEq, Repr

def OperMode.value : OperMode → UInt8
  | .m0 => 0x00
  | .m1 => 0x02
  | .m2 => 0x04
  | .m3 => 0x06
  | .m4 => 0x08
  | .m5 => 0x0a

inductive AccMode where
  | latch
  | low
  | high
  | both
  deriving DecidableEq, Repr

def AccMode.value : AccMode → UInt8
  | .latch => 0x00
  | .low => 0x10
  | .high => 0x20
  | .both => 0x30

inductive PitChannel where
  | ch0
  | ch1
  | ch2
  | back
  deriving DecidableEq, Repr

def PitChannel.value : PitChannel → UInt8
  | .ch0 => 0x00
  | .ch1 => 0x40
  | .ch2 => 0x80
  | .back => 0xc0

def divider (hz : ℕ) : FrequencyDivider :=
  FrequencyDivider.setFrequency hz pitFrequency maxDivider {}

def command : UInt8 :=
  PitChannel.ch0.value ||| AccMode.latch.value ||| OperMode.m2.value ||| NumMode.bin.value

/-- The writes of `init` to the timer; its handler gets the divider. -/
def init (hz : ℕ) (t : Timer) : Timer :=
  let timeout := (divider hz).pitTimeout
  let t := t.outb PitPort.cmd.offset command
  let t := t.outb PitPort.timer.offset (UInt8.ofNat (FrequencyDivider.shiftmask timeout 0 0xff))
  t.outb PitPort.timer.offset (UInt8.ofNat (FrequencyDivider.shiftmask timeout 8 0xff))

variable {hz : ℕ}

theorem pitTimeout_bounds (hz : ℕ) :
    1 ≤ (divider hz).pitTimeout ∧ (divider hz).pitTimeout < 65536 := by
  rcases Nat.lt_or_ge maxDivider (max 1 (pitFrequency / hz)) with h | h
  · rw [divider, FrequencyDivider.setFrequency_of_lt _ h, FrequencyDivider.pitTimeout]
    exact ⟨by norm_num, by norm_num⟩
  · have hmax : maxDivider ≤ 65535 := le_rfl
    rw [divider, FrequencyDivider.setFrequency_of_le _ hmax h, FrequencyDivider.pitTimeout]
    exact ⟨le_max_left _ _, Nat.lt_succ_of_le h⟩

def lowByte (v : ℕ) : UInt8 := UInt8.ofNat (FrequencyDivider.shiftmask v 0 0xff)

def highByte (v : ℕ) : UInt8 := UInt8.ofNat (FrequencyDivider.shiftmask v 8 0xff)

theorem toNat_shiftmask_byte (v offset : ℕ) :
    (UInt8.ofNat (FrequencyDivider.shiftmask v offset 0xff)).toNat = v / 2 ^ offset % 256 := by
  rw [FrequencyDivider.shiftmask, show (0xff : ℕ) = 2 ^ 8 - 1 by rfl,
    Nat.and_two_pow_sub_one_eq_mod, Nat.shiftRight_eq_div_pow]
  simp

theorem init_channels (hz : ℕ) (t : Timer) :
    (init hz t).channels = Function.update t.channels 0
      (((t.channels 0).write (lowByte (divider hz).pitTimeout)).write
        (highByte (divider hz).pitTimeout)) := by
  have hcommand : t.outb PitPort.cmd.offset command = t := t.outb_latch (by decide)
  have htimer (t : Timer) (byte : UInt8) : t.outb PitPort.timer.offset byte =
      ⟨Function.update t.channels 0 ((t.channels 0).write byte)⟩ := t.outb_channel 0 byte
  simp only [init, hcommand, htimer, Function.update_idem, Function.update_self, lowByte, highByte]

def Settled (c : Channel) : Prop := ∀ low, c.access ≠ .both (some low)

/-- How the firmware has to leave the channel for a count. -/
def Ready (c : Channel) (timeout : ℕ) : Prop :=
  c.Periodic ∧ 2 ≤ timeout ∧
    (c.access = .both none ∧ (c.bcd = false ∨ timeout < 10) ∨
      c.access = .high ∧ 256 ∣ timeout ∧ c.bcd = false)

variable {c : Channel} {v : ℕ}

theorem Ready.access (h : Ready c v) : c.access = .both none ∨ c.access = .high :=
  h.2.2.imp And.left And.left

theorem count_bytes (v : ℕ) (hv : v < 65536) :
    256 * (highByte v).toNat + (lowByte v).toNat = v := by
  rw [highByte, lowByte, toNat_shiftmask_byte, toNat_shiftmask_byte]
  omega

theorem write_write_iff (c : Channel) (h1 : 1 ≤ v) (hv : v < 65536) :
    (Settled ((c.write (lowByte v)).write (highByte v)) ∧
      ((c.write (lowByte v)).write (highByte v)).period = some v) ↔ Ready c v := by
  have hbytes := count_bytes v hv
  have hlow := (lowByte v).toNat_lt
  have hhigh := (highByte v).toNat_lt
  obtain ⟨access, mode, bcd, count⟩ := c
  cases access with
  | low =>
    constructor
    · intro h
      exfalso
      have hperiod := h.2
      by_cases h0 : (highByte v).toNat = 0
      · have := Channel.period_of_count_zero (congrArg some h0) hperiod
        omega
      · have := Channel.period_le rfl h0 (by omega) hperiod
        omega
    · intro h
      rcases h.access with hboth | hhigh
      · cases hboth
      · cases hhigh
  | high =>
    constructor
    · intro h
      have hperiod := h.2
      by_cases h0 : 256 * (highByte v).toNat = 0
      · have := Channel.period_of_count_zero (congrArg some h0) hperiod
        omega
      · have hle := Channel.period_le rfl h0 (by omega) hperiod
        have heq : 256 * (highByte v).toNat = v := by omega
        obtain ⟨hp, h2, hbcd⟩ := (Channel.period_eq_self_iff (congrArg some heq) (by omega) hv).1
          hperiod
        exact ⟨hp, h2, .inr ⟨rfl, ⟨_, heq.symm⟩, hbcd.resolve_right (by omega)⟩⟩
    · intro h
      obtain ⟨hp, h2, ⟨hboth, -⟩ | ⟨-, hdvd, hbcd⟩⟩ := h
      · cases hboth
      · have heq : 256 * (highByte v).toNat = v := by omega
        exact ⟨nofun, (Channel.period_eq_self_iff (congrArg some heq) (by omega) hv).2
          ⟨hp, h2, .inl hbcd⟩⟩
  | both pending =>
    cases pending with
    | none =>
      have hsettled : Settled (((⟨.both none, mode, bcd, count⟩ : Channel).write
          (lowByte v)).write (highByte v)) := fun low h => by cases h
      rw [Ready, and_iff_right hsettled,
        Channel.period_eq_self_iff (congrArg some hbytes) (by omega) hv]
      simp [Channel.Periodic, Channel.write]
    | some low =>
      constructor
      · intro h
        exact absurd rfl (h.1 (highByte v))
      · intro h
        rcases h.access with hboth | hhigh
        · cases hboth
        · cases hhigh

theorem write_fields (c : Channel) (byte : UInt8) :
    (c.write byte).mode = c.mode ∧ (c.write byte).bcd = c.bcd := by
  obtain ⟨access, mode, bcd, count⟩ := c
  cases access with
  | low | high => exact ⟨rfl, rfl⟩
  | both pending => cases pending <;> exact ⟨rfl, rfl⟩

/-- `init` does not choose the mode of the timer. The timer interrupts at the rate that the
divider counts with if and only if the firmware left the first channel ready for it, and then
`jiffies` goes up once in the clocks of both divisions. -/
theorem init_rate_iff (hz : ℕ) (t : Timer) :
    ((init hz t).channels 0).mode = (t.channels 0).mode ∧
    ((init hz t).channels 0).bcd = (t.channels 0).bcd ∧
    (∀ i ≠ 0, (init hz t).channels i = t.channels i) ∧
    ((Settled ((init hz t).channels 0) ∧
        ((init hz t).channels 0).period = some (divider hz).pitTimeout) ↔
      Ready (t.channels 0) (divider hz).pitTimeout) ∧
    (Ready (t.channels 0) (divider hz).pitTimeout → ∀ clocks jiffies,
      (FrequencyDivider.handleIrq^[((init hz t).channels 0).pulses clocks]
        (divider hz, jiffies)).2 = jiffies + UInt32.ofNat
          (clocks / ((divider hz).pitTimeout * ((divider hz).restart + 1)))) := by
  obtain ⟨h1, hlt⟩ := pitTimeout_bounds hz
  have hiff := write_write_iff (t.channels 0) h1 hlt
  have hfirst : (init hz t).channels 0 =
      ((t.channels 0).write (lowByte (divider hz).pitTimeout)).write
        (highByte (divider hz).pitTimeout) := by
    rw [init_channels, Function.update_self]
  have hlow := write_fields (t.channels 0) (lowByte (divider hz).pitTimeout)
  have hhigh := write_fields ((t.channels 0).write (lowByte (divider hz).pitTimeout))
    (highByte (divider hz).pitTimeout)
  refine ⟨?_, ?_, ?_, ?_, ?_⟩
  · rw [hfirst, hhigh.1, hlow.1]
  · rw [hfirst, hhigh.2, hlow.2]
  · intro i hi
    rw [init_channels, Function.update_of_ne hi]
  · rw [hfirst]
    exact hiff
  · intro hready clocks jiffies
    have hperiod := (hiff.2 hready).2
    rw [hfirst, Channel.pulses, hperiod, FrequencyDivider.handleIrq_iterate,
      FrequencyDivider.doTicks_eq rfl, Nat.div_div_eq_div_mul]

-- a square wave with both bytes of a binary count
example : Ready { mode := 3 } 11931 := ⟨by decide, by decide, .inl ⟨rfl, .inl rfl⟩⟩

end Pit

end Bolgenos
