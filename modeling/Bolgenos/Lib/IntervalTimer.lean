import Mathlib.Tactic

/-!
# An 8254 interval timer

The three channels of the timer, as far as they can be written to. A control word chooses how
the bytes of a count are written, the operating mode and the base of the count; a control word
without a choice of the bytes only latches a count for reading and changes nothing else.
-/

namespace IntervalTimer

/-- The bytes of a count that are written; between the two bytes of a count the low one is
kept. -/
inductive Access where
  | low
  | high
  | both (pending : Option UInt8)
  deriving DecidableEq, Repr

structure Channel where
  access : Access := .both none
  mode : UInt8 := 0
  bcd : Bool := false
  count : Option ℕ := none
  deriving DecidableEq, Repr

namespace Channel

def control (access : Access) (byte : UInt8) : Channel where
  access := access
  mode := byte >>> 1 &&& 7
  bcd := byte &&& 1 = 1

def command (byte : UInt8) (c : Channel) : Channel :=
  if byte >>> 4 &&& 3 = 0 then c
  else if byte >>> 4 &&& 3 = 1 then control .low byte
  else if byte >>> 4 &&& 3 = 2 then control .high byte
  else control (.both none) byte

def write (byte : UInt8) (c : Channel) : Channel :=
  match c.access with
  | .low => { c with count := some byte.toNat }
  | .high => { c with count := some (256 * byte.toNat) }
  | .both none => { c with access := .both (some byte) }
  | .both (some low) =>
    { c with access := .both none, count := some (256 * byte.toNat + low.toNat) }

/-- The modes in which the channel starts again by itself: 2 and 3, whose third bit has no
meaning. -/
def Periodic (c : Channel) : Prop := c.mode &&& 3 = 2 ∨ c.mode &&& 3 = 3

instance (c : Channel) : Decidable c.Periodic :=
  inferInstanceAs (Decidable (c.mode &&& 3 = 2 ∨ c.mode &&& 3 = 3))

end Channel

def decimal (v : ℕ) : Option ℕ :=
  if v % 16 ≤ 9 ∧ v / 16 % 16 ≤ 9 ∧ v / 256 % 16 ≤ 9 ∧ v / 4096 % 16 ≤ 9 then
    some (v % 16 + 10 * (v / 16 % 16) + 100 * (v / 256 % 16) + 1000 * (v / 4096 % 16))
  else none

namespace Channel

/-- The clocks from one pulse to the next, for a periodic channel with a valid count. A count of
zero stands for the largest one, and one is not valid. -/
def period (c : Channel) : Option ℕ :=
  if c.Periodic then
    match c.count with
    | none => none
    | some 0 => some (if c.bcd then 10000 else 65536)
    | some 1 => none
    | some v => if c.bcd then decimal v else some v
  else none

def pulses (c : Channel) (clocks : ℕ) : ℕ :=
  match c.period with
  | none => 0
  | some p => clocks / p

end Channel

structure Timer where
  channels : Fin 3 → Channel

namespace Timer

/-- A byte to the control port. The value 3 for the channel latches several channels. -/
def command (byte : UInt8) (t : Timer) : Timer :=
  if h : (byte >>> 6).toNat < 3 then
    let i : Fin 3 := ⟨(byte >>> 6).toNat, h⟩
    { t with channels := Function.update t.channels i ((t.channels i).command byte) }
  else t

def write (i : Fin 3) (byte : UInt8) (t : Timer) : Timer :=
  { t with channels := Function.update t.channels i ((t.channels i).write byte) }

def outb (port : ℕ) (byte : UInt8) (t : Timer) : Timer :=
  if h : port < 3 then t.write ⟨port, h⟩ byte
  else if port = 3 then t.command byte
  else t

theorem outb_channel (t : Timer) (i : Fin 3) (byte : UInt8) :
    t.outb i byte = ⟨Function.update t.channels i ((t.channels i).write byte)⟩ := by
  rw [outb, dif_pos i.isLt, write]

theorem outb_latch (t : Timer) {byte : UInt8} (h : byte >>> 4 &&& 3 = 0) : t.outb 3 byte = t := by
  rw [outb, dif_neg (by decide), if_pos rfl, command]
  split_ifs
  · simp only [Channel.command, if_pos h, Function.update_eq_self]
  · rfl

end Timer

theorem decimal_eq_self_iff {v : ℕ} (h : v < 65536) : decimal v = some v ↔ v < 10 := by
  have hv : v = v % 16 + 16 * (v / 16 % 16) + 256 * (v / 256 % 16) + 4096 * (v / 4096 % 16) := by
    omega
  rw [decimal]
  generalize v % 16 = d₀ at hv ⊢
  generalize v / 16 % 16 = d₁ at hv ⊢
  generalize v / 256 % 16 = d₂ at hv ⊢
  generalize v / 4096 % 16 = d₃ at hv ⊢
  split_ifs with hdigits
  · rw [Option.some.injEq]
    omega
  · simp only [false_iff]
    omega

theorem decimal_le {v n : ℕ} (h : v < 65536) (hn : decimal v = some n) : n ≤ v := by
  have hv : v = v % 16 + 16 * (v / 16 % 16) + 256 * (v / 256 % 16) + 4096 * (v / 4096 % 16) := by
    omega
  rw [decimal] at hn
  split_ifs at hn
  have hn := Option.some.inj hn
  omega

namespace Channel

variable {c : Channel} {v n : ℕ}

theorem period_of_count_zero (hcount : c.count = some 0) (h : c.period = some n) : 10000 ≤ n := by
  rw [period, hcount] at h
  split_ifs at h with hp hbcd
  · exact (Option.some.inj h).le
  · have hn := Option.some.inj h
    omega

theorem period_eq_of_count (hcount : c.count = some v) (hv : 2 ≤ v) :
    c.period = if c.Periodic then (if c.bcd then decimal v else some v) else none := by
  obtain ⟨k, rfl⟩ := Nat.exists_eq_add_of_le' hv
  rw [period, hcount]
  rfl

theorem period_of_count_one (hcount : c.count = some 1) : c.period = none := by
  rw [period, hcount]
  exact ite_self none

theorem period_le (hcount : c.count = some v) (h0 : v ≠ 0) (hv : v < 65536)
    (h : c.period = some n) : n ≤ v := by
  rcases Nat.lt_or_ge v 2 with h2 | h2
  · rw [period_of_count_one (by rw [hcount]; congr 1; omega)] at h
    cases h
  · rw [period_eq_of_count hcount h2] at h
    split_ifs at h
    · exact decimal_le hv h
    · exact (Option.some.inj h).ge

theorem period_eq_self_iff (hcount : c.count = some v) (h0 : v ≠ 0) (hv : v < 65536) :
    c.period = some v ↔ c.Periodic ∧ 2 ≤ v ∧ (c.bcd = false ∨ v < 10) := by
  rcases Nat.lt_or_ge v 2 with h2 | h2
  · rw [period_of_count_one (by rw [hcount]; congr 1; omega)]
    simp only [reduceCtorEq, false_iff]
    omega
  · rw [period_eq_of_count hcount h2]
    cases hbcd : c.bcd with
    | false => simp [h2]
    | true =>
      simp only [if_true]
      split_ifs with hp
      · rw [decimal_eq_self_iff hv]
        simp [hp, h2]
      · simp [hp]

end Channel

end IntervalTimer
