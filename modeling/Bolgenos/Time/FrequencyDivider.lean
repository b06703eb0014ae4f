import Mathlib.Tactic

/-!
# The frequency divider of the timer

The hardware divides its frequency by at most `hw_max_divider`. For a lower frequency the
interrupt handler also counts hardware ticks: `restart_` is documented as the number of
hardware ticks in one software tick. The fields of type `unsigned long` are natural numbers
here, as nothing is added to or multiplied with them.
-/

namespace Bolgenos

structure FrequencyDivider where
  pit : ℕ := 0
  counter : ℕ := 0
  restart : ℕ := 0
  deriving DecidableEq, Repr

namespace FrequencyDivider

def shiftmask (value offset mask : ℕ) : ℕ := value >>> offset &&& mask

def pitTimeout (d : FrequencyDivider) : ℕ := d.pit

def isLowFrequency (d : FrequencyDivider) : Bool := d.restart ≠ 0

/-- `full_div`: the chip takes 0 for 0xffff. -/
def fullDiv (hz hwPitFreq : ℕ) : ℕ := if hwPitFreq / hz = 0 then 1 else hwPitFreq / hz

def setFrequency (hz hwPitFreq hwMaxDivider : ℕ) (d : FrequencyDivider) : FrequencyDivider :=
  let fullDiv := fullDiv hz hwPitFreq
  let d := if fullDiv > hwMaxDivider then
      { d with pit := 100, restart := fullDiv / 100 }
    else
      { d with pit := shiftmask fullDiv 0 0xffff, restart := 0 }
  { d with counter := d.restart }

def doTick (d : FrequencyDivider) : Bool × FrequencyDivider :=
  if d.counter ≠ 0 then (false, { d with counter := d.counter - 1 })
  else (true, { d with counter := d.restart })

def doTicks : ℕ → FrequencyDivider → ℕ × FrequencyDivider
  | 0, d => (0, d)
  | m + 1, d =>
    let (ticks, d) := doTicks m d
    let (tick, d) := d.doTick
    (if tick then ticks + 1 else ticks, d)

def handleIrq (s : FrequencyDivider × UInt32) : FrequencyDivider × UInt32 :=
  let (tick, d) := s.1.doTick
  (d, if tick then s.2 + 1 else s.2)

variable {d : FrequencyDivider} {hz hwPitFreq hwMaxDivider : ℕ}

theorem handleIrq_iterate (d : FrequencyDivider) (jiffies : UInt32) (m : ℕ) :
    handleIrq^[m] (d, jiffies) = ((doTicks m d).2, jiffies + UInt32.ofNat (doTicks m d).1) := by
  induction m with
  | zero => simp [doTicks]
  | succ m ih =>
    rw [Function.iterate_succ_apply', ih]
    simp only [handleIrq, doTicks]
    cases (doTicks m d).2.doTick.1 with
    | false => simp only [Bool.false_eq_true, if_false]
    | true =>
      simp only [if_true, UInt32.ofNat_add, UInt32.add_assoc]
      rfl

/-- The counter runs from `restart_` down to 0, which takes one tick more than `restart_`. -/
theorem doTicks_eq (h : d.counter = d.restart) (m : ℕ) :
    doTicks m d = (m / (d.restart + 1),
      { d with counter := d.restart - m % (d.restart + 1) }) := by
  obtain ⟨pit, counter, r⟩ := d
  obtain rfl : counter = r := h
  induction m with
  | zero => simp only [doTicks, Nat.zero_div, Nat.zero_mod, Nat.sub_zero]
  | succ m ih =>
    have hpos : 0 < counter + 1 := Nat.succ_pos _
    have hsplit := Nat.mod_add_div m (counter + 1)
    have hlt := Nat.mod_lt m hpos
    simp only [doTicks, ih, doTick]
    by_cases hlast : m % (counter + 1) = counter
    · obtain ⟨hdiv, hmod⟩ : (m + 1) / (counter + 1) = m / (counter + 1) + 1 ∧
          (m + 1) % (counter + 1) = 0 :=
        (Nat.div_mod_unique hpos).2 ⟨by rw [Nat.mul_add]; omega, hpos⟩
      have hzero : ¬ counter - m % (counter + 1) ≠ 0 := by omega
      simp only [if_neg hzero, if_true, hdiv, hmod, Nat.sub_zero]
    · obtain ⟨hdiv, hmod⟩ : (m + 1) / (counter + 1) = m / (counter + 1) ∧
          (m + 1) % (counter + 1) = m % (counter + 1) + 1 :=
        (Nat.div_mod_unique hpos).2 ⟨by omega, by omega⟩
      have hleft : counter - m % (counter + 1) ≠ 0 := by omega
      simp only [if_pos hleft, Bool.false_eq_true, if_false, hdiv, hmod, Nat.sub_sub]

theorem fullDiv_eq (hz hwPitFreq : ℕ) : fullDiv hz hwPitFreq = max 1 (hwPitFreq / hz) := by
  rw [fullDiv]
  generalize hwPitFreq / hz = n
  split <;> omega

theorem shiftmask_of_lt {value : ℕ} (h : value < 2 ^ 16) : shiftmask value 0 0xffff = value := by
  rw [shiftmask, Nat.shiftRight_zero, show (0xffff : ℕ) = 2 ^ 16 - 1 by rfl,
    Nat.and_two_pow_sub_one_eq_mod, Nat.mod_eq_of_lt h]

theorem setFrequency_of_lt (d : FrequencyDivider) (h : hwMaxDivider < max 1 (hwPitFreq / hz)) :
    setFrequency hz hwPitFreq hwMaxDivider d =
      ⟨100, max 1 (hwPitFreq / hz) / 100, max 1 (hwPitFreq / hz) / 100⟩ := by
  simp only [setFrequency, fullDiv_eq, if_pos h]

theorem setFrequency_of_le (d : FrequencyDivider) (hmax : hwMaxDivider ≤ 65535)
    (h : max 1 (hwPitFreq / hz) ≤ hwMaxDivider) :
    setFrequency hz hwPitFreq hwMaxDivider d = ⟨max 1 (hwPitFreq / hz), 0, 0⟩ := by
  simp only [setFrequency, fullDiv_eq, if_neg (not_lt.2 h)]
  rw [shiftmask_of_lt (by omega)]

/-- The hardware ticks in one software tick, by the documentation of `restart_`. -/
def rate (d : FrequencyDivider) : ℕ := if d.isLowFrequency then d.restart else 1

/-- Software ticks come at the documented rate if and only if the hardware can divide its
frequency alone. The period that goes with the documented rate is right in any case. -/
theorem doTicks_rate_iff (d : FrequencyDivider) (hmin : 100 ≤ hwMaxDivider)
    (hmax : hwMaxDivider ≤ 65535) :
    let d := setFrequency hz hwPitFreq hwMaxDivider d
    ((∀ m, (doTicks m d).1 = m / d.rate) ∧
      d.pitTimeout * d.rate ≤ max 1 (hwPitFreq / hz) ∧
        max 1 (hwPitFreq / hz) < d.pitTimeout * d.rate + 100) ↔
      max 1 (hwPitFreq / hz) ≤ hwMaxDivider := by
  intro d
  rcases lt_or_ge hwMaxDivider (max 1 (hwPitFreq / hz)) with hlow | hhigh
  · have hd : d = _ := setFrequency_of_lt _ hlow
    have hpos : 0 < max 1 (hwPitFreq / hz) / 100 := Nat.div_pos (by omega) (by decide)
    refine iff_of_false (fun hrate => ?_) (by omega)
    -- after `restart_` ticks the counter has only reached 0
    have hticks := hrate.1 d.restart
    rw [doTicks_eq (by rw [hd]), rate, isLowFrequency, if_pos (by rw [hd]; simpa using hpos.ne')]
      at hticks
    simp only at hticks
    rw [Nat.div_eq_of_lt (Nat.lt_succ_self _), Nat.div_self (by rw [hd]; exact hpos)] at hticks
    cases hticks
  · have hd : d = _ := setFrequency_of_le _ hmax hhigh
    refine iff_of_true ⟨fun m => ?_, ?_, ?_⟩ hhigh
    · rw [doTicks_eq (by rw [hd]), hd]
      rfl
    · rw [hd]
      simp [rate, isLowFrequency, pitTimeout]
    · rw [hd]
      simp [rate, isLowFrequency, pitTimeout]

theorem doTicks_rate_hundred :
    (doTicks 1000 (setFrequency 100 1193182 65535 {})).1 = 1000 := by
  have hmin : 100 ≤ 65535 := by decide
  have hfits : max 1 (1193182 / 100) ≤ 65535 := by decide
  have hrate := ((doTicks_rate_iff {} hmin le_rfl).2 hfits).1 1000
  exact hrate.trans (Nat.div_one 1000)

theorem doTicks_not_rate_ten :
    ¬ ∀ m, (doTicks m (setFrequency 10 1193182 65535 {})).1 =
      m / (setFrequency 10 1193182 65535 {}).rate := by
  intro h
  have hticks := h 1193
  rw [doTicks_eq (by decide)] at hticks
  revert hticks
  decide

end FrequencyDivider

end Bolgenos
