import Mathlib.Algebra.Order.Floor.Div
import Bolgenos.Devices.Ps2Controller

/-!
# Ticks and sleeping

`ms_to_ticks` for any configured `HZ`, and what `sleep_` does when the counter of ticks wraps
around. The counter and the deadline are words, while the ticks since the start of the sleep
are counted by a natural number here.
-/

namespace Bolgenos

open FaultState

def lowPart (val : UInt32) : UInt32 := val % msInSec

def highPart (val : UInt32) : UInt32 := val / msInSec

/-- `ms_to_ticks` in a kernel configured with `freq` ticks per second. -/
def msToTicksAt (freq ms : UInt32) : UInt32 :=
  let ticks := highPart ms * highPart freq * 1000
  let ticks := ticks + highPart ms * lowPart freq
  let ticks := ticks + lowPart ms * highPart freq
  let trunkatedPart := lowPart ms * lowPart freq
  let ticks := ticks + trunkatedPart / 1000
  if trunkatedPart % 1000 ≠ 0 then ticks + 1 else ticks

theorem ceil_split (m f : ℕ) :
    (m * f + 999) / 1000 = m / 1000 * (f / 1000) * 1000 + m / 1000 * (f % 1000) +
      m % 1000 * (f / 1000) + (m % 1000 * (f % 1000) + 999) / 1000 := by
  have hm := Nat.div_add_mod m 1000
  have hf := Nat.div_add_mod f 1000
  generalize m / 1000 = a at *
  generalize m % 1000 = b at *
  generalize f / 1000 = c at *
  generalize f % 1000 = d at *
  have hprod : m * f + 999 = (b * d + 999) + 1000 * (a * c * 1000 + a * d + b * c) := by
    rw [← hm, ← hf]
    ring
  rw [hprod, Nat.add_mul_div_left _ _ (by decide)]
  omega

theorem toNat_lowPart (val : UInt32) : (lowPart val).toNat = val.toNat % 1000 := by
  rw [lowPart, UInt32.toNat_mod]
  rfl

theorem toNat_highPart (val : UInt32) : (highPart val).toNat = val.toNat / 1000 := by
  rw [highPart, UInt32.toNat_div]
  rfl

theorem toNat_trunkatedPart (freq ms : UInt32) :
    (lowPart ms * lowPart freq).toNat = ms.toNat % 1000 * (freq.toNat % 1000) := by
  have hms : ms.toNat % 1000 ≤ 999 := by omega
  have hfreq : freq.toNat % 1000 ≤ 999 := by omega
  have hle := Nat.mul_le_mul hms hfreq
  rw [UInt32.toNat_mul, toNat_lowPart, toNat_lowPart]
  exact Nat.mod_eq_of_lt (by omega)

theorem toNat_roundUp (ticks part : UInt32) :
    (if part % 1000 ≠ 0 then ticks + part / 1000 + 1 else ticks + part / 1000).toNat =
      (ticks.toNat + (part.toNat + 999) / 1000) % 2 ^ 32 := by
  have hrest : part % 1000 ≠ 0 ↔ part.toNat % 1000 ≠ 0 := by
    rw [ne_eq, ← UInt32.toNat_inj, UInt32.toNat_mod]
    rfl
  have hdiv : (part / 1000).toNat = part.toNat / 1000 := UInt32.toNat_div part 1000
  by_cases h : part.toNat % 1000 = 0
  · rw [if_neg (by simp [hrest, h]), UInt32.toNat_add, hdiv]
    congr 2
    omega
  · rw [if_pos (hrest.2 h), UInt32.toNat_add, UInt32.toNat_add, hdiv, UInt32.toNat_one,
      Nat.mod_add_mod]
    congr 1
    omega

/-- The product divided by 1000 and rounded up, as a word: what the partial products lose to
overflow is only a multiple of the word's range. -/
theorem msToTicksAt_eq_ceilDiv (freq ms : UInt32) :
    (msToTicksAt freq ms).toNat = (ms.toNat * freq.toNat) ⌈/⌉ 1000 % 2 ^ 32 := by
  have hceil : (ms.toNat * freq.toNat) ⌈/⌉ 1000 = (ms.toNat * freq.toNat + 999) / 1000 :=
    Nat.ceilDiv_eq_add_pred_div _ _
  rw [hceil, ceil_split]
  simp only [msToTicksAt]
  rw [toNat_roundUp, toNat_trunkatedPart]
  simp only [UInt32.toNat_add, UInt32.toNat_mul, toNat_lowPart, toNat_highPart]
  simp [Nat.mod_add_mod, Nat.add_mod_mod, Nat.mod_mul_mod]

/-- A caller of `sleep_` with interrupts and the scheduler on. It reads the counter once for the
deadline and then at each poll, when `elapsed` ticks have passed. -/
structure Sleeper (b : Boot) (start : UInt32) (elapsed : ℕ → ℕ) : Prop where
  enabled : b.interruptsEnabled = true
  scheduling : b.scheduling = true
  first : b.env.jiffies b.jiffiesReads = start
  polls : ∀ i, b.env.jiffies (b.jiffiesReads + 1 + i) = start + UInt32.ofNat (elapsed i)
  mono : Monotone elapsed

def ReturnsAt (b : Boot) (ticks : UInt32) (i : ℕ) : Prop :=
  ∃ fuel b', sleepTicks fuel ticks b = (.ok (), b') ∧ b'.jiffiesReads = b.jiffiesReads + 2 + i

variable {b : Boot} {start : UInt32} {elapsed : ℕ → ℕ} {ticks : UInt32} {i : ℕ}

def polled (b : Boot) (s ticks : UInt32) : Boot :=
  { b with
    jiffiesReads := b.jiffiesReads + 1
    trace := b.trace ++ [.sleep s ticks (b.env.jiffies b.jiffiesReads)] }

theorem schedYield_scheduled (h : b.scheduling = true) : schedYield b = (.ok (), b) := by
  have hgets : (gets Boot.scheduling : BootM Bool) b = (.ok true, b) := by
    rw [← h]
    rfl
  rw [schedYield, bind_apply_ok hgets]
  rfl

theorem sleepLoop_scheduled {s : UInt32} (h : b.scheduling = true) (fuel : ℕ) :
    sleepLoop s ticks (fuel + 1) b =
      if b.env.jiffies b.jiffiesReads < s + ticks then sleepLoop s ticks fuel (polled b s ticks)
      else (.ok (), polled b s ticks) := by
  rw [sleepLoop, bind_apply_ok (loadJiffies_apply b), bind_apply_ok (record_apply _ _)]
  split_ifs
  · exact bind_apply_ok (schedYield_scheduled h)
  · rfl

/-- The tests of the loop hold up to the next `i` reads of the counter and fail at that one. -/
def Stops (b : Boot) (s ticks : UInt32) (i : ℕ) : Prop :=
  (∀ j < i, b.env.jiffies (b.jiffiesReads + j) < s + ticks) ∧
    ¬ b.env.jiffies (b.jiffiesReads + i) < s + ticks

theorem stops_succ {s : UInt32} : Stops b s ticks (i + 1) ↔
    b.env.jiffies b.jiffiesReads < s + ticks ∧ Stops (polled b s ticks) s ticks i := by
  simp only [Stops, polled]
  constructor
  · intro h
    refine ⟨h.1 0 (by omega), fun j hj => ?_, ?_⟩
    · have := h.1 (j + 1) (by omega)
      rwa [Nat.add_comm j 1, ← Nat.add_assoc] at this
    · have := h.2
      rwa [Nat.add_comm i 1, ← Nat.add_assoc] at this
  · intro h
    obtain ⟨hnow, hearly, hstop⟩ := h
    refine ⟨fun j hj => ?_, ?_⟩
    · cases j with
      | zero => exact hnow
      | succ j =>
        rw [Nat.add_comm j 1, ← Nat.add_assoc]
        exact hearly j (by omega)
    · rwa [Nat.add_comm i 1, ← Nat.add_assoc]

theorem sleepLoop_of_stops {s : UInt32} (h : b.scheduling = true) (hstop : Stops b s ticks i) :
    ∃ b', sleepLoop s ticks (i + 1) b = (.ok (), b') ∧
      b'.jiffiesReads = b.jiffiesReads + 1 + i := by
  induction i generalizing b with
  | zero =>
    have hnow : ¬ b.env.jiffies b.jiffiesReads < s + ticks := hstop.2
    rw [sleepLoop_scheduled h, if_neg hnow]
    exact ⟨_, rfl, rfl⟩
  | succ i ih =>
    obtain ⟨hnow, hrest⟩ := stops_succ.1 hstop
    obtain ⟨b', hrun, hreads⟩ := ih (b := polled b s ticks) h hrest
    refine ⟨b', ?_, ?_⟩
    · rw [sleepLoop_scheduled h, if_pos hnow, hrun]
    · rw [hreads]
      simp only [polled]
      omega

theorem stops_of_sleepLoop {s : UInt32} {fuel : ℕ} {b' : Boot} (h : b.scheduling = true)
    (hrun : sleepLoop s ticks fuel b = (.ok (), b')) :
    ∃ i, b'.jiffiesReads = b.jiffiesReads + 1 + i ∧ Stops b s ticks i := by
  induction fuel generalizing b with
  | zero => cases hrun
  | succ fuel ih =>
    rw [sleepLoop_scheduled h] at hrun
    split_ifs at hrun with hnow
    · obtain ⟨i, hreads, hstop⟩ := ih (b := polled b s ticks) h hrun
      refine ⟨i + 1, ?_, stops_succ.2 ⟨hnow, hstop⟩⟩
      rw [hreads]
      simp only [polled]
      omega
    · cases hrun
      exact ⟨0, rfl, fun j hj => absurd hj (Nat.not_lt_zero j), hnow⟩

theorem returnsAt_iff (henabled : b.interruptsEnabled = true) (h : b.scheduling = true) :
    ReturnsAt b ticks i ↔
      Stops { b with jiffiesReads := b.jiffiesReads + 1 } (b.env.jiffies b.jiffiesReads) ticks
        i := by
  have hsleep : ∀ fuel, sleepTicks fuel ticks b =
      sleepLoop (b.env.jiffies b.jiffiesReads) ticks fuel
        { b with jiffiesReads := b.jiffiesReads + 1 } := by
    intro fuel
    have hgets : (gets Boot.interruptsEnabled : BootM Bool) b = (.ok true, b) := by
      rw [← henabled]
      rfl
    rw [sleepTicks, bind_apply_ok hgets]
    exact bind_apply_ok (loadJiffies_apply b)
  constructor
  · intro hret
    obtain ⟨fuel, b', hrun, hreads⟩ := hret
    rw [hsleep] at hrun
    obtain ⟨j, hj, hstop⟩ := stops_of_sleepLoop (by exact h) hrun
    have hij : i = j := by
      simp only at hj
      omega
    rw [hij]
    exact hstop
  · intro hstop
    obtain ⟨b', hrun, hreads⟩ := sleepLoop_of_stops (by exact h) hstop
    refine ⟨i + 1, b', ?_, ?_⟩
    · rw [hsleep, hrun]
    · rw [hreads]

/-- The comparison of the words is right exactly if the counter and the deadline are on the
same side of the wrap. -/
theorem compare_iff {s e t : ℕ} (hs : s < 2 ^ 32) (he : e < 2 ^ 31) (ht : t < 2 ^ 31) :
    ((s + e) % 2 ^ 32 < (s + t) % 2 ^ 32 ↔ e < t) ↔ (2 ^ 32 ≤ s + e ↔ 2 ^ 32 ≤ s + t) := by
  omega

theorem Sleeper.returnsAt_iff (h : Sleeper b start elapsed) : ReturnsAt b ticks i ↔
    (∀ j < i, (start.toNat + elapsed j) % 2 ^ 32 < (start.toNat + ticks.toNat) % 2 ^ 32) ∧
      ¬ (start.toNat + elapsed i) % 2 ^ 32 < (start.toNat + ticks.toNat) % 2 ^ 32 := by
  have htest : ∀ j, b.env.jiffies (b.jiffiesReads + 1 + j) < start + ticks ↔
      (start.toNat + elapsed j) % 2 ^ 32 < (start.toNat + ticks.toNat) % 2 ^ 32 := by
    intro j
    rw [h.polls, UInt32.lt_iff_toNat_lt, UInt32.toNat_add, UInt32.toNat_add,
      UInt32.toNat_ofNat', Nat.add_mod_mod]
  rw [Bolgenos.returnsAt_iff h.enabled h.scheduling, h.first]
  simp only [Stops, htest]

section Polling

variable {go : ℕ → Prop} {t bound : ℕ}

theorem test_of_in_time (hearly : ∀ i, (∀ j < i, go j) ∧ ¬ go i → t ≤ elapsed i)
    (hdue : ∀ i, IsLeast {i | t ≤ elapsed i ∧ elapsed i < bound} i → (∀ j < i, go j) ∧ ¬ go i)
    (hbefore : ∀ j < i, elapsed j < t) (hi : elapsed i < bound) : go i ↔ elapsed i < t := by
  -- no poll before `i` ends the loop, for it would end it too early
  have hgoes : ∀ j < i, go j := by
    intro j
    induction j using Nat.strong_induction_on with
    | _ j ih =>
      intro hj
      by_contra hstop
      have hle := hearly j ⟨fun k hk => ih k hk (hk.trans hj), hstop⟩
      exact absurd hle (not_le.2 (hbefore j hj))
  constructor
  · intro hgo
    by_contra hle
    refine (hdue i ⟨⟨not_lt.1 hle, hi⟩, fun j hj => ?_⟩).2 hgo
    by_contra hji
    exact absurd hj.1 (not_le.2 (hbefore j (not_le.1 hji)))
  · intro hlt
    by_contra hstop
    exact absurd (hearly i ⟨hgoes, hstop⟩) (not_le.2 hlt)

theorem in_time_iff (hmono : Monotone elapsed) (ht : t ≤ bound) :
    ((∀ i, (∀ j < i, go j) ∧ ¬ go i → t ≤ elapsed i) ∧
      ∀ i, IsLeast {i | t ≤ elapsed i ∧ elapsed i < bound} i → (∀ j < i, go j) ∧ ¬ go i) ↔
    ∀ i, (∀ j < i, elapsed j < t) → elapsed i < bound → (go i ↔ elapsed i < t) := by
  constructor
  · intro hgood i hbefore hi
    exact test_of_in_time hgood.1 hgood.2 hbefore hi
  · intro htest
    constructor
    · intro i hstop
      by_contra hlt
      have hbefore : ∀ j < i, elapsed j < t := by
        intro j hj
        exact (hmono hj.le).trans_lt (not_le.1 hlt)
      exact hstop.2 ((htest i hbefore (by omega)).2 (not_le.1 hlt))
    · intro i hdue
      obtain ⟨⟨hle, hi⟩, hleast⟩ := hdue
      have hbefore : ∀ j < i, elapsed j < t := by
        intro j hj
        by_contra hge
        have hmem := hleast ⟨not_lt.1 hge, (hmono hj.le).trans_lt hi⟩
        omega
      refine ⟨fun j hj => ?_, ?_⟩
      · have hlt := hbefore j hj
        exact (htest j (fun k hk => hbefore k (hk.trans hj)) (hlt.trans_le ht)).2 hlt
      · rw [htest i hbefore hi]
        exact not_lt.2 hle

end Polling

/-- `sleep_` returns neither early nor late if and only if the counter has wrapped around at a
poll just when the deadline lies behind the wrap, at every poll up to the one that is due. -/
theorem sleep_in_time_iff (h : Sleeper b start elapsed) (hticks : ticks.toNat < 2 ^ 31) :
    ((∀ i, ReturnsAt b ticks i → ticks.toNat ≤ elapsed i) ∧
      ∀ i, IsLeast {i | ticks.toNat ≤ elapsed i ∧ elapsed i < 2 ^ 31} i → ReturnsAt b ticks i) ↔
    ∀ i, (∀ j < i, elapsed j < ticks.toNat) → elapsed i < 2 ^ 31 →
      (2 ^ 32 ≤ start.toNat + elapsed i ↔ 2 ^ 32 ≤ start.toNat + ticks.toNat) := by
  simp only [h.returnsAt_iff]
  rw [in_time_iff h.mono hticks.le]
  refine forall_congr' fun i => forall_congr' fun _ => forall_congr' fun hi => ?_
  exact compare_iff start.toNat_lt hi hticks

theorem exists_sleeper (start : UInt32) (hmono : Monotone elapsed) :
    ∃ b, Sleeper b start elapsed := by
  refine ⟨{ env := ⟨fun _ => 0, fun _ => 0, fun k => Nat.casesOn k start
              fun i => start + UInt32.ofNat (elapsed i)⟩
            interruptsEnabled := true, scheduling := true }, rfl, rfl, rfl, fun i => ?_, hmono⟩
  simp only [Nat.zero_add, Nat.add_comm 1 i]

theorem sleep_in_time_two : ∃ b, Sleeper b 0 id ∧ ReturnsAt b 2 2 := by
  obtain ⟨b, h⟩ := exists_sleeper 0 monotone_id
  have htwo : (2 : UInt32).toNat = 2 := rfl
  have hlt : (2 : UInt32).toNat < 2 ^ 31 := by decide
  have hin := (sleep_in_time_iff h hlt).2 fun i hbefore hi => by
    simp only [id_eq] at hi
    simp only [UInt32.toNat_zero, htwo, id_eq]
    omega
  refine ⟨b, h, hin.2 2 ⟨⟨le_rfl, by decide⟩, fun i hi => ?_⟩⟩
  exact hi.1

theorem sleep_not_in_time_wrap :
    ¬ ∀ (b : Boot) (start ticks : UInt32) (elapsed : ℕ → ℕ), Sleeper b start elapsed →
      ticks.toNat < 2 ^ 31 → ∀ i, ReturnsAt b ticks i → ticks.toNat ≤ elapsed i := by
  intro hall
  obtain ⟨b, h⟩ := exists_sleeper (2 ^ 32 - 1) (monotone_const (c := 0))
  have hle := hall b (2 ^ 32 - 1) 1 _ h (by decide) 0 (h.returnsAt_iff.2 (by decide))
  revert hle
  decide

end Bolgenos
