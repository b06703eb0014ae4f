import Bolgenos.Machine

/-!
# Bit arrays in place

An array of bits laid over bytes of memory, as the page allocator and the slabs keep
them. Bit `i` is bit `i % 8` of the byte at offset `i / 8`.
-/

namespace Bolgenos

open ByteMemory

structure BitArray where
  size : ℕ := 0
  data : ℕ := 0
  deriving DecidableEq, Repr

namespace BitArray

def initializeOn (m : Mem) (address size : ℕ) : Mem × BitArray :=
  ((List.range (alignUp 8 size / 8)).foldl (fun m idx => write8 m (wrap (address + idx)) 0) m,
    ⟨size, address⟩)

def mask (index : ℕ) : BitVec 8 := 1#8 <<< (index % 8)

def get (m : Mem) (a : BitArray) (index : ℕ) : Bool :=
  m (wrap (a.data + index / 8)) &&& mask index ≠ 0

def set (m : Mem) (a : BitArray) (index : ℕ) (value : Bool) : Mem :=
  let byte := wrap (a.data + index / 8)
  if value then write8 m byte (m byte ||| mask index)
  else write8 m byte (m byte &&& ~~~ mask index)

def expectedSize (elems : ℕ) : ℕ := if elems % 8 ≠ 0 then elems / 8 + 1 else elems / 8

variable {m m' : Mem} {a : BitArray} {i j : ℕ}

theorem and_mask_ne_zero (v : BitVec 8) (i : ℕ) :
    (decide (v &&& mask i ≠ 0)) = v.getLsbD (i % 8) := by
  have hlt : i % 8 < 8 := Nat.mod_lt i (by decide)
  rw [mask]
  generalize i % 8 = t at hlt
  revert v
  interval_cases t <;> decide

theorem get_eq (m : Mem) (a : BitArray) (i : ℕ) :
    a.get m i = (m (wrap (a.data + i / 8))).getLsbD (i % 8) :=
  and_mask_ne_zero _ i

def bytes (a : BitArray) : Set ℕ := Set.Ico a.data (a.data + expectedSize a.size)

def Fits (a : BitArray) : Prop := a.data + expectedSize a.size ≤ 2 ^ 32

theorem div_lt_expectedSize {n : ℕ} (hi : i < n) : i / 8 < expectedSize n := by
  simp only [expectedSize]
  split_ifs <;> omega

theorem expectedSize_eq (n : ℕ) : expectedSize n = (n + 7) / 8 := by
  simp only [expectedSize]
  split_ifs with hmod
  · omega
  · omega

theorem byte_mem (hi : i < a.size) : a.data + i / 8 ∈ a.bytes :=
  ⟨Nat.le_add_right _ _, Nat.add_lt_add_left (div_lt_expectedSize hi) _⟩

theorem wrap_byte (ha : a.Fits) (hi : i < a.size) : wrap (a.data + i / 8) = a.data + i / 8 := by
  have hlt := div_lt_expectedSize hi
  rw [Fits] at ha
  exact wrap_of_lt (by omega)

theorem get_congr (ha : a.Fits) (hi : i < a.size) (h : ∀ x ∈ a.bytes, m' x = m x) :
    a.get m' i = a.get m i := by
  rw [get_eq, get_eq, wrap_byte ha hi, h _ (byte_mem hi)]

theorem getLsbD_mask (i t : ℕ) : (mask i).getLsbD t = decide (t = i % 8) := by
  have hlt : i % 8 < 8 := Nat.mod_lt i (by decide)
  simp only [mask, BitVec.getLsbD_shiftLeft, BitVec.getLsbD_one]
  by_cases ht : t = i % 8
  · simp [ht, hlt]
  · have : ¬ (t < 8 ∧ i % 8 ≤ t ∧ t - i % 8 = 0) := by omega
    simp only [ht, decide_false]
    simpa using fun h1 h2 => by omega

theorem set_byte (m : Mem) (a : BitArray) (i : ℕ) (v : Bool) (t : ℕ) (ht : t < 8) :
    (a.set m i v (wrap (a.data + i / 8))).getLsbD t =
      if t = i % 8 then v else (m (wrap (a.data + i / 8))).getLsbD t := by
  have hmask := getLsbD_mask i t
  cases v <;> by_cases hti : t = i % 8
  · simp [set, hti, getLsbD_mask]
  · simp only [hti, decide_false] at hmask
    simp [set, hti, ht, BitVec.getLsbD_and, BitVec.getLsbD_not, hmask, - BitVec.getLsbD_eq_getElem]
  · simp [set, hti, getLsbD_mask]
  · simp only [hti, decide_false] at hmask
    simp [set, hti, BitVec.getLsbD_or, hmask, - BitVec.getLsbD_eq_getElem]

theorem set_of_ne (m : Mem) (a : BitArray) (i : ℕ) (v : Bool) {x : ℕ}
    (hx : x ≠ wrap (a.data + i / 8)) : a.set m i v x = m x := by
  cases v with
  | false => exact write8_of_ne hx
  | true => exact write8_of_ne hx

theorem set_frame (ha : a.Fits) (hi : i < a.size) (v : Bool) {x : ℕ} (hx : x ≠ a.data + i / 8) :
    a.set m i v x = m x := by
  rw [← wrap_byte ha hi] at hx
  exact set_of_ne m a i v hx

theorem get_set_of_byte (m : Mem) (a : BitArray) (v : Bool)
    (hbyte : wrap (a.data + j / 8) = wrap (a.data + i / 8) → j / 8 = i / 8) :
    a.get (a.set m i v) j = if j = i then v else a.get m j := by
  have hlt : j % 8 < 8 := Nat.mod_lt j (by decide)
  rw [get_eq, get_eq]
  by_cases hsame : j / 8 = i / 8
  · have hji : j % 8 = i % 8 ↔ j = i := by omega
    rw [hsame, set_byte m a i v (j % 8) hlt]
    simp only [hji]
  · have hji : j ≠ i := fun h => hsame (by rw [h])
    rw [set_of_ne m a i v fun heq => hsame (hbyte heq), if_neg hji]

theorem get_set (ha : a.Fits) (hi : i < a.size) (hj : j < a.size) (v : Bool) :
    a.get (a.set m i v) j = if j = i then v else a.get m j := by
  apply get_set_of_byte
  rw [wrap_byte ha hj, wrap_byte ha hi]
  omega

theorem clear_fold (m : Mem) (address n x : ℕ) :
    (List.range n).foldl (fun m idx => write8 m (wrap (address + idx)) 0) m x =
      if ∃ idx < n, x = wrap (address + idx) then 0 else m x := by
  induction n with
  | zero => simp
  | succ n ih =>
    rw [List.range_succ, List.foldl_append, List.foldl_cons, List.foldl_nil]
    by_cases hx : x = wrap (address + n)
    · rw [hx, write8_same, if_pos ⟨n, Nat.lt_succ_self n, rfl⟩]
    · rw [write8_of_ne hx, ih]
      congr 1
      simp only [Nat.lt_succ_iff_lt_or_eq, or_and_right, exists_or, exists_eq_left, hx, or_false]

theorem alignUp_eight {n : ℕ} (h : n + 8 ≤ 2 ^ 32) : alignUp 8 n / 8 = expectedSize n := by
  simp only [alignUp, alignDown, expectedSize]
  split_ifs
  · rw [wrap_of_lt (by omega)]
    omega
  · rfl

theorem initializeOn_of_ne {address n x : ℕ} (hn : n + 8 ≤ 2 ^ 32)
    (hx : ∀ idx < expectedSize n, x ≠ wrap (address + idx)) :
    (initializeOn m address n).1 x = m x := by
  simp only [initializeOn, alignUp_eight hn]
  rw [clear_fold]
  apply if_neg
  intro hexists
  obtain ⟨idx, hidx, heq⟩ := hexists
  exact hx idx hidx heq

theorem initializeOn_frame {address n x : ℕ} (hn : n + 8 ≤ 2 ^ 32)
    (hfit : address + expectedSize n ≤ 2 ^ 32)
    (hx : x ∉ Set.Ico address (address + expectedSize n)) :
    (initializeOn m address n).1 x = m x := by
  apply initializeOn_of_ne hn
  intro idx hidx heq
  rw [wrap_of_lt (by omega)] at heq
  exact hx ⟨by omega, by omega⟩

theorem get_initializeOn {address n : ℕ} (hn : n + 8 ≤ 2 ^ 32) (hi : i < n) :
    (⟨n, address⟩ : BitArray).get (initializeOn m address n).1 i = false := by
  rw [get_eq]
  simp only [initializeOn, alignUp_eight hn]
  rw [clear_fold, if_pos ⟨i / 8, div_lt_expectedSize hi, rfl⟩]
  simp

end BitArray

end Bolgenos
