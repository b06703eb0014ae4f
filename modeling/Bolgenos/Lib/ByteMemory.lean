import Mathlib.Tactic

/-!
# Byte-addressed memory with little-endian words

A memory maps addresses to bytes. `read32` and `write32` access the four bytes from an
address as one number. The lemmas are the laws of the two accesses and the frame
conditions: a word is changed only by a write that overlaps it.
-/

namespace ByteMemory

abbrev Mem := ℕ → BitVec 8

def write8 (m : Mem) (a : ℕ) (v : BitVec 8) : Mem := Function.update m a v

def read32 (m : Mem) (a : ℕ) : ℕ :=
  (m a).toNat + 256 * (m (a + 1)).toNat + 65536 * (m (a + 2)).toNat +
    16777216 * (m (a + 3)).toNat

def write32 (m : Mem) (a v : ℕ) : Mem := fun x =>
  if x = a then BitVec.ofNat 8 v
  else if x = a + 1 then BitVec.ofNat 8 (v / 256)
  else if x = a + 2 then BitVec.ofNat 8 (v / 65536)
  else if x = a + 3 then BitVec.ofNat 8 (v / 16777216)
  else m x

variable {m m' : Mem} {a b v x : ℕ}

@[simp]
theorem write8_same (m : Mem) (a : ℕ) (v : BitVec 8) : write8 m a v a = v := by
  simp [write8]

theorem write8_of_ne {w : BitVec 8} (h : x ≠ a) : write8 m a w x = m x := by
  simp [write8, h]

theorem read32_congr (h : ∀ x, a ≤ x → x < a + 4 → m' x = m x) :
    read32 m' a = read32 m a := by
  simp only [read32]
  rw [h a (by omega) (by omega), h (a + 1) (by omega) (by omega), h (a + 2) (by omega) (by omega),
    h (a + 3) (by omega) (by omega)]

theorem write32_frame (h : x < a ∨ a + 4 ≤ x) : write32 m a v x = m x := by
  simp only [write32]
  rw [if_neg (by omega), if_neg (by omega), if_neg (by omega), if_neg (by omega)]

theorem read32_write32 (hv : v < 2 ^ 32) : read32 (write32 m a v) a = v := by
  simp only [read32, write32, if_pos, if_neg (show a + 1 ≠ a by omega),
    if_neg (show a + 2 ≠ a by omega), if_neg (show a + 2 ≠ a + 1 by omega),
    if_neg (show a + 3 ≠ a by omega), if_neg (show a + 3 ≠ a + 1 by omega),
    if_neg (show a + 3 ≠ a + 2 by omega), BitVec.toNat_ofNat]
  omega

theorem read32_write32_frame (h : b + 4 ≤ a ∨ a + 4 ≤ b) :
    read32 (write32 m a v) b = read32 m b :=
  read32_congr fun _ hx hx' => write32_frame (by omega)

theorem read32_lt (m : Mem) (a : ℕ) : read32 m a < 2 ^ 32 := by
  have h0 := (m a).isLt
  have h1 := (m (a + 1)).isLt
  have h2 := (m (a + 2)).isLt
  have h3 := (m (a + 3)).isLt
  simp only [read32]
  omega

def read64 (m : Mem) (a : ℕ) : ℕ := read32 m a + 2 ^ 32 * read32 m (a + 4)

def write64 (m : Mem) (a v : ℕ) : Mem :=
  write32 (write32 m a (v % 2 ^ 32)) (a + 4) (v / 2 ^ 32 % 2 ^ 32)

theorem write64_frame (h : x < a ∨ a + 8 ≤ x) : write64 m a v x = m x := by
  rw [write64, write32_frame (by omega), write32_frame (by omega)]

theorem read64_congr (h : ∀ x, a ≤ x → x < a + 8 → m' x = m x) : read64 m' a = read64 m a := by
  rw [read64, read64, read32_congr fun x hx hx' => h x (by omega) (by omega),
    read32_congr fun x hx hx' => h x (by omega) (by omega)]

theorem read64_write64 (hv : v < 2 ^ 64) : read64 (write64 m a v) a = v := by
  rw [read64, write64, read32_write32_frame (Or.inl le_rfl), read32_write32 (by omega),
    read32_write32 (by omega)]
  omega

theorem read64_write64_frame (h : b + 8 ≤ a ∨ a + 8 ≤ b) :
    read64 (write64 m a v) b = read64 m b :=
  read64_congr fun _ hx hx' => write64_frame (by omega)

end ByteMemory
