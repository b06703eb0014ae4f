import Bolgenos.Machine

/-!
# Copying and filling ranges of an array

`lib::copy_n` and `lib::fill_n` on an array of `size` elements, given by the function from
positions to elements. Every access is checked against the bounds of the array. `copy_n` goes
from the front to the back, so it is right for overlapping ranges as long as the destination
is not behind the source.
-/

namespace Bolgenos

variable {α : Type} {size : ℤ}

def load (size : ℤ) (cells : ℤ → α) (i : ℤ) : Result α :=
  if 0 ≤ i ∧ i < size then .ok (cells i) else .error .outOfBounds

def store (size : ℤ) (cells : ℤ → α) (i : ℤ) (value : α) : Result (ℤ → α) :=
  if 0 ≤ i ∧ i < size then .ok (Function.update cells i value) else .error .outOfBounds

def copyN (size first : ℤ) : ℕ → ℤ → (ℤ → α) → Result (ℤ → α)
  | 0, _, cells => .ok cells
  | n + 1, result, cells => do
    let value ← load size cells first
    let cells ← store size cells result value
    copyN size (first + 1) n (result + 1) cells

def fillN (size first : ℤ) : ℕ → α → (ℤ → α) → Result (ℤ → α)
  | 0, _, cells => .ok cells
  | n + 1, value, cells => do
    let cells ← store size cells first value
    fillN size (first + 1) n value cells

theorem load_eq {cells : ℤ → α} {i : ℤ} (hi : 0 ≤ i) (hlt : i < size) :
    load size cells i = .ok (cells i) :=
  if_pos ⟨hi, hlt⟩

theorem store_eq {cells : ℤ → α} {i : ℤ} (hi : 0 ≤ i) (hlt : i < size) (value : α) :
    store size cells i value = .ok (Function.update cells i value) :=
  if_pos ⟨hi, hlt⟩

theorem copyN_eq {first result : ℤ} {n : ℕ} (cells : ℤ → α) (hresult : 0 ≤ result)
    (hle : result ≤ first) (hsize : first + n ≤ size) :
    copyN size first n result cells = .ok fun i =>
      if result ≤ i ∧ i < result + n then cells (i - result + first) else cells i := by
  induction n generalizing first result cells with
  | zero =>
    have hempty : ∀ i : ℤ, ¬ (result ≤ i ∧ i < result + (0 : ℕ)) := by
      intro i
      omega
    simp only [copyN, hempty, if_false]
  | succ n ih =>
    push_cast at hsize
    rw [copyN, load_eq (by omega) (by omega)]
    simp only [bind, Except.bind]
    rw [store_eq hresult (by omega)]
    simp only []
    rw [ih _ (by omega) (by omega) (by omega)]
    congr 1
    funext i
    by_cases hi : result + 1 ≤ i ∧ i < result + 1 + n
    · -- what is still to be read lies behind the element just written
      have hne : i - (result + 1) + (first + 1) ≠ result := by omega
      have hin : result ≤ i ∧ i < result + (n + 1 : ℕ) := by omega
      rw [if_pos hi, if_pos hin, Function.update_of_ne hne]
      congr 1
      omega
    · rw [if_neg hi]
      by_cases hfront : i = result
      · have hin : result ≤ i ∧ i < result + (n + 1 : ℕ) := by omega
        rw [if_pos hin, hfront, Function.update_self]
        congr 1
        omega
      · have hout : ¬ (result ≤ i ∧ i < result + (n + 1 : ℕ)) := by omega
        rw [if_neg hout, Function.update_of_ne hfront]

theorem fillN_eq {first : ℤ} {n : ℕ} (value : α) (cells : ℤ → α) (hfirst : 0 ≤ first)
    (hsize : first + n ≤ size) :
    fillN size first n value cells = .ok fun i =>
      if first ≤ i ∧ i < first + n then value else cells i := by
  induction n generalizing first cells with
  | zero =>
    have hempty : ∀ i : ℤ, ¬ (first ≤ i ∧ i < first + (0 : ℕ)) := by
      intro i
      omega
    simp only [fillN, hempty, if_false]
  | succ n ih =>
    push_cast at hsize
    rw [fillN, store_eq hfirst (by omega)]
    simp only [bind, Except.bind]
    rw [ih _ (by omega) (by omega)]
    congr 1
    funext i
    by_cases hfront : i = first
    · have hin : first ≤ i ∧ i < first + (n + 1 : ℕ) := by omega
      rw [if_pos hin, hfront, Function.update_self, ite_self]
    · have hrest : (first + 1 ≤ i ∧ i < first + 1 + n) ↔
          (first ≤ i ∧ i < first + (n + 1 : ℕ)) := by omega
      rw [Function.update_of_ne hfront]
      simp only [hrest]

end Bolgenos
