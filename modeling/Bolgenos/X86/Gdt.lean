import Bolgenos.Machine
import Bolgenos.X86.Descriptors

/-!
# The global descriptor table

`GDT` keeps its entries in a `FixedSizeVector` and tells the processor where they are. Entries
are eight bytes in memory, and the processor reads them from there.
-/

namespace Bolgenos

open ByteMemory Bitfields Ia32

/-- A vector of eight-byte elements: the address of `_data` and the number of elements. -/
structure FixedSizeVector (capacity : ℕ) where
  data : ℕ
  size : ℕ
  size_le : size ≤ capacity

namespace FixedSizeVector

variable {capacity : ℕ}

def empty (data : ℕ) : FixedSizeVector capacity := ⟨data, 0, Nat.zero_le _⟩

def expandUpTo (v : FixedSizeVector capacity) (newSize : ℕ) :
    Result (FixedSizeVector capacity) :=
  if h : newSize > capacity then .error (.panic "fault")
  else .ok { v with size := max v.size newSize, size_le := max_le v.size_le (not_lt.1 h) }

def expandBy (v : FixedSizeVector capacity) (additionalElems : ℕ) :
    Result (FixedSizeVector capacity) :=
  v.expandUpTo (wrap (v.size + additionalElems))

def pushBack (v : FixedSizeVector capacity) (m : Mem) (value : ℕ) :
    Result (FixedSizeVector capacity × Mem) := do
  let v ← v.expandBy 1
  return (v, write64 m (v.data + 8 * (v.size - 1)) value)

theorem pushBack_of_lt {v : FixedSizeVector capacity} (h : v.size < capacity)
    (hcapacity : capacity < 2 ^ 32) (m : Mem) (value : ℕ) :
    v.pushBack m value =
      .ok ({ v with size := v.size + 1, size_le := h }, write64 m (v.data + 8 * v.size) value) := by
  have hwrap : wrap (v.size + 1) = v.size + 1 := wrap_of_lt (by omega)
  have hfits : ¬ v.size + 1 > capacity := by omega
  simp [pushBack, expandBy, expandUpTo, hwrap, hfits, bind, Except.bind, pure, Except.pure]

theorem pushBack_of_full {v : FixedSizeVector capacity} (h : v.size = capacity)
    (hcapacity : capacity + 1 < 2 ^ 32) (m : Mem) (value : ℕ) :
    v.pushBack m value = .error (.panic "fault") := by
  have hwrap : wrap (v.size + 1) = v.size + 1 := wrap_of_lt (by omega)
  have hfull : v.size + 1 > capacity := by omega
  simp [pushBack, expandBy, expandUpTo, hwrap, hfull, bind, Except.bind]

end FixedSizeVector

inductive Entry where
  | memorySegment (msd : MemorySegmentDescriptor)
  | task (tssd : TaskStateSegmentDescriptor)
  deriving DecidableEq, Repr

def Entry.bits : Entry → ℕ
  | .memorySegment msd => msd.bits
  | .task tssd => tssd.bits

theorem Entry.bits_lt (e : Entry) : e.bits < 2 ^ 64 := by
  cases e with
  | memorySegment msd => exact msd.bits_lt
  | task tssd => exact tssd.bits_lt

structure GDT where
  gdt : FixedSizeVector 1024
  gdtPointer : TableRegister := {}

namespace GDT

def pushBack (g : GDT) (m : Mem) (e : Entry) : Result (ℕ × GDT × Mem) := do
  let idx := g.gdt.size % 2 ^ 16
  let (gdt, m) ← g.gdt.pushBack m e.bits
  return (idx, { g with gdt := gdt }, m)

/-- `size * sizeof(Entry) - 1` in 32 bits, stored in 16 bits. -/
def tableLimit (size : ℕ) : ℕ := wrap (2 ^ 32 - 1 + size * 8) % 2 ^ 16

def reloadTable (g : GDT) : GDT :=
  { g with gdtPointer := { limit := tableLimit g.gdt.size, base := g.gdt.data } }

theorem gdt_reloadTable (g : GDT) : g.reloadTable.gdt = g.gdt := rfl

theorem tableLimit_eq {size : ℕ} (h : 0 < size) (hle : size ≤ 1024) :
    tableLimit size = 8 * size - 1 := by
  simp only [tableLimit, wrap]
  omega

/-- The table at the address `data` after a history of insertions and reloads; in between other
code writes to the rest of the memory. -/
inductive Built (data : ℕ) : List Entry → GDT → Mem → Prop where
  | start (m : Mem) : Built data [] { gdt := .empty data } m
  | push {es : List Entry} {g g' : GDT} {m m' : Mem} {e : Entry} {idx : ℕ} :
      Built data es g m → g.pushBack m e = .ok (idx, g', m') → Built data (es ++ [e]) g' m'
  | reload {es : List Entry} {g : GDT} {m : Mem} : Built data es g m → Built data es g.reloadTable m
  | other {es : List Entry} {g : GDT} {m m' : Mem} :
      Built data es g m → SameOn data (data + 8 * 1024) m m' → Built data es g m'

variable {data : ℕ} {es : List Entry} {g : GDT} {m : Mem}

theorem pushBack_of_lt (h : g.gdt.size < 1024) (m : Mem) (e : Entry) :
    g.pushBack m e = .ok (g.gdt.size,
      { g with gdt := { g.gdt with size := g.gdt.size + 1, size_le := h } },
      write64 m (g.gdt.data + 8 * g.gdt.size) e.bits) := by
  have hidx : g.gdt.size % 2 ^ 16 = g.gdt.size := Nat.mod_eq_of_lt (by omega)
  simp only [pushBack, FixedSizeVector.pushBack_of_lt h (by norm_num), hidx, bind, Except.bind,
    pure, Except.pure]

theorem pushBack_of_full (h : g.gdt.size = 1024) (m : Mem) (e : Entry) :
    g.pushBack m e = .error (.panic "fault") := by
  simp only [pushBack, FixedSizeVector.pushBack_of_full h (by norm_num), bind, Except.bind]

theorem pushBack_eq_ok {g' : GDT} {m' : Mem} {e : Entry} {idx : ℕ}
    (h : g.pushBack m e = .ok (idx, g', m')) : ∃ hlt : g.gdt.size < 1024, idx = g.gdt.size ∧
      g' = { g with gdt := { g.gdt with size := g.gdt.size + 1, size_le := hlt } } ∧
      m' = write64 m (g.gdt.data + 8 * g.gdt.size) e.bits := by
  rcases g.gdt.size_le.lt_or_eq with hlt | hfull
  · rw [pushBack_of_lt hlt, Except.ok.injEq, Prod.mk.injEq, Prod.mk.injEq] at h
    exact ⟨hlt, h.1.symm, h.2.1.symm, h.2.2.symm⟩
  · rw [pushBack_of_full hfull] at h
    cases h

theorem Built.data_eq (h : Built data es g m) : g.gdt.data = data := by
  induction h with
  | start m => rfl
  | push hbuilt hpush ih =>
    obtain ⟨-, -, rfl, -⟩ := pushBack_eq_ok hpush
    exact ih
  | reload hbuilt ih => rw [gdt_reloadTable, ih]
  | other hbuilt hsame ih => exact ih

theorem Built.size_eq (h : Built data es g m) : g.gdt.size = es.length := by
  induction h with
  | start m => rfl
  | push hbuilt hpush ih =>
    obtain ⟨-, -, rfl, -⟩ := pushBack_eq_ok hpush
    rw [List.length_append, ← ih]
    rfl
  | reload hbuilt ih => rw [gdt_reloadTable, ih]
  | other hbuilt hsame ih => exact ih

theorem Built.read64 (h : Built data es g m) {i : ℕ} {e : Entry} (hi : es[i]? = some e) :
    read64 m (data + 8 * i) = e.bits := by
  induction h with
  | start m => simp at hi
  | @push es g g' m m' e' idx hbuilt hpush ih =>
    obtain ⟨hlt, -, -, rfl⟩ := pushBack_eq_ok hpush
    rw [hbuilt.data_eq, hbuilt.size_eq]
    rcases lt_trichotomy i es.length with hlt' | rfl | hgt
    · rw [List.getElem?_append_left hlt'] at hi
      rw [read64_write64_frame (by omega)]
      exact ih hi
    · rw [List.getElem?_concat_length, Option.some.injEq] at hi
      rw [read64_write64 e'.bits_lt, hi]
    · rw [List.getElem?_eq_none (by simp; omega)] at hi
      cases hi
  | reload hbuilt ih => exact ih hi
  | @other es g m m' hbuilt hsame ih =>
    have hlen : es.length ≤ 1024 := hbuilt.size_eq ▸ g.gdt.size_le
    have hlt : i < es.length := (List.getElem?_eq_some_iff.1 hi).1
    rw [read64_congr fun x hx hx' => hsame x (by omega) (by omega)]
    exact ih hi

theorem Built.fetch (h : Built data es g m) (hne : es ≠ []) (i : ℕ) :
    g.reloadTable.gdtPointer.fetch m i = es[i]?.map Entry.bits := by
  have hsize := h.size_eq
  have hle := g.gdt.size_le
  have hpos : 0 < es.length := List.length_pos_iff.2 hne
  have hlimit : tableLimit es.length = 8 * es.length - 1 := tableLimit_eq hpos (hsize ▸ hle)
  simp only [reloadTable, TableRegister.fetch, h.data_eq, hsize, hlimit]
  rcases lt_or_ge i es.length with hlt | hge
  · rw [if_pos (by omega), List.getElem?_eq_getElem hlt]
    rw [h.read64 (List.getElem?_eq_getElem hlt)]
    rfl
  · rw [if_neg (by omega), List.getElem?_eq_none hge]
    rfl

end GDT

namespace GDT

variable {data : ℕ} {es : List Entry} {g : GDT} {m : Mem}

end GDT

end Bolgenos
