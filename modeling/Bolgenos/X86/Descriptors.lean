import Bolgenos.Lib.Ia32Tables

/-!
# Descriptors

The bit-fields of `MemorySegmentDescriptor`, `TaskStateSegmentDescriptor` and `Gate` as their
constructors fill them, and what the processor reads out of them.
-/

namespace Bolgenos

open Bitfields Ia32

inductive System where
  | null
  | system
  | codeOrData
  deriving DecidableEq, Repr

def System.value : System → ℕ
  | .null => 0x0
  | .system => 0x0
  | .codeOrData => 0x1

theorem System.value_mod (f : System) : f.value % 2 ^ 1 = 1 ↔ f = .codeOrData := by
  cases f <;> decide

inductive Present where
  | null
  | notPresent
  | present
  deriving DecidableEq, Repr

def Present.value : Present → ℕ
  | .null => 0x0
  | .notPresent => 0x0
  | .present => 0x1

theorem Present.value_mod (f : Present) : f.value % 2 ^ 1 = 1 ↔ f = .present := by
  cases f <;> decide

inductive Long where
  | null
  | long64
  | other
  deriving DecidableEq, Repr

def Long.value : Long → ℕ
  | .null => 0x0
  | .long64 => 0x1
  | .other => 0x0

theorem Long.value_mod (f : Long) : f.value % 2 ^ 1 = 1 ↔ f = .long64 := by
  cases f <;> decide

inductive OperationSize where
  | null
  | db32Bit
  | db16Bit
  deriving DecidableEq, Repr

def OperationSize.value : OperationSize → ℕ
  | .null => 0x0
  | .db32Bit => 0x1
  | .db16Bit => 0x0

theorem OperationSize.value_mod (f : OperationSize) : f.value % 2 ^ 1 = 1 ↔ f = .db32Bit := by
  cases f <;> decide

inductive Granularity where
  | null
  | fourKPages
  | bytes
  deriving DecidableEq, Repr

def Granularity.value : Granularity → ℕ
  | .null => 0x0
  | .fourKPages => 0x1
  | .bytes => 0x0

theorem Granularity.value_mod (f : Granularity) : f.value % 2 ^ 1 = 1 ↔ f = .fourKPages := by
  cases f <;> decide

inductive ProtectionRing where
  | null
  | kernel
  | ring1
  | ring2
  | user
  deriving DecidableEq, Repr

def ProtectionRing.value : ProtectionRing → ℕ
  | .null => 0x0
  | .kernel => 0x0
  | .ring1 => 0x1
  | .ring2 => 0x2
  | .user => 0x3

theorem ProtectionRing.value_mod (r : ProtectionRing) : r.value % 2 ^ 2 = r.value := by
  cases r <;> rfl

inductive TableIndicator where
  | global
  | local
  deriving DecidableEq, Repr

def TableIndicator.value : TableIndicator → ℕ
  | .global => 0
  | .local => 1

/-- A set of flags, of which the descriptor keeps the low four. -/
abbrev SegmentType := UInt8

namespace SegmentType

def null : SegmentType := (0 : UInt8) <<< 0

def data : SegmentType := (0 : UInt8) <<< 3

def dataWrite : SegmentType := (1 : UInt8) <<< 1

def code : SegmentType := (1 : UInt8) <<< 3

def codeRead : SegmentType := (1 : UInt8) <<< 1

end SegmentType

def shiftmask (value offset mask : UInt32) : UInt32 := (value >>> offset) &&& mask

theorem toNat_shiftmask {offset mask : UInt32} {o k : ℕ} (value : UInt32) (ho : offset.toNat = o)
    (hmask : mask.toNat = 2 ^ k - 1) (hlt : o < 32) :
    (shiftmask value offset mask).toNat = slice o k value.toNat := by
  rw [shiftmask, UInt32.toNat_and, UInt32.toNat_shiftRight, ho, hmask,
    Nat.and_two_pow_sub_one_eq_mod, Nat.mod_eq_of_lt hlt, Nat.shiftRight_eq_div_pow, slice]

structure MemorySegmentDescriptor where
  limit0015 : ℕ := 0
  base0015 : ℕ := 0
  base1623 : ℕ := 0
  tag : ℕ := 0
  systemFlag : ℕ := 0
  dpl : ℕ := 0
  present : ℕ := 0
  limit1619 : ℕ := 0
  avl : ℕ := 0
  long : ℕ := 0
  db : ℕ := 0
  granularity : ℕ := 0
  base2431 : ℕ := 0
  deriving DecidableEq, Repr

namespace MemorySegmentDescriptor

def make (base limit : UInt32) (tag : SegmentType) (ssf : System) (dpl : ProtectionRing)
    (isPresent : Present) (lng : Long) (db : OperationSize) (granularity : Granularity) :
    MemorySegmentDescriptor where
  limit0015 := (shiftmask limit 0 0xffff).toNat
  base0015 := (shiftmask base 0 0xffff).toNat
  base1623 := (shiftmask base 16 0xff).toNat
  tag := tag.toNat
  systemFlag := ssf.value
  dpl := dpl.value
  present := isPresent.value
  limit1619 := (shiftmask limit 16 0xf).toNat
  avl := 0x0
  long := lng.value
  db := db.value
  granularity := granularity.value
  base2431 := (shiftmask base 24 0xff).toNat

def fields (d : MemorySegmentDescriptor) : List (ℕ × ℕ) :=
  [(16, d.limit0015), (16, d.base0015), (8, d.base1623), (4, d.tag), (1, d.systemFlag),
    (2, d.dpl), (1, d.present), (4, d.limit1619), (1, d.avl), (1, d.long), (1, d.db),
    (1, d.granularity), (8, d.base2431)]

def bits (d : MemorySegmentDescriptor) : ℕ := pack d.fields

end MemorySegmentDescriptor

structure TaskStateSegmentDescriptor where
  limit0015 : ℕ := 0
  base0015 : ℕ := 0
  base1623 : ℕ := 0
  type : ℕ := 0
  const412 : ℕ := 0
  dpl : ℕ := 0
  present : ℕ := 0
  limit1619 : ℕ := 0
  avl : ℕ := 0
  const421 : ℕ := 0
  const422 : ℕ := 0
  granularity : ℕ := 0
  base2431 : ℕ := 0
  deriving DecidableEq, Repr

namespace TaskStateSegmentDescriptor

def make (base limit : UInt32) (busy : Bool) (dpl : ProtectionRing) (isPresent : Present)
    (granularity : Granularity) : TaskStateSegmentDescriptor where
  limit0015 := (shiftmask limit 0 0xffff).toNat
  base0015 := (shiftmask base 0 0xffff).toNat
  base1623 := (shiftmask base 16 0xff).toNat
  type := 0b1001 ||| (if busy then 0b0010 else 0b000)
  const412 := 0
  dpl := dpl.value
  present := isPresent.value
  limit1619 := (shiftmask limit 16 0xf).toNat
  avl := 0x0
  const421 := 0
  const422 := 0
  granularity := granularity.value
  base2431 := (shiftmask base 24 0xff).toNat

def fields (d : TaskStateSegmentDescriptor) : List (ℕ × ℕ) :=
  [(16, d.limit0015), (16, d.base0015), (8, d.base1623), (4, d.type), (1, d.const412),
    (2, d.dpl), (1, d.present), (4, d.limit1619), (1, d.avl), (1, d.const421),
    (1, d.const422), (1, d.granularity), (8, d.base2431)]

def bits (d : TaskStateSegmentDescriptor) : ℕ := pack d.fields

end TaskStateSegmentDescriptor

inductive GateType where
  | task
  | interrupt
  | trap
  deriving DecidableEq, Repr

def GateType.value : GateType → ℕ
  | .task => 0x5
  | .interrupt => 0x6
  | .trap => 0x7

def segmentSelector (segmentIdx : ℕ) (ti : TableIndicator)
    (requiredPrivilegeLevel : ProtectionRing) : ℕ :=
  ((segmentIdx <<< 3) ||| (ti.value <<< 2) ||| requiredPrivilegeLevel.value) % 2 ^ 16

inductive SegmentIndex where
  | null
  | kernelCode
  | kernelData
  | singleTask
  deriving DecidableEq, Repr

def SegmentIndex.value : SegmentIndex → ℕ
  | .null => 0
  | .kernelCode => 1
  | .kernelData => 2
  | .singleTask => 3

def kernelCodeSelector : ℕ := segmentSelector SegmentIndex.kernelCode.value .global .kernel

def kernelDataSelector : ℕ := segmentSelector SegmentIndex.kernelData.value .global .kernel

structure Gate where
  offset0015 : ℕ
  segmentSelector : ℕ := kernelCodeSelector
  reserved0 : ℕ := 0
  reserved1 : ℕ := 0
  gateKind : GateType
  db : OperationSize := .db32Bit
  zeroBit : ℕ := 0
  dpl : ProtectionRing := .kernel
  present : Present := .present
  offset1631 : ℕ
  deriving DecidableEq, Repr

namespace Gate

def make (func : UInt32) (kind : GateType) : Gate where
  offset0015 := (shiftmask func 0 0xffff).toNat
  gateKind := kind
  offset1631 := (shiftmask func 16 0xffff).toNat

def interruptGate (func : UInt32) : Gate := make func .interrupt

def fields (g : Gate) : List (ℕ × ℕ) :=
  [(16, g.offset0015), (16, g.segmentSelector), (5, g.reserved0), (3, g.reserved1),
    (3, g.gateKind.value), (1, g.db.value), (1, g.zeroBit), (2, g.dpl.value),
    (1, g.present.value), (16, g.offset1631)]

def bits (g : Gate) : ℕ := pack g.fields

end Gate

theorem base_pieces (base : UInt32) :
    (shiftmask base 0 0xffff).toNat % 2 ^ 16 + 2 ^ 16 * ((shiftmask base 16 0xff).toNat % 2 ^ 8) +
      2 ^ 24 * ((shiftmask base 24 0xff).toNat % 2 ^ 8) = base.toNat := by
  have hlt := base.toNat_lt
  rw [toNat_shiftmask (o := 0) (k := 16) base rfl rfl (by decide),
    toNat_shiftmask (o := 16) (k := 8) base rfl rfl (by decide),
    toNat_shiftmask (o := 24) (k := 8) base rfl rfl (by decide)]
  simp only [slice]
  omega

theorem limit_pieces (limit : UInt32) :
    (shiftmask limit 0 0xffff).toNat % 2 ^ 16 + 2 ^ 16 * ((shiftmask limit 16 0xf).toNat % 2 ^ 4) =
      limit.toNat % 2 ^ 20 := by
  rw [toNat_shiftmask (o := 0) (k := 16) limit rfl rfl (by decide),
    toNat_shiftmask (o := 16) (k := 4) limit rfl rfl (by decide)]
  simp only [slice]
  omega

theorem offset_pieces (func : UInt32) :
    (shiftmask func 0 0xffff).toNat % 2 ^ 16 +
      2 ^ 16 * ((shiftmask func 16 0xffff).toNat % 2 ^ 16) = func.toNat := by
  have hlt := func.toNat_lt
  rw [toNat_shiftmask (o := 0) (k := 16) func rfl rfl (by decide),
    toNat_shiftmask (o := 16) (k := 16) func rfl rfl (by decide)]
  simp only [slice]
  omega

/-- Both kinds of segment descriptors have fields of the same widths. -/
theorem read_pack_fields (limit0015 base0015 base1623 tag systemFlag dpl isPresent limit1619 avl
    long db granularity base2431 : ℕ) :
    Segment.read (pack [(16, limit0015), (16, base0015), (8, base1623), (4, tag),
      (1, systemFlag), (2, dpl), (1, isPresent), (4, limit1619), (1, avl), (1, long), (1, db),
      (1, granularity), (8, base2431)]) =
      { base := base0015 % 2 ^ 16 + 2 ^ 16 * (base1623 % 2 ^ 8) + 2 ^ 24 * (base2431 % 2 ^ 8)
        limit := limit0015 % 2 ^ 16 + 2 ^ 16 * (limit1619 % 2 ^ 4)
        type := tag % 2 ^ 4
        isCodeOrData := systemFlag % 2 ^ 1 = 1
        dpl := dpl % 2 ^ 2
        present := isPresent % 2 ^ 1 = 1
        isLong := long % 2 ^ 1 = 1
        is32 := db % 2 ^ 1 = 1
        inPages := granularity % 2 ^ 1 = 1 } := by
  set fields := [(16, limit0015), (16, base0015), (8, base1623), (4, tag), (1, systemFlag),
    (2, dpl), (1, isPresent), (4, limit1619), (1, avl), (1, long), (1, db), (1, granularity),
    (8, base2431)]
  have field {i w v p : ℕ} (h : fields[i]? = some (w, v)) (hp : position fields i = p) :
      slice p w (pack fields) = v % 2 ^ w := slice_pack h hp
  generalize pack fields = d at field
  have h0 : slice 0 16 d = limit0015 % 2 ^ 16 := field (i := 0) rfl rfl
  have h1 : slice 16 16 d = base0015 % 2 ^ 16 := field (i := 1) rfl rfl
  have h2 : slice 32 8 d = base1623 % 2 ^ 8 := field (i := 2) rfl rfl
  have h3 : slice 40 4 d = tag % 2 ^ 4 := field (i := 3) rfl rfl
  have h4 : slice 44 1 d = systemFlag % 2 ^ 1 := field (i := 4) rfl rfl
  have h5 : slice 45 2 d = dpl % 2 ^ 2 := field (i := 5) rfl rfl
  have h6 : slice 47 1 d = isPresent % 2 ^ 1 := field (i := 6) rfl rfl
  have h7 : slice 48 4 d = limit1619 % 2 ^ 4 := field (i := 7) rfl rfl
  have h9 : slice 53 1 d = long % 2 ^ 1 := field (i := 9) rfl rfl
  have h10 : slice 54 1 d = db % 2 ^ 1 := field (i := 10) rfl rfl
  have h11 : slice 55 1 d = granularity % 2 ^ 1 := field (i := 11) rfl rfl
  have h12 : slice 56 8 d = base2431 % 2 ^ 8 := field (i := 12) rfl rfl
  have hbase : slice 16 24 d = slice 16 16 d + 2 ^ 16 * slice 32 8 d := slice_add d 16 16 8
  simp only [Segment.read, hbase, h0, h1, h2, h3, h4, h5, h6, h7, h9, h10, h11, h12]

namespace MemorySegmentDescriptor

theorem bits_lt (d : MemorySegmentDescriptor) : d.bits < 2 ^ 64 := pack_lt d.fields

theorem read_bits_make (base limit : UInt32) (tag : SegmentType) (ssf : System)
    (dpl : ProtectionRing) (isPresent : Present) (lng : Long) (db : OperationSize)
    (granularity : Granularity) :
    Segment.read (make base limit tag ssf dpl isPresent lng db granularity).bits =
      { base := base.toNat
        limit := limit.toNat % 2 ^ 20
        type := tag.toNat % 2 ^ 4
        isCodeOrData := ssf = .codeOrData
        dpl := dpl.value
        present := isPresent = .present
        isLong := lng = .long64
        is32 := db = .db32Bit
        inPages := granularity = .fourKPages } := by
  rw [bits, fields, read_pack_fields]
  simp only [make, base_pieces, limit_pieces, System.value_mod, ProtectionRing.value_mod,
    Present.value_mod, Long.value_mod, OperationSize.value_mod, Granularity.value_mod]

/-- The processor reads back what the descriptor was made from exactly if the limit has at
most 20 bits and the type at most four. Otherwise it reads their low bits. -/
theorem read_bits_make_iff (base limit : UInt32) (tag : SegmentType) (ssf : System)
    (dpl : ProtectionRing) (isPresent : Present) (lng : Long) (db : OperationSize)
    (granularity : Granularity) :
    (Segment.read (make base limit tag ssf dpl isPresent lng db granularity).bits =
        { base := base.toNat
          limit := limit.toNat
          type := tag.toNat
          isCodeOrData := ssf = .codeOrData
          dpl := dpl.value
          present := isPresent = .present
          isLong := lng = .long64
          is32 := db = .db32Bit
          inPages := granularity = .fourKPages } ↔
      limit.toNat < 2 ^ 20 ∧ tag.toNat < 2 ^ 4) ∧
    Segment.read (make base limit tag ssf dpl isPresent lng db granularity).bits =
        { base := base.toNat
          limit := limit.toNat % 2 ^ 20
          type := tag.toNat % 2 ^ 4
          isCodeOrData := ssf = .codeOrData
          dpl := dpl.value
          present := isPresent = .present
          isLong := lng = .long64
          is32 := db = .db32Bit
          inPages := granularity = .fourKPages } := by
  refine ⟨?_, read_bits_make base limit tag ssf dpl isPresent lng db granularity⟩
  rw [read_bits_make, Segment.mk.injEq]
  simp only [true_and, and_true]
  exact and_congr (Nat.mod_eq_iff_lt (by decide)) (Nat.mod_eq_iff_lt (by decide))

end MemorySegmentDescriptor

namespace TaskStateSegmentDescriptor

theorem bits_lt (d : TaskStateSegmentDescriptor) : d.bits < 2 ^ 64 := pack_lt d.fields

theorem read_bits_make (base limit : UInt32) (busy : Bool) (dpl : ProtectionRing)
    (isPresent : Present) (granularity : Granularity) :
    Segment.read (make base limit busy dpl isPresent granularity).bits =
      { base := base.toNat
        limit := limit.toNat % 2 ^ 20
        type := if busy then 11 else 9
        isCodeOrData := false
        dpl := dpl.value
        present := isPresent = .present
        isLong := false
        is32 := false
        inPages := granularity = .fourKPages } := by
  have htype : (0b1001 ||| (if busy then 0b0010 else 0b000)) % 2 ^ 4 = if busy then 11 else 9 := by
    cases busy <;> rfl
  rw [bits, fields, read_pack_fields]
  simp only [make, base_pieces, limit_pieces, htype, ProtectionRing.value_mod, Present.value_mod,
    Granularity.value_mod, Nat.zero_mod, Nat.zero_ne_one, decide_false]

end TaskStateSegmentDescriptor

namespace Gate

theorem bits_lt (g : Gate) : g.bits < 2 ^ 64 := pack_lt g.fields

theorem read_bits_make (func : UInt32) (kind : GateType) :
    GateDescriptor.read (make func kind).bits =
      { offset := func.toNat
        selector := kernelCodeSelector
        type := 0b01000 + kind.value
        dpl := 0
        present := true } := by
  have field {i w v p : ℕ} (h : (make func kind).fields[i]? = some (w, v))
      (hp : position (make func kind).fields i = p) :
      slice p w (pack (make func kind).fields) = v % 2 ^ w := slice_pack h hp
  rw [bits]
  generalize pack (make func kind).fields = d at field
  have h0 : slice 0 16 d = (shiftmask func 0 0xffff).toNat % 2 ^ 16 := field (i := 0) rfl rfl
  have h1 : slice 16 16 d = kernelCodeSelector % 2 ^ 16 := field (i := 1) rfl rfl
  have h4 : slice 40 3 d = kind.value % 2 ^ 3 := field (i := 4) rfl rfl
  have h5 : slice 43 1 d = 1 := field (i := 5) rfl rfl
  have h6 : slice 44 1 d = 0 := field (i := 6) rfl rfl
  have h7 : slice 45 2 d = 0 := field (i := 7) rfl rfl
  have h8 : slice 47 1 d = 1 := field (i := 8) rfl rfl
  have h9 : slice 48 16 d = (shiftmask func 16 0xffff).toNat % 2 ^ 16 := field (i := 9) rfl rfl
  have htype : slice 40 5 d = slice 40 3 d + 2 ^ 3 * (slice 43 1 d + 2 * slice 44 1 d) := by
    rw [show slice 40 5 d = _ from slice_add d 40 3 2,
      show slice 43 2 d = _ from slice_add d 43 1 1]
    rfl
  have hkind : kind.value % 2 ^ 3 + 2 ^ 3 * (1 + 2 * 0) = 0b01000 + kind.value := by
    cases kind <;> rfl
  simp only [GateDescriptor.read, htype, h0, h1, h4, h5, h6, h7, h8, h9, offset_pieces, hkind,
    decide_true]
  rfl

end Gate

end Bolgenos
