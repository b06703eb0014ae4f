import Bolgenos.Cxx.LibString

/-!
# Output streams

An `ostream` hands its characters to a `streambuf`, one by one through `sputc` or as a block
through `sputn`. The stream is modelled over any `streambuf`; the text of a call does not
depend on it. Numbers are converted in a local array of 21 characters, last digit first.
-/

namespace Bolgenos

open FuelLoop

/-- The two virtual functions of a `streambuf`. Their return values are not used. -/
structure Streambuf (σ : Type) where
  overflow : UInt8 → σ → Result σ
  xsputn : List UInt8 → σ → Result σ

namespace Streambuf

variable {σ : Type}

def sputc (sb : Streambuf σ) (c : UInt8) (s : σ) : Result σ := sb.overflow c s

def sputn (sb : Streambuf σ) (str : List UInt8) (s : σ) : Result σ := sb.xsputn str s

def recorder : Streambuf (List UInt8) where
  overflow c text := .ok (text ++ [c])
  xsputn str text := .ok (text ++ str)

end Streambuf

abbrev FmtFlags := BitVec 32

namespace FmtFlags

def dec : FmtFlags := 1

def hex : FmtFlags := 2

def basefield : FmtFlags := dec ||| hex

end FmtFlags

structure Ostream (σ : Type) where
  streambuf : Option σ
  format : FmtFlags := FmtFlags.dec
  width : ℕ := 0
  fillch : UInt8 := 32

/-- The integer types of `operator <<`. `int` and `long` have 32 bits. -/
inductive IntType where
  | unsignedChar
  | short
  | unsignedShort
  | int
  | unsignedInt
  | long
  | unsignedLong
  deriving DecidableEq, Repr

namespace IntType

def bits : IntType → ℕ
  | unsignedChar => 8
  | short => 16
  | unsignedShort => 16
  | _ => 32

def signed : IntType → Bool
  | short => true
  | int => true
  | long => true
  | _ => false

def value (t : IntType) (v : BitVec t.bits) : ℤ := if t.signed then v.toInt else v.toNat

def castUnsigned (t : IntType) (value : ℤ) : ℕ := (value % 2 ^ t.bits).toNat

/-- `static_cast<unsigned_value_type>(0) - value`: types shorter than `int` are promoted to it,
and the others are subtracted modulo `2 ^ 32`. -/
def negated (t : IntType) (value : ℤ) : ℤ :=
  if t.bits < 32 then 0 - value else (0 - value) % 2 ^ 32

end IntType

/-- The text of a string in memory, in front of its NUL. -/
structure CString where
  text : List UInt8
  noNul : 0 ∉ text

def CString.bytes (s : CString) : List UInt8 := s.text ++ [0]

def ascii (s : String) : List UInt8 := s.toList.map fun c => UInt8.ofNat c.toNat

def cstr (s : String) (h : 0 ∉ ascii s := by decide) : CString := ⟨ascii s, h⟩

def trueString : CString := ⟨[116, 114, 117, 101], by decide⟩

def falseString : CString := ⟨[102, 97, 108, 115, 101], by decide⟩

def maxDecLength : ℕ := 20 + 1

def toPrintable (digit : UInt8) : UInt8 := if digit < 10 then 48 + digit else 97 + digit - 10

def digitStep (base : ℕ) (s : ℕ × ℕ × List UInt8) :
    Result ((ℕ × ℕ × List UInt8) ⊕ (ℕ × List UInt8)) :=
  if s.1 ≠ 0 then do
    let digit := UInt8.ofNat (s.1 % base)
    let buffer ← storeChar s.2.2 s.2.1 (toPrintable digit)
    .ok (.inl (s.1 / base, s.2.1 + 1, buffer))
  else .ok (.inr s.2)

def storeIf (cond : Prop) [Decidable cond] (c : UInt8) (s : ℕ × List UInt8) :
    Result (ℕ × List UInt8) :=
  if cond then do
    let buffer ← storeChar s.2 s.1 c
    .ok (s.1 + 1, buffer)
  else .ok s

namespace Ostream

variable {σ : Type}

def put (sb : Streambuf σ) (c : UInt8) (os : Ostream σ) : Result (Ostream σ) :=
  match os.streambuf with
  | some s => do
    let s ← sb.sputc c s
    .ok { os with streambuf := some s }
  | none => .ok os

def write (sb : Streambuf σ) (str : List UInt8) (os : Ostream σ) : Result (Ostream σ) :=
  match os.streambuf with
  | some s => do
    let s ← sb.sputn str s
    .ok { os with streambuf := some s }
  | none => .ok os

/-- `while (width-- > already_have)`, by the value of `width` before the test. -/
def fillLoop (sb : Streambuf σ) (fillch : UInt8) (alreadyHave : ℕ) :
    ℕ → Ostream σ → Result (Ostream σ)
  | 0, os => .ok os
  | width + 1, os =>
    if alreadyHave < width + 1 then do
      let os ← os.put sb fillch
      fillLoop sb fillch alreadyHave width os
    else .ok os

def fillField (sb : Streambuf σ) (width alreadyHave : ℕ) (os : Ostream σ) : Result (Ostream σ) :=
  fillLoop sb os.fillch alreadyHave width os

def putString (sb : Streambuf σ) : List UInt8 → Ostream σ → Result (Ostream σ)
  | [], _ => .error .outOfBounds
  | c :: string, os =>
    if c ≠ 0 then do
      let os ← os.put sb c
      putString sb string os
    else .ok os

def putDigits (sb : Streambuf σ) (buffer : List UInt8) : ℕ → Ostream σ → Result (Ostream σ)
  | 0, _ => .error .outOfBounds
  | digits + 1, os =>
    match buffer[digits]? with
    | none => .error .outOfBounds
    | some c => do
      let os ← os.put sb c
      if digits ≠ 0 then putDigits sb buffer digits os else .ok os

/-- `show_numerical_value`; `content` is what the local array holds before. -/
def showNumericalValue (sb : Streambuf σ) (t : IntType) (value : ℤ) (content : ℕ → UInt8)
    (os : Ostream σ) : Result (Ostream σ) := do
  let basefield := os.format &&& FmtFlags.basefield
  let (unsignedValue, base) :=
    if basefield = FmtFlags.hex then (t.castUnsigned value, 16)
    else if 0 ≤ value then (t.castUnsigned value, 10)
    else (t.castUnsigned (t.negated value), 10)
  let s ← loop .divergence (digitStep base) budget
    (unsignedValue, 0, newChars content maxDecLength)
  let s ← storeIf (s.1 = 0) 48 s
  let (digits, buffer) ← storeIf (basefield = FmtFlags.dec ∧ value < 0) 45 s
  let os ← os.fillField sb os.width digits
  os.putDigits sb buffer digits

def setf (fl mask : FmtFlags) (os : Ostream σ) : Ostream σ :=
  { os with format := os.format &&& ~~~mask ||| fl }

def insertChar (sb : Streambuf σ) (val : UInt8) (os : Ostream σ) : Result (Ostream σ) := do
  let os ← os.fillField sb os.width 1
  os.put sb val

def insertString (sb : Streambuf σ) (string : List UInt8) (os : Ostream σ) :
    Result (Ostream σ) := do
  let len ← strlen string
  let os ← os.fillField sb os.width len
  os.putString sb string

def insertBool (sb : Streambuf σ) (value : Bool) (os : Ostream σ) : Result (Ostream σ) :=
  if value then os.insertString sb trueString.bytes else os.insertString sb falseString.bytes

def insertInt (sb : Streambuf σ) (t : IntType) (val : BitVec t.bits) (content : ℕ → UInt8)
    (os : Ostream σ) : Result (Ostream σ) :=
  os.showNumericalValue sb t (t.value val) content

def insertPointer (sb : Streambuf σ) (ptr : BitVec 32) (content : ℕ → UInt8) (os : Ostream σ) :
    Result (Ostream σ) :=
  os.insertInt sb .unsignedInt ptr content

def dec (os : Ostream σ) : Ostream σ := os.setf FmtFlags.dec FmtFlags.basefield

def hex (os : Ostream σ) : Ostream σ := os.setf FmtFlags.hex FmtFlags.basefield

def endl (sb : Streambuf σ) (os : Ostream σ) : Result (Ostream σ) := os.put sb 10

end Ostream

/-- The calls on a stream: `put`, `write`, the versions of `operator <<` and the
manipulators. The array of a conversion may hold anything before. -/
inductive Call where
  | put (c : UInt8)
  | write (str : List UInt8)
  | char (val : UInt8)
  | string (s : CString)
  | bool (value : Bool)
  | int (t : IntType) (val : BitVec t.bits) (content : ℕ → UInt8)
  | pointer (ptr : BitVec 32) (content : ℕ → UInt8)
  | dec
  | hex
  | endl
  | setw (width : ℕ)
  | setfill (fillch : UInt8)

namespace Ostream

variable {σ : Type}

def apply (sb : Streambuf σ) (os : Ostream σ) : Call → Result (Ostream σ)
  | .put c => os.put sb c
  | .write str => os.write sb str
  | .char val => os.insertChar sb val
  | .string s => os.insertString sb s.bytes
  | .bool value => os.insertBool sb value
  | .int t val content => os.insertInt sb t val content
  | .pointer ptr content => os.insertPointer sb ptr content
  | .dec => .ok os.dec
  | .hex => .ok os.hex
  | .endl => os.endl sb
  | .setw width => .ok { os with width := width }
  | .setfill fillch => .ok { os with fillch := fillch }

def run (sb : Streambuf σ) (calls : List Call) (os : Ostream σ) : Result (Ostream σ) :=
  calls.foldlM (apply sb) os

def putAll (sb : Streambuf σ) (text : List UInt8) (os : Ostream σ) : Result (Ostream σ) :=
  text.foldlM (fun os c => os.put sb c) os

variable {sb : Streambuf σ} {os os' : Ostream σ} {text : List UInt8}

theorem putAll_cons (c : UInt8) (text : List UInt8) (os : Ostream σ) :
    os.putAll sb (c :: text) = os.put sb c >>= fun os => os.putAll sb text :=
  List.foldlM_cons

theorem putAll_append (text text' : List UInt8) (os : Ostream σ) :
    os.putAll sb (text ++ text') = os.putAll sb text >>= fun os => os.putAll sb text' :=
  List.foldlM_append

theorem putAll_singleton (c : UInt8) (os : Ostream σ) : os.putAll sb [c] = os.put sb c := by
  rw [putAll_cons]
  exact bind_pure _

theorem fillField_eq (width alreadyHave : ℕ) (os : Ostream σ) :
    os.fillField sb width alreadyHave =
      os.putAll sb (List.replicate (width - alreadyHave) os.fillch) := by
  rw [fillField]
  generalize os.fillch = fillch
  induction width generalizing os with
  | zero =>
    rw [Nat.zero_sub]
    rfl
  | succ width ih =>
    rw [fillLoop]
    split_ifs with hlt
    · rw [Nat.succ_sub (by omega), List.replicate_succ, putAll_cons]
      simp only [ih]
    · rw [Nat.sub_eq_zero_of_le (by omega)]
      rfl

theorem putString_eq (h : 0 ∉ text) (rest : List UInt8) (os : Ostream σ) :
    os.putString sb (text ++ 0 :: rest) = os.putAll sb text := by
  induction text generalizing os with
  | nil => rfl
  | cons c text ih =>
    obtain ⟨hc, htext⟩ := not_or.mp (List.mem_cons.not.mp h)
    rw [List.cons_append, putString, if_pos (Ne.symm hc), putAll_cons]
    simp only [ih htext]

theorem putDigits_eq {buffer : List UInt8} {n : ℕ} (hpos : 0 < n) (hn : n ≤ buffer.length)
    (os : Ostream σ) : os.putDigits sb buffer n = os.putAll sb (buffer.take n).reverse := by
  induction n generalizing os with
  | zero => exact absurd hpos (Nat.lt_irrefl 0)
  | succ n ih =>
    have hget : buffer[n]? = some buffer[n] := List.getElem?_eq_getElem (by omega)
    rw [putDigits, hget, List.take_add_one, hget, Option.toList_some, List.reverse_append,
      List.reverse_singleton, List.singleton_append, putAll_cons]
    simp only
    by_cases hzero : n = 0
    · subst hzero
      rfl
    · simp only [if_pos hzero, ih (Nat.pos_of_ne_zero hzero) (by omega)]

end Ostream

end Bolgenos
