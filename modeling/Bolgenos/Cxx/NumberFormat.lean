import Bolgenos.Cxx.Ostream
import Bolgenos.Lib.Numeral

/-!
# The text of numbers

What a stream puts for a call is computed from the call and the format of the stream alone.
For numbers it is the padding and a numeral that reads back to the value, in the base that was
chosen last.
-/

namespace Bolgenos

open FuelLoop

inductive Base where
  | dec
  | hex
  deriving DecidableEq, Repr

namespace Base

def flag : Base → FmtFlags
  | dec => FmtFlags.dec
  | hex => FmtFlags.hex

def radix : Base → ℕ
  | dec => 10
  | hex => 16

end Base

def digitChar (d : ℕ) : UInt8 := toPrintable (UInt8.ofNat d)

def digitValue (c : UInt8) : Option ℕ :=
  if 48 ≤ c ∧ c ≤ 57 then some (c.toNat - 48)
  else if 97 ≤ c ∧ c ≤ 102 then some (c.toNat - 87)
  else none

theorem digitValue_digitChar {d : ℕ} (hd : d < 16) : digitValue (digitChar d) = some d := by
  decide +revert

namespace IntType

def magnitude (t : IntType) (value : ℤ) : Base → ℕ
  | .dec => value.natAbs
  | .hex => t.castUnsigned value

/-- The numeral of a value: a minus sign in front of negative decimal numbers, and the digits
without leading zeros. -/
def numeral (t : IntType) (value : ℤ) (base : Base) : List UInt8 :=
  (if base = .dec ∧ value < 0 then [45] else []) ++
    Numeral.render digitChar base.radix (t.magnitude value base)

theorem bits_le (t : IntType) : t.bits ≤ 32 := by
  cases t <;> decide

theorem value_bounds (t : IntType) (v : BitVec t.bits) :
    -2 ^ t.bits < t.value v ∧ t.value v < 2 ^ t.bits := by
  have hpos : (0 : ℤ) < 2 ^ t.bits := by positivity
  rw [value]
  split_ifs with hsigned
  · have hlow := BitVec.le_two_mul_toInt (x := v)
    have hhigh := BitVec.two_mul_toInt_lt (x := v)
    omega
  · have hlt : (v.toNat : ℤ) < 2 ^ t.bits := by exact_mod_cast v.isLt
    omega

theorem castUnsigned_of_nonneg {t : IntType} {value : ℤ} (hpos : 0 ≤ value)
    (hlt : value < 2 ^ t.bits) : t.castUnsigned value = value.natAbs := by
  rw [castUnsigned, Int.emod_eq_of_lt hpos hlt]
  omega

theorem castUnsigned_negated {t : IntType} {value : ℤ} (hneg : value < 0)
    (hlow : -2 ^ t.bits < value) : t.castUnsigned (t.negated value) = value.natAbs := by
  have hdvd : (2 : ℤ) ^ t.bits ∣ 2 ^ 32 := pow_dvd_pow 2 t.bits_le
  have hmod : t.negated value % 2 ^ t.bits = -value := by
    rw [negated]
    split_ifs with hshort
    · rw [Int.zero_sub, Int.emod_eq_of_lt (by omega) (by omega)]
    · rw [Int.zero_sub, Int.emod_emod_of_dvd _ hdvd, Int.emod_eq_of_lt (by omega) (by omega)]
  rw [castUnsigned, hmod]
  omega

theorem castUnsigned_lt (t : IntType) (value : ℤ) : t.castUnsigned value < 2 ^ 32 := by
  have hle : (2 : ℤ) ^ t.bits ≤ 2 ^ 32 := pow_le_pow_right₀ (by decide) t.bits_le
  have hpos : (0 : ℤ) < 2 ^ t.bits := by positivity
  have hlt := Int.emod_lt_of_pos value hpos
  have hge := Int.emod_nonneg value hpos.ne'
  rw [castUnsigned]
  omega

end IntType

/-- The array holds the last digits of `n`, and `value` is what the others make. -/
structure DigitsLeft (base n len : ℕ) (s : ℕ × ℕ × List UInt8) : Prop where
  length : s.2.2.length = len
  count : s.2.1 + (Nat.digits base s.1).length = (Nat.digits base n).length
  digits : s.2.2.take s.2.1 ++ (Nat.digits base s.1).map digitChar =
    (Nat.digits base n).map digitChar

section

variable {base n len value count : ℕ} {buf : List UInt8}

theorem DigitsLeft.step (h : DigitsLeft base n len (value, count, buf)) (hbase : 1 < base)
    (hfit : (Nat.digits base n).length ≤ len) (hpos : 0 < value) :
    ∃ buf', digitStep base (value, count, buf) = .ok (.inl (value / base, count + 1, buf')) ∧
      DigitsLeft base n len (value / base, count + 1, buf') := by
  have hsplit := Nat.digits_def' hbase hpos
  have hlen := h.length
  have hcount := h.count
  have hdigits := h.digits
  simp only [hsplit, List.length_cons, List.map_cons] at hlen hcount hdigits
  have hlt : count < buf.length := by omega
  refine ⟨buf.set count (digitChar (value % base)), ?_, ⟨?_, ?_, ?_⟩⟩
  · simp only [digitStep, if_pos hpos.ne', storeChar, if_pos hlt, bind, Except.bind]
    rfl
  · simpa using hlen
  · simp only
    omega
  · simp only
    rw [take_set_self hlt, List.append_assoc, List.singleton_append, hdigits]

theorem DigitsLeft.done (h : DigitsLeft base n len (0, count, buf)) :
    count = (Nat.digits base n).length ∧ buf.take count = (Nat.digits base n).map digitChar := by
  have hcount := h.count
  have hdigits := h.digits
  simp only [Nat.digits_zero, List.length_nil, Nat.add_zero, List.map_nil, List.append_nil]
    at hcount hdigits
  exact ⟨hcount, hdigits⟩

end

theorem digits_loop {base n : ℕ} (buffer : List UInt8) (hbase : 1 < base) (hn : n < 2 ^ 32)
    (hfit : (Nat.digits base n).length ≤ buffer.length) :
    ∃ buffer', loop .divergence (digitStep base) budget (n, 0, buffer) =
        .ok ((Nat.digits base n).length, buffer') ∧ buffer'.length = buffer.length ∧
      buffer'.take (Nat.digits base n).length = (Nat.digits base n).map digitChar := by
  have hstart : DigitsLeft base n buffer.length (n, 0, buffer) :=
    ⟨rfl, Nat.zero_add _, List.nil_append _⟩
  have hbudget : n < budget := lt_budget (by omega)
  -- the value falls with every digit
  obtain ⟨r, hrun, hzero⟩ := loop_total (e := Fault.divergence) (f := digitStep base)
    (fun k s => s.1 = k ∧ DigitsLeft base n buffer.length s)
    (fun r => DigitsLeft base n buffer.length (0, r)) (by
      intro k s hs
      obtain ⟨value, count, buf⟩ := s
      obtain ⟨hk, hleft⟩ := hs
      subst hk
      rcases Nat.eq_zero_or_pos value with hzero | hpos
      · subst hzero
        exact Or.inr ⟨(count, buf), rfl, hleft⟩
      · obtain ⟨buf', hstep, hleft'⟩ := hleft.step hbase hfit hpos
        exact Or.inl ⟨_, value / base, hstep, ⟨rfl, hleft'⟩, Nat.div_lt_self hpos hbase⟩)
    (n := budget) (k := n) (s := (n, 0, buffer)) ⟨rfl, hstart⟩ hbudget
  obtain ⟨count, buffer'⟩ := r
  obtain ⟨hcount, hdigits⟩ := hzero.done
  subst hcount
  exact ⟨buffer', hrun, hzero.length, hdigits⟩

theorem storeIf_eq {p : Prop} [Decidable p] {buffer : List UInt8} {n : ℕ} (c : UInt8)
    (h : n < buffer.length) :
    ∃ buffer', storeIf p c (n, buffer) =
        .ok (n + if p then 1 else 0, buffer') ∧ buffer'.length = buffer.length ∧
      buffer'.take (n + if p then 1 else 0) =
        buffer.take n ++ if p then [c] else [] := by
  by_cases hp : p
  · refine ⟨buffer.set n c, ?_, List.length_set, ?_⟩
    · simp only [storeIf, if_pos hp, storeChar, if_pos h, bind, Except.bind]
    · simp only [if_pos hp]
      exact take_set_self h c
  · refine ⟨buffer, ?_, rfl, ?_⟩
    · simp only [storeIf, if_neg hp, Nat.add_zero]
    · simp only [if_neg hp, Nat.add_zero, List.append_nil]

theorem Base.one_lt_radix (b : Base) : 1 < b.radix := by
  cases b with
  | dec => decide
  | hex => decide

theorem Base.lt_radix_pow (b : Base) {n : ℕ} (hn : n < 2 ^ 32) : n < b.radix ^ 10 := by
  refine hn.trans_le ?_
  cases b with
  | dec => decide
  | hex => decide

theorem length_render_le (b : Base) {n : ℕ} (hn : n < 2 ^ 32) :
    (Numeral.render digitChar b.radix n).length ≤ 10 :=
  Numeral.length_render_le b.one_lt_radix (by decide) (b.lt_radix_pow hn)

theorem digits_array (b : Base) {n : ℕ} (hn : n < 2 ^ 32) (content : ℕ → UInt8) :
    ∃ s buffer, loop .divergence (digitStep b.radix) budget
        (n, 0, newChars content maxDecLength) = .ok s ∧
      storeIf (s.1 = 0) 48 s = .ok ((Numeral.render digitChar b.radix n).length, buffer) ∧
      buffer.length = maxDecLength ∧
      buffer.take (Numeral.render digitChar b.radix n).length =
        (Numeral.render digitChar b.radix n).reverse ∧
      0 < (Numeral.render digitChar b.radix n).length := by
  have hradix := b.one_lt_radix
  have hlength : (newChars content maxDecLength).length = maxDecLength := by
    rw [newChars, List.length_map, List.length_range]
  have hten : (Nat.digits b.radix n).length ≤ 10 := 
    (Nat.digits_length_le_iff hradix n).mpr (b.lt_radix_pow hn)
  obtain ⟨buffer, hrun, hlen, hdigits⟩ := digits_loop (newChars content maxDecLength) hradix hn
    (by rw [hlength]; exact hten.trans (by decide))
  rw [hlength] at hlen
  have hroom : (Nat.digits b.radix n).length < buffer.length := by
    rw [hlen]
    exact hten.trans_lt (by decide)
  obtain ⟨buffer', hstore, hlen', htake⟩ :=
    storeIf_eq (p := (Nat.digits b.radix n).length = 0) 48 hroom
  have hreverse : (Numeral.render digitChar b.radix n).reverse = (Nat.digits b.radix n).map
      digitChar ++ if (Nat.digits b.radix n).length = 0 then [48] else [] :=
    Numeral.reverse_render digitChar b.radix n
  have hcount : (Numeral.render digitChar b.radix n).length =
      (Nat.digits b.radix n).length + if (Nat.digits b.radix n).length = 0 then 1 else 0 := by
    rw [← List.length_reverse, hreverse, List.length_append, List.length_map]
    split_ifs <;> rfl
  refine ⟨_, buffer', hrun, ?_, hlen'.trans hlen, ?_, ?_⟩
  · rw [hcount]
    exact hstore
  · rw [hcount, htake, hdigits, hreverse]
  · exact List.length_pos_of_ne_nil (Numeral.render_ne_nil _ _ _)

theorem flag_eq_dec_iff (b : Base) : b.flag = FmtFlags.dec ↔ b = .dec := by
  cases b with
  | dec => decide
  | hex => decide

theorem numeral_array (t : IntType) (value : ℤ) (b : Base) (hn : t.magnitude value b < 2 ^ 32)
    (content : ℕ → UInt8) :
    ∃ s s' buffer, loop .divergence (digitStep b.radix) budget
        (t.magnitude value b, 0, newChars content maxDecLength) = .ok s ∧
      storeIf (s.1 = 0) 48 s = .ok s' ∧
      storeIf (b.flag = FmtFlags.dec ∧ value < 0) 45 s' =
        .ok ((t.numeral value b).length, buffer) ∧
      0 < (t.numeral value b).length ∧ (t.numeral value b).length ≤ buffer.length ∧
      (buffer.take (t.numeral value b).length).reverse = t.numeral value b := by
  obtain ⟨s, buffer, hrun, hzero, hlen, htake, hpos⟩ := digits_array b hn content
  have hten := length_render_le b hn
  have hroom : (Numeral.render digitChar b.radix (t.magnitude value b)).length < buffer.length := by
    rw [hlen]
    exact hten.trans_lt (by decide)
  obtain ⟨buffer', hsign, hlen', htake'⟩ :=
    storeIf_eq (p := b.flag = FmtFlags.dec ∧ value < 0) 45 hroom
  have hcount : (t.numeral value b).length =
      (Numeral.render digitChar b.radix (t.magnitude value b)).length +
        if b.flag = FmtFlags.dec ∧ value < 0 then 1 else 0 := by
    simp only [IntType.numeral, flag_eq_dec_iff, List.length_append]
    rw [Nat.add_comm]
    split_ifs <;> rfl
  refine ⟨s, _, buffer', hrun, hzero, ?_, ?_, ?_, ?_⟩
  · rw [hcount]
    exact hsign
  · omega
  · rw [hcount, hlen']
    split_ifs <;> omega
  · rw [hcount, htake', htake, List.reverse_append, List.reverse_reverse, IntType.numeral]
    simp only [flag_eq_dec_iff]
    split_ifs <;> rfl

namespace IntType

variable {t : IntType} {value : ℤ}

theorem source_eq (hlow : -2 ^ t.bits < value) (hhigh : value < 2 ^ t.bits) (b : Base) :
    (if b.flag = FmtFlags.hex then (t.castUnsigned value, 16)
      else if 0 ≤ value then (t.castUnsigned value, 10)
      else (t.castUnsigned (t.negated value), 10)) = (t.magnitude value b, b.radix) := by
  cases b with
  | hex => rfl
  | dec =>
    rw [if_neg (by decide)]
    split_ifs with hpos
    · rw [castUnsigned_of_nonneg hpos hhigh]
      rfl
    · rw [castUnsigned_negated (by omega) hlow]
      rfl

theorem magnitude_lt (hlow : -2 ^ t.bits < value) (hhigh : value < 2 ^ t.bits) (b : Base) :
    t.magnitude value b < 2 ^ 32 := by
  have hle : (2 : ℤ) ^ t.bits ≤ 2 ^ 32 := pow_le_pow_right₀ (by decide) t.bits_le
  cases b with
  | hex => exact t.castUnsigned_lt value
  | dec =>
    simp only [magnitude]
    omega

end IntType

namespace Ostream

variable {σ : Type} {sb : Streambuf σ} {os : Ostream σ}

theorem showNumericalValue_eq {b : Base} (hbase : os.format &&& FmtFlags.basefield = b.flag)
    (t : IntType) (v : BitVec t.bits) (content : ℕ → UInt8) :
    os.showNumericalValue sb t (t.value v) content =
      os.putAll sb (List.replicate (os.width - (t.numeral (t.value v) b).length) os.fillch ++
        t.numeral (t.value v) b) := by
  obtain ⟨hlow, hhigh⟩ := t.value_bounds v
  obtain ⟨s, s', buffer, hrun, hzero, hsign, hpos, hle, hnumeral⟩ :=
    numeral_array t (t.value v) b (IntType.magnitude_lt hlow hhigh b) content
  have hunfold : os.showNumericalValue sb t (t.value v) content =
      os.fillField sb os.width (t.numeral (t.value v) b).length >>= fun os =>
        os.putDigits sb buffer (t.numeral (t.value v) b).length := by
    simp only [showNumericalValue, hbase, IntType.source_eq hlow hhigh, hrun, hzero, hsign, bind,
      Except.bind]
  rw [hunfold, fillField_eq, putAll_append]
  simp only [putDigits_eq hpos hle, hnumeral]

end Ostream

namespace Call

variable {σ : Type}

def base (b : Base) : Call → Base
  | .dec => .dec
  | .hex => .hex
  | _ => b

/-- The base chosen last by a manipulator; a new stream is decimal. -/
def lastBase (calls : List Call) : Base := calls.foldl base .dec

def padded (os : Ostream σ) (text : List UInt8) : List UInt8 :=
  List.replicate (os.width - text.length) os.fillch ++ text

def text (os : Ostream σ) (b : Base) : Call → List UInt8
  | .put c => [c]
  | .write str => str
  | .char val => padded os [val]
  | .string s => padded os s.text
  | .bool value => padded os (if value then trueString.text else falseString.text)
  | .int t val _ => padded os (t.numeral (t.value val) b)
  | .pointer ptr _ =>
    padded os (IntType.numeral .unsignedInt (IntType.value .unsignedInt ptr) b)
  | .endl => [10]
  | _ => []

def reformat (os : Ostream σ) : Call → Ostream σ
  | .dec => os.dec
  | .hex => os.hex
  | .setw width => { os with width := width }
  | .setfill fillch => { os with fillch := fillch }
  | _ => os

end Call

namespace Ostream

variable {σ : Type} {sb : Streambuf σ} {os os' : Ostream σ} {b : Base}

theorem insertString_eq (s : CString) (os : Ostream σ) :
    os.insertString sb s.bytes = os.putAll sb (Call.padded os s.text) := by
  have hlen : strlen s.bytes = .ok s.text.length := LibString.strlen_text s.noNul []
  have hunfold : os.insertString sb s.bytes =
      os.fillField sb os.width s.text.length >>= fun os => os.putString sb s.bytes := by
    simp only [insertString, hlen, bind, Except.bind]
  rw [hunfold, fillField_eq, Call.padded, putAll_append]
  simp only [CString.bytes, putString_eq s.noNul []]

theorem format_and_basefield (hb : os.format = b.flag) :
    os.format &&& FmtFlags.basefield = b.flag := by
  rw [hb]
  cases b with
  | dec => decide
  | hex => decide

theorem apply_eq (hb : os.format = b.flag) {call : Call} (hcall : ∀ str, call ≠ .write str) :
    os.apply sb call = (call.reformat os).putAll sb (call.text os b) := by
  cases call with
  | put c => exact (putAll_singleton c os).symm
  | write str => exact absurd rfl (hcall str)
  | char val =>
    rw [Call.text, Call.padded, putAll_append]
    simp only [apply, insertChar, fillField_eq, putAll_singleton, Call.reformat]
    rfl
  | string s => exact insertString_eq s os
  | bool value =>
    cases value with
    | false => exact insertString_eq falseString os
    | true => exact insertString_eq trueString os
  | int t val content => exact showNumericalValue_eq (format_and_basefield hb) t val content
  | pointer ptr content =>
    exact showNumericalValue_eq (format_and_basefield hb) .unsignedInt ptr content
  | dec => rfl
  | hex => rfl
  | endl => exact (putAll_singleton 10 os).symm
  | setw width => rfl
  | setfill fillch => rfl

theorem reformat_format (hb : os.format = b.flag) (call : Call) :
    (call.reformat os).format = (call.base b).flag := by
  cases call with
  | dec =>
    simp only [Call.reformat, dec, setf, hb]
    cases b <;> decide
  | hex =>
    simp only [Call.reformat, hex, setf, hb]
    cases b <;> decide
  | _ => exact hb

theorem put_format {c : UInt8} (h : os.put sb c = .ok os') : os'.format = os.format := by
  rw [put] at h
  cases hbuf : os.streambuf with
  | none =>
    rw [hbuf] at h
    cases h
    rfl
  | some s =>
    rw [hbuf] at h
    obtain ⟨s', -, hos⟩ := Result.bind_ok.mp h
    cases hos
    rfl

theorem write_format {str : List UInt8} (h : os.write sb str = .ok os') :
    os'.format = os.format := by
  rw [write] at h
  cases hbuf : os.streambuf with
  | none =>
    rw [hbuf] at h
    cases h
    rfl
  | some s =>
    rw [hbuf] at h
    obtain ⟨s', -, hos⟩ := Result.bind_ok.mp h
    cases hos
    rfl

theorem putAll_format {text : List UInt8} (h : os.putAll sb text = .ok os') :
    os'.format = os.format := by
  induction text generalizing os with
  | nil =>
    cases h
    rfl
  | cons c text ih =>
    rw [putAll_cons] at h
    obtain ⟨os₁, hput, hrest⟩ := Result.bind_ok.mp h
    rw [ih hrest, put_format hput]

theorem apply_format (hb : os.format = b.flag) {call : Call} (h : os.apply sb call = .ok os') :
    os'.format = (call.base b).flag := by
  by_cases hcall : ∃ str, call = .write str
  · obtain ⟨str, rfl⟩ := hcall
    rw [write_format h]
    exact hb
  · rw [apply_eq hb fun str hstr => hcall ⟨str, hstr⟩] at h
    rw [putAll_format h]
    exact reformat_format hb call

theorem run_format {calls : List Call} (hb : os.format = b.flag)
    (h : run sb calls os = .ok os') : os'.format = (calls.foldl Call.base b).flag := by
  induction calls generalizing os b with
  | nil =>
    cases h
    exact hb
  | cons call calls ih =>
    rw [run, List.foldlM_cons] at h
    obtain ⟨os₁, hcall, hrest⟩ := Result.bind_ok.mp h
    exact ih (apply_format hb hcall) hrest

/-- What a number puts after any calls on a new stream: the padding to the width, a sign and
digits that read back to the value, without a superfluous zero in front. -/
theorem insertInt_faithful {calls : List Call} {start : Option σ}
    (hrun : run sb calls { streambuf := start } = .ok os) (t : IntType) (v : BitVec t.bits)
    (content : ℕ → UInt8) :
    ∃ sign digits : List UInt8,
      os.insertInt sb t v content = os.putAll sb
        (List.replicate (os.width - (sign ++ digits).length) os.fillch ++ (sign ++ digits)) ∧
      (sign ++ digits).length ≤ maxDecLength ∧
      (digits.head? = some 48 → digits = [48]) ∧
      (Call.lastBase calls = .dec → sign = (if t.value v < 0 then [45] else []) ∧
        Numeral.read digitValue 10 digits = some (t.value v).natAbs) ∧
      (Call.lastBase calls = .hex → sign = [] ∧
        Numeral.read digitValue 16 digits = some (t.value v % 2 ^ t.bits).toNat) := by
  have hformat : os.format = (Call.lastBase calls).flag := run_format (b := .dec) rfl hrun
  generalize Call.lastBase calls = b at hformat
  have hvalue : ∀ d < b.radix, digitValue (digitChar d) = some d := by
    intro d hd
    cases b with
    | dec => exact digitValue_digitChar (hd.trans (by decide))
    | hex => exact digitValue_digitChar hd
  have hread := Numeral.read_render b.one_lt_radix hvalue (t.magnitude (t.value v) b)
  obtain ⟨hlow, hhigh⟩ := t.value_bounds v
  have hten := length_render_le b (IntType.magnitude_lt hlow hhigh b)
  refine ⟨if b = .dec ∧ t.value v < 0 then [45] else [],
    Numeral.render digitChar b.radix (t.magnitude (t.value v) b),
    showNumericalValue_eq (format_and_basefield hformat) t v content, ?_,
    Numeral.head_render b.one_lt_radix hvalue, ?_, ?_⟩
  · rw [List.length_append, maxDecLength]
    split_ifs
    · rw [List.length_singleton]
      omega
    · rw [List.length_nil]
      omega
  · intro hdec
    subst hdec
    refine ⟨?_, hread⟩
    simp only [true_and]
  · intro hhex
    subst hhex
    exact ⟨rfl, hread⟩

theorem insertInt_faithful_short : ∃ sign digits : List UInt8,
    (insertInt Streambuf.recorder .short 0x8000#16 (fun _ => 0)
      { streambuf := some [], format := 2, width := 8 }) =
      putAll Streambuf.recorder (List.replicate (8 - (sign ++ digits).length) 32 ++
        (sign ++ digits)) { streambuf := some [], format := 2, width := 8 } ∧
    Numeral.read digitValue 16 digits = some 0x8000 := by
  have hrun : run Streambuf.recorder [.hex, .setw 8] { streambuf := some [] } =
      .ok { streambuf := some [], format := 2, width := 8 } := rfl
  obtain ⟨sign, digits, hputs, -, -, -, hhex⟩ :=
    insertInt_faithful hrun .short 0x8000#16 fun _ => 0
  exact ⟨sign, digits, hputs, (hhex rfl).2⟩

end Ostream

end Bolgenos
