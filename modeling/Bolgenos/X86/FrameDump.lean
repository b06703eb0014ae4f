import Bolgenos.Cxx.FormatGuard
import Bolgenos.X86.Traps

/-!
# The text of an interrupt frame

The operators that print an interrupt frame write every field in a column of eight characters,
in base 16, and leave the format of the stream as they found it.
-/

namespace Bolgenos

open Ia32 Ostream

variable {σ : Type}

def dumpField (name : CString) (value : Call) : List Call :=
  [.string name, .setw 8, value, .setw 0, .char 32]

namespace RegistersDump

def calls (regs : RegistersDump) (content : ℕ → UInt8) : List Call :=
  [.setw 0, .hex, .setfill 32, .string (cstr " eax = "), .setw 8, .setfill 48,
    .int .unsignedLong regs.eax content, .setfill 32, .setw 0, .char 32] ++
  dumpField (cstr " ebx = ") (.int .unsignedLong regs.ebx content) ++
  dumpField (cstr " ecx = ") (.int .unsignedLong regs.ecx content) ++
  dumpField (cstr " edx = ") (.int .unsignedLong regs.edx content) ++
  [.endl] ++
  dumpField (cstr " esi = ") (.int .unsignedLong regs.esi content) ++
  dumpField (cstr " edi = ") (.int .unsignedLong regs.edi content) ++
  dumpField (cstr " ebp = ") (.pointer regs.ebp content) ++
  dumpField (cstr " esp = ") (.pointer regs.esp content)

def insert (sb : Streambuf σ) (regs : RegistersDump) (content : ℕ → UInt8) :
    Ostream σ → Result (Ostream σ) :=
  guarded (run sb (regs.calls content))

end RegistersDump

namespace ExecutionInfoDump

def calls (exe : ExecutionInfoDump) (content : ℕ → UInt8) : List Call :=
  [.setw 0, .hex] ++
  dumpField (cstr "eflg = ") (.int .unsignedLong exe.eflags content) ++
  dumpField (cstr "  cs = ") (.int .unsignedShort exe.cs content) ++
  [.string (cstr " eip = "), .setw 8, .pointer exe.eip content, .setw 0]

def insert (sb : Streambuf σ) (exe : ExecutionInfoDump) (content : ℕ → UInt8) :
    Ostream σ → Result (Ostream σ) :=
  guarded (run sb (exe.calls content))

end ExecutionInfoDump

def IntFrameError.insert (sb : Streambuf σ) (frame : IntFrameError) (content : ℕ → UInt8) :
    Ostream σ → Result (Ostream σ) :=
  guarded fun os => do
    let os ← run sb [.hex, .setw 0, .string (cstr " err = "), .setw 8,
      .int .unsignedLong frame.errorCode content, .endl] os
    let os ← frame.exe.insert sb content os
    let os ← run sb [.endl] os
    frame.regs.insert sb content os

def IntFrameNoerror.insert (sb : Streambuf σ) (frame : IntFrameNoerror) (content : ℕ → UInt8) :
    Ostream σ → Result (Ostream σ) :=
  guarded fun os => do
    let os ← run sb [.setw 0, .hex] os
    let os ← frame.exe.insert sb content os
    let os ← run sb [.endl] os
    frame.regs.insert sb content os

def hexColumn (fill : UInt8) (n : ℕ) : List UInt8 :=
  List.replicate (8 - (Numeral.render digitChar 16 n).length) fill ++ Numeral.render digitChar 16 n

def fieldText (name : CString) (fill : UInt8) (n : ℕ) : List UInt8 :=
  name.text ++ (hexColumn fill n ++ [32])

def RegistersDump.text (regs : RegistersDump) : List UInt8 :=
  fieldText (cstr " eax = ") 48 regs.eax.toNat ++
  (fieldText (cstr " ebx = ") 32 regs.ebx.toNat ++
  (fieldText (cstr " ecx = ") 32 regs.ecx.toNat ++
  (fieldText (cstr " edx = ") 32 regs.edx.toNat ++
  ([10] ++
  (fieldText (cstr " esi = ") 32 regs.esi.toNat ++
  (fieldText (cstr " edi = ") 32 regs.edi.toNat ++
  (fieldText (cstr " ebp = ") 32 regs.ebp.toNat ++
  fieldText (cstr " esp = ") 32 regs.esp.toNat)))))))

def ExecutionInfoDump.text (fill : UInt8) (exe : ExecutionInfoDump) : List UInt8 :=
  fieldText (cstr "eflg = ") fill exe.eflags.toNat ++
  (fieldText (cstr "  cs = ") fill exe.cs.toNat ++
  ((cstr " eip = ").text ++ hexColumn fill exe.eip.toNat))

def IntFrameError.text (fill : UInt8) (frame : IntFrameError) : List UInt8 :=
  ((cstr " err = ").text ++ (hexColumn fill frame.errorCode.toNat ++ [10])) ++
    (frame.exe.text fill ++ ([10] ++ frame.regs.text))

def IntFrameNoerror.text (fill : UInt8) (frame : IntFrameNoerror) : List UInt8 :=
  frame.exe.text fill ++ ([10] ++ frame.regs.text)

variable {sb : Streambuf σ} {os : Ostream σ} {b : Base} {content : ℕ → UInt8}

theorem numeral_unsigned {t : IntType} (h : t.signed = false) (v : BitVec t.bits) :
    t.numeral (t.value v) .hex = Numeral.render digitChar 16 v.toNat := by
  have hvalue : t.value v = v.toNat := by simp [IntType.value, h]
  have hlt : (v.toNat : ℤ) < 2 ^ t.bits := by exact_mod_cast v.isLt
  rw [IntType.numeral, hvalue]
  simp only [reduceCtorEq, false_and, if_false, List.nil_append]
  rw [IntType.magnitude, IntType.castUnsigned_of_nonneg (by omega) hlt]
  rfl

theorem RegistersDump.texts_calls (regs : RegistersDump) (content : ℕ → UInt8)
    (os : Ostream σ) (b : Base) : Call.texts os b (regs.calls content) = regs.text := by
  have hlong (v : Word) : IntType.numeral .unsignedLong (IntType.value .unsignedLong v) .hex =
      Numeral.render digitChar 16 v.toNat := numeral_unsigned (t := .unsignedLong) rfl v
  have hpointer (v : Word) : IntType.numeral .unsignedInt (IntType.value .unsignedInt v) .hex =
      Numeral.render digitChar 16 v.toNat := numeral_unsigned (t := .unsignedInt) rfl v
  simp [calls, dumpField, Call.texts, Call.text, Call.reformat, Call.base, Call.padded,
    Ostream.hex, Ostream.setf, hlong, hpointer, text, fieldText, hexColumn]

theorem ExecutionInfoDump.texts_calls (exe : ExecutionInfoDump) (content : ℕ → UInt8)
    (os : Ostream σ) (b : Base) : Call.texts os b (exe.calls content) = exe.text os.fillch := by
  have hlong (v : Word) : IntType.numeral .unsignedLong (IntType.value .unsignedLong v) .hex =
      Numeral.render digitChar 16 v.toNat := numeral_unsigned (t := .unsignedLong) rfl v
  have hshort (v : BitVec 16) :
      IntType.numeral .unsignedShort (IntType.value .unsignedShort v) .hex =
        Numeral.render digitChar 16 v.toNat := numeral_unsigned (t := .unsignedShort) rfl v
  have hpointer (v : Word) : IntType.numeral .unsignedInt (IntType.value .unsignedInt v) .hex =
      Numeral.render digitChar 16 v.toNat := numeral_unsigned (t := .unsignedInt) rfl v
  simp [calls, dumpField, Call.texts, Call.text, Call.reformat, Call.base, Call.padded,
    Ostream.hex, Ostream.setf, hlong, hshort, hpointer, text, fieldText, hexColumn]

theorem RegistersDump.puts_insert (regs : RegistersDump) (content : ℕ → UInt8)
    (hb : os.format = b.flag) : Puts sb (regs.insert sb content) os os regs.text := by
  rw [← regs.texts_calls content os b]
  exact (puts_run sb _ hb (by simp [calls, dumpField])).guarded

theorem ExecutionInfoDump.puts_insert (exe : ExecutionInfoDump) (content : ℕ → UInt8)
    (hb : os.format = b.flag) : Puts sb (exe.insert sb content) os os (exe.text os.fillch) := by
  rw [← exe.texts_calls content os b]
  exact (puts_run sb _ hb (by simp [calls, dumpField])).guarded

theorem puts_endl (hb : os.format = b.flag) : Puts sb (run sb [.endl]) os os [10] :=
  puts_run sb _ hb (by simp)

theorem format_hex (hb : os.format = b.flag) (width : ℕ) :
    ({ os.hex with width := width } : Ostream σ).format = Base.hex.flag :=
  reformat_format hb .hex

theorem IntFrameError.puts_insert (frame : IntFrameError) (content : ℕ → UInt8)
    (hb : os.format = b.flag) :
    Puts sb (frame.insert sb content) os os (frame.text os.fillch) := by
  have hlong : IntType.numeral .unsignedLong (IntType.value .unsignedLong frame.errorCode) .hex =
      Numeral.render digitChar 16 frame.errorCode.toNat :=
    numeral_unsigned (t := .unsignedLong) rfl _
  have hhead := puts_run sb [.hex, .setw 0, .string (cstr " err = "), .setw 8,
    .int .unsignedLong frame.errorCode content, .endl] hb (by simp)
  have htext : Call.texts os b [.hex, .setw 0, .string (cstr " err = "), .setw 8,
      .int .unsignedLong frame.errorCode content, .endl] =
        (cstr " err = ").text ++ (hexColumn os.fillch frame.errorCode.toNat ++ [10]) := by
    simp [Call.texts, Call.text, Call.reformat, Call.base, Call.padded, Ostream.hex, Ostream.setf,
      hlong, hexColumn]
  rw [htext] at hhead
  have hformat := format_hex (σ := σ) hb 8
  exact (hhead.comp ((frame.exe.puts_insert content hformat).comp
    ((puts_endl hformat).comp (frame.regs.puts_insert content hformat)))).guarded

theorem IntFrameNoerror.puts_insert (frame : IntFrameNoerror) (content : ℕ → UInt8)
    (hb : os.format = b.flag) :
    Puts sb (frame.insert sb content) os os (frame.text os.fillch) := by
  have hhead := puts_run sb [.setw 0, .hex] hb (by simp)
  have hformat := format_hex (σ := σ) hb 0
  exact (hhead.comp ((frame.exe.puts_insert content hformat).comp
    ((puts_endl hformat).comp (frame.regs.puts_insert content hformat)))).guarded

def PlainFill (fill : UInt8) : Prop := digitValue fill = none ∨ fill = 48

variable {fill : UInt8} {n n' : ℕ} {rest rest' : List UInt8}

theorem length_hexColumn (hn : n < 2 ^ 32) : (hexColumn fill n).length = 8 := by
  have hlen : (Numeral.render digitChar 16 n).length ≤ 8 :=
    Numeral.length_render_le (by decide) (by decide) (by omega)
  simp only [hexColumn, List.length_append, List.length_replicate]
  omega

theorem hexColumn_injective (hfill : PlainFill fill) (h : hexColumn fill n = hexColumn fill n') :
    n = n' :=
  Numeral.fill_render_injective digitValue (by decide)
    (fun _ => digitValue_digitChar) hfill h

theorem hexColumn_append_inj (hfill : PlainFill fill) (hn : n < 2 ^ 32) (hn' : n' < 2 ^ 32)
    (h : hexColumn fill n ++ rest = hexColumn fill n' ++ rest') : n = n' ∧ rest = rest' := by
  obtain ⟨hcolumn, hrest⟩ := List.append_inj h
    ((length_hexColumn hn).trans (length_hexColumn hn').symm)
  exact ⟨hexColumn_injective hfill hcolumn, hrest⟩

theorem fieldText_append_inj {name : CString} (hfill : PlainFill fill) (hn : n < 2 ^ 32)
    (hn' : n' < 2 ^ 32) (h : fieldText name fill n ++ rest = fieldText name fill n' ++ rest') :
    n = n' ∧ rest = rest' := by
  simp only [fieldText, List.append_assoc] at h
  obtain ⟨hfield, hrest⟩ := hexColumn_append_inj hfill hn hn' (List.append_cancel_left h)
  exact ⟨hfield, List.append_cancel_left hrest⟩

theorem RegistersDump.text_injective {regs regs' : RegistersDump} (h : regs.text = regs'.text) :
    regs = regs' := by
  have hblank : PlainFill 32 := Or.inl (by decide)
  have hword (w : Word) : w.toNat < 2 ^ 32 := w.isLt
  rw [text, text] at h
  obtain ⟨heax, h⟩ := fieldText_append_inj (Or.inr rfl) (hword _) (hword _) h
  obtain ⟨hebx, h⟩ := fieldText_append_inj hblank (hword _) (hword _) h
  obtain ⟨hecx, h⟩ := fieldText_append_inj hblank (hword _) (hword _) h
  obtain ⟨hedx, h⟩ := fieldText_append_inj hblank (hword _) (hword _) h
  obtain ⟨hesi, h⟩ := fieldText_append_inj hblank (hword _) (hword _) (List.append_cancel_left h)
  obtain ⟨hedi, h⟩ := fieldText_append_inj hblank (hword _) (hword _) h
  obtain ⟨hebp, h⟩ := fieldText_append_inj hblank (hword _) (hword _) h
  rw [← List.append_nil (fieldText _ _ regs.esp.toNat),
    ← List.append_nil (fieldText _ _ regs'.esp.toNat)] at h
  obtain ⟨hesp, -⟩ := fieldText_append_inj hblank (hword _) (hword _) h
  cases regs
  cases regs'
  simp only [RegistersDump.mk.injEq]
  exact ⟨BitVec.eq_of_toNat_eq hedi, BitVec.eq_of_toNat_eq hesi, BitVec.eq_of_toNat_eq hebp,
    BitVec.eq_of_toNat_eq hesp, BitVec.eq_of_toNat_eq hebx, BitVec.eq_of_toNat_eq hedx,
    BitVec.eq_of_toNat_eq hecx, BitVec.eq_of_toNat_eq heax⟩

theorem ExecutionInfoDump.text_append_inj {exe exe' : ExecutionInfoDump} (hfill : PlainFill fill)
    (h : exe.text fill ++ rest = exe'.text fill ++ rest') : exe = exe' ∧ rest = rest' := by
  have hcs (v : BitVec 16) : v.toNat < 2 ^ 32 := v.isLt.trans (by decide)
  simp only [text, List.append_assoc] at h
  obtain ⟨heflags, h⟩ := fieldText_append_inj hfill exe.eflags.isLt exe'.eflags.isLt h
  obtain ⟨hcs, h⟩ := fieldText_append_inj hfill (hcs _) (hcs _) h
  obtain ⟨heip, hrest⟩ := hexColumn_append_inj hfill exe.eip.isLt exe'.eip.isLt
    (List.append_cancel_left h)
  cases exe
  cases exe'
  simp only [ExecutionInfoDump.mk.injEq]
  exact ⟨⟨BitVec.eq_of_toNat_eq heip, BitVec.eq_of_toNat_eq hcs, BitVec.eq_of_toNat_eq heflags⟩,
    hrest⟩

theorem IntFrameError.text_injective {frame frame' : IntFrameError} (hfill : PlainFill fill)
    (h : frame.text fill = frame'.text fill) : frame = frame' := by
  simp only [text, List.append_assoc] at h
  obtain ⟨hcode, h⟩ := hexColumn_append_inj hfill frame.errorCode.isLt frame'.errorCode.isLt
    (List.append_cancel_left h)
  obtain ⟨hexe, h⟩ := ExecutionInfoDump.text_append_inj hfill (List.append_cancel_left h)
  have hregs := RegistersDump.text_injective (List.append_cancel_left h)
  cases frame
  cases frame'
  simp only [IntFrameError.mk.injEq]
  exact ⟨hregs, BitVec.eq_of_toNat_eq hcode, hexe⟩

theorem IntFrameNoerror.text_injective {frame frame' : IntFrameNoerror} (hfill : PlainFill fill)
    (h : frame.text fill = frame'.text fill) : frame = frame' := by
  rw [text, text] at h
  obtain ⟨hexe, h⟩ := ExecutionInfoDump.text_append_inj hfill h
  have hregs := RegistersDump.text_injective (List.append_cancel_left h)
  cases frame
  cases frame'
  simp only [IntFrameNoerror.mk.injEq]
  exact ⟨hregs, hexe⟩

/-- Printing a frame on a stream of any base puts a text that depends on the frame and on the
fill character only, and leaves the format as it was. Unless the stream fills with a digit other
than zero, two frames with the same text are the same frame, so that the whole frame can be read
off the text. -/
theorem insert_frame_faithful (sb : Streambuf σ) (content : ℕ → UInt8) (os : Ostream σ)
    (hb : os.format = b.flag) :
    (∀ frame : IntFrameError,
      frame.insert sb content os = os.putAll sb (frame.text os.fillch)) ∧
    (∀ frame : IntFrameNoerror,
      frame.insert sb content os = os.putAll sb (frame.text os.fillch)) ∧
    (PlainFill os.fillch →
      (∀ frame frame' : IntFrameError,
        frame.text os.fillch = frame'.text os.fillch → frame = frame') ∧
      ∀ frame frame' : IntFrameNoerror,
        frame.text os.fillch = frame'.text os.fillch → frame = frame') := by
  refine ⟨?_, ?_, ?_⟩
  · intro frame
    exact (frame.puts_insert content hb).eq_putAll
  · intro frame
    exact (frame.puts_insert content hb).eq_putAll
  · intro hfill
    exact ⟨fun _ _ => IntFrameError.text_injective hfill,
      fun _ _ => IntFrameNoerror.text_injective hfill⟩

theorem insert_frame_faithful_new :
    (⟨⟨0, 0, 0, 0, 0, 0, 0, 0⟩, 2, 0x1234, 8, 0⟩ : IntFrameError).insert Streambuf.recorder
        (fun _ => 0) { streambuf := some [] } =
      ({ streambuf := some [] } : Ostream (List UInt8)).putAll Streambuf.recorder
        (IntFrameError.text 32 ⟨⟨0, 0, 0, 0, 0, 0, 0, 0⟩, 2, 0x1234, 8, 0⟩) ∧
    ∀ frame : IntFrameError,
      frame.text 32 = IntFrameError.text 32 ⟨⟨0, 0, 0, 0, 0, 0, 0, 0⟩, 2, 0x1234, 8, 0⟩ →
        frame = ⟨⟨0, 0, 0, 0, 0, 0, 0, 0⟩, 2, 0x1234, 8, 0⟩ := by
  obtain ⟨hinsert, -, hread⟩ := insert_frame_faithful (b := .dec) Streambuf.recorder (fun _ => 0)
    { streambuf := some [] } rfl
  have hblank : PlainFill 32 := Or.inl (by decide)
  exact ⟨hinsert _, fun frame => (hread hblank).1 frame _⟩

end Bolgenos
