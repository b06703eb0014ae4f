import Bolgenos.Cxx.FormatGuard
import Bolgenos.Devices.Keyboard
import Bolgenos.Log.LineFraming

/-!
# The keyboard state machine

Every received byte goes to the handler of the current state, again and again until a
handler answers `done`. A handler may change the state and answer `cont`, so that the
same byte goes to the next state. The console gets the characters of the keys and, on a line
of its own logger, a complaint about each byte that the error state was given.
-/

namespace Bolgenos

open FuelLoop

inductive KeyStatus where
  | pressed
  | released
  deriving DecidableEq, Repr

inductive KbdState where
  | wait
  | error
  | oneByteKeyPressed
  | oneByteKeyReleased
  | print
  deriving DecidableEq, Repr

inductive HandleStatus where
  | done
  | cont
  deriving DecidableEq, Repr

/-- The keyboard with its state machine, the characters sent to the console, and the flag of the
`ERROR` buffer in front of it. -/
structure KbdStateMachine where
  state : KbdState := .wait
  key : KbKey → KeyStatus := fun _ => .released
  console : List Char := []
  showHeader : Bool := true

namespace KbdStateMachine

def setState (d : KbdStateMachine) (state : KbdState) : KbdStateMachine :=
  { d with state := state }

def setKey (d : KbdStateMachine) (key : KbKey) (status : KeyStatus) : KbdStateMachine :=
  { d with key := Function.update d.key key status }

def putc (d : KbdStateMachine) (symbol : Char) : KbdStateMachine :=
  { d with console := d.console ++ [symbol] }

def handleWait (d : KbdStateMachine) (byte : BitVec 8) : HandleStatus × KbdStateMachine :=
  if byte = codeset2ReleaseByte then (.cont, d.setState .oneByteKeyReleased)
  else if codeset2 byte ≠ .none then (.cont, d.setState .oneByteKeyPressed)
  else (.cont, d.setState .error)

def handleOneByteKeyPressed (d : KbdStateMachine) (byte : BitVec 8) :
    HandleStatus × KbdStateMachine :=
  if codeset2 byte ≠ .none then
    if d.key (codeset2 byte) ≠ .pressed then
      (.cont, (d.setKey (codeset2 byte) .pressed).setState .print)
    else (.cont, d.setState .wait)
  else (.cont, d)

def handleOneByteKeyReleased (d : KbdStateMachine) (byte : BitVec 8) :
    HandleStatus × KbdStateMachine :=
  if byte = codeset2ReleaseByte then (.done, d.setState .oneByteKeyReleased)
  else if codeset2 byte ≠ .none then
    (.done, (d.setKey (codeset2 byte) .released).setState .wait)
  else (.cont, d.setState .error)

def printKey (lshift : Bool) (d : KbdStateMachine) (key : KbKey) : KbdStateMachine :=
  if d.key key = .pressed then
    match key.toPrintableKey with
    | some symbol => (d.putc (if lshift then applyLshift symbol else symbol)).setKey key .released
    | none => d
  else d

def handlePrint (d : KbdStateMachine) : HandleStatus × KbdStateMachine :=
  let lshift := decide (d.key .lshift = .pressed)
  (.done, (KbKey.all.foldl (printKey lshift) d).setState .wait)

def logHeader : List UInt8 := ascii "ps/2.state_handler: "

/-- `VgaBuf`, by the characters given to `vga_console::putc`. -/
def vgaBuf : Streambuf (List Char) :=
  .simple fun c console => .ok (console ++ [Char.ofNat c.toNat])

def errorCalls (byte : BitVec 8) (content : ℕ → UInt8) : List Call :=
  [.string (cstr "PS/2 keyboard: unexpected byte from controller "),
    .int .int (byte.setWidth 32) content, .endl]

/-- What `ErrorState` writes to `ERROR`. Nothing else writes there, so that the stream is still in
its first format. -/
def logError (byte : BitVec 8) (content : ℕ → UInt8) (d : KbdStateMachine) :
    Result KbdStateMachine := do
  let buf : LogBuf (List Char) :=
    { logLevel := .error, showHeader := d.showHeader, hasDelegate := true, sink := d.console }
  let stream ← Ostream.run (LogBuf.streambuf vgaBuf {} logHeader .notice) (errorCalls byte content)
    { streambuf := some buf }
  match stream.streambuf with
  | some buf => .ok { d with console := buf.sink, showHeader := buf.showHeader }
  | none => .ok d

-- the text is the same whatever the array of the conversion holds before, see `logError_eq`
def handleError (d : KbdStateMachine) (byte : BitVec 8) :
    Result (HandleStatus × KbdStateMachine) := do
  let d ← d.logError byte fun _ => 0
  .ok (.done, d.setState .wait)

def handleState (byte : BitVec 8) (d : KbdStateMachine) :
    Result (HandleStatus × KbdStateMachine) :=
  match d.state with
  | .wait => .ok (d.handleWait byte)
  | .error => d.handleError byte
  | .oneByteKeyPressed => .ok (d.handleOneByteKeyPressed byte)
  | .oneByteKeyReleased => .ok (d.handleOneByteKeyReleased byte)
  | .print => .ok d.handlePrint

def handleStep (byte : BitVec 8) (d : KbdStateMachine) :
    Result (KbdStateMachine ⊕ KbdStateMachine) := do
  let (status, d) ← handleState byte d
  match status with
  | .cont => .ok (.inl d)
  | .done => .ok (.inr d)

def handleByte (n : ℕ) (d : KbdStateMachine) (byte : BitVec 8) : Result KbdStateMachine :=
  loop .divergence (handleStep byte) n d

def Returns (d : KbdStateMachine) (byte : BitVec 8) (d' : KbdStateMachine) : Prop :=
  ∃ n, handleByte n d byte = .ok d'

inductive Reachable : KbdStateMachine → Prop where
  | start : Reachable {}
  | byte {d d' : KbdStateMachine} {byte : BitVec 8} :
      Reachable d → Returns d byte d' → Reachable d'

variable {d d' : KbdStateMachine} {byte : BitVec 8}

def errorLine (byte : BitVec 8) : List Char :=
  "ps/2.state_handler: PS/2 keyboard: unexpected byte from controller ".toList ++
    Nat.toDigits 10 byte.toNat ++ ['\n']

def puts (d : KbdStateMachine) (text : List Char) : KbdStateMachine :=
  { d with console := d.console ++ text }

section Log

variable {d : KbdStateMachine}

def Shown (before console : List Char) (text : List UInt8) : Prop :=
  console = before ++ text.map fun c => Char.ofNat c.toNat

theorem vgaBuf_takes (before : List Char) : Takes (fun _ => vgaBuf) (Shown before) := by
  intro console text c h
  refine ⟨console ++ [Char.ofNat c.toNat], .of_forall fun _ => rfl, ?_⟩
  rw [Shown, h, List.map_append, List.map_singleton, List.append_assoc]

theorem shown_silent (before : List Char) : Silent {} (Shown before) where
  handlePrePrefix _ _ h := h
  handlePostPrefix _ _ h := h
  handleEndLine _ _ h := h

def errorText (byte : BitVec 8) : List UInt8 :=
  ascii "PS/2 keyboard: unexpected byte from controller " ++
    Numeral.render digitChar 10 byte.toNat

theorem numeral_byte (byte : BitVec 8) :
    IntType.numeral .int (IntType.value .int (byte.setWidth 32)) .dec =
      Numeral.render digitChar 10 byte.toNat := by
  have hlt := byte.isLt
  have hnat : (byte.setWidth 32).toNat = byte.toNat := BitVec.toNat_setWidth_of_le (by decide)
  have hvalue : IntType.value .int (byte.setWidth 32) = byte.toNat := by
    rw [← hnat]
    exact BitVec.toInt_eq_toNat_of_lt (show 2 * (byte.setWidth 32).toNat < 2 ^ 32 by omega)
  have hpos : ¬ (byte.toNat : ℤ) < 0 := by omega
  rw [IntType.numeral, hvalue]
  simp only [hpos, and_false, if_false, List.nil_append]
  rfl

theorem texts_errorCalls {σ : Type} (byte : BitVec 8) (content : ℕ → UInt8) (os : Ostream σ)
    (hwidth : os.width = 0) :
    Call.texts os .dec (errorCalls byte content) = errorText byte ++ [VgaConsole.lf] := by
  simp [errorCalls, Call.texts, Call.text, Call.reformat, Call.base, Call.padded, hwidth,
    numeral_byte, errorText, cstr, VgaConsole.lf]

theorem render_byte : ∀ n < 256, VgaConsole.lf ∉ Numeral.render digitChar 10 n ∧
    (Numeral.render digitChar 10 n).map (fun c => Char.ofNat c.toNat) = Nat.toDigits 10 n := by
  decide +kernel

theorem framed_errorText (byte : BitVec 8) :
    (framed logHeader (errorText byte ++ [VgaConsole.lf])).map (fun c => Char.ofNat c.toNat) =
      errorLine byte := by
  obtain ⟨hdigits, hrender⟩ := render_byte byte.toNat byte.isLt
  have hne : errorText byte ≠ [] := List.append_ne_nil_of_left_ne_nil (by decide) _
  have hline : VgaConsole.lf ∉ errorText byte := by
    rw [errorText, List.mem_append, not_or]
    exact ⟨by decide, hdigits⟩
  have hfixed : (logHeader ++ ascii "PS/2 keyboard: unexpected byte from controller ").map
      (fun c => Char.ofNat c.toNat) =
        "ps/2.state_handler: PS/2 keyboard: unexpected byte from controller ".toList := by
    decide +kernel
  have hsplit : logHeader ++ (errorText byte ++ [VgaConsole.lf]) =
      logHeader ++ ascii "PS/2 keyboard: unexpected byte from controller " ++
        Numeral.render digitChar 10 byte.toNat ++ [VgaConsole.lf] := by
    simp only [errorText, List.append_assoc]
  rw [framed_line logHeader hne hline, hsplit]
  unfold errorLine
  generalize logHeader ++ ascii "PS/2 keyboard: unexpected byte from controller " = fixed at hfixed
  generalize Numeral.render digitChar 10 byte.toNat = digits at hrender
  rw [List.map_append, List.map_append, hfixed, hrender]
  rfl

theorem logError_eq (hline : d.showHeader = true) (byte : BitVec 8) (content : ℕ → UInt8) :
    d.logError byte content = .ok (d.puts (errorLine byte)) := by
  let buf : LogBuf (List Char) :=
    { logLevel := .error, showHeader := d.showHeader, hasDelegate := true, sink := d.console }
  let stream : Ostream (LogBuf (List Char)) := { streambuf := some buf }
  have hstart : LogBuf.Framing .error logHeader (Shown d.console) buf [] :=
    ⟨rfl, rfl, hline, (List.append_nil d.console).symm⟩
  have htakes : Takes (fun _ => LogBuf.streambuf vgaBuf {} logHeader .notice)
      (LogBuf.Framing .error logHeader (Shown d.console)) :=
    LogBuf.Framing.takes logHeader (by decide) (vgaBuf_takes _) (shown_silent _)
  obtain ⟨buf', hfold, hframing⟩ := htakes.foldlM hstart (errorText byte ++ [VgaConsole.lf])
  have hdec : stream.format = Base.dec.flag := rfl
  have hrun := Ostream.puts_run (LogBuf.streambuf vgaBuf {} logHeader .notice)
    (errorCalls byte content) hdec (by simp [errorCalls]) (some buf)
  rw [texts_errorCalls byte content stream rfl] at hrun
  simp only [Ostream.emit, returns_const.1 hfold, bind, Except.bind] at hrun
  have hlast : buf'.showHeader = true := by simp [hframing.showHeader]
  have hsink : buf'.sink = d.console ++ errorLine byte := by
    rw [← framed_errorText]
    exact hframing.sink
  have hlog : d.logError byte content =
      .ok { d with console := buf'.sink, showHeader := buf'.showHeader } := by
    simp only [logError]
    rw [hrun]
    rfl
  rw [hlog, hlast, hsink, ← hline]
  rfl

/-- The logger of the kernel with both of its sinks: the console is given the characters of
`logError`. -/
theorem logError_received (hline : d.showHeader = true) (byte : BitVec 8) (content : ℕ → UInt8)
    {console : VgaConsole} {port : SerialPort} (hconsole : VgaConsole.OnScreen console)
    (hport : port.Responsive) :
    ∃ os vga serial,
      FuelLoop.Returns (fun polls => Ostream.run (StaticLogger.streambuf logHeader .notice polls)
        (errorCalls byte content)
        { streambuf := some (StaticLogger.buildSb .error console port) }) os ∧
      os.streambuf = some ⟨some vga, some serial⟩ ∧
      d.logError byte content =
        .ok (d.puts (vga.sink.received.map fun c => Char.ofNat c.toNat)) := by
  let text := errorText byte ++ [VgaConsole.lf]
  let stream : Ostream StaticLogger.StreambufType :=
    { streambuf := some (StaticLogger.buildSb .error console port) }
  have hlevel : LogLevel.error.value ≤ LogLevel.notice.value := by decide
  have hdec : stream.format = Base.dec.flag := rfl
  obtain ⟨s, hret, vga, serial, rfl, hvga, -⟩ :=
    (StaticLogger.takesCalls logHeader hlevel port.sent).run
      (StaticLogger.framing_buildSb logHeader .error hconsole hport) (text.map .sputc)
  have htext : (text.map StreambufCall.sputc).flatMap StreambufCall.text = text := by
    rw [List.flatMap_map]
    exact List.flatMap_singleton' text
  refine ⟨{ Call.reformatAll stream (errorCalls byte content) with
    streambuf := some ⟨some vga, some serial⟩ }, vga, serial, ?_, rfl, ?_⟩
  · refine hret.mono fun polls hpolls => ?_
    have hrun := Ostream.puts_run (StaticLogger.streambuf logHeader .notice polls)
      (errorCalls byte content) hdec (by simp [errorCalls]) stream.streambuf
    rw [texts_errorCalls byte content stream rfl] at hrun
    have hfold : text.foldlM (fun s c =>
        (StaticLogger.streambuf logHeader .notice polls).sputc c s)
        (StaticLogger.buildSb .error console port) = .ok ⟨some vga, some serial⟩ := by
      rw [← hpolls]
      change _ = List.foldlM _ _ (text.map StreambufCall.sputc)
      rw [List.foldlM_map]
      rfl
    refine hrun.trans ?_
    simp only [stream, Ostream.emit, hfold, text, bind, Except.bind]
  · rw [logError_eq hline, ← framed_errorText, hvga.sink.received, htext]

theorem handleError_eq (hline : d.showHeader = true) (byte : BitVec 8) :
    d.handleError byte = .ok (.done, (d.puts (errorLine byte)).setState .wait) := by
  simp only [handleError, logError_eq hline, bind, Except.bind]

end Log

theorem codeset2_releaseByte : codeset2 codeset2ReleaseByte = .none := by decide

theorem returns_unique {d₁ d₂ : KbdStateMachine} (h₁ : Returns d byte d₁)
    (h₂ : Returns d byte d₂) : d₁ = d₂ := by
  obtain ⟨n₁, h₁⟩ := h₁
  obtain ⟨n₂, h₂⟩ := h₂
  have h₁' := loop_mono h₁ (le_max_left n₁ n₂)
  have h₂' := loop_mono h₂ (le_max_right n₁ n₂)
  rw [h₁'] at h₂'
  cases h₂'
  rfl

theorem returns_of_done (h : handleState byte d = .ok (.done, d')) : Returns d byte d' := by
  refine ⟨1, loop_exit ?_ 0⟩
  simp only [handleStep, h, bind, Except.bind]

theorem returns_of_cont {d₁ : KbdStateMachine} (h : handleState byte d = .ok (.cont, d₁))
    (hret : Returns d₁ byte d') : Returns d byte d' := by
  obtain ⟨n, hn⟩ := hret
  refine ⟨n + 1, ?_⟩
  have hstep : handleStep byte d = .ok (.inl d₁) := by
    simp only [handleStep, h, bind, Except.bind]
  rw [handleByte, loop_next hstep]
  exact hn

theorem foldl_printKey_key {k : KbKey} (hk : k.toPrintableKey = none) (lshift : Bool)
    (keys : List KbKey) (d : KbdStateMachine) :
    (keys.foldl (printKey lshift) d).key k = d.key k := by
  induction keys generalizing d with
  | nil => rfl
  | cons key keys ih =>
    rw [List.foldl_cons, ih]
    simp only [printKey]
    split
    · cases hkey : key.toPrintableKey with
      | none => rfl
      | some symbol =>
        have hne : k ≠ key := by
          intro heq
          rw [heq, hkey] at hk
          cases hk
        simp only [setKey, putc, Function.update_of_ne hne]
    · rfl

theorem foldl_printKey_showHeader (lshift : Bool) (keys : List KbKey) (d : KbdStateMachine) :
    (keys.foldl (printKey lshift) d).showHeader = d.showHeader := by
  induction keys generalizing d with
  | nil => rfl
  | cons key keys ih =>
    rw [List.foldl_cons, ih, printKey]
    split
    · cases key.toPrintableKey <;> rfl
    · rfl

def press (d : KbdStateMachine) (key : KbKey) : KbdStateMachine :=
  (handlePrint ((d.setKey key .pressed).setState .print)).2

theorem press_key {key : KbKey} (hk : key.toPrintableKey = none) (d : KbdStateMachine) :
    (d.press key).key key = .pressed := by
  simp only [press, handlePrint, setState]
  rw [foldl_printKey_key hk]
  simp only [setKey, Function.update_self]

theorem press_showHeader (d : KbdStateMachine) (key : KbKey) :
    (d.press key).showHeader = d.showHeader := by
  simp only [press, handlePrint, setState]
  rw [foldl_printKey_showHeader]
  rfl

structure Between (d : KbdStateMachine) : Prop where
  state : d.state = .wait ∨ d.state = .oneByteKeyReleased
  line : d.showHeader = true

def Held (d : KbdStateMachine) (byte : BitVec 8) : Prop :=
  d.state = .wait ∧ codeset2 byte ≠ .none ∧ d.key (codeset2 byte) = .pressed

theorem returns_wait_release (hs : d.state = .wait) (hb : byte = codeset2ReleaseByte) :
    Returns d byte (d.setState .oneByteKeyReleased) := by
  have hwait : handleState byte d = .ok (.cont, d.setState .oneByteKeyReleased) := by
    simp only [handleState, hs, handleWait, hb, if_true]
  have hreleased : handleState byte (d.setState .oneByteKeyReleased) =
      .ok (.done, d.setState .oneByteKeyReleased) := by
    simp only [handleState, setState, handleOneByteKeyReleased, hb, if_true]
  exact returns_of_cont hwait (returns_of_done hreleased)

theorem handleWait_key (hs : d.state = .wait) (hk : codeset2 byte ≠ .none) :
    handleState byte d = .ok (.cont, d.setState .oneByteKeyPressed) := by
  have hb : byte ≠ codeset2ReleaseByte := by
    intro hb
    rw [hb] at hk
    exact hk codeset2_releaseByte
  simp only [handleState, hs, handleWait, if_neg hb, if_pos hk]

theorem returns_wait_press (hs : d.state = .wait) (hk : codeset2 byte ≠ .none)
    (hup : d.key (codeset2 byte) ≠ .pressed) : Returns d byte (d.press (codeset2 byte)) := by
  have hpressed : handleState byte (d.setState .oneByteKeyPressed) =
      .ok (.cont, (d.setKey (codeset2 byte) .pressed).setState .print) := by
    simp only [handleState, setState, handleOneByteKeyPressed, if_pos hk]
    exact congrArg _ (if_pos hup)
  have hprint : handleState byte ((d.setKey (codeset2 byte) .pressed).setState .print) =
      .ok (.done, d.press (codeset2 byte)) := rfl
  exact returns_of_cont (handleWait_key hs hk)
    (returns_of_cont hpressed (returns_of_done hprint))

theorem returns_error (hline : d.showHeader = true) (byte : BitVec 8) :
    Returns (d.setState .error) byte ((d.puts (errorLine byte)).setState .wait) :=
  returns_of_done (handleError_eq (d := d.setState .error) hline byte)

theorem returns_wait_junk (hs : d.state = .wait) (hline : d.showHeader = true)
    (hb : byte ≠ codeset2ReleaseByte) (hk : codeset2 byte = .none) :
    Returns d byte ((d.puts (errorLine byte)).setState .wait) := by
  have hwait : handleState byte d = .ok (.cont, d.setState .error) := by
    simp only [handleState, hs, handleWait, if_neg hb, hk, ne_eq, not_true, if_false]
  exact returns_of_cont hwait (returns_error hline byte)

theorem returns_released_release (hs : d.state = .oneByteKeyReleased)
    (hb : byte = codeset2ReleaseByte) : Returns d byte (d.setState .oneByteKeyReleased) := by
  apply returns_of_done
  simp only [handleState, hs, handleOneByteKeyReleased, hb, if_true]

theorem returns_released_junk (hs : d.state = .oneByteKeyReleased) (hline : d.showHeader = true)
    (hb : byte ≠ codeset2ReleaseByte) (hk : codeset2 byte = .none) :
    Returns d byte ((d.puts (errorLine byte)).setState .wait) := by
  have hcont : handleState byte d = .ok (.cont, d.setState .error) := by
    simp only [handleState, hs, handleOneByteKeyReleased, if_neg hb, hk, ne_eq, not_true,
      if_false]
  exact returns_of_cont hcont (returns_error hline byte)

theorem returns_released_key (hs : d.state = .oneByteKeyReleased) (hk : codeset2 byte ≠ .none) :
    Returns d byte ((d.setKey (codeset2 byte) .released).setState .wait) := by
  have hb : byte ≠ codeset2ReleaseByte := by
    intro hb
    rw [hb] at hk
    exact hk codeset2_releaseByte
  apply returns_of_done
  simp only [handleState, hs, handleOneByteKeyReleased, if_neg hb, ne_eq, hk, not_false_iff,
    if_true]

theorem returns_released (byte : BitVec 8) (hs : d.state = .oneByteKeyReleased)
    (hline : d.showHeader = true) : ∃ d', Returns d byte d' ∧ Between d' := by
  by_cases hb : byte = codeset2ReleaseByte
  · exact ⟨_, returns_released_release hs hb, Or.inr rfl, hline⟩
  · by_cases hk : codeset2 byte = .none
    · exact ⟨_, returns_released_junk hs hline hb hk, Or.inl rfl, hline⟩
    · exact ⟨_, returns_released_key hs hk, Or.inl rfl, hline⟩

theorem returns_wait (byte : BitVec 8) (hs : d.state = .wait) (hline : d.showHeader = true)
    (hheld : ¬ Held d byte) : ∃ d', Returns d byte d' ∧ Between d' := by
  by_cases hb : byte = codeset2ReleaseByte
  · exact ⟨_, returns_wait_release hs hb, Or.inr rfl, hline⟩
  · by_cases hk : codeset2 byte = .none
    · exact ⟨_, returns_wait_junk hs hline hb hk, Or.inl rfl, hline⟩
    · have hup : d.key (codeset2 byte) ≠ .pressed := fun hp => hheld ⟨hs, hk, hp⟩
      exact ⟨_, returns_wait_press hs hk hup, Or.inl rfl, (press_showHeader d _).trans hline⟩

theorem Between.returns (h : Between d) (hheld : ¬ Held d byte) :
    ∃ d', Returns d byte d' ∧ Between d' := by
  rcases h.state with hs | hs
  · exact returns_wait byte hs h.line hheld
  · exact returns_released byte hs h.line

/-- The make code of a held key goes back and forth between the wait state and the
pressed state. -/
theorem held_diverges (hheld : Held d byte) (n : ℕ) : handleByte n d byte = .error .divergence := by
  refine loop_diverges (fun s => codeset2 byte ≠ .none ∧ s.key (codeset2 byte) = .pressed ∧
    (s.state = .wait ∨ s.state = .oneByteKeyPressed)) ?_ n ⟨hheld.2.1, hheld.2.2, Or.inl hheld.1⟩
  intro s hinv
  obtain ⟨hk, hp, hs⟩ := hinv
  rcases hs with hs | hs
  · refine ⟨s.setState .oneByteKeyPressed, ?_, hk, hp, Or.inr rfl⟩
    simp only [handleStep, handleWait_key hs hk, bind, Except.bind]
  · refine ⟨s.setState .wait, ?_, hk, hp, Or.inl rfl⟩
    have hcont : handleState byte s = .ok (.cont, s.setState .wait) := by
      simp only [handleState, hs, handleOneByteKeyPressed, if_pos hk]
      exact congrArg _ (if_neg (not_not.mpr hp))
    simp only [handleStep, hcont, bind, Except.bind]

theorem not_held_of_returns (hret : Returns d byte d') : ¬ Held d byte := by
  intro hheld
  obtain ⟨n, hn⟩ := hret
  rw [held_diverges hheld n] at hn
  cases hn

theorem Reachable.between (h : Reachable d) : Between d := by
  induction h with
  | start => exact ⟨Or.inl rfl, rfl⟩
  | byte _ hret ih =>
    obtain ⟨d₁, hret₁, hbetween⟩ := ih.returns (not_held_of_returns hret)
    rwa [returns_unique hret hret₁]

/-- In every reachable state the call for a byte returns, and leaves the machine ready
for the next byte, exactly when the byte is not the make code of a key that the wait
state finds pressed already. -/
theorem handleByte_returns_iff (h : Reachable d) (byte : BitVec 8) :
    (∃ d', Returns d byte d' ∧ (d'.state = .wait ∨ d'.state = .oneByteKeyReleased)) ↔
      ¬ (d.state = .wait ∧ codeset2 byte ≠ .none ∧ d.key (codeset2 byte) = .pressed) := by
  constructor
  · intro hret
    obtain ⟨d', hret, -⟩ := hret
    exact not_held_of_returns hret
  · intro hheld
    obtain ⟨d', hret, hbetween⟩ := h.between.returns hheld
    exact ⟨d', hret, hbetween.state⟩

theorem handleByte_returns_first : ∃ d', Returns {} 0x1c d' ∧
    (d'.state = .wait ∨ d'.state = .oneByteKeyReleased) :=
  (handleByte_returns_iff Reachable.start 0x1c).mpr fun h => by
    simp at h

theorem repeated_lshift_never_returns :
    ∃ d, Reachable d ∧ Returns {} 0x12 d ∧
      ¬ ∃ d', Returns d 0x12 d' ∧ (d'.state = .wait ∨ d'.state = .oneByteKeyReleased) := by
  have hcode : codeset2 0x12 = .lshift := by decide
  have hfirst : Returns {} 0x12 (press {} .lshift) := by
    rw [← hcode]
    exact returns_wait_press rfl (by decide) (by simp)
  have hheld : Held (press {} .lshift) 0x12 := by
    refine ⟨rfl, by decide, ?_⟩
    rw [hcode]
    exact press_key (by decide) {}
  refine ⟨press {} .lshift, Reachable.start.byte hfirst, hfirst, ?_⟩
  intro hret
  obtain ⟨d', hret, -⟩ := hret
  exact not_held_of_returns hret hheld

end KbdStateMachine

end Bolgenos
