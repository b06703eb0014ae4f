import Bolgenos.Log.LogBuf

/-!
# The lines of a log

Whatever calls a text is cut into, both sinks get the text with the prefix of the logger at
the start of each of its lines, or nothing at all when its level is not enabled.
-/

namespace Bolgenos

open FuelLoop VgaConsole

/-- The prefix goes before the first character and before each one after a newline: every
character is paired with the one before it, the first with a newline. -/
def framed (pfx text : List UInt8) : List UInt8 :=
  (List.zip (lf :: text) text).flatMap fun (before, c) =>
    if before = lf then pfx ++ [c] else [c]

def expandNewlines (text : List UInt8) : List UInt8 :=
  text.flatMap fun c => if c = lf then [lf, cr] else [c]

theorem zip_cons_concat {α : Type} (a : α) (xs : List α) (x : α) :
    List.zip (a :: (xs ++ [x])) (xs ++ [x]) = List.zip (a :: xs) xs ++ [(xs.getLastD a, x)] := by
  induction xs generalizing a with
  | nil => rfl
  | cons y xs ih =>
    rw [List.cons_append, List.zip_cons_cons, ih, List.zip_cons_cons, List.cons_append,
      List.getLastD_cons]

theorem framed_concat (pfx text : List UInt8) (c : UInt8) :
    framed pfx (text ++ [c]) =
      framed pfx text ++ if text.getLastD lf = lf then pfx ++ [c] else [c] := by
  rw [framed, zip_cons_concat, List.flatMap_append, List.flatMap_singleton, ← framed]

theorem getLastD_ne {line : List UInt8} (hne : line ≠ []) (h : lf ∉ line) :
    line.getLastD lf ≠ lf := by
  intro heq
  rw [List.getLastD_eq_getLast?, List.getLast?_eq_some_getLast hne, Option.getD_some] at heq
  exact h (heq ▸ List.getLast_mem hne)

theorem framed_of_noNewline (pfx : List UInt8) {line : List UInt8} (hne : line ≠ [])
    (h : lf ∉ line) : framed pfx line = pfx ++ line := by
  induction line using List.reverseRecOn with
  | nil => exact absurd rfl hne
  | append_singleton line c ih =>
    rw [framed_concat]
    have hline : lf ∉ line := fun hmem => h (List.mem_append_left _ hmem)
    by_cases hnil : line = []
    · subst hnil
      rfl
    · rw [if_neg (getLastD_ne hnil hline), ih hnil hline, List.append_assoc]

theorem framed_line (pfx : List UInt8) {line : List UInt8} (hne : line ≠ []) (h : lf ∉ line) :
    framed pfx (line ++ [lf]) = pfx ++ (line ++ [lf]) := by
  rw [framed_concat, if_neg (getLastD_ne hne h), framed_of_noNewline pfx hne h, List.append_assoc]

theorem expandNewlines_concat (text : List UInt8) (c : UInt8) :
    expandNewlines (text ++ [c]) =
      expandNewlines text ++ if c = lf then [lf, cr] else [c] := by
  rw [expandNewlines, List.flatMap_append, List.flatMap_singleton, ← expandNewlines]

/-! ### Buffers that take a text -/

section Takes

variable {α β σ : Type} {sb : ℕ → Streambuf σ} {R : σ → List UInt8 → Prop}

/-- A buffer, with the budget of its loops as a parameter, takes one character after another;
`R` relates its state to what it has taken. -/
def Takes (sb : ℕ → Streambuf σ) (R : σ → List UInt8 → Prop) : Prop :=
  ∀ s text c, R s text → ∃ s', Returns (fun n => (sb n).sputc c s) s' ∧ R s' (text ++ [c])

def TakesCalls (sb : ℕ → Streambuf σ) (R : σ → List UInt8 → Prop) : Prop :=
  ∀ s text call, R s text →
    ∃ s', Returns (fun n => StreambufCall.exec (sb n) s call) s' ∧ R s' (text ++ call.text)

theorem Takes.foldlM (h : Takes sb R) {s : σ} {text : List UInt8} (hs : R s text)
    (str : List UInt8) :
    ∃ s', Returns (fun n => str.foldlM (fun s c => (sb n).sputc c s) s) s' ∧ R s' (text ++ str) :=
  exists_returns_foldlM h hs str

theorem Takes.calls {overflow : ℕ → UInt8 → σ → Result σ}
    (h : Takes (fun n => .simple (overflow n)) R) :
    TakesCalls (fun n => .simple (overflow n)) R := by
  intro s text call hs
  cases call with
  | sputc c => exact h s text c hs
  | sputn str => exact h.foldlM hs str

def CompositeBuf.Both (P : α → List UInt8 → Prop) (Q : β → List UInt8 → Prop)
    (s : CompositeBuf α β) (text : List UInt8) : Prop :=
  ∃ a b, s = ⟨some a, some b⟩ ∧ P a text ∧ Q b text

theorem CompositeBuf.exec_eq (sa : Streambuf α) (sb : Streambuf β) (a : α) (b : β)
    (call : StreambufCall) :
    call.exec (CompositeBuf.streambuf sa sb) ⟨some a, some b⟩ = do
      let a ← call.exec sa a
      let b ← call.exec sb b
      return ⟨some a, some b⟩ := by
  cases call with
  | sputc c => simp [StreambufCall.exec, Streambuf.sputc, streambuf, overflow]
  | sputn str => simp [StreambufCall.exec, Streambuf.sputn, streambuf, xsputn]

theorem TakesCalls.composite {sa : ℕ → Streambuf α} {sb : ℕ → Streambuf β}
    {P : α → List UInt8 → Prop} {Q : β → List UInt8 → Prop} (ha : TakesCalls sa P)
    (hb : TakesCalls sb Q) :
    TakesCalls (fun n => CompositeBuf.streambuf (sa n) (sb n)) (CompositeBuf.Both P Q) := by
  rintro s text call ⟨a, b, rfl, hP, hQ⟩
  obtain ⟨a', hruna, hP'⟩ := ha a text call hP
  obtain ⟨b', hrunb, hQ'⟩ := hb b text call hQ
  refine ⟨⟨some a', some b'⟩, ?_, a', b', rfl, hP', hQ'⟩
  simp only [CompositeBuf.exec_eq]
  exact hruna.bind (hrunb.bind (.of_forall fun _ => rfl))

theorem TakesCalls.run (h : TakesCalls sb R) {s : σ} (hs : R s []) (calls : List StreambufCall) :
    ∃ s', Returns (fun n => (sb n).run calls s) s' ∧ R s' (calls.flatMap StreambufCall.text) := by
  have hstep : ∀ s (done : List StreambufCall) call, R s (done.flatMap StreambufCall.text) →
      ∃ s', Returns (fun n => call.exec (sb n) s) s' ∧
        R s' ((done ++ [call]).flatMap StreambufCall.text) := by
    intro s done call hdone
    rw [List.flatMap_append, List.flatMap_singleton]
    exact h s _ call hdone
  have hstart : R s (List.flatMap StreambufCall.text []) := hs
  exact exists_returns_foldlM hstep hstart calls

end Takes

/-! ### The two sinks -/

structure Silent {σ : Type} (handlers : LineHandlers σ) (R : σ → List UInt8 → Prop) : Prop where
  handlePrePrefix : ∀ s text, R s text → R (handlers.handlePrePrefix s) text
  handlePostPrefix : ∀ s text, R s text → R (handlers.handlePostPrefix s) text
  handleEndLine : ∀ s text, R s text → R (handlers.handleEndLine s) text

namespace VgaSink

structure Got (s : VgaSink) (text : List UInt8) : Prop where
  received : s.received = text
  onScreen : OnScreen s.console

theorem takes : Takes (fun _ => VgaBuf.streambuf) Got := by
  intro s text c h
  obtain ⟨console, hputc, hscreen⟩ := h.onScreen.exec (.putc c)
  have hover : VgaBuf.overflow c s =
      .ok { s with console := console, received := s.received ++ [c] } := by
    rw [VgaBuf.overflow, show putc c s.console = .ok console from hputc]
    rfl
  exact ⟨_, .of_forall fun _ => hover, congrArg (· ++ [c]) h.received, hscreen⟩

theorem silent : Silent VgaBuf.handlers Got where
  handlePrePrefix _ _ h := ⟨h.received, h.onScreen.line, h.onScreen.column⟩
  handlePostPrefix _ _ h := h
  handleEndLine _ _ h := ⟨h.received, h.onScreen.line, h.onScreen.column⟩

end VgaSink

namespace SerialPort

variable {p : SerialPort}

theorem waitStep_ready (h : canSend (p.lsr p.lsrReads) = true) :
    p.waitStep = .ok (.inr { p with lsrReads := p.lsrReads + 1 }) := by
  simp only [waitStep, canWrite, h, if_true]

theorem waitStep_busy (h : canSend (p.lsr p.lsrReads) = false) :
    p.waitStep = .ok (.inl { p with lsrReads := p.lsrReads + 1 }) := by
  simp only [waitStep, canWrite, h, Bool.false_eq_true, if_false]

theorem exists_wait {j : ℕ} (h : canSend (p.lsr (p.lsrReads + j)) = true) :
    ∃ n reads, loop .divergence waitStep n p = .ok { p with lsrReads := reads } := by
  induction j generalizing p with
  | zero => exact ⟨1, p.lsrReads + 1, loop_exit (waitStep_ready h) 0⟩
  | succ j ih =>
    cases hnow : canSend (p.lsr p.lsrReads) with
    | true => exact ⟨1, p.lsrReads + 1, loop_exit (waitStep_ready hnow) 0⟩
    | false =>
      have hlater : canSend (p.lsr (p.lsrReads + 1 + j)) = true := by
        rwa [Nat.add_assoc, Nat.add_comm 1 j]
      obtain ⟨n, reads, hrun⟩ := ih (p := { p with lsrReads := p.lsrReads + 1 }) hlater
      exact ⟨n + 1, reads, (loop_next (waitStep_busy hnow) n).trans hrun⟩

theorem Responsive.write (h : Responsive p) (chr : UInt8) :
    ∃ p', Returns (fun n => p.write n chr) p' ∧ p'.sent = p.sent ++ [chr] ∧ Responsive p' := by
  obtain ⟨j, hj⟩ := h p.lsrReads
  obtain ⟨n, reads, hwait⟩ := exists_wait hj
  exact ⟨_, (Returns.of_loop hwait).bind (.of_forall fun _ => rfl), rfl, h⟩

structure Sent (before : List UInt8) (p : SerialPort) (text : List UInt8) : Prop where
  sent : p.sent = before ++ expandNewlines text
  responsive : Responsive p

theorem takes (before : List UInt8) : Takes SerialBuf.streambuf (Sent before) := by
  intro p text c h
  by_cases hc : c = lf
  · obtain ⟨p₁, hfirst, hsent₁, hready₁⟩ := h.responsive.write lf
    obtain ⟨p₂, hsecond, hsent₂, hready₂⟩ := hready₁.write cr
    refine ⟨p₂, ?_, ?_, hready₂⟩
    · simp only [SerialBuf.streambuf, Streambuf.simple, Streambuf.sputc, SerialBuf.overflow,
        if_pos hc]
      exact hfirst.bind hsecond
    · rw [expandNewlines_concat, if_pos hc, hsent₂, hsent₁, h.sent]
      simp only [List.append_assoc, List.singleton_append]
  · obtain ⟨p', hwrite, hsent, hready⟩ := h.responsive.write c
    refine ⟨p', ?_, ?_, hready⟩
    · simp only [SerialBuf.streambuf, Streambuf.simple, Streambuf.sputc, SerialBuf.overflow,
        if_neg hc]
      exact hwrite
    · rw [expandNewlines_concat, if_neg hc, hsent, h.sent, List.append_assoc]

theorem silent (before : List UInt8) : Silent {} (Sent before) where
  handlePrePrefix _ _ h := h
  handlePostPrefix _ _ h := h
  handleEndLine _ _ h := h

end SerialPort

/-! ### One delegating buffer -/

namespace LogBuf

variable {σ : Type} {sb : ℕ → Streambuf σ} {handlers : LineHandlers σ} {pfx text out : List UInt8}
  {level enabled : LogLevel} {R : σ → List UInt8 → Prop} {b : LogBuf σ}

/-- Between two characters: the sink has taken the framed text, and the flag is set when the
next character starts a line. -/
structure Framing (level : LogLevel) (pfx : List UInt8) (R : σ → List UInt8 → Prop)
    (b : LogBuf σ) (text : List UInt8) : Prop where
  logLevel : b.logLevel = level
  hasDelegate : b.hasDelegate = true
  showHeader : b.showHeader = decide (text.getLastD lf = lf)
  sink : R b.sink (framed pfx text)

theorem doStartLogLine_spec (pfx : List UInt8) (hsb : Takes sb R) (hsilent : Silent handlers R)
    (hdelegate : b.hasDelegate = true) (h : R b.sink out) :
    ∃ sink, Returns (fun n => doStartLogLine (sb n) handlers pfx b) { b with sink := sink } ∧
      R sink (out ++ pfx) := by
  obtain ⟨sink, hrun, hsink⟩ := hsb.foldlM (hsilent.handlePrePrefix _ _ h) pfx
  refine ⟨handlers.handlePostPrefix sink, ?_, hsilent.handlePostPrefix _ _ hsink⟩
  simp only [doStartLogLine, if_pos hdelegate]
  exact hrun.bind (.of_forall fun _ => rfl)

theorem Framing.header (h : Framing level pfx R b text) (hsb : Takes sb R)
    (hsilent : Silent handlers R) :
    ∃ sink, Returns (fun n => header (sb n) handlers pfx b)
        { b with showHeader := false, sink := sink } ∧
      R sink (framed pfx text ++ if text.getLastD lf = lf then pfx else []) := by
  by_cases hstart : text.getLastD lf = lf
  · have hshow : b.showHeader = true := by rw [h.showHeader, decide_eq_true hstart]
    obtain ⟨sink, hrun, hsink⟩ := doStartLogLine_spec pfx hsb hsilent h.hasDelegate h.sink
    refine ⟨sink, ?_, by rwa [if_pos hstart]⟩
    simp only [LogBuf.header, if_pos hshow, if_pos h.hasDelegate]
    exact hrun.bind (.of_forall fun _ => rfl)
  · have hshow : b.showHeader = false := by rw [h.showHeader, decide_eq_false hstart]
    refine ⟨b.sink, .of_forall fun _ => ?_, ?_⟩
    · rw [LogBuf.header, hshow, if_neg Bool.false_ne_true, ← hshow]
    · rw [if_neg hstart, List.append_nil]
      exact h.sink

theorem Framing.takes (pfx : List UInt8) (hlevel : level.value ≤ enabled.value)
    (hsb : Takes sb R) (hsilent : Silent handlers R) :
    Takes (fun n => streambuf (sb n) handlers pfx enabled) (Framing level pfx R) := by
  intro b text c h
  have hshown : ¬ enabled.value < b.logLevel.value := by
    rw [h.logLevel]
    omega
  obtain ⟨sink₁, hheader, hsink₁⟩ := h.header hsb hsilent
  obtain ⟨sink₂, hsputc, hsink₂⟩ := hsb sink₁ _ c hsink₁
  have hframed : R sink₂ (framed pfx (text ++ [c])) := by
    rw [framed_concat]
    split_ifs at hsink₂ ⊢
    · rwa [List.append_assoc] at hsink₂
    · rwa [List.append_nil] at hsink₂
  -- the newline itself belongs to the old line; only the flag is set for the next character
  refine ⟨lineEnd handlers c { b with showHeader := false, sink := sink₂ }, ?_, ?_⟩
  · simp only [streambuf, Streambuf.simple, Streambuf.sputc, overflow, if_neg hshown]
    refine hheader.bind ?_
    simp only [if_pos h.hasDelegate]
    exact hsputc.bind (.of_forall fun _ => rfl)
  · by_cases hc : c = lf
    · simp only [lineEnd, doEndLongLine, if_pos hc, if_pos h.hasDelegate]
      exact ⟨h.logLevel, h.hasDelegate, by simp [hc], hsilent.handleEndLine _ _ hframed⟩
    · simp only [lineEnd, if_neg hc]
      exact ⟨h.logLevel, h.hasDelegate, by simp [hc], hframed⟩

theorem takes_disabled (sb : Streambuf σ) (handlers : LineHandlers σ) (pfx : List UInt8)
    (h : enabled.value < b.logLevel.value) :
    Takes (fun _ => streambuf sb handlers pfx enabled) (fun b' _ => b' = b) := by
  rintro b' text c rfl
  exact ⟨b', .of_forall fun _ => if_pos h, rfl⟩

end LogBuf

/-! ### The logger -/

namespace StaticLogger

theorem takesCalls (pfx : List UInt8) {level enabled : LogLevel}
    (hlevel : level.value ≤ enabled.value) (before : List UInt8) :
    TakesCalls (fun polls => streambuf pfx enabled polls)
      (CompositeBuf.Both (LogBuf.Framing level pfx VgaSink.Got)
        (LogBuf.Framing level pfx (SerialPort.Sent before))) :=
  have hvga := LogBuf.Framing.takes pfx hlevel VgaSink.takes VgaSink.silent
  have hserial := LogBuf.Framing.takes pfx hlevel (SerialPort.takes before)
    (SerialPort.silent before)
  hvga.calls.composite hserial.calls

theorem framing_buildSb (pfx : List UInt8) (level : LogLevel) {console : VgaConsole}
    {port : SerialPort} (hconsole : OnScreen console) (hport : port.Responsive) :
    CompositeBuf.Both (LogBuf.Framing level pfx VgaSink.Got)
      (LogBuf.Framing level pfx (SerialPort.Sent port.sent)) (buildSb level console port) [] :=
  ⟨_, _, rfl, ⟨rfl, rfl, rfl, rfl, hconsole⟩,
    ⟨rfl, rfl, rfl, (List.append_nil port.sent).symm, hport⟩⟩

/-- For every prefix, level and enabled level, and however the text is cut into calls: above the
enabled level nothing changes; otherwise both sinks get the framed text. -/
theorem run_frames_lines (pfx : List UInt8) (level enabled : LogLevel) (calls : List StreambufCall)
    (console : VgaConsole) (port : SerialPort) :
    (enabled.value < level.value → ∀ polls,
      (streambuf pfx enabled polls).run calls (buildSb level console port) =
        .ok (buildSb level console port)) ∧
    (level.value ≤ enabled.value → OnScreen console → port.Responsive → ∃ vga serial,
      Returns (fun polls => (streambuf pfx enabled polls).run calls (buildSb level console port))
        ⟨some vga, some serial⟩ ∧
      vga.sink.received = framed pfx (calls.flatMap StreambufCall.text) ∧
      serial.sink.sent =
        port.sent ++ expandNewlines (framed pfx (calls.flatMap StreambufCall.text))) := by
  refine ⟨?_, ?_⟩
  · intro hlevel polls
    have hvga : Takes _ fun b _ => b = vgaSb level console :=
      LogBuf.takes_disabled VgaBuf.streambuf VgaBuf.handlers pfx hlevel
    have hserial : Takes _ fun b _ => b = serialSb level port :=
      LogBuf.takes_disabled (SerialBuf.streambuf polls) {} pfx hlevel
    obtain ⟨s, hrun, _, _, rfl, rfl, rfl⟩ :=
      (hvga.calls.composite hserial.calls).run ⟨_, _, rfl, rfl, rfl⟩ calls
    -- nothing waits for the port here, so any budget will do
    exact returns_const.1 hrun
  · intro hlevel hconsole hport
    obtain ⟨s, hrun, vga, serial, rfl, hv, hs⟩ :=
      (takesCalls pfx hlevel port.sent).run (framing_buildSb pfx level hconsole hport) calls
    exact ⟨vga, serial, hrun, hv.sink.received, hs.sink.sent⟩

theorem run_frames_lines_three :
    ∃ vga serial,
      Returns (fun polls => (streambuf [58, 32] .notice polls).run
          [.sputc 97, .sputn [10, 10, 98], .sputc 10]
          (buildSb .error ⟨fun _ => ⟨32, .grey, .black⟩, .black, .grey, 0, 0⟩
            ⟨fun _ => 0x20, 0, []⟩))
        ⟨some vga, some serial⟩ ∧
      vga.sink.received = [58, 32, 97, 10, 58, 32, 10, 58, 32, 98, 10] ∧
      serial.sink.sent = [58, 32, 97, 10, 13, 58, 32, 10, 13, 58, 32, 98, 10, 13] :=
  (run_frames_lines [58, 32] .error .notice [.sputc 97, .sputn [10, 10, 98], .sputc 10]
    ⟨fun _ => ⟨32, .grey, .black⟩, .black, .grey, 0, 0⟩ ⟨fun _ => 0x20, 0, []⟩).2
    (by decide) ⟨by decide, by decide⟩ fun _ => ⟨0, by simp [SerialPort.canSend]⟩

end StaticLogger

end Bolgenos
