import Bolgenos.Devices.KbdStateMachine

/-!
# The text behind the bytes of the keyboard

The received bytes are read as key events by the one-byte scheme of code set 2. The console
of the state machine shows the text of these events, with a line of the log for each byte that
is not part of one, and its key table tells which of the keys without a character are held down.
-/

namespace Bolgenos

inductive KeyEvent where
  | press (key : KbKey)
  | release (key : KbKey)
  deriving DecidableEq, Repr

namespace KeyEvent

def key : KeyEvent → KbKey
  | press key => key
  | release key => key

def ofCode (pending : Bool) (byte : BitVec 8) : KeyEvent :=
  if pending then release (codeset2 byte) else press (codeset2 byte)

/-- One byte of the scheme. The state is whether a release is pending, and the events so far:
release bytes followed by a code release its key, any other code presses its key, and a byte
that is neither cancels a pending release. -/
def decodeStep (s : Bool × List KeyEvent) (byte : BitVec 8) : Bool × List KeyEvent :=
  if byte = codeset2ReleaseByte then (true, s.2)
  else if codeset2 byte = .none then (false, s.2)
  else (false, s.2 ++ [ofCode s.1 byte])

def decode (bytes : List (BitVec 8)) : Bool × List KeyEvent := bytes.foldl decodeStep (false, [])

def down (key : KbKey) (es : List KeyEvent) : Bool :=
  (es.filter fun e => e.key = key).getLast? = some (press key)

def printed (es : List KeyEvent) : KeyEvent → List Char
  | press key =>
    match key.toPrintableKey with
    | some symbol => [if down .lshift es then applyLshift symbol else symbol]
    | none => []
  | release _ => []

/-- The text of the second list, which comes after the first one. -/
def text (before : List KeyEvent) : List KeyEvent → List Char
  | [] => []
  | e :: es => printed before e ++ text (before ++ [e]) es

def typed (s : Bool × List KeyEvent) (byte : BitVec 8) : List Char :=
  if byte = codeset2ReleaseByte then []
  else if codeset2 byte = .none then KbdStateMachine.errorLine byte
  else printed s.2 (ofCode s.1 byte)

/-- What the bytes of a list show after those that were decoded to `s`. -/
def shown (s : Bool × List KeyEvent) : List (BitVec 8) → List Char
  | [] => []
  | byte :: bytes => typed s byte ++ shown (decodeStep s byte) bytes

variable {es : List KeyEvent} {k key : KbKey} {bytes : List (BitVec 8)}

theorem decode_concat (bytes : List (BitVec 8)) (byte : BitVec 8) :
    decode (bytes ++ [byte]) = decodeStep (decode bytes) byte := by
  simp only [decode, List.foldl_concat]

theorem text_concat (before es : List KeyEvent) (e : KeyEvent) :
    text before (es ++ [e]) = text before es ++ printed (before ++ es) e := by
  induction es generalizing before with
  | nil => simp [text]
  | cons a es ih =>
    rw [List.cons_append, text, text, ih, List.append_assoc, List.append_assoc]
    rfl

theorem shown_concat (s : Bool × List KeyEvent) (bytes : List (BitVec 8)) (byte : BitVec 8) :
    shown s (bytes ++ [byte]) = shown s bytes ++ typed (bytes.foldl decodeStep s) byte := by
  induction bytes generalizing s with
  | nil => simp [shown]
  | cons b bytes ih =>
    rw [List.cons_append, shown, shown, ih, List.append_assoc]
    rfl

theorem shown_eq_text
    (h : ∀ byte ∈ bytes, byte = codeset2ReleaseByte ∨ codeset2 byte ≠ .none) :
    shown (false, []) bytes = text [] (decode bytes).2 := by
  induction bytes using List.reverseRecOn with
  | nil => rfl
  | append_singleton bytes byte ih =>
    rw [List.forall_mem_append, List.forall_mem_singleton] at h
    rw [shown_concat, ih h.1, decode_concat, decodeStep, typed, ← decode]
    by_cases hb : byte = codeset2ReleaseByte
    · rw [if_pos hb, if_pos hb, List.append_nil]
    · have hk : codeset2 byte ≠ .none := h.2.resolve_left hb
      rw [if_neg hb, if_neg hb, if_neg hk, if_neg hk, text_concat, List.nil_append]

theorem down_concat_ne (es : List KeyEvent) {e : KeyEvent} (h : e.key ≠ k) :
    down k (es ++ [e]) = down k es := by
  simp [down, List.filter_append, h]

theorem down_press (es : List KeyEvent) (k : KbKey) : down k (es ++ [press k]) = true := by
  simp [down, List.filter_append, key]

theorem down_release (es : List KeyEvent) (k : KbKey) : down k (es ++ [release k]) = false := by
  simp [down, List.filter_append, key]

end KeyEvent

namespace KbdStateMachine

open KeyEvent

variable {d d' : KbdStateMachine} {byte : BitVec 8} {bytes : List (BitVec 8)}
  {key : KbKey} {symbol : Char}

/-- The bytes were received one after the other, each call of `handle_byte` returned, and the
keyboard is in `d` now. -/
inductive Receives : List (BitVec 8) → KbdStateMachine → Prop where
  | start : Receives [] {}
  | byte {bytes : List (BitVec 8)} {d d' : KbdStateMachine} {byte : BitVec 8} :
      Receives bytes d → Returns d byte d' → Receives (bytes ++ [byte]) d'

def Quiet (d : KbdStateMachine) : Prop := ∀ key, key.toPrintableKey ≠ none → d.key key = .released

theorem mem_all (key : KbKey) : key ∈ KbKey.all := by
  refine List.mem_map.mpr ⟨key.ctorIdx, ?_, KbKey.ofNat_ctorIdx key⟩
  rw [List.mem_range]
  cases key <;> decide

theorem printKey_skip (h : d.key key = .pressed → key.toPrintableKey = none) (lshift : Bool) :
    printKey lshift d key = d := by
  rw [printKey]
  by_cases hp : d.key key = .pressed
  · rw [if_pos hp, h hp]
  · rw [if_neg hp]

theorem foldl_printKey_skip (h : ∀ key, d.key key = .pressed → key.toPrintableKey = none)
    (lshift : Bool) (keys : List KbKey) : keys.foldl (printKey lshift) d = d := by
  induction keys with
  | nil => rfl
  | cons key keys ih => rw [List.foldl_cons, printKey_skip (h key), ih]

/-- A single key with a character is down: it is printed where the loop comes to it, and is
released there, so that it is not printed again. -/
theorem foldl_printKey_one (hk : key.toPrintableKey = some symbol) (hp : d.key key = .pressed)
    (hothers : ∀ k, k ≠ key → d.key k = .pressed → k.toPrintableKey = none) (lshift : Bool)
    {keys : List KbKey} (hmem : key ∈ keys) :
    keys.foldl (printKey lshift) d =
      (d.putc (if lshift then applyLshift symbol else symbol)).setKey key .released := by
  induction keys with
  | nil => cases hmem
  | cons k keys ih =>
    rw [List.foldl_cons]
    by_cases hkey : k = key
    · subst hkey
      have hprint : printKey lshift d k =
          (d.putc (if lshift then applyLshift symbol else symbol)).setKey k .released := by
        simp only [printKey, if_pos hp, hk]
      rw [hprint]
      apply foldl_printKey_skip
      intro k' hp'
      by_cases hk' : k' = k
      · rw [hk'] at hp'
        simp [setKey] at hp'
      · simp only [setKey, Function.update_of_ne hk'] at hp'
        exact hothers k' hk' hp'
    · rw [printKey_skip (hothers k hkey)]
      exact ih ((List.mem_cons.mp hmem).resolve_left (Ne.symm hkey))

theorem Quiet.printable_none (h : d.Quiet) (hp : d.key key = .pressed) :
    key.toPrintableKey = none := by
  by_contra hne
  rw [h key hne] at hp
  cases hp

theorem press_silent (h : d.Quiet) (hk : key.toPrintableKey = none) :
    d.press key = (d.setKey key .pressed).setState .wait := by
  have hskip : ∀ k, ((d.setKey key .pressed).setState .print).key k = .pressed →
      k.toPrintableKey = none := by
    intro k hp
    by_cases hkey : k = key
    · rw [hkey, hk]
    · simp only [setState, setKey, Function.update_of_ne hkey] at hp
      exact h.printable_none hp
  simp only [press, handlePrint, foldl_printKey_skip hskip]
  rfl

theorem press_printed (h : d.Quiet) (hk : key.toPrintableKey = some symbol) :
    d.press key = (d.putc (if d.key .lshift = .pressed then applyLshift symbol
      else symbol)).setState .wait := by
  have hne : KbKey.lshift ≠ key := by
    intro heq
    subst heq
    cases hk
  have hup : d.key key = .released := h key (by simp [hk])
  have hshift : Function.update d.key key .pressed .lshift = d.key .lshift :=
    Function.update_of_ne hne _ _
  have hothers : ∀ k, k ≠ key → ((d.setKey key .pressed).setState .print).key k = .pressed →
      k.toPrintableKey = none := by
    intro k hkey hp
    simp only [setState, setKey, Function.update_of_ne hkey] at hp
    exact h.printable_none hp
  have hdown : ((d.setKey key .pressed).setState .print).key key = .pressed := by
    simp [setState, setKey]
  simp only [press, handlePrint, foldl_printKey_one hk hdown hothers _ (mem_all key)]
  have hkeys : Function.update (Function.update d.key key .pressed) key .released = d.key := by
    rw [Function.update_idem, ← hup, Function.update_eq_self]
  simp only [setState, setKey, putc, hkeys]
  simp only [hshift, decide_eq_true_eq]

structure Decoded (d : KbdStateMachine) (s : Bool × List KeyEvent) (out : List Char) : Prop where
  state : d.state = if s.1 then .oneByteKeyReleased else .wait
  line : d.showHeader = true
  console : d.console = out
  quiet : d.Quiet
  silent : ∀ key, key.toPrintableKey = none → (d.key key = .pressed ↔ down key s.2 = true)

variable {s : Bool × List KeyEvent} {out : List Char}

theorem Decoded.withState (h : Decoded d s out) (pending : Bool) :
    Decoded (d.setState (if pending then .oneByteKeyReleased else .wait)) (pending, s.2) out :=
  ⟨rfl, h.line, h.console, h.quiet, h.silent⟩

theorem Decoded.puts (h : Decoded d s out) (text : List Char) :
    Decoded (d.puts text) s (out ++ text) :=
  ⟨h.state, h.line, congrArg (· ++ text) h.console, h.quiet, h.silent⟩

theorem Decoded.release (h : Decoded d s out) (key : KbKey) :
    Decoded ((d.setKey key .released).setState .wait) (false, s.2 ++ [.release key]) out where
  state := rfl
  line := h.line
  console := h.console
  quiet := by
    intro k hk
    by_cases hkey : k = key
    · simp [setState, setKey, hkey]
    · simp only [setState, setKey, Function.update_of_ne hkey]
      exact h.quiet k hk
  silent := by
    intro k hk
    by_cases hkey : k = key
    · simp [setState, setKey, hkey, down_release]
    · simp only [setState, setKey, Function.update_of_ne hkey]
      rw [h.silent k hk, down_concat_ne _ (Ne.symm hkey)]

theorem Decoded.press (h : Decoded d s out) (key : KbKey) :
    Decoded (d.press key) (false, s.2 ++ [.press key]) (out ++ printed s.2 (.press key)) := by
  have hsilent : ∀ k, k ≠ key → k.toPrintableKey = none →
      (d.key k = .pressed ↔ down k (s.2 ++ [.press key]) = true) := by
    intro k hkey hk
    rw [h.silent k hk, down_concat_ne _ (Ne.symm hkey)]
  cases hprint : key.toPrintableKey with
  | none =>
    rw [press_silent h.quiet hprint]
    refine ⟨rfl, h.line, ?_, ?_, ?_⟩
    · rw [printed, hprint, List.append_nil]
      exact h.console
    · intro k hk
      have hkey : k ≠ key := fun heq => hk (heq ▸ hprint)
      simp only [setState, setKey, Function.update_of_ne hkey]
      exact h.quiet k hk
    · intro k hk
      by_cases hkey : k = key
      · simp [setState, setKey, hkey, down_press]
      · simp only [setState, setKey, Function.update_of_ne hkey]
        exact hsilent k hkey hk
  | some symbol =>
    rw [press_printed h.quiet hprint]
    refine ⟨rfl, h.line, ?_, h.quiet, ?_⟩
    · have hshift := h.silent .lshift rfl
      rw [printed, hprint, ← h.console]
      simp only [setState, putc, hshift]
    · intro k hk
      have hkey : k ≠ key := by
        intro heq
        subst heq
        rw [hk] at hprint
        cases hprint
      exact hsilent k hkey hk

theorem Decoded.step (h : Decoded d s out) (hret : Returns d byte d') :
    Decoded d' (decodeStep s byte) (out ++ typed s byte) := by
  have hstate := h.state
  rw [decodeStep, typed]
  by_cases hb : byte = codeset2ReleaseByte
  · rw [if_pos hb, if_pos hb, List.append_nil]
    cases hs : s.1 with
    | false =>
      rw [hs] at hstate
      rw [returns_unique hret (returns_wait_release hstate hb)]
      exact h.withState true
    | true =>
      rw [hs] at hstate
      rw [returns_unique hret (returns_released_release hstate hb)]
      exact h.withState true
  rw [if_neg hb, if_neg hb]
  by_cases hk : codeset2 byte = .none
  · rw [if_pos hk, if_pos hk]
    cases hs : s.1 with
    | false =>
      rw [hs] at hstate
      rw [returns_unique hret (returns_wait_junk hstate h.line hb hk)]
      exact (h.puts _).withState false
    | true =>
      rw [hs] at hstate
      rw [returns_unique hret (returns_released_junk hstate h.line hb hk)]
      exact (h.puts _).withState false
  rw [if_neg hk, if_neg hk]
  cases hs : s.1 with
  | false =>
    rw [hs] at hstate
    have hup : d.key (codeset2 byte) ≠ .pressed := by
      intro hp
      exact not_held_of_returns hret ⟨hstate, hk, hp⟩
    rw [returns_unique hret (returns_wait_press hstate hk hup)]
    exact h.press _
  | true =>
    rw [hs] at hstate
    rw [returns_unique hret (returns_released_key hstate hk), ofCode, if_pos rfl, printed,
      List.append_nil]
    exact h.release _

theorem Receives.decoded (h : Receives bytes d) :
    Decoded d (decode bytes) (shown (false, []) bytes) := by
  induction h with
  | start =>
    refine ⟨rfl, rfl, rfl, fun _ _ => rfl, fun key _ => ?_⟩
    simp [decode, down]
  | byte _ hret ih =>
    rw [decode_concat, shown_concat]
    exact ih.step hret

/-- The console shows one character for each press of a key with a character and one line of the
log for each byte that is not part of an event, in the order of the bytes; without such bytes it
is the text of the events. Between two bytes no key with a character is pressed, and any other
key is pressed if and only if its last event was a press. -/
theorem receives_text (h : Receives bytes d) :
    d.console = shown (false, []) bytes ∧
      ((∀ byte ∈ bytes, byte = codeset2ReleaseByte ∨ codeset2 byte ≠ .none) →
        d.console = text [] (decode bytes).2) ∧
      (∀ key, key.toPrintableKey ≠ none → d.key key = .released) ∧
      ∀ key, key.toPrintableKey = none →
        (d.key key = .pressed ↔ down key (decode bytes).2 = true) := by
  have hdecoded := h.decoded
  refine ⟨hdecoded.console, ?_, hdecoded.quiet, hdecoded.silent⟩
  intro hbytes
  rw [hdecoded.console, shown_eq_text hbytes]

theorem Receives.exists_next (h : Receives bytes d) (byte : BitVec 8)
    (hup : (decode bytes).1 = true ∨ (codeset2 byte).toPrintableKey ≠ none ∨
      down (codeset2 byte) (decode bytes).2 = false) : ∃ d', Receives (bytes ++ [byte]) d' := by
  have hdecoded := h.decoded
  have hstate := hdecoded.state
  cases hs : (decode bytes).1 with
  | true =>
    rw [hs] at hstate
    obtain ⟨d', hret, -⟩ := returns_released byte hstate hdecoded.line
    exact ⟨d', h.byte hret⟩
  | false =>
    rw [hs] at hstate
    have hheld : ¬ Held d byte := by
      intro hheld
      have hnone := hdecoded.quiet.printable_none hheld.2.2
      have hdown := (hdecoded.silent _ hnone).mp hheld.2.2
      simp [hs, hnone, hdown] at hup
    obtain ⟨d', hret, -⟩ := returns_wait byte hstate hdecoded.line hheld
    exact ⟨d', h.byte hret⟩

theorem receives_text_shift : ∃ d, Receives [0x12, 0x1c, 0xf0, 0x00, 0xf0, 0x12, 0x1c] d ∧
    d.console = 'A' :: "ps/2.state_handler: PS/2 keyboard: ".toList ++
      "unexpected byte from controller 0\n".toList ++ ['a'] := by
  obtain ⟨d, h⟩ := Receives.start.exists_next 0x12 (by decide)
  obtain ⟨d, h⟩ := h.exists_next 0x1c (by decide)
  obtain ⟨d, h⟩ := h.exists_next 0xf0 (by decide)
  obtain ⟨d, h⟩ := h.exists_next 0x00 (by decide)
  obtain ⟨d, h⟩ := h.exists_next 0xf0 (by decide)
  obtain ⟨d, h⟩ := h.exists_next 0x12 (by decide)
  obtain ⟨d, h⟩ := h.exists_next 0x1c (by decide)
  refine ⟨d, h, ?_⟩
  rw [(receives_text h).1]
  decide +kernel

theorem receives_unexpected :
    ∃ d, Receives [0x00] d ∧ d.console ≠ text [] (decode [0x00]).2 := by
  obtain ⟨d, h⟩ := Receives.start.exists_next 0x00 (by decide)
  refine ⟨d, h, ?_⟩
  have hconsole : d.console = shown (false, []) [0x00] := h.decoded.console
  rw [hconsole]
  decide +kernel

end KbdStateMachine

end Bolgenos
