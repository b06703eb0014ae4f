import Bolgenos.Cxx.NumberFormat

/-!
# The bounded string stream

`SnprintfStream` writes into an array of `max_len` characters. Its two ways of writing and its
constructor keep the end pointer and the terminating NUL each on their own. After any calls
the array shows as much of the text as fits in front of a NUL. The constructor writes the first
NUL also into an array of no characters.
-/

namespace Bolgenos

/-- `SnprintfStream::Buf`. The pointers are positions in the array. -/
structure SnprintfBuf where
  cells : List UInt8
  buf : ℕ
  last : ℕ
  deriving DecidableEq, Repr

namespace SnprintfBuf

def construct (cells : List UInt8) : Result SnprintfBuf := do
  let maxLen := cells.length
  let last := if maxLen = 0 then 0 else maxLen - 1
  let cells ← storeChar cells 0 0
  .ok ⟨cells, 0, last⟩

def overflow (c : UInt8) (s : SnprintfBuf) : Result SnprintfBuf :=
  if s.buf = s.last then .ok s
  else do
    let cells ← storeChar s.cells s.buf c
    let cells ← storeChar cells (s.buf + 1) 0
    .ok ⟨cells, s.buf + 1, s.last⟩

def copyLoop : List UInt8 → SnprintfBuf → Result SnprintfBuf
  | [], s => .ok s
  | c :: str, s =>
    if s.buf ≠ s.last then do
      let cells ← storeChar s.cells s.buf c
      copyLoop str ⟨cells, s.buf + 1, s.last⟩
    else .ok s

def xsputn (str : List UInt8) (s : SnprintfBuf) : Result SnprintfBuf :=
  if s.buf = s.last then .ok s
  else do
    let s ← copyLoop str s
    let cells ← storeChar s.cells s.buf 0
    .ok { s with cells := cells }

def streambuf : Streambuf SnprintfBuf := ⟨overflow, xsputn⟩

structure Holds (maxLen : ℕ) (s : SnprintfBuf) (text : List UInt8) : Prop where
  pos : 1 ≤ maxLen
  length : s.cells.length = maxLen
  last : s.last = maxLen - 1
  buf : s.buf = min text.length (maxLen - 1)
  start : s.cells.take s.buf = text.take s.buf

structure Shows (maxLen : ℕ) (s : SnprintfBuf) (text : List UInt8) : Prop
    extends Holds maxLen s text where
  nul : s.cells[s.buf]? = some 0

variable {maxLen : ℕ} {s : SnprintfBuf} {text cells : List UInt8} {c : UInt8}

theorem Holds.full (h : Holds maxLen s text) (hfull : s.buf = s.last) (str : List UInt8) :
    Holds maxLen s (text ++ str) := by
  have hbuf := h.buf
  have hlast := h.last
  refine ⟨h.pos, h.length, hlast, ?_, ?_⟩
  · rw [List.length_append]
    omega
  · rw [h.start, List.take_append_of_le_length (by omega)]

theorem Holds.buf_lt (h : Holds maxLen s text) : s.buf < s.cells.length := by
  have hbuf := h.buf
  have hpos := h.pos
  rw [h.length]
  omega

theorem Holds.store (h : Holds maxLen s text) (hroom : s.buf ≠ s.last) (c : UInt8) :
    storeChar s.cells s.buf c = .ok (s.cells.set s.buf c) ∧
      Holds maxLen ⟨s.cells.set s.buf c, s.buf + 1, s.last⟩ (text ++ [c]) := by
  have hbuf := h.buf
  have hlast := h.last
  have hlen : s.buf = text.length := by omega
  refine ⟨if_pos h.buf_lt, h.pos, ?_, hlast, ?_, ?_⟩
  · rw [List.length_set, h.length]
  · rw [List.length_append, List.length_singleton]
    simp only
    omega
  · simp only
    rw [take_set_self h.buf_lt, h.start, hlen, List.take_length, ← List.length_singleton (a := c),
      ← List.length_append, List.take_length]

theorem Holds.terminate (h : Holds maxLen s text) :
    storeChar s.cells s.buf 0 = .ok (s.cells.set s.buf 0) ∧
      Shows maxLen { s with cells := s.cells.set s.buf 0 } text := by
  refine ⟨if_pos h.buf_lt, ⟨h.pos, ?_, h.last, h.buf, ?_⟩, ?_⟩
  · rw [List.length_set, h.length]
  · rw [List.take_set_of_le le_rfl, h.start]
  · exact List.getElem?_set_self h.buf_lt

theorem Shows.overflow (h : Shows maxLen s text) (c : UInt8) :
    ∃ s', SnprintfBuf.overflow c s = .ok s' ∧ Shows maxLen s' (text ++ [c]) := by
  by_cases hfull : s.buf = s.last
  · exact ⟨s, if_pos hfull, h.toHolds.full hfull [c], h.nul⟩
  · obtain ⟨hstore, hholds⟩ := h.toHolds.store hfull c
    obtain ⟨hnul, hshows⟩ := hholds.terminate
    refine ⟨_, ?_, hshows⟩
    simp only at hnul
    simp only [SnprintfBuf.overflow, if_neg hfull, hstore, hnul, bind, Except.bind]

theorem Holds.copyLoop (h : Holds maxLen s text) (str : List UInt8) :
    ∃ s', SnprintfBuf.copyLoop str s = .ok s' ∧ Holds maxLen s' (text ++ str) := by
  induction str generalizing s text with
  | nil =>
    rw [List.append_nil]
    exact ⟨s, rfl, h⟩
  | cons c str ih =>
    by_cases hfull : s.buf = s.last
    · refine ⟨s, ?_, h.full hfull (c :: str)⟩
      rw [SnprintfBuf.copyLoop, if_neg (not_not.mpr hfull)]
    · obtain ⟨hstore, hholds⟩ := h.store hfull c
      obtain ⟨s', hrun, hrest⟩ := ih hholds
      rw [← List.append_cons] at hrest
      refine ⟨s', ?_, hrest⟩
      simp only [SnprintfBuf.copyLoop, if_pos hfull, hstore, bind, Except.bind, hrun]

theorem Shows.xsputn (h : Shows maxLen s text) (str : List UInt8) :
    ∃ s', SnprintfBuf.xsputn str s = .ok s' ∧ Shows maxLen s' (text ++ str) := by
  by_cases hfull : s.buf = s.last
  · exact ⟨s, if_pos hfull, h.toHolds.full hfull str, h.nul⟩
  · obtain ⟨s₁, hrun, hholds⟩ := h.toHolds.copyLoop str
    obtain ⟨hnul, hshows⟩ := hholds.terminate
    refine ⟨_, ?_, hshows⟩
    simp only [SnprintfBuf.xsputn, if_neg hfull, hrun, hnul, bind, Except.bind]

theorem construct_shows (h : 1 ≤ cells.length) :
    ∃ s, construct cells = .ok s ∧ Shows cells.length s [] := by
  have hstore : storeChar cells 0 0 = .ok (cells.set 0 0) := if_pos h
  have hne : cells.length ≠ 0 := by omega
  refine ⟨⟨cells.set 0 0, 0, cells.length - 1⟩, ?_, ⟨h, List.length_set, rfl, ?_, rfl⟩, ?_⟩
  · simp only [construct, if_neg hne, hstore, bind, Except.bind]
  · simp
  · exact List.getElem?_set_self h

end SnprintfBuf

/-- Both ways of writing bring the `streambuf` from a text to the longer one. -/
structure Streambuf.Extends {σ : Type} (sb : Streambuf σ) (R : σ → List UInt8 → Prop) : Prop where
  overflow : ∀ {s text}, R s text → ∀ c, ∃ s', sb.overflow c s = .ok s' ∧ R s' (text ++ [c])
  xsputn : ∀ {s text}, R s text → ∀ str, ∃ s', sb.xsputn str s = .ok s' ∧ R s' (text ++ str)

namespace Ostream

variable {σ : Type} {sb : Streambuf σ} {R : σ → List UInt8 → Prop} {os : Ostream σ}
  {log : Ostream (List UInt8)} {b : Base}

structure Related (R : σ → List UInt8 → Prop) (os : Ostream σ) (log : Ostream (List UInt8)) :
    Prop where
  format : os.format = log.format
  width : os.width = log.width
  fillch : os.fillch = log.fillch
  buf : ∃ s text, os.streambuf = some s ∧ log.streambuf = some text ∧ R s text

theorem Related.put (h : Related R os log) (hsb : sb.Extends R) (c : UInt8) :
    ∃ os' log', os.put sb c = .ok os' ∧ log.put .recorder c = .ok log' ∧ Related R os' log' := by
  obtain ⟨s, text, hs, htext, hR⟩ := h.buf
  obtain ⟨s', hput, hR'⟩ := hsb.overflow hR c
  refine ⟨{ os with streambuf := some s' }, { log with streambuf := some (text ++ [c]) }, ?_, ?_,
    h.format, h.width, h.fillch, s', text ++ [c], rfl, rfl, hR'⟩
  · simp only [Ostream.put, hs, Streambuf.sputc, hput, bind, Except.bind]
  · simp only [Ostream.put, htext]
    rfl

theorem Related.write (h : Related R os log) (hsb : sb.Extends R) (str : List UInt8) :
    ∃ os' log', os.write sb str = .ok os' ∧ log.write .recorder str = .ok log' ∧
      Related R os' log' := by
  obtain ⟨s, text, hs, htext, hR⟩ := h.buf
  obtain ⟨s', hput, hR'⟩ := hsb.xsputn hR str
  refine ⟨{ os with streambuf := some s' }, { log with streambuf := some (text ++ str) }, ?_, ?_,
    h.format, h.width, h.fillch, s', text ++ str, rfl, rfl, hR'⟩
  · simp only [Ostream.write, hs, Streambuf.sputn, hput, bind, Except.bind]
  · simp only [Ostream.write, htext]
    rfl

theorem Related.putAll (h : Related R os log) (hsb : sb.Extends R) (text : List UInt8) :
    ∃ os' log', os.putAll sb text = .ok os' ∧ log.putAll .recorder text = .ok log' ∧
      Related R os' log' := by
  induction text generalizing os log with
  | nil => exact ⟨os, log, rfl, rfl, h⟩
  | cons c text ih =>
    obtain ⟨os₁, log₁, hput, hput', h₁⟩ := h.put hsb c
    obtain ⟨os₂, log₂, hrest, hrest', h₂⟩ := ih h₁
    refine ⟨os₂, log₂, ?_, ?_, h₂⟩
    · rw [putAll_cons, hput]
      exact hrest
    · rw [putAll_cons, hput']
      exact hrest'

theorem Related.text_eq (h : Related R os log) (call : Call) :
    call.text os b = call.text log b := by
  cases call <;> simp only [Call.text, Call.padded, h.width, h.fillch]

theorem Related.reformat (h : Related R os log) (call : Call) :
    Related R (call.reformat os) (call.reformat log) := by
  cases call with
  | dec => exact ⟨by simp only [Call.reformat, dec, setf, h.format], h.width, h.fillch, h.buf⟩
  | hex => exact ⟨by simp only [Call.reformat, hex, setf, h.format], h.width, h.fillch, h.buf⟩
  | setw width => exact ⟨h.format, rfl, h.fillch, h.buf⟩
  | setfill fillch => exact ⟨h.format, h.width, rfl, h.buf⟩
  | _ => exact h

theorem Related.apply (h : Related R os log) (hsb : sb.Extends R) (hb : os.format = b.flag)
    (call : Call) :
    ∃ os' log', os.apply sb call = .ok os' ∧ log.apply .recorder call = .ok log' ∧
      Related R os' log' := by
  by_cases hcall : ∃ str, call = .write str
  · obtain ⟨str, rfl⟩ := hcall
    exact h.write hsb str
  · have hne : ∀ str, call ≠ .write str := fun str hstr => hcall ⟨str, hstr⟩
    rw [apply_eq hb hne, apply_eq (h.format.symm.trans hb) hne, ← h.text_eq]
    exact (h.reformat call).putAll hsb _

theorem Related.run (h : Related R os log) (hsb : sb.Extends R) (hb : os.format = b.flag)
    (calls : List Call) :
    ∃ os' log', run sb calls os = .ok os' ∧ Ostream.run .recorder calls log = .ok log' ∧
      Related R os' log' := by
  induction calls generalizing os log b with
  | nil => exact ⟨os, log, rfl, rfl, h⟩
  | cons call calls ih =>
    obtain ⟨os₁, log₁, hcall, hcall', h₁⟩ := h.apply hsb hb call
    obtain ⟨os₂, log₂, hrest, hrest', h₂⟩ := ih h₁ (apply_format hb hcall)
    refine ⟨os₂, log₂, ?_, ?_, h₂⟩
    · rw [Ostream.run, List.foldlM_cons, hcall]
      exact hrest
    · rw [Ostream.run, List.foldlM_cons, hcall']
      exact hrest'

end Ostream

namespace SnprintfStream

def run (cells : List UInt8) (calls : List Call) : Result (Ostream SnprintfBuf) := do
  let s ← SnprintfBuf.construct cells
  Ostream.run SnprintfBuf.streambuf calls { streambuf := some s }

def emitted (calls : List Call) : Result (List UInt8) := do
  let log ← Ostream.run .recorder calls { streambuf := some [] }
  .ok (log.streambuf.getD [])

/-- No call writes outside the array, and after each of them an array that is not empty shows
the start of the text and a NUL. -/
def Bounded (cells : List UInt8) (calls : List Call) : Prop :=
  ∀ k ≤ calls.length, ∃ os s text, run cells (calls.take k) = .ok os ∧ os.streambuf = some s ∧
    emitted (calls.take k) = .ok text ∧ s.cells.length = cells.length ∧
    (1 ≤ cells.length →
      s.cells.take (min text.length (cells.length - 1) + 1) =
        text.take (min text.length (cells.length - 1)) ++ [0])

theorem streambuf_extends (maxLen : ℕ) :
    SnprintfBuf.streambuf.Extends (SnprintfBuf.Shows maxLen) where
  overflow h c := h.overflow c
  xsputn h str := h.xsputn str

theorem Bounded.of_pos {cells : List UInt8} (hpos : 1 ≤ cells.length) (calls : List Call) :
    Bounded cells calls := by
  intro k hk
  obtain ⟨s₀, hstart, hshows₀⟩ := SnprintfBuf.construct_shows hpos
  have hrel : Ostream.Related (SnprintfBuf.Shows cells.length) { streambuf := some s₀ }
      { streambuf := some [] } := ⟨rfl, rfl, rfl, s₀, [], rfl, rfl, hshows₀⟩
  obtain ⟨os, log, hrun, hrec, h⟩ :=
    hrel.run (b := .dec) (streambuf_extends cells.length) rfl (calls.take k)
  obtain ⟨s, text, hs, htext, hshows⟩ := h.buf
  refine ⟨os, s, text, ?_, hs, ?_, hshows.length, ?_⟩
  · simp only [run, hstart, bind, Except.bind, hrun]
  · simp only [emitted, hrec, bind, Except.bind, htext, Option.getD_some]
  · intro _
    rw [← hshows.buf, List.take_add_one, hshows.start, hshows.nul]
    rfl

/-- The stream stays inside its array, and shows its text, exactly when the array is not
empty. -/
theorem bounded_iff (cells : List UInt8) (calls : List Call) :
    Bounded cells calls ↔ 1 ≤ cells.length := by
  constructor
  · intro h
    obtain ⟨os, s, text, hrun, -⟩ := h 0 (Nat.zero_le _)
    by_contra hempty
    have hnil : cells = [] := List.length_eq_zero_iff.mp (by omega)
    subst hnil
    cases hrun
  · intro hpos
    exact Bounded.of_pos hpos calls

theorem not_bounded_empty : ¬ ∀ cells calls, Bounded cells calls := by
  intro h
  obtain ⟨os, s, text, hrun, -⟩ := h [] [] 0 le_rfl
  cases hrun

end SnprintfStream

end Bolgenos
