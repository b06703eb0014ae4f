import Bolgenos.Cxx.NumberFormat

/-!
# Guarded formats

A `ScopedFormatGuard` saves the base, the width and the fill character of a stream and sets
them back when its scope is left. Inside the scope the calls change them one after the other;
`Call.texts` is the text of a sequence of calls.
-/

namespace Bolgenos

namespace Ostream

variable {σ : Type}

def copyfmt (os other : Ostream σ) : Ostream σ :=
  { os with fillch := other.fillch, format := other.format, width := other.width }

def guarded (body : Ostream σ → Result (Ostream σ)) (os : Ostream σ) : Result (Ostream σ) := do
  let os' ← body os
  .ok (os'.copyfmt os)

def emit (sb : Streambuf σ) (text : List UInt8) : Option σ → Result (Option σ)
  | none => .ok none
  | some s => do
    let s ← text.foldlM (fun s c => sb.sputc c s) s
    .ok (some s)

end Ostream

namespace Call

variable {σ : Type}

def reformatAll (os : Ostream σ) (calls : List Call) : Ostream σ := calls.foldl reformat os

/-- The text of the calls, each in the format that those before it have set. -/
def texts (os : Ostream σ) (b : Base) : List Call → List UInt8
  | [] => []
  | call :: calls => call.text os b ++ texts (call.reformat os) (call.base b) calls

end Call

namespace Ostream

variable {σ : Type} {sb : Streambuf σ} {os : Ostream σ} {b : Base}

theorem emit_cons (c : UInt8) (text : List UInt8) (s : Option σ) :
    emit sb (c :: text) s = emit sb [c] s >>= emit sb text := by
  cases s with
  | none => rfl
  | some s =>
    simp only [emit, List.foldlM_cons, List.foldlM_nil, bind_assoc]
    cases sb.sputc c s with
    | error e => rfl
    | ok s => rfl

theorem putAll_eq_emit (text : List UInt8) (os : Ostream σ) :
    os.putAll sb text = emit sb text os.streambuf >>= fun s => .ok { os with streambuf := s } := by
  induction text generalizing os with
  | nil =>
    cases hs : os.streambuf with
    | none =>
      obtain ⟨streambuf, format, width, fillch⟩ := os
      subst hs
      rfl
    | some s =>
      obtain ⟨streambuf, format, width, fillch⟩ := os
      subst hs
      rfl
  | cons c text ih =>
    rw [putAll_cons, emit_cons]
    cases hs : os.streambuf with
    | none =>
      have hput : os.put sb c = .ok os := by simp only [put, hs]
      rw [hput]
      refine (ih os).trans ?_
      rw [hs]
      rfl
    | some s =>
      simp only [put, hs, emit, List.foldlM_cons, List.foldlM_nil, bind_assoc]
      cases sb.sputc c s with
      | error e => rfl
      | ok s' => exact ih { os with streambuf := some s' }

theorem emit_append (text text' : List UInt8) (s : Option σ) :
    emit sb (text ++ text') s = emit sb text s >>= emit sb text' := by
  induction text generalizing s with
  | nil => cases s <;> rfl
  | cons c text ih =>
    rw [List.cons_append, emit_cons, emit_cons c text, bind_assoc]
    exact congrArg _ (funext ih)

theorem reformat_streambuf (call : Call) (os : Ostream σ) (s : Option σ) :
    call.reformat { os with streambuf := s } = { call.reformat os with streambuf := s } := by
  cases call <;> rfl

/-- The function puts the text on a stream with the format of `os` and leaves it with the format
of `os'`. -/
def Puts (sb : Streambuf σ) (f : Ostream σ → Result (Ostream σ)) (os os' : Ostream σ)
    (text : List UInt8) : Prop :=
  ∀ s, f { os with streambuf := s } =
    emit sb text s >>= fun s => .ok { os' with streambuf := s }

variable {f g : Ostream σ → Result (Ostream σ)} {os' os'' : Ostream σ} {text text' : List UInt8}

theorem Puts.comp (hf : Puts sb f os os' text) (hg : Puts sb g os' os'' text') :
    Puts sb (fun os => f os >>= g) os os'' (text ++ text') := by
  intro s
  simp only
  rw [hf s, emit_append, bind_assoc, bind_assoc]
  exact congrArg _ (funext hg)

theorem Puts.guarded (h : Puts sb f os os' text) : Puts sb (guarded f) os os text := by
  intro s
  rw [Ostream.guarded, h s, bind_assoc]
  rfl

theorem Puts.eq_putAll (h : Puts sb f os os text) : f os = os.putAll sb text := by
  rw [putAll_eq_emit]
  exact h os.streambuf

theorem puts_run (sb : Streambuf σ) (calls : List Call) (hb : os.format = b.flag)
    (hcalls : ∀ call ∈ calls, ∀ str, call ≠ .write str) :
    Puts sb (run sb calls) os (Call.reformatAll os calls) (Call.texts os b calls) := by
  induction calls generalizing os b with
  | nil => exact fun s => putAll_eq_emit [] { os with streambuf := s }
  | cons call calls ih =>
    obtain ⟨hcall, hrest⟩ := List.forall_mem_cons.1 hcalls
    have happly : Puts sb (fun os => os.apply sb call) os (call.reformat os) (call.text os b) := by
      intro s
      have hformat : ({ os with streambuf := s } : Ostream σ).format = b.flag := hb
      have htext : call.text { os with streambuf := s } b = call.text os b := by cases call <;> rfl
      simp only
      rw [apply_eq hformat hcall, htext, reformat_streambuf, putAll_eq_emit]
    intro s
    rw [run, List.foldlM_cons]
    exact happly.comp (ih (reformat_format hb call) hrest) s

end Ostream

end Bolgenos
