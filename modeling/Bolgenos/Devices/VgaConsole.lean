import Bolgenos.Cxx.Algorithm

/-!
# The text console

The console writes to a frame buffer of 25 rows of 80 cells and scrolls it in place. Every
access to the buffer is checked against its 2000 cells. `Terminal` is what the console stands
for: a sheet of unlimited length on which rows are started and never lost. The console shows
the last 25 rows of it, and its first 25 as long as fewer have been started.
-/

namespace Bolgenos

inductive Color where
  | black
  | blue
  | green
  | cyan
  | red
  | magenta
  | brown
  | grey
  | darkGrey
  | brightBlue
  | brightGreen
  | brightCyan
  | brightRed
  | brightMagenta
  | yellow
  | white
  deriving DecidableEq, Repr

structure Cell where
  ch : UInt8
  fg : Color
  bg : Color
  deriving DecidableEq, Repr

namespace VgaConsole

def screenHeight : ℕ := 25

def screenWidth : ℕ := 80

def lf : UInt8 := 10

def cr : UInt8 := 13

def space : UInt8 := 32

end VgaConsole

open VgaConsole

/-- The variables of the console; `iomem` gives the cell at each distance from 0xb8000. -/
structure VgaConsole where
  iomem : ℤ → Cell
  globalBg : Color := .black
  globalFg : Color := .grey
  cursorLine : ℤ := 0
  cursorColumn : ℤ := 0

namespace VgaConsole

def cells : ℤ := screenHeight * screenWidth

def setBg (bg : Color) (c : VgaConsole) : VgaConsole := { c with globalBg := bg }

def setFg (fg : Color) (c : VgaConsole) : VgaConsole := { c with globalFg := fg }

def cursorAddress (c : VgaConsole) : ℤ := c.cursorLine * screenWidth + c.cursorColumn

def carriageReturn (c : VgaConsole) : VgaConsole := { c with cursorColumn := 0 }

def scrollRows (rows : ℕ) (iomem : ℤ → Cell) : Result (ℤ → Cell) :=
  (List.range rows).foldlM (fun iomem (i : ℕ) =>
    copyN cells ((i + 1) * screenWidth) screenWidth (i * screenWidth) iomem) iomem

def scroll (c : VgaConsole) : Result VgaConsole := do
  let iomem ← scrollRows (screenHeight - 1) c.iomem
  let empty : Cell := ⟨space, c.globalFg, c.globalBg⟩
  let iomem ← fillN cells ((screenHeight - 1) * screenWidth) screenWidth empty iomem
  return { c with iomem := iomem }

def newLine (c : VgaConsole) : Result VgaConsole :=
  let c := { c with cursorLine := c.cursorLine + 1 }
  if c.cursorLine = (screenHeight : ℤ) then
    scroll { c with cursorLine := screenHeight - 1 }
  else
    .ok c

def lineBreak (c : VgaConsole) : Result VgaConsole := do
  let c ← newLine c
  return carriageReturn c

def cursorNext (c : VgaConsole) : Result VgaConsole :=
  let c := { c with cursorColumn := c.cursorColumn + 1 }
  if c.cursorColumn = (screenWidth : ℤ) then lineBreak c else .ok c

def putcColor (symbol : UInt8) (fg bg : Color) (c : VgaConsole) : Result VgaConsole :=
  if symbol = lf then lineBreak c
  else if symbol = cr then .ok (carriageReturn c)
  else do
    let iomem ← store cells c.iomem c.cursorAddress ⟨symbol, fg, bg⟩
    cursorNext { c with iomem := iomem }

def putc (symbol : UInt8) (c : VgaConsole) : Result VgaConsole :=
  putcColor symbol c.globalFg c.globalBg c

/-- A string is the list of its bytes; the loop stops at a zero byte or at its end. -/
def putsColor (fg bg : Color) : List UInt8 → VgaConsole → Result VgaConsole
  | [], c => .ok c
  | symbol :: string, c =>
    if symbol = 0 then .ok c
    else do
      let c ← putcColor symbol fg bg c
      putsColor fg bg string c

def puts (string : List UInt8) (c : VgaConsole) : Result VgaConsole :=
  putsColor c.globalFg c.globalBg string c

def clearScreen (c : VgaConsole) : Result VgaConsole := do
  let empty : Cell := ⟨space, c.globalFg, c.globalBg⟩
  let iomem ← fillN cells 0 (screenHeight * screenWidth) empty c.iomem
  return { c with iomem := iomem }

end VgaConsole

inductive ConsoleCall where
  | putcColor (symbol : UInt8) (fg bg : Color)
  | putc (symbol : UInt8)
  | putsColor (string : List UInt8) (fg bg : Color)
  | puts (string : List UInt8)
  | setFg (fg : Color)
  | setBg (bg : Color)
  deriving DecidableEq, Repr

def ConsoleCall.exec : ConsoleCall → VgaConsole → Result VgaConsole
  | .putcColor symbol fg bg, c => VgaConsole.putcColor symbol fg bg c
  | .putc symbol, c => VgaConsole.putc symbol c
  | .putsColor string fg bg, c => VgaConsole.putsColor fg bg string c
  | .puts string, c => VgaConsole.puts string c
  | .setFg fg, c => .ok (c.setFg fg)
  | .setBg bg, c => .ok (c.setBg bg)

def VgaConsole.run (calls : List ConsoleCall) (c : VgaConsole) : Result VgaConsole :=
  calls.foldlM (fun c call => call.exec c) c

/-- An unlimited sheet of 80 columns; `line` is the row that was started last. -/
structure Terminal where
  text : ℕ → ℕ → Cell
  line : ℕ := 0
  column : ℕ := 0
  fg : Color
  bg : Color

namespace Terminal

def cleared (fg bg : Color) : Terminal where
  text _ _ := ⟨space, fg, bg⟩
  fg := fg
  bg := bg

/-- A row below the first 25 scrolls in, blank in the colours of this moment. -/
def newRow (t : Terminal) : Terminal :=
  { t with
    line := t.line + 1
    column := 0
    text := if t.line + 1 < screenHeight then t.text
      else Function.update t.text (t.line + 1) fun _ => ⟨space, t.fg, t.bg⟩ }

def ink (t : Terminal) (cell : Cell) : Terminal :=
  { t with
    text := Function.update t.text t.line (Function.update (t.text t.line) t.column cell)
    column := t.column + 1 }

def write (t : Terminal) (cell : Cell) : Terminal :=
  if (t.ink cell).column = screenWidth then (t.ink cell).newRow else t.ink cell

def put (symbol : UInt8) (fg bg : Color) (t : Terminal) : Terminal :=
  if symbol = lf then t.newRow
  else if symbol = cr then { t with column := 0 }
  else t.write ⟨symbol, fg, bg⟩

def putAll (fg bg : Color) (string : List UInt8) (t : Terminal) : Terminal :=
  (string.takeWhile (· ≠ 0)).foldl (fun t symbol => t.put symbol fg bg) t

def exec : ConsoleCall → Terminal → Terminal
  | .putcColor symbol fg bg, t => t.put symbol fg bg
  | .putc symbol, t => t.put symbol t.fg t.bg
  | .putsColor string fg bg, t => t.putAll fg bg string
  | .puts string, t => t.putAll t.fg t.bg string
  | .setFg fg, t => { t with fg := fg }
  | .setBg bg, t => { t with bg := bg }

def run (calls : List ConsoleCall) (t : Terminal) : Terminal :=
  calls.foldl (fun t call => t.exec call) t

/-- Row `i` of the last 25 rows, or of the first 25 while fewer have been started. -/
def window (t : Terminal) (i : ℕ) : ℕ → Cell := t.text (t.line + 1 - screenHeight + i)

variable {t : Terminal} {i : ℕ}

theorem window_newRow_of_lt (h : t.line + 1 < screenHeight) :
    t.newRow.window i = t.window i := by
  have hold : t.line + 1 - screenHeight = 0 := by omega
  have hnew : t.line + 1 + 1 - screenHeight = 0 := by omega
  simp only [window, newRow, if_pos h, hold, hnew]

theorem window_newRow_of_le (h : screenHeight ≤ t.line + 1) (hi : i + 1 < screenHeight) :
    t.newRow.window i = t.window (i + 1) := by
  have hrow : t.line + 1 + 1 - screenHeight + i = t.line + 1 - screenHeight + (i + 1) := by omega
  have hne : t.line + 1 - screenHeight + (i + 1) ≠ t.line + 1 := by omega
  simp only [window, newRow, if_neg (Nat.not_lt.2 h), hrow, Function.update_of_ne hne]

theorem window_newRow_last (h : screenHeight ≤ t.line + 1) (hi : i + 1 = screenHeight) :
    t.newRow.window i = fun _ => ⟨space, t.fg, t.bg⟩ := by
  have hrow : t.line + 1 + 1 - screenHeight + i = t.line + 1 := by omega
  simp only [window, newRow, if_neg (Nat.not_lt.2 h), hrow, Function.update_self]

end Terminal

namespace VgaConsole

variable {c c' : VgaConsole} {t : Terminal}

structure Page (c : VgaConsole) (t : Terminal) : Prop where
  cells : ∀ i < screenHeight, ∀ j < screenWidth,
    c.iomem (i * screenWidth + j : ℕ) = t.window i j
  line : c.cursorLine = (min t.line (screenHeight - 1) : ℕ)
  fg : c.globalFg = t.fg
  bg : c.globalBg = t.bg

structure Shows (c : VgaConsole) (t : Terminal) : Prop extends Page c t where
  column : c.cursorColumn = t.column
  column_lt : t.column < screenWidth

theorem scrollRows_eq {rows : ℕ} (hrows : rows < screenHeight) (iomem : ℤ → Cell) :
    scrollRows rows iomem = .ok fun k =>
      if 0 ≤ k ∧ k < rows * screenWidth then iomem (k + screenWidth) else iomem k := by
  induction rows with
  | zero =>
    have hempty : ∀ k : ℤ, ¬ (0 ≤ k ∧ k < (0 : ℕ) * screenWidth) := by
      intro k
      omega
    simp only [hempty, if_false]
    rfl
  | succ rows ih =>
    have hsize : ((rows : ℤ) + 1) * screenWidth + screenWidth ≤ cells := by
      simp only [cells, screenHeight, screenWidth] at hrows ⊢
      omega
    rw [scrollRows, List.range_succ, List.foldlM_append, ← scrollRows, ih (by omega)]
    simp only [List.foldlM_cons, List.foldlM_nil, bind, Except.bind]
    rw [copyN_eq _ (by positivity) (by simp only [screenWidth]; omega) hsize]
    simp only [pure, Except.pure, Except.ok.injEq]
    funext k
    -- row `rows` now holds what row `rows + 1` held; the rows above were moved before
    by_cases hrow : (rows : ℤ) * screenWidth ≤ k ∧ k < (rows : ℤ) * screenWidth + screenWidth
    · have hfrom : k - (rows : ℤ) * screenWidth + (rows + 1) * screenWidth = k + screenWidth := by
        ring
      have hbelow : ¬ (0 ≤ k + (screenWidth : ℤ) ∧ k + screenWidth < (rows : ℤ) * screenWidth) := by
        omega
      have hin : 0 ≤ k ∧ k < ((rows + 1 : ℕ) : ℤ) * screenWidth := by
        simp only [screenWidth] at hrow ⊢
        omega
      rw [if_pos hrow, hfrom, if_neg hbelow, if_pos hin]
    · have hother : (0 ≤ k ∧ k < (rows : ℤ) * screenWidth) ↔
          (0 ≤ k ∧ k < ((rows + 1 : ℕ) : ℤ) * screenWidth) := by
        simp only [screenWidth] at hrow ⊢
        omega
      rw [if_neg hrow]
      simp only [hother]

def scrolled (c : VgaConsole) (k : ℤ) : Cell :=
  if 24 * 80 ≤ k ∧ k < 25 * 80 then ⟨space, c.globalFg, c.globalBg⟩
  else if 0 ≤ k ∧ k < 24 * 80 then c.iomem (k + 80) else c.iomem k

theorem scroll_eq (c : VgaConsole) : scroll c = .ok { c with iomem := c.scrolled } := by
  rw [scroll, scrollRows_eq (by decide)]
  simp only [bind, Except.bind]
  rw [fillN_eq _ _ (by decide) (by decide)]
  rfl

theorem scrolled_of_lt (c : VgaConsole) {i j : ℕ} (hi : i + 1 < screenHeight)
    (hj : j < screenWidth) :
    c.scrolled (i * screenWidth + j : ℕ) = c.iomem ((i + 1) * screenWidth + j : ℕ) := by
  simp only [screenHeight, screenWidth] at hi hj ⊢
  have hrow : ¬ (24 * 80 ≤ ((i * 80 + j : ℕ) : ℤ) ∧ ((i * 80 + j : ℕ) : ℤ) < 25 * 80) := by omega
  have hin : 0 ≤ ((i * 80 + j : ℕ) : ℤ) ∧ ((i * 80 + j : ℕ) : ℤ) < 24 * 80 := by omega
  rw [scrolled, if_neg hrow, if_pos hin]
  congr 1
  omega

theorem scrolled_last (c : VgaConsole) {i j : ℕ} (hi : i + 1 = screenHeight)
    (hj : j < screenWidth) :
    c.scrolled (i * screenWidth + j : ℕ) = ⟨space, c.globalFg, c.globalBg⟩ := by
  simp only [screenHeight, screenWidth] at hi hj ⊢
  have hrow : 24 * 80 ≤ ((i * 80 + j : ℕ) : ℤ) ∧ ((i * 80 + j : ℕ) : ℤ) < 25 * 80 := by omega
  rw [scrolled, if_pos hrow]

theorem Page.lineBreak_of_lt (h : Page c t) (hline : t.line + 1 < screenHeight) :
    ∃ c', lineBreak c = .ok c' ∧ Shows c' t.newRow := by
  have hcursor : c.cursorLine = t.line := by
    rw [h.line]
    simp only [screenHeight] at hline ⊢
    omega
  have hne : ¬ c.cursorLine + 1 = (screenHeight : ℤ) := by
    rw [hcursor]
    omega
  refine ⟨{ c with cursorLine := c.cursorLine + 1, cursorColumn := 0 }, ?_, ?_⟩
  · simp only [lineBreak, newLine, if_neg hne]
    rfl
  · refine ⟨⟨?_, ?_, h.fg, h.bg⟩, rfl, Nat.zero_lt_succ 79⟩
    · intro i hi j hj
      rw [Terminal.window_newRow_of_lt hline]
      exact h.cells i hi j hj
    · simp only [hcursor, Terminal.newRow]
      simp only [screenHeight] at hline ⊢
      omega

theorem Page.lineBreak_of_le (h : Page c t) (hline : screenHeight ≤ t.line + 1) :
    ∃ c', lineBreak c = .ok c' ∧ Shows c' t.newRow := by
  have hlast : c.cursorLine + 1 = (screenHeight : ℤ) := by
    rw [h.line]
    simp only [screenHeight] at hline ⊢
    omega
  refine ⟨{ c with iomem := c.scrolled, cursorLine := screenHeight - 1, cursorColumn := 0 }, ?_, ?_⟩
  · simp only [lineBreak, newLine, if_pos hlast, scroll_eq]
    rfl
  · refine ⟨⟨?_, ?_, h.fg, h.bg⟩, rfl, Nat.zero_lt_succ 79⟩
    · intro i hi j hj
      rcases Nat.lt_or_eq_of_le (Nat.succ_le_of_lt hi) with hlt | heq
      · rw [Terminal.window_newRow_of_le hline hlt]
        exact (scrolled_of_lt c hlt hj).trans (h.cells (i + 1) hlt j hj)
      · rw [Terminal.window_newRow_last hline heq, ← h.fg, ← h.bg]
        exact scrolled_last c heq hj
    · simp only [Terminal.newRow]
      simp only [screenHeight] at hline ⊢
      omega

theorem Page.lineBreak (h : Page c t) :
    ∃ c', lineBreak c = .ok c' ∧ Shows c' t.newRow := by
  rcases lt_or_ge (t.line + 1) screenHeight with hline | hline
  · exact h.lineBreak_of_lt hline
  · exact h.lineBreak_of_le hline

theorem window_ink (cell : Cell) {i j : ℕ} (hi : i < screenHeight) :
    (t.ink cell).window i j =
      if i = min t.line (screenHeight - 1) ∧ j = t.column then cell else t.window i j := by
  have hrow : t.line + 1 - screenHeight + i = t.line ↔ i = min t.line (screenHeight - 1) := by
    simp only [screenHeight] at hi ⊢
    omega
  simp only [Terminal.window, Terminal.ink, Function.update_apply, hrow]
  by_cases hline : i = min t.line (screenHeight - 1)
  · rw [if_pos hline, hrow.2 hline, Function.update_apply]
    simp only [hline, true_and]
  · simp only [hline, false_and, if_false]

theorem Shows.cursorAddress_eq (h : Shows c t) :
    c.cursorAddress = (min t.line (screenHeight - 1) * screenWidth + t.column : ℕ) := by
  rw [cursorAddress, h.line, h.column]
  push_cast
  rfl

theorem Shows.store (h : Shows c t) (cell : Cell) :
    ∃ iomem, store VgaConsole.cells c.iomem c.cursorAddress cell = .ok iomem ∧
      Page { c with iomem := iomem } (t.ink cell) := by
  have hcolumn := h.column_lt
  refine ⟨Function.update c.iomem c.cursorAddress cell, ?_, ?_, h.line, h.fg, h.bg⟩
  · rw [h.cursorAddress_eq]
    apply store_eq (by positivity)
    simp only [VgaConsole.cells, screenHeight, screenWidth] at hcolumn ⊢
    omega
  · intro i hi j hj
    have hcell : ((i * screenWidth + j : ℕ) : ℤ) = c.cursorAddress ↔
        i = min t.line (screenHeight - 1) ∧ j = t.column := by
      rw [h.cursorAddress_eq]
      simp only [screenHeight, screenWidth] at hi hj hcolumn ⊢
      omega
    rw [window_ink cell hi, ← h.cells i hi j hj]
    simp only [Function.update_apply, hcell]

theorem Shows.putcColor (h : Shows c t) (symbol : UInt8) (fg bg : Color) :
    ∃ c', putcColor symbol fg bg c = .ok c' ∧ Shows c' (t.put symbol fg bg) := by
  rw [VgaConsole.putcColor, Terminal.put]
  by_cases hlf : symbol = lf
  · rw [if_pos hlf, if_pos hlf]
    exact h.toPage.lineBreak
  rw [if_neg hlf, if_neg hlf]
  by_cases hcr : symbol = cr
  · rw [if_pos hcr, if_pos hcr]
    exact ⟨_, rfl, ⟨h.cells, h.line, h.fg, h.bg⟩, rfl, Nat.zero_lt_succ 79⟩
  rw [if_neg hcr, if_neg hcr]
  obtain ⟨iomem, hstore, hpage⟩ := h.store ⟨symbol, fg, bg⟩
  simp only [hstore, bind, Except.bind, cursorNext, Terminal.write]
  have hfull : c.cursorColumn + 1 = (screenWidth : ℤ) ↔
      (t.ink ⟨symbol, fg, bg⟩).column = screenWidth := by
    rw [h.column]
    simp only [Terminal.ink]
    omega
  by_cases hwidth : (t.ink ⟨symbol, fg, bg⟩).column = screenWidth
  · rw [if_pos (hfull.2 hwidth), if_pos hwidth]
    have hnext : Page { c with iomem := iomem, cursorColumn := c.cursorColumn + 1 }
        (t.ink ⟨symbol, fg, bg⟩) := ⟨hpage.cells, hpage.line, hpage.fg, hpage.bg⟩
    exact hnext.lineBreak
  · rw [if_neg (mt hfull.1 hwidth), if_neg hwidth]
    refine ⟨_, rfl, ⟨hpage.cells, hpage.line, hpage.fg, hpage.bg⟩, ?_, ?_⟩
    · simp only [h.column, Terminal.ink, Nat.cast_add, Nat.cast_one]
    · have hlt := h.column_lt
      simp only [Terminal.ink] at hwidth ⊢
      omega

theorem Shows.putsColor (h : Shows c t) (fg bg : Color) (string : List UInt8) :
    ∃ c', putsColor fg bg string c = .ok c' ∧ Shows c' (t.putAll fg bg string) := by
  induction string generalizing c t with
  | nil => exact ⟨c, rfl, h⟩
  | cons symbol string ih =>
    rw [VgaConsole.putsColor, Terminal.putAll]
    by_cases hzero : symbol = 0
    · rw [if_pos hzero, List.takeWhile_cons_of_neg (by simpa using hzero)]
      exact ⟨c, rfl, h⟩
    · rw [if_neg hzero, List.takeWhile_cons_of_pos (by simpa using hzero), List.foldl_cons]
      obtain ⟨c', hput, hshows⟩ := h.putcColor symbol fg bg
      simp only [hput, bind, Except.bind]
      exact ih hshows

theorem Shows.exec (h : Shows c t) (call : ConsoleCall) :
    ∃ c', call.exec c = .ok c' ∧ Shows c' (t.exec call) := by
  cases call with
  | putcColor symbol fg bg => exact h.putcColor symbol fg bg
  | putc symbol =>
    rw [ConsoleCall.exec, putc, h.fg, h.bg]
    exact h.putcColor symbol t.fg t.bg
  | putsColor string fg bg => exact h.putsColor fg bg string
  | puts string =>
    rw [ConsoleCall.exec, puts, h.fg, h.bg]
    exact h.putsColor t.fg t.bg string
  | setFg fg => exact ⟨_, rfl, ⟨h.cells, h.line, rfl, h.bg⟩, h.column, h.column_lt⟩
  | setBg bg => exact ⟨_, rfl, ⟨h.cells, h.line, h.fg, rfl⟩, h.column, h.column_lt⟩

theorem Shows.run (h : Shows c t) (calls : List ConsoleCall) :
    ∃ c', c.run calls = .ok c' ∧ Shows c' (t.run calls) := by
  induction calls generalizing c t with
  | nil => exact ⟨c, rfl, h⟩
  | cons call calls ih =>
    obtain ⟨c₁, hcall, hshows⟩ := h.exec call
    obtain ⟨c', hrun, hlast⟩ := ih hshows
    refine ⟨c', ?_, hlast⟩
    rw [VgaConsole.run, List.foldlM_cons, hcall]
    exact hrun

structure OnScreen (c : VgaConsole) : Prop where
  line : 0 ≤ c.cursorLine ∧ c.cursorLine < screenHeight
  column : 0 ≤ c.cursorColumn ∧ c.cursorColumn < screenWidth

theorem Shows.onScreen (h : Shows c t) : OnScreen c := by
  have hcolumn := h.column_lt
  refine ⟨?_, ?_⟩
  · rw [h.line]
    simp only [screenHeight]
    omega
  · rw [h.column]
    omega

theorem OnScreen.exists_shows (h : OnScreen c) : ∃ t, Shows c t := by
  obtain ⟨line, hline⟩ := Int.eq_ofNat_of_zero_le h.line.1
  obtain ⟨column, hcolumn⟩ := Int.eq_ofNat_of_zero_le h.column.1
  have hlt : line < screenHeight := by
    have hscreen := h.line.2
    omega
  have hcolumn_lt : column < screenWidth := by
    have hscreen := h.column.2
    omega
  refine ⟨⟨fun i j => c.iomem (i * screenWidth + j : ℕ), line, column, c.globalFg, c.globalBg⟩,
    ⟨?_, ?_, rfl, rfl⟩, hcolumn, hcolumn_lt⟩
  · intro i hi j hj
    have htop : line + 1 - screenHeight = 0 := by omega
    simp only [Terminal.window, htop, Nat.zero_add]
  · have hmin : min line (screenHeight - 1) = line := by omega
    rw [hline, hmin]

theorem OnScreen.exec (h : OnScreen c) (call : ConsoleCall) :
    ∃ c', call.exec c = .ok c' ∧ OnScreen c' := by
  obtain ⟨t, hshows⟩ := h.exists_shows
  obtain ⟨c', hexec, hafter⟩ := hshows.exec call
  exact ⟨c', hexec, hafter.onScreen⟩

theorem clearScreen_shows (iomem : ℤ → Cell) (fg bg : Color) :
    ∃ c, clearScreen { iomem := iomem, globalFg := fg, globalBg := bg } = .ok c ∧
      Shows c (Terminal.cleared fg bg) := by
  refine ⟨{ iomem := fun k => if 0 ≤ k ∧ k < 0 + (25 * 80 : ℕ) then ⟨space, fg, bg⟩ else iomem k
            globalFg := fg, globalBg := bg }, ?_, ⟨?_, rfl, rfl, rfl⟩, rfl, Nat.zero_lt_succ 79⟩
  · rw [clearScreen, fillN_eq _ _ le_rfl (by decide)]
    rfl
  · intro i hi j hj
    simp only [screenHeight, screenWidth] at hi hj ⊢
    exact if_pos (by omega)

/-- From a cleared screen on, no sequence of calls leaves the frame buffer or moves the cursor
off the screen, and the screen shows the window of the terminal. -/
theorem run_refines_terminal (iomem : ℤ → Cell) (fg bg : Color) (calls : List ConsoleCall) :
    ∃ c, (clearScreen { iomem := iomem, globalFg := fg, globalBg := bg } >>= run calls) = .ok c ∧
      (0 ≤ c.cursorLine ∧ c.cursorLine < screenHeight) ∧
      (0 ≤ c.cursorColumn ∧ c.cursorColumn < screenWidth) ∧
      ∀ i < screenHeight, ∀ j < screenWidth, c.iomem (i * screenWidth + j : ℕ) =
        ((Terminal.cleared fg bg).run calls).window i j := by
  obtain ⟨c₀, hclear, hstart⟩ := clearScreen_shows iomem fg bg
  obtain ⟨c, hrun, hshows⟩ := hstart.run calls
  refine ⟨c, ?_, hshows.onScreen.line, hshows.onScreen.column, hshows.cells⟩
  rw [hclear]
  exact hrun

end VgaConsole

end Bolgenos
