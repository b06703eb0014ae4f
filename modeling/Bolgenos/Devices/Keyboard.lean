import Bolgenos.Machine

/-!
# Keys of the keyboard

The keys in the order of the source, whose position in the enumeration is their number,
the characters they print, and the table that maps one-byte scan codes of code set 2 to
keys.
-/

namespace Bolgenos

/-- `kb_key`; `none` is the number 0, which stands for no key. -/
inductive KbKey where
  | none | f1 | f2 | f3 | f4 | f5 | f6 | f7 | f8 | f9 | f10 | f11 | f12 | tab | backspace | lalt
  | lshift | lctrl | ralt | rshift | rctrl | backTick | digit0 | digit1 | digit2 | digit3
  | digit4 | digit5 | digit6 | digit7 | digit8 | digit9 | letterA | letterB | letterC | letterD
  | letterE | letterF | letterG | letterH | letterI | letterJ | letterK | letterL | letterM
  | letterN | letterO | letterP | letterQ | letterR | letterS | letterT | letterU | letterV
  | letterW | letterX | letterY | letterZ | space | comma | dot | slash | semicolon | minus
  | apos | sqbracketl | equal | enter | sqbracketr | backslash | num0 | num1 | num2 | num3 | num4
  | num5 | num6 | num7 | num8 | num9 | numDot | numPlus | numMinus | numStar | numSlash
  | numEnter | escape | capslock | numlock | scrolllock | acpiSleep | acpiPower | acpiWake
  | cursorUp | cursorDown | cursorRight | cursorLeft | mmWwwSearch | mmPrevTrack | mmWwwFav
  | mmWwwRefresh | mmVoldown | mmMute | mmWwwStop | mmCalc | mmWwwForward | mmVolUp | mmPlaypause
  | mmWwwBack | mmWwwHome | mmStop | mmMycomp | mmEmail | mmNextTrack | mmSelect | endKey | home
  | pageDown | pageUp | lgui | rgui | apps | insert | delete | printScreen | pause
  deriving DecidableEq, Repr

namespace KbKey

def max : ℕ := 126

def num (key : KbKey) : ℕ := key.ctorIdx

def all : List KbKey := (List.range max).map KbKey.ofNat

def isLetter (key : KbKey) : Bool := letterA.num ≤ key.num ∧ key.num ≤ letterZ.num

def isDigit (key : KbKey) : Bool := digit0.num ≤ key.num ∧ key.num ≤ digit9.num

/-- The character of a key, or `none` where the source returns the character 0. -/
def toPrintableKey (key : KbKey) : Option Char :=
  if key.isLetter then some (Char.ofNat ('a'.toNat + (key.num - letterA.num)))
  else if key.isDigit then some (Char.ofNat ('0'.toNat + (key.num - digit0.num)))
  else match key with
    | space => some ' '
    | backTick => some '\x60'
    | comma => some ','
    | dot => some '.'
    | slash => some '/'
    | semicolon => some ';'
    | minus => some '-'
    | apos => some '\x27'
    | sqbracketl => some '['
    | equal => some '='
    | enter => some '\n'
    | sqbracketr => some ']'
    | backslash => some '\x5c'
    | _ => Option.none

end KbKey

def applyLshift (sym : Char) : Char :=
  if 'a' ≤ sym ∧ sym ≤ 'z' then Char.ofNat ('A'.toNat + (sym.toNat - 'a'.toNat))
  else match sym with
    | '0' => ')'
    | '1' => '!'
    | '2' => '@'
    | '3' => '#'
    | '4' => '$'
    | '5' => '%'
    | '6' => '^'
    | '7' => '&'
    | '8' => '*'
    | '9' => '('
    | '\x60' => '~'
    | ',' => '<'
    | '.' => '>'
    | '/' => '?'
    | ';' => ':'
    | '-' => '_'
    | '\x27' => '\x22'
    | '[' => '\x7b'
    | ']' => '\x7d'
    | '=' => '+'
    | '\x5c' => '|'
    | _ => sym

/-- `codeset2_1b_translation_table`; the entries behind the last row are 0. -/
def codeset2Table : List KbKey :=
  [ -- rows of sixteen codes from 0x00 on
    .none, .f9, .none, .f5, .f3, .f1, .f2, .f12, .none, .f10, .f8, .f6, .none, .tab, .backTick,
    .none,
    .none, .lalt, .lshift, .none, .lctrl, .letterQ, .digit1, .none, .none, .none, .letterZ,
    .letterS, .letterA, .letterW, .digit2, .none,
    .none, .letterC, .letterX, .letterD, .letterE, .digit4, .digit3, .none, .none, .space,
    .letterV, .letterF, .letterT, .letterR, .digit5, .none,
    .none, .letterN, .letterB, .letterH, .letterG, .letterY, .digit6, .none, .none, .none,
    .letterM, .letterJ, .letterU, .digit7, .digit8, .none,
    .none, .comma, .letterK, .letterI, .letterO, .digit0, .digit9, .none, .none, .dot, .slash,
    .letterL, .semicolon, .letterP, .minus, .none,
    .none, .none, .apos, .none, .sqbracketl, .equal, .none, .none, .capslock, .rshift, .enter,
    .sqbracketr, .none, .backslash, .none, .none,
    .none, .none, .none, .none, .none, .none, .backspace, .none, .none, .num1, .none, .num4,
    .num7, .none, .none, .none,
    .num0, .numDot, .num2, .num5, .num6, .num8, .escape, .numlock, .f11, .numPlus, .num3,
    .numMinus, .numStar, .num9, .scrolllock, .none,
    .none, .none, .none, .f7, .none, .none, .none, .none, .none, .none, .none, .none, .none,
    .none, .none, .none]

def codeset2 (byte : BitVec 8) : KbKey := codeset2Table.getD byte.toNat .none

def codeset2ReleaseByte : BitVec 8 := 0xf0

end Bolgenos
