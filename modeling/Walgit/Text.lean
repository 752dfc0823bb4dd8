import Mathlib.Data.String.Basic

/-!
# Text and time rendering

String operations of the host language's standard library that error messages,
blank checks and mention scanning rely on. Character classes that need the full
Unicode tables are taken as data.
-/
namespace Text

/-- Character properties read from the Unicode tables. -/
class CharTables where
  isAlphanumeric : Char → Bool
  /-- Characters that debug formatting prints as a code point escape. -/
  escapesInDebug : Char → Bool

/-- The tables restricted to ASCII text. -/
@[reducible] def asciiTables : CharTables where
  isAlphanumeric := Char.isAlphanum
  escapesInDebug c := decide (c.toNat < 32 ∨ c.toNat = 127)

/-- The `White_Space` property. -/
def isWhitespace (c : Char) : Bool :=
  let n := c.toNat
  decide ((9 ≤ n ∧ n ≤ 13) ∨ n = 0x20 ∨ n = 0x85 ∨ n = 0xA0 ∨ n = 0x1680 ∨
    (0x2000 ≤ n ∧ n ≤ 0x200A) ∨ n = 0x2028 ∨ n = 0x2029 ∨ n = 0x202F ∨ n = 0x205F ∨ n = 0x3000)

/-- `s.trim().is_empty()`. -/
def isBlank (s : String) : Bool := s.toList.all isWhitespace

def isAsciiHexDigit (c : Char) : Bool :=
  c.isDigit || (decide ('a' ≤ c) && decide (c ≤ 'f')) || (decide ('A' ≤ c) && decide (c ≤ 'F'))

def toAsciiLowercase (s : String) : String := String.ofList (s.toList.map Char.toLower)

theorem toAsciiLowercase_idem (s : String) :
    toAsciiLowercase (toAsciiLowercase s) = toAsciiLowercase s := by
  have hchar : ∀ c : Char, c.toLower.toLower = c.toLower := by
    intro c
    delta Char.toLower
    grind
  simp [toAsciiLowercase, Function.comp_def, hchar]

def startsWith (p s : String) : Bool := p.toList.isPrefixOf s.toList

def endsWith (p s : String) : Bool := p.toList.isSuffixOf s.toList

/-- Forty times the same digit, as an object id. -/
def repeated (c : Char) : String := String.ofList (List.replicate 40 c)

def contains (p s : String) : Bool := s.toList.tails.any p.toList.isPrefixOf

section Debug

variable [CharTables]

def escapeDebug (c : Char) : String :=
  if c = '"' then "\\\""
  else if c = '\\' then "\\\\"
  else if c = '\n' then "\\n"
  else if c = '\r' then "\\r"
  else if c = '\t' then "\\t"
  else if c.toNat = 0 then "\\0"
  else if CharTables.escapesInDebug c then
    "\\u\x7b" ++ String.ofList (Nat.toDigits 16 c.toNat) ++ "\x7d"
  else c.toString

/-- The `{:?}` form of a string. -/
def debug (s : String) : String := "\"" ++ String.join (s.toList.map escapeDebug) ++ "\""

end Debug

/-- Decimal digits padded on the left with zeros. -/
def pad (width n : ℕ) : String :=
  let digits := (toString n).toList
  String.ofList (List.replicate (width - digits.length) '0' ++ digits)

/-- Year, month and day of a day count since 1970-01-01 in the proleptic Gregorian calendar. -/
def civil (days : ℕ) : ℕ × ℕ × ℕ :=
  let z := days + 719468
  let era := z / 146097
  let doe := z % 146097
  let yoe := (doe - doe / 1460 + doe / 36524 - doe / 146096) / 365
  let doy := doe - (365 * yoe + yoe / 4 - yoe / 100)
  let mp := (5 * doy + 2) / 153
  let day := doy - (153 * mp + 2) / 5 + 1
  let month := if mp < 10 then mp + 3 else mp - 9
  let year := yoe + era * 400
  (if month ≤ 2 then year + 1 else year, month, day)

/-- `YYYY-MM-DDTHH:MM:SS` of a second count since the epoch. -/
def dateTime (secs : ℕ) : String :=
  let (y, m, d) := civil (secs / 86400)
  let t := secs % 86400
  (if y ≤ 9999 then pad 4 y else "+" ++ pad 5 y) ++ "-" ++ pad 2 m ++ "-" ++ pad 2 d ++ "T" ++
    pad 2 (t / 3600) ++ ":" ++ pad 2 (t / 60 % 60) ++ ":" ++ pad 2 (t % 60)

/-- `to_rfc3339_opts(SecondsFormat::Secs, true)` of a second count. -/
def rfc3339Secs (secs : ℕ) : String := dateTime secs ++ "Z"

/-- `to_rfc3339` of a nanosecond count: the shortest of 0, 3, 6 or 9 fraction digits. -/
def rfc3339 (ns : ℕ) : String :=
  let frac := ns % 1000000000
  dateTime (ns / 1000000000) ++
    (if frac = 0 then ""
    else if frac % 1000000 = 0 then "." ++ pad 3 (frac / 1000000)
    else if frac % 1000 = 0 then "." ++ pad 6 (frac / 1000)
    else "." ++ pad 9 frac) ++ "+00:00"

end Text
