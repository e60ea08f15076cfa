import HolSearch.Text.Visible

/-!
# Quoted text

A text is quoted between double quotes.  Quotes and backslashes inside are written after a
backslash, so are the control characters with a letter of their own, and any other character that
does not stand for itself is written by its number.
-/

namespace HolSearch

/-- How a character is written inside quotes. -/
def escapeChar (c : Char) : String :=
  if c = '"' then "\\\""
  else if c = '\\' then "\\\\"
  else if c = '\n' then "\\n"
  else if c = '\r' then "\\r"
  else if c = '\t' then "\\t"
  else if c.toNat = 0 then "\\0"
  else if standsForItself c then c.toString
  else "\\u\x7b" ++ String.ofList (Nat.toDigits 16 c.toNat) ++ "\x7d"

/-- The text between double quotes. -/
def quoted (s : String) : String :=
  "\"" ++ s.foldl (fun acc c => acc ++ escapeChar c) "" ++ "\""

end HolSearch
