import Codegen.Text.Hex
import Codegen.Text.Printable

/-!
Quoted text: a string between double quotes on one line. The quote and the backslash are escaped,
the common control characters have letters, and every other character that is not printable is
written by its number.
-/
namespace Codegen.Text

/-- The letter of a control character that has one. -/
def controlLetter? (c : Char) : Option Char :=
  match c.toNat with
  | 7 => some 'a'
  | 8 => some 'b'
  | 9 => some 't'
  | 10 => some 'n'
  | 11 => some 'v'
  | 12 => some 'f'
  | 13 => some 'r'
  | _ => none

/-- A character between quotes. -/
def quoteChar (c : Char) : String :=
  if c = '"' ∨ c = '\\' then String.ofList ['\\', c]
  else if isPrintable c then String.singleton c
  else match controlLetter? c with
    | some l => String.ofList ['\\', l]
    | none =>
      let n := c.toNat
      if n < 0x80 then "\\x" ++ hex 2 n
      else if n < 0x10000 then "\\u" ++ hex 4 n
      else "\\U" ++ hex 8 n

def quote (s : String) : String := "\"" ++ String.join (s.toList.map quoteChar) ++ "\""

end Codegen.Text
