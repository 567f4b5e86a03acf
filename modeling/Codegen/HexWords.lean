import Codegen.Text.Hex

/-!
Code as text: 32-bit words, the most significant byte first, and then the bytes that do not fill a
word one by one.
-/
namespace Codegen

/-- The digits of every word of the code, and the bytes after the last word. -/
def splitWords : List UInt8 → List (List Char) × List UInt8
  | a :: b :: c :: d :: rest =>
    let (words, tail) := splitWords rest
    ([d, c, b, a].flatMap Text.byteDigits :: words, tail)
  | tail => ([], tail)

/-- The words, separated by blanks, and then the remaining bytes, each after a blank. -/
def hexWordChars (code : List UInt8) : List Char :=
  let (words, tail) := splitWords code
  [' '].intercalate words ++ tail.flatMap fun b => ' ' :: Text.byteDigits b

def hexWords (code : List UInt8) : String := String.ofList (hexWordChars code)

end Codegen
