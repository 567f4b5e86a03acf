/-!
Digits: hexadecimal text in lower case, numbers with a sign, and padding.
-/
namespace Codegen.Text

/-- The digits of `n` in base 16, at least `width` of them. -/
def hex (width n : Nat) : String :=
  let digits := Nat.toDigits 16 n
  String.ofList (List.replicate (width - digits.length) '0' ++ digits)

def byteDigits (b : UInt8) : List Char :=
  [Nat.digitChar (b.toNat / 16), Nat.digitChar (b.toNat % 16)]

/-- Bytes one after the other, without separators. -/
def hexBytes (bs : List UInt8) : String := String.ofList (bs.flatMap byteDigits)

/-- A number with its sign, also when it is not negative. -/
def signed (v : Int) : String := if v < 0 then toString v else "+" ++ toString v

/-- A text followed by blanks up to a least width. -/
def padRight (width : Nat) (s : String) : String :=
  s ++ String.ofList (List.replicate (width - s.length) ' ')

end Codegen.Text
