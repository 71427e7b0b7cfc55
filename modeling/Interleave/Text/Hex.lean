/-!
# Interleave.Text.Hex

Numbers in lower-case hexadecimal digits, filled up with zeros to a width.
-/

namespace Interleave

def hexText (width n : Nat) : String :=
  let digits := Nat.toDigits 16 n
  String.ofList (List.replicate (width - digits.length) '0' ++ digits)

end Interleave
