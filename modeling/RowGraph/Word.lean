/-!
# Sizes of words

The bounds of numbers that are kept in a fixed number of bits, written out in digits.
-/

namespace RowGraph.Word

/-- Two to the power of 31. -/
def bound31 : Nat := 2147483648

/-- Two to the power of 32: a number of 32 bits is below it. -/
def bound32 : Nat := 4294967296

/-- Two to the power of 63: a number of 64 bits with a sign is below it. -/
def bound63 : Nat := 9223372036854775808

/-- Two to the power of 64: a number of 64 bits is below it. -/
def bound64 : Nat := 18446744073709551616

end RowGraph.Word
