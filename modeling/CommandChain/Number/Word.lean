/-!
# Whole numbers of 64 bits

The bounds of whole numbers of 64 bits with a sign and without one. -/

namespace CommandChain.Number

/-- Two to the power of 63: the least number above those of 64 bits with a sign. -/
def integerLimit : Int := 9223372036854775808

/-- Two to the power of 64: the least number above those of 64 bits without a sign. -/
def wordLimit : Int := 18446744073709551616

end CommandChain.Number
