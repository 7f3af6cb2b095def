/-!
Sizes the two codecs and the buffer agree on.
-/

namespace ValueStream.Limits

/-- Tokens of the longest sparse integer: 32 bits in groups of six. -/
def sparseTokens : Nat := 6

/-- Bytes of the longest dense integer: 32 bits in groups of seven. -/
def denseBytes : Nat := 5

/-- Bytes of the longest integer under either codec. -/
def encodedBytes : Nat := max sparseTokens denseBytes

/-- Least capacity a buffer grows to: room for two integers of the longest form. -/
def leastGrowth : Nat := 2 * encodedBytes

/-- How much larger a buffer becomes when it is full. -/
def growthFactor : Nat := 2

/-- Capacity of a fresh buffer when none is asked for. -/
def initialCapacity : Nat := 64

end ValueStream.Limits
