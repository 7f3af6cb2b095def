import ValueStream.Decimal.Layout
import ValueStream.Json.Number
import ValueStream.Json.Reader

/-!
What is left to a JSON library.

Which documents stand for values and schemas is a matter of theirs. How a
floating number is written, which document a text is and what a number in it is
worth is a matter of the library that writes and reads the texts.
-/

namespace ValueStream.Json

structure Library where
  /-- How finite floats are written. -/
  single : Decimal.Layout
  /-- How finite doubles are written. -/
  double : Decimal.Layout
  /-- The document that a whole text is. -/
  document? : List Char → Option Document
  /-- What a number is worth, if it is in range. -/
  worth? : Number → Option Worth

end ValueStream.Json
