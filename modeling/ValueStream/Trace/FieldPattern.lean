import ValueStream.Decimal.Numeral
import ValueStream.Regular.Expression

/-!
Which texts a field's value can be compared with: floating numbers, whole ones
among them, and regular expressions.
-/

namespace ValueStream.Trace.FieldPattern

/-- Whether the text is a floating number, with a sign or without. -/
def isNumber (cs : List Char) : Bool :=
  let cs := match cs with
    | '+' :: cs => cs
    | '-' :: cs => cs
    | cs => cs
  (Decimal.ofText? cs).isSome ||
    ["inf", "infinity", "nan"].any (fun name => Text.sameLetters cs name.toList)

/-- Whether a field's value can be compared with the text. -/
def isValid (cs : List Char) : Bool := isNumber cs || Regular.isExpression cs

example : ["+5", "-inf", ".5", "a+", "(?i)"].all (fun s => isValid s.toList) = true := by
  decide +kernel

example : ["+", "+a", "*"].any (fun s => isValid s.toList) = false := by decide +kernel

end ValueStream.Trace.FieldPattern
