import ValueStream.Trace.Filter

/-!
Events as lines of a log.
-/

namespace ValueStream.Trace

namespace FieldValue

def text : FieldValue → String
  | number n => n.repr
  | flag true => "true"
  | flag false => "false"

end FieldValue

namespace Event

/-- An event as a JSON object. Neither messages nor names hold a character
that would have to be escaped. -/
def json (e : Event) : String :=
  let fields := e.fields.map (fun f => ",\"" ++ f.1 ++ "\":" ++ f.2.text)
  "\x7b\"level\":\"" ++ e.level.label ++ "\",\"message\":\"" ++ e.message ++ "\""
    ++ String.join fields ++ "\x7d"

def plain (e : Event) : String :=
  let fields := e.fields.map (fun f => ", " ++ f.1 ++ ": " ++ f.2.text)
  "  " ++ e.level.label ++ " " ++ e.message ++ String.join fields

end Event

end ValueStream.Trace
