/-!
What a run reports about itself.

An `Event` is one thing that happened while bytes were written, moved or
decoded. Each event has a severity, a part of the library that reports it, a
fixed message, and named fields; a log shows it when its filter lets the
severity and the reporting part through. Reporting never changes a result.
-/

namespace ValueStream.Trace

/-- How urgent an event is, from least to most talkative. -/
inductive Level where
  | error
  | warn
  | info
  | debug
  | trace
  deriving DecidableEq

/-- The place of a level in the order `error < warn < info < debug < trace`. -/
def Level.rank : Level → Nat
  | .error => 1
  | .warn => 2
  | .info => 3
  | .debug => 4
  | .trace => 5

def Level.label : Level → String
  | .error => "ERROR"
  | .warn => "WARN"
  | .info => "INFO"
  | .debug => "DEBUG"
  | .trace => "TRACE"

/-- The part of the library that reports an event. -/
inductive Source where
  | buffer
  | sparse
  | dense
  | generate
  | dump
  deriving DecidableEq

inductive Event where
  /-- A buffer of `old` bytes becomes one of `new` bytes while `position` are committed. -/
  | growing (old new position : Nat)
  /-- `pendingBits` bits are padded to a byte, with `committed` bytes before it. -/
  | flushing (pendingBits committed : Nat)
  /-- A scope is given up: the committed length moves from `start` to `target`. -/
  | rollingBack (reporter : Source) (start target : Nat)
  /-- All records are encoded. -/
  | encoded (records bytes : Nat) (fromCsv : Bool)
  /-- Record `index` would start at or after the end of the input. -/
  | ranPastEnd (index offset : Nat)
  /-- Decoding stopped with the reader at `last` in an input of `length` bytes. -/
  | decodeFinished (last length : Nat)
  deriving DecidableEq

/-- The value of a named field. -/
inductive FieldValue where
  | number (n : Nat)
  | flag (b : Bool)
  deriving DecidableEq

namespace Event

def level : Event → Level
  | growing .. => .trace
  | flushing .. => .trace
  | rollingBack .. => .trace
  | encoded .. => .info
  | ranPastEnd .. => .warn
  | decodeFinished .. => .debug

def source : Event → Source
  | growing .. => .buffer
  | flushing .. => .sparse
  | rollingBack reporter .. => reporter
  | encoded .. => .generate
  | ranPastEnd .. => .dump
  | decodeFinished .. => .dump

def message : Event → String
  | growing .. => "growing write buffer"
  | flushing .. => "flushing partial byte"
  | rollingBack .. => "rolling back scope"
  | encoded .. => "encoded stream"
  | ranPastEnd .. => "ran past the end of the stream"
  | decodeFinished .. => "decode finished"

/-- The fields a log line carries besides level and message, in order. -/
def fields : Event → List (String × FieldValue)
  | growing old new position =>
    [("old", .number old), ("new", .number new), ("position", .number position)]
  | flushing pendingBits committed =>
    [("pending_bits", .number pendingBits), ("at", .number committed)]
  | rollingBack _ start target => [("from", .number start), ("to", .number target)]
  | encoded records bytes fromCsv =>
    [("records", .number records), ("bytes", .number bytes), ("from_csv", .flag fromCsv)]
  | ranPastEnd index offset => [("index", .number index), ("offset", .number offset)]
  | decodeFinished last length => [("end", .number last), ("len", .number length)]

/-- The names that conditions of a log are about: those of the fields, and the message. -/
def fieldNames (e : Event) : List String := "message" :: e.fields.map Prod.fst

end Event

end ValueStream.Trace
