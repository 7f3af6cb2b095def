import ValueStream.Text.Fields

/-!
Files and directories as a map from places to contents.

A path is looked up from its first component on: every component before the
last must be a directory. Opening, creating and writing fail with the faults
that an operating system reports for them.

A tool asks no more of files than a `Storage` gives: these files, or those of the
system that it runs on.
-/

namespace ValueStream.Tool

inductive Fault where
  | notFound
  | notDirectory
  | isDirectory
  | noSpace
  | nameTooLong
  /-- Any other fault, by its number and its reason. -/
  | other (code : Nat) (reason : String)
  deriving DecidableEq

namespace Fault

/-- The number by which the system reports the fault. -/
def code : Fault → Nat
  | notFound => 2
  | notDirectory => 20
  | isDirectory => 21
  | noSpace => 28
  | nameTooLong => 36
  | other code _ => code

def reason : Fault → String
  | notFound => "No such file or directory"
  | notDirectory => "Not a directory"
  | isDirectory => "Is a directory"
  | noSpace => "No space left on device"
  | nameTooLong => "File name too long"
  | other _ reason => reason

def message (f : Fault) : String := f.reason ++ " (os error " ++ f.code.repr ++ ")"

end Fault

/-- Where files are kept, and what can be asked of them: to open one and read all of it,
to make one and write all of it. -/
structure Storage (m : Type → Type) where
  /-- A file that is open for reading. -/
  Input : Type
  /-- A file that is open for writing. -/
  Output : Type
  openInput : String → m (Except Fault Input)
  readAll : Input → m (Except Fault (Array UInt8))
  create : String → m (Except Fault Output)
  write : Output → Array UInt8 → m (Except Fault Unit)

/-- A place: the components from the working directory, or from the root
behind a first component `/`. -/
abbrev Place := List String

inductive Entry where
  | file (bytes : Array UInt8)
  | directory
  /-- A device that is empty and takes everything. -/
  | nullDevice
  /-- A device that takes nothing. -/
  | fullDevice
  deriving DecidableEq

/-- What there is. The working directory and the root are always there. -/
structure Files where
  entries : List (Place × Entry)
  deriving DecidableEq

namespace Files

def at? (files : Files) (place : Place) : Option Entry :=
  if place = [] ∨ place = ["/"] then some .directory else files.entries.lookup place

/-- Put an entry at a place, in the stead of what was there. -/
def put (files : Files) (place : Place) (entry : Entry) : Files :=
  ⟨(place, entry) :: files.entries.filter (fun e => e.1 ≠ place)⟩

/-- The place above; above the topmost place there is nothing more. -/
def parent (place : Place) : Place :=
  match place with
  | [] => []
  | ["/"] => ["/"]
  | place => place.dropLast

/-- Follow components from a place that must be a directory. The last place
need not exist. -/
def follow (files : Files) : Place → List String → Except Fault Place
  | place, [] => .ok place
  | place, name :: names =>
    match files.at? place with
    | none => .error .notFound
    | some .directory =>
      if name = "." then follow files place names
      else if name = ".." then follow files (parent place) names
      else if 255 < name.utf8ByteSize then .error .nameTooLong
      else follow files (place ++ [name]) names
    | some _ => .error .notDirectory

/-- The components of a path; those that are empty do not count. -/
def components (path : String) : List String :=
  ((Text.split '/' path.toList).filter (fun part => !part.isEmpty)).map String.ofList

/-- Whether a path asks for a directory by its end. -/
def asksDirectory (path : String) : Bool := path.toList.getLast? == some '/'

/-- The place that a path of less than 4096 bytes leads to. -/
def locate (files : Files) (path : String) : Except Fault Place :=
  if path.isEmpty then .error .notFound
  else if 4096 ≤ path.utf8ByteSize then .error .nameTooLong
  else
    let start : Place := if path.toList.head? == some '/' then ["/"] else []
    follow files start (components path)

def openEntry (files : Files) (path : String) : Except Fault Entry :=
  match files.locate path with
  | .error fault => .error fault
  | .ok place =>
    match files.at? place with
    | none => .error .notFound
    | some .directory => .ok .directory
    | some entry => if asksDirectory path then .error .notDirectory else .ok entry

def bytesOf : Entry → Except Fault (Array UInt8)
  | .file bytes => .ok bytes
  | .directory => .error .isDirectory
  | .nullDevice => .ok #[]
  | .fullDevice => .ok #[]

/-- The bytes of the file that a path leads to. -/
def read (files : Files) (path : String) : Except Fault (Array UInt8) :=
  (files.openEntry path).bind bytesOf

/-- Make an empty file, or empty the one that is there; devices stay. -/
def create (files : Files) (path : String) : Except Fault (Place × Files) :=
  match files.locate path with
  | .error fault => .error fault
  | .ok place =>
    match files.at? place with
    | none =>
      if asksDirectory path then .error .isDirectory else .ok (place, files.put place (.file #[]))
    | some .directory => .error .isDirectory
    | some (.file _) =>
      if asksDirectory path then .error .notDirectory else .ok (place, files.put place (.file #[]))
    | some _ => if asksDirectory path then .error .notDirectory else .ok (place, files)

def write (files : Files) (place : Place) (bytes : Array UInt8) : Except Fault Files :=
  match files.at? place with
  | some .nullDevice => .ok files
  | some .fullDevice => if bytes.isEmpty then .ok files else .error .noSpace
  | _ => .ok (files.put place (.file bytes))

/-- A change of the files, or a fault that leaves them as they are. -/
def change {α : Type} (act : Files → Except Fault (α × Files)) : StateM Files (Except Fault α) :=
  fun files =>
    match act files with
    | .error fault => (.error fault, files)
    | .ok (a, after) => (.ok a, after)

/-- The files as a storage. -/
def storage : Storage (StateM Files) where
  Input := Entry
  Output := Place
  openInput path := return (← get).openEntry path
  readAll entry := pure (bytesOf entry)
  create path := change (fun files => files.create path)
  write place bytes := change (fun files => (files.write place bytes).map (((), ·)))

end Files

end ValueStream.Tool
