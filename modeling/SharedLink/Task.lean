import SharedLink.Fault

/-!
# SharedLink.Task

Tasks of a workflow and the files they exchange.

A task names its parents and children by their ids; the workflow that owns it
resolves them.  Planning gives it a slot and a rank, the runtime a host.
-/

namespace SharedLink

/-- Which way a file goes. -/
inductive FileKind where
  | input
  | output
deriving DecidableEq, Repr

namespace FileKind

/-- A kind of file as it is given: by a number, by a text, or not at all. -/
inductive Given where
  | code (n : Int)
  | text (s : String)
  | absent
deriving DecidableEq, Repr

/-- What was given, as text. -/
def Given.write : Given → String
  | code n => Decimal.ofInt n
  | text s => Text.quoted s
  | absent => "None"

/-- Input files are number one and output files number two; nothing else is a kind. -/
def ofGiven : Given → Except Fault FileKind
  | .code 1 => .ok .input
  | .code 2 => .ok .output
  | given => .error (.noFileKind given.write)

/-- The name of a kind. -/
def write : FileKind → String
  | input => "INPUT"
  | output => "OUTPUT"

end FileKind

/-- A file attached to a task; its size is in bytes and not negative. -/
structure FileItem where
  name : String
  size : Quantity
  kind : FileKind
  size_nonneg : size.isNegative = false := by decide
deriving DecidableEq, Repr

namespace FileItem

/-- A file, if its size is not negative and its kind is one; the size counts first. -/
def make (name : String) (size : Quantity) (given : FileKind.Given) : Except Fault FileItem :=
  if h : size.isNegative = true then .error (.negativeSize size)
  else do
    let kind ← FileKind.ofGiven given
    return { name, size, kind, size_nonneg := by simpa using h }

/-- A file in short. -/
def write (f : FileItem) : String :=
  "FileItem(" ++ Text.quoted f.name ++ ", " ++ f.size.write ++ ", " ++ f.kind.write ++ ")"

end FileItem

/-- When a task is planned to use the link: its input is sent from `sendStart` on,
its output is received from `receiveStart` to `receiveEnd`. -/
structure Slot (τ : Type) where
  sendStart : τ
  receiveStart : τ
  receiveEnd : τ
deriving DecidableEq, Repr

/-- A task: its demands, its place in the workflow, and what planning and the
runtime made of it.  A lower rank is a higher priority. -/
structure Task where
  id : Int
  length : Quantity
  cores : Quantity
  name : String
  label : Option String
  parents : List Int
  children : List Int
  files : List FileItem
  slot : Option (Slot Float)
  rank : Quantity
  host : Option String
deriving DecidableEq, Repr

namespace Task

/-- A task alone.  Without a name it is called after its id, and until it is
planned its rank is infinite. -/
def make (id : Int) (length cores : Quantity) (name label : Option String) : Task where
  id := id
  length := length
  cores := cores
  name := name.getD ("task_" ++ Decimal.ofInt id)
  label := label
  parents := []
  children := []
  files := []
  slot := none
  rank := .double (Binary64.infinity false)
  host := none

/-- The files that go into a task. -/
def inputFiles (t : Task) : List FileItem := t.files.filter (·.kind = .input)

/-- The files that come out of a task. -/
def outputFiles (t : Task) : List FileItem := t.files.filter (·.kind = .output)

/-- The bytes that come out of a task, unless they are beyond all range. -/
def outputSize (t : Task) : Except Fault Quantity :=
  match Quantity.sum? (t.outputFiles.map (·.size)) with
  | some size => .ok size
  | none => .error .overflow

/-- Whether a task is bound to a host. -/
def isBound (t : Task) : Bool := t.host.isSome

/-- Whether a task has a rank: a finite one, unless that is too wide to tell. -/
def isRanked (t : Task) : Except Fault Bool :=
  match t.rank.isFinite? with
  | some ranked => .ok ranked
  | none => .error .rankTooWide

/-- A task in short. -/
def write (t : Task) : String :=
  "Task(" ++ Decimal.ofInt t.id ++ ", " ++ Text.quoted t.name ++ ")"

end Task

end SharedLink
