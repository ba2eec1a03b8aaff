/-!
# TOML tables

A document is a tree of tables. How a table came about decides what may be added
to it later: a table with a header of its own and an inline table are complete, a
table that only longer headers imply may still get its header, and a table that
dotted keys made may get more dotted keys. A list of tables stands for its last
table wherever a path leads through it. No key is ever given twice.

Main statement: `find?_put`, a stored key is found.
-/

set_option autoImplicit false

namespace Regeneration.Toml

/-- What can be wrong with a TOML text. -/
inductive Error where
  | unexpectedEnd
  | unexpected (c : Char)
  | invalidEscape
  | invalidNumber
  | numberOutOfRange
  | tooDeep
  | duplicateKey (name : String)
  | notTable (name : String)
  | wrongType (name : String)
  deriving DecidableEq, Repr

/-- The text of an error. -/
def Error.message : Error → String
  | .unexpectedEnd => "unexpected end of input"
  | .unexpected c => s!"unexpected character '{c}'"
  | .invalidEscape => "invalid escape sequence"
  | .invalidNumber => "invalid number"
  | .numberOutOfRange => "number out of range"
  | .tooDeep => "recursion limit exceeded"
  | .duplicateKey name => s!"duplicate key `{name}`"
  | .notTable name => s!"key `{name}` is not a table"
  | .wrongType name => s!"invalid type for key `{name}`"

/-- How a table came about. -/
inductive Origin where
  /-- By a header of its own. -/
  | header
  /-- By the header of a table below it. -/
  | implied
  /-- By a dotted key. -/
  | dotted
  /-- Between braces. -/
  | inline
  deriving DecidableEq, Repr

/-- A value without parts. Numbers with a point and moments in time are only
known to be there. -/
inductive Scalar where
  | text (value : String)
  | integer (value : Int)
  | boolean (value : Bool)
  | real
  | moment
  deriving DecidableEq, Repr

/-- A node of a document. -/
inductive Node where
  | scalar (value : Scalar)
  | array (items : List Node)
  | table (origin : Origin) (entries : List (String × Node))
  /-- The tables of repeated double-bracket headers, in order. -/
  | tables (elements : List (List (String × Node)))

/-- The entries of a table in the order given. -/
abbrev Entries := List (String × Node)

/-- The node of a key. -/
def find? (key : String) (entries : Entries) : Option Node :=
  (entries.find? fun entry => entry.1 == key).map Prod.snd

/-- The entries with a key's node replaced, or added at the end. -/
def put (key : String) (node : Node) : Entries → Entries
  | [] => [(key, node)]
  | (other, held) :: rest =>
    if other == key then (key, node) :: rest else (other, held) :: put key node rest

/-- Adds a key that must be new. -/
def add (key : String) (node : Node) (entries : Entries) : Except Error Entries :=
  match find? key entries with
  | some _ => .error (.duplicateKey key)
  | none => .ok (put key node entries)

/-- Changes the last of a list of tables; an empty list does not occur. -/
def onLast (change : Entries → Except Error Entries) : List Entries → Except Error (List Entries)
  | [] => .ok []
  | [entries] => do
    let changed ← change entries
    .ok [changed]
  | entries :: rest => do
    let changed ← onLast change rest
    .ok (entries :: changed)

/-- Adds a key below a dotted path. The last table of the path must be one that
dotted keys made, or new; the tables before it may also be implied ones, and a
list of tables leads on through its last. -/
def addDotted (key : String) (node : Node) : List String → Entries → Except Error Entries
  | [], entries => add key node entries
  | step :: path, entries =>
    match find? step entries with
    | none => do
      let below ← addDotted key node path []
      .ok (put step (.table .dotted below) entries)
    | some (.table origin held) =>
      if origin = .dotted ∨ (origin = .implied ∧ path ≠ []) then do
        let below ← addDotted key node path held
        .ok (put step (.table origin below) entries)
      else .error (.duplicateKey step)
    | some (.tables elements) =>
      if path = [] then .error (.duplicateKey step)
      else do
        let changed ← onLast (addDotted key node path) elements
        .ok (put step (.tables changed) entries)
    | some _ => .error (.notTable step)

/-- Changes the table that a header's keys lead to. Missing tables on the way are
implied; a list of tables leads on through its last. -/
def atHeader (change : Entries → Except Error Entries) : List String → Entries →
    Except Error Entries
  | [], entries => change entries
  | step :: path, entries =>
    match find? step entries with
    | none => do
      let below ← atHeader change path []
      .ok (put step (.table .implied below) entries)
    | some (.table origin held) =>
      if origin = .inline then .error (.notTable step)
      else do
        let below ← atHeader change path held
        .ok (put step (.table origin below) entries)
    | some (.tables elements) => do
      let changed ← onLast (atHeader change path) elements
      .ok (put step (.tables changed) entries)
    | some _ => .error (.notTable step)

/-- Opens the table of a header. -/
def openTable (parents : List String) (key : String) (root : Entries) : Except Error Entries :=
  atHeader
    (fun entries =>
      match find? key entries with
      | none => .ok (put key (.table .header []) entries)
      | some (.table .implied held) => .ok (put key (.table .header held) entries)
      | some _ => .error (.duplicateKey key))
    parents root

/-- Opens a further table of a double-bracket header. -/
def openElement (parents : List String) (key : String) (root : Entries) : Except Error Entries :=
  atHeader
    (fun entries =>
      match find? key entries with
      | none => .ok (put key (.tables [[]]) entries)
      | some (.tables elements) => .ok (put key (.tables (elements ++ [[]])) entries)
      | some _ => .error (.duplicateKey key))
    parents root

/-- A stored key is found. -/
theorem find?_put (key : String) (node : Node) (entries : Entries) :
    find? key (put key node entries) = some node := by
  induction entries with
  | nil => simp [put, find?]
  | cons entry rest ih =>
      obtain ⟨other, held⟩ := entry
      rw [put]
      split
      · simp [find?]
      · next h => simpa [find?, h] using ih

end Regeneration.Toml
