import Regeneration.Toml.Scalar

/-!
# TOML documents

A document is read line by line: blank lines and comments, headers that open a
table, and keys with values. Keys may be dotted. Arrays may stretch over lines;
inline tables may not.

Arrays and inline tables may be open in one another up to a limit, and a dotted
key may not have more parts than that either.
-/

set_option autoImplicit false

namespace Regeneration.Toml

/-- One more than the number of arrays and inline tables that may be open, and
than the number of parts of a key. -/
def nestingLimit : Nat := 80

/-- The text behind a comment's characters. -/
def dropComment (text : List Char) : List Char := text.dropWhile isLineChar

/-- Passes blanks and a comment up to the end of the line. -/
def endLine (text : List Char) : Except Error (List Char) :=
  let rest := match dropBlanks text with
    | '#' :: rest => dropComment rest
    | rest => rest
  match rest with
  | [] => .ok []
  | rest =>
    match lineEnd? rest with
    | some rest => .ok rest
    | none => unexpected rest

/-- Passes blanks, line ends and comments; the number bounds the comments. -/
def skipLines : Nat → List Char → Except Error (List Char)
  | 0, text => .ok text
  | bound + 1, text =>
    match dropLines text with
    | '#' :: rest =>
      match lineEnd? (dropComment rest) with
      | some rest => skipLines bound rest
      | none => unexpected (dropComment rest)
    | rest => .ok rest

/-- The characters of a bare key. -/
def isKeyChar (c : Char) : Bool :=
  ('A' ≤ c && c ≤ 'Z') || ('a' ≤ c && c ≤ 'z') || isDigit c || c == '-' || c == '_'

/-- Reads one part of a key. -/
def keyPart (text : List Char) : Except Error (String × List Char) :=
  match text with
  | [] => .error .unexpectedEnd
  | c :: _ =>
    if c = '\x22' ∨ c = '\x27' then lineString text
    else
      match text.takeWhile isKeyChar with
      | [] => unexpected text
      | chars => .ok (String.ofList chars, text.dropWhile isKeyChar)

/-- Reads the parts of a dotted key with the blanks around them; the number
bounds the parts. -/
def keyParts : Nat → Reader (List String)
  | 0, text => unexpected text
  | bound + 1, text => do
    let (part, rest) ← keyPart (dropBlanks text)
    match dropBlanks rest with
    | '.' :: rest =>
      let (parts, rest) ← keyParts bound rest
      .ok (part :: parts, rest)
    | rest => .ok ([part], rest)

/-- Reads a key: the parts before its last, and its last. -/
def key (text : List Char) : Except Error ((List String × String) × List Char) := do
  let (parts, rest) ← keyParts (text.length + 1) text
  if nestingLimit ≤ parts.length then .error .tooDeep
  else .ok ((parts.dropLast, parts.getLastD ""), rest)

/-- Passes one character. -/
def expect (c : Char) (text : List Char) : Except Error (List Char) :=
  match text with
  | [] => .error .unexpectedEnd
  | d :: rest => if d = c then .ok rest else .error (.unexpected d)

/-- Reads the items of an array up to its closing bracket; the number bounds the
items. A comma may stand behind the last. -/
def items (item : Reader Node) : Nat → Reader (List Node)
  | 0, text => unexpected text
  | bound + 1, text => do
    match ← skipLines (text.length + 1) text with
    | ']' :: rest => .ok ([], rest)
    | rest =>
      let (head, rest) ← item rest
      match ← skipLines (rest.length + 1) rest with
      | ',' :: rest =>
        let (tail, rest) ← items item bound rest
        .ok (head :: tail, rest)
      | rest =>
        let rest ← expect ']' rest
        .ok ([head], rest)

/-- A key with its value. -/
structure Pair where
  path : List String
  key : String
  node : Node

/-- Reads a key and its value. -/
def pair (value : Reader Node) (text : List Char) : Except Error (Pair × List Char) := do
  let ((path, name), rest) ← key text
  let rest ← expect '=' rest
  let (node, rest) ← value (dropBlanks rest)
  .ok (⟨path, name, node⟩, rest)

/-- Reads the pairs of an inline table up to its closing brace; the number bounds
the pairs. No comma may stand behind the last. -/
def pairs (value : Reader Node) : Nat → Reader (List Pair)
  | 0, text => unexpected text
  | bound + 1, text => do
    let (head, rest) ← pair value text
    match dropBlanks rest with
    | ',' :: rest =>
      let (tail, rest) ← pairs value bound rest
      .ok (head :: tail, rest)
    | rest =>
      let rest ← expect '\x7d' rest
      .ok ([head], rest)

/-- Adds pairs to a table one by one. -/
def addPairs : List Pair → Entries → Except Error Entries
  | [], entries => .ok entries
  | pair :: rest, entries => do
    let entries ← addDotted pair.key pair.node pair.path entries
    addPairs rest entries

/-- Reads a value; arrays and inline tables may be opened in it so many times. -/
def value : Nat → Reader Node
  | depth, text =>
    match text with
    | '[' :: rest =>
      match depth with
      | 0 => .error .tooDeep
      | depth + 1 => do
        let (items, rest) ← items (value depth) (rest.length + 1) rest
        .ok (.array items, rest)
    | '\x7b' :: rest =>
      match depth with
      | 0 => .error .tooDeep
      | depth + 1 =>
        match dropBlanks rest with
        | '\x7d' :: rest => .ok (.table .inline [], rest)
        | rest => do
          let (pairs, rest) ← pairs (value depth) (rest.length + 1) rest
          let entries ← addPairs pairs []
          .ok (.table .inline entries, rest)
    | text => do
      let (scalar, rest) ← scalar text
      .ok (.scalar scalar, rest)

/-- What was read of a document: its tables, and the keys of the header that the
next pairs belong to. -/
structure State where
  root : Entries := []
  header : List String := []

/-- Reads one header or pair with the rest of its line. -/
def line (state : State) (text : List Char) : Except Error (State × List Char) :=
  match text with
  | '[' :: '[' :: rest => do
    let ((path, name), rest) ← key rest
    let rest ← expect ']' rest
    let rest ← expect ']' rest
    let rest ← endLine rest
    let root ← openElement path name state.root
    .ok (⟨root, path ++ [name]⟩, rest)
  | '[' :: rest => do
    let ((path, name), rest) ← key rest
    let rest ← expect ']' rest
    let rest ← endLine rest
    let root ← openTable path name state.root
    .ok (⟨root, path ++ [name]⟩, rest)
  | text => do
    let (pair, rest) ← pair (value (nestingLimit - 1)) text
    let rest ← endLine rest
    let root ← atHeader (addDotted pair.key pair.node pair.path) state.header state.root
    .ok ({ state with root }, rest)

/-- Reads the lines of a document; the number bounds the lines. -/
def lines : Nat → State → List Char → Except Error State
  | 0, _, text => unexpected text
  | bound + 1, state, text => do
    match dropBlanks text with
    | [] => .ok state
    | c :: rest =>
      if c = '#' ∨ c = '\n' ∨ c = '\r' then
        let rest ← endLine (c :: rest)
        lines bound state rest
      else
        let (state, rest) ← line state (c :: rest)
        lines bound state rest

/-- Reads a whole text as a document. A byte order mark at its head is left
out. -/
def document (text : String) : Except Error Entries :=
  let chars := match text.toList with
    | '\uFEFF' :: rest => rest
    | chars => chars
  (lines (chars.length + 1) {} chars).map State.root

end Regeneration.Toml
