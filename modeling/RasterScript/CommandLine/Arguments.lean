import RasterScript.Dialect
import RasterScript.Number.Power

/-! What the words of a command line ask for. -/
namespace RasterScript.CommandLine

inductive Emit where
  /-- Messages only. -/
  | check
  | tokens
  | tree
  | symbols
  | code
  | buildInfo
  /-- The destinations after a sweep over the sources. -/
  | run
deriving DecidableEq, Repr

namespace Emit

def all : List Emit := [check, tokens, tree, symbols, code, buildInfo, run]

def word : Emit → String
  | check => "check"
  | tokens => "tokens"
  | tree => "ast"
  | symbols => "symbols"
  | code => "lir"
  | buildInfo => "build-info"
  | run => "run"

def label : Emit → String
  | check => "Check"
  | tokens => "Tokens"
  | tree => "Ast"
  | symbols => "Symbols"
  | code => "Lir"
  | buildInfo => "BuildInfo"
  | run => "Run"

def ofWord? (s : String) : Option Emit := all.find? fun e => e.word = s

end Emit

inductive MessageFormat where
  | text
  | json
deriving DecidableEq, Repr

def MessageFormat.ofWord? (s : String) : Option MessageFormat :=
  if s = "text" then some .text else if s = "json" then some .json else none

structure Arguments where
  script : String
  dialect : Dialect
  sources : List (String × String)
  destinations : List String
  width : Option Nat
  height : Option Nat
  emit : Emit
  output : Option String
  messages : MessageFormat
  verbose : Bool
deriving DecidableEq, Repr

inductive Misuse where
  | unexpected (word : String)
  | missingValue (option : String)
  | badValue (option value : String)
  | repeated (option : String)
  | missingScript
deriving DecidableEq, Repr

def Misuse.message : Misuse → String
  | unexpected word => s!"unexpected argument '{word}' found"
  | missingValue option => s!"a value is required for '--{option}' but none was supplied"
  | badValue option value => s!"invalid value '{value}' for '--{option}'"
  | repeated option => s!"the argument '--{option}' cannot be used multiple times"
  | missingScript => "the following required arguments were not provided: <SCRIPT>"

inductive Request where
  | command (arguments : Arguments)
  | version
  | help
  | misuse (misuse : Misuse)
deriving DecidableEq, Repr

structure Draft where
  script : Option String
  dialect : Option Dialect
  sources : List (String × String)
  destinations : List String
  width : Option Nat
  height : Option Nat
  emit : Option Emit
  output : Option String
  messages : Option MessageFormat
  verbose : Bool

namespace Draft

def empty : Draft := ⟨none, none, [], [], none, none, none, none, none, false⟩

/-- A finished command needs a script; all else has a default. -/
def finish (d : Draft) : Request :=
  match d.script with
  | none => .misuse .missingScript
  | some script =>
    .command
      { script := script
        dialect := d.dialect.getD .standard
        sources := d.sources
        destinations := d.destinations
        width := d.width
        height := d.height
        emit := d.emit.getD .run
        output := d.output
        messages := d.messages.getD .text
        verbose := d.verbose }

/-- A file name must not be empty. -/
def path? (s : String) : Option String := if s.isEmpty then none else some s

/-- A name and a file with an equals sign between them; the first one divides. -/
def source? (s : String) : Option (String × String) :=
  let cs := s.toList
  match cs.takeWhile (· ≠ '='), cs.dropWhile (· ≠ '=') with
  | c :: name, _ :: p :: path => some (String.ofList (c :: name), String.ofList (p :: path))
  | _, _ => none

def digits? (cs : List Char) : Option Nat :=
  if cs.isEmpty || !cs.all Char.isDigit then none
  else some (cs.foldl (fun n c => 10 * n + (c.toNat - 48)) 0)

/-- A natural number of 32 bits, with or without a sign. -/
def size? (s : String) : Option Nat := do
  let n ← match s.toList with
    | '+' :: cs => digits? cs
    | '-' :: cs => (digits? cs).filter (· = 0)
    | cs => digits? cs
  if n < Number.twoTo 32 then some n else none

/-- The value of an option that may be given once. -/
def once {α : Type} (option value : String) (old new : Option α) (put : α → Draft) :
    Except Misuse Draft :=
  match old, new with
  | some _, _ => .error (.repeated option)
  | none, none => .error (.badValue option value)
  | none, some a => .ok (put a)

def takesValue (option : String) : Bool :=
  ["dialect", "source", "dest", "width", "height", "emit", "output",
    "diagnostics-format"].contains option

def set (d : Draft) (option value : String) : Except Misuse Draft :=
  match option with
  | "dialect" =>
    once option value d.dialect (Dialect.ofName? value) fun a => { d with dialect := some a }
  | "source" =>
    match source? value with
    | some a => .ok { d with sources := d.sources ++ [a] }
    | none => .error (.badValue option value)
  | "dest" => .ok { d with destinations := d.destinations ++ [value] }
  | "width" => once option value d.width (size? value) fun a => { d with width := some a }
  | "height" => once option value d.height (size? value) fun a => { d with height := some a }
  | "emit" => once option value d.emit (Emit.ofWord? value) fun a => { d with emit := some a }
  | "output" => once option value d.output (path? value) fun a => { d with output := some a }
  | "diagnostics-format" =>
    once option value d.messages (MessageFormat.ofWord? value) fun a =>
      { d with messages := some a }
  | _ => .error (.unexpected ("--" ++ option))

/-- Take a word that is no option: it is the script, and there is one script only. -/
def place (d : Draft) (word : String) : Except Misuse Draft :=
  match d.script with
  | some _ => .error (.unexpected word)
  | none =>
    if word.isEmpty then .error (.badValue "script" word) else .ok { d with script := some word }

end Draft

inductive Word where
  /-- All words after it are plain. -/
  | divider
  /-- An option, perhaps with its value attached. -/
  | option (name : String) (value : Option String)
  | plain (text : String)
deriving DecidableEq, Repr

namespace Word

/-- An option with the value behind its equals sign. -/
def long (cs : List Char) : Word :=
  let value := match cs.dropWhile (· ≠ '=') with
    | _ :: v => some (String.ofList v)
    | [] => none
  option (String.ofList (cs.takeWhile (· ≠ '='))) value

/-- The value that stands right behind the letter of an option; an equals sign may come first. -/
def attached? : List Char → Option String
  | [] => none
  | '=' :: cs => some (String.ofList cs)
  | cs => some (String.ofList cs)

/-- The form of a word; a single hyphen is plain. Letters that stand for no option keep their hyphen
and so belong to none. -/
def ofText (s : String) : Word :=
  match s.toList with
  | ['-', '-'] => divider
  | '-' :: '-' :: cs => long cs
  | '-' :: 'h' :: _ => option "help" none
  | '-' :: 'V' :: _ => option "version" none
  | '-' :: 'o' :: cs => option "output" (attached? cs)
  | '-' :: _ :: _ => option s none
  | _ => plain s

def isPlain : Word → Bool
  | plain _ => true
  | _ => false

end Word

def readPlain (d : Draft) : List String → Request
  | [] => d.finish
  | w :: ws =>
    match d.place w with
    | .ok d => readPlain d ws
    | .error m => .misuse m

/-- Read words from left to right. The first misuse, and the first wish for the version or for help,
settles the matter. -/
def readWords (d : Draft) : List String → Request
  | [] => d.finish
  | w :: ws =>
    match Word.ofText w with
    | .divider => readPlain d ws
    | .plain text =>
      match d.place text with
      | .ok d => readWords d ws
      | .error m => .misuse m
    | .option "help" none => .help
    | .option "version" none => .version
    | .option "verbose" none =>
      if d.verbose then .misuse (.repeated "verbose") else readWords { d with verbose := true } ws
    | .option name (some value) =>
      match d.set name value with
      | .ok d => readWords d ws
      | .error m => .misuse m
    | .option name none =>
      if Draft.takesValue name then
        match ws with
        | [] => .misuse (.missingValue name)
        | value :: ws =>
          if (Word.ofText value).isPlain then
            match d.set name value with
            | .ok d => readWords d ws
            | .error m => .misuse m
          else .misuse (.missingValue name)
      else .misuse (.unexpected w)

def Request.ofWords (words : List String) : Request := readWords .empty words

end RasterScript.CommandLine
