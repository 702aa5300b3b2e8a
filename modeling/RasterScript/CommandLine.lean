import RasterScript.Code.Text
import RasterScript.CommandLine.Arguments
import RasterScript.Compilation
import RasterScript.Diagnostic.Document
import RasterScript.Raster.File
import RasterScript.Script.Outline
import RasterScript.Session.Sweep

/-! Commands: what is said, what is put out, and how it ends, as a function of the words and the
files that they name. -/
namespace RasterScript.CommandLine

/-- A line or lines for the error stream. A timed one has a time in milliseconds in the middle. -/
inductive Notice where
  | text (lines : String)
  | timed (before after : String)
deriving DecidableEq, Repr

def Notice.render (time : String) : Notice → String
  | text lines => lines
  | timed before after => before ++ time ++ "ms" ++ after

structure Response where
  notices : List Notice
  exit : Nat
  /-- The text to put out, if the command came so far. -/
  output : Option String
  /-- The file to write it to; without one it is printed. -/
  path : Option String

/-- The content of a file, or the reason why there is none. -/
abbrev Files := String → Except String ByteArray

/-- A command that talks and may quit with an exit code. -/
abbrev Talk := ExceptT Nat (StateM (List Notice))

namespace Talk

def notice (n : Notice) : Talk Unit := modify fun ns => ns ++ [n]

def say (lines : String) : Talk Unit := notice (.text lines)

def quit {α : Type} (code : Nat) : Talk α := throw code

def fail {α : Type} (code : Nat) (message : String) : Talk α := do
  say s!"rasc: error: {message}\n"
  quit code

end Talk

open Talk

def readText (files : Files) (path : String) : Talk String :=
  match files path with
  | .error reason => fail 2 s!"{path}: {reason}"
  | .ok bytes =>
    match String.fromUTF8? bytes with
    | some text => return text
    | none => fail 2 s!"{path}: stream did not contain valid UTF-8"

/-! ### Tokens -/

def tokenLine (text : String) (t : Token) : String :=
  let p := Text.position text t.span.start
  let shown := if t.kind = .ident then t.text else t.listing
  s!"{p.line}:{p.column} {shown}\n"

def listTokens (text : String) (dialect : Dialect) : Talk (String × Nat) := do
  let scan := (Token.scan text).frame dialect
  let faults := scan.faults.map Token.Fault.diagnostic
  say (Report.render ⟨text, faults⟩)
  return (String.join (scan.tokens.map (tokenLine text)), if faults.isEmpty then 0 else 1)

/-! ### Runs -/

def loadRaster (files : Files) (path : String) : Talk Raster := do
  match Raster.read (← readText files path) with
  | some r => return r
  | none => fail 2 s!"{path}: not a raster"

/-- Destinations are as large as asked for, or as the first source. -/
def destinationExtent (a : Arguments) (sources : List Raster) : Talk Extent :=
  match a.width, a.height, sources with
  | some w, some h, _ => return .sized w h
  | none, none, r :: _ => return r.extent
  | _, _, _ => fail 2 "destination size needs --width and --height or a --source"

def bindAll (bind : Session → String → BoundRaster → Except Failure Session) (first : Nat)
    (images : List String) (s : Session) : Except Failure Session :=
  images.zipIdx.foldlM (fun s (image, i) => bind s image ⟨first + i, .identity⟩) s

def eventNotice? : Event → Option Notice
  | .size n => some (.text s!"rasc: sweeping {n} pixels\n")
  | .start => none
  | .update fraction => some (.text s!"rasc: {Number.rounded (fraction * 100)}%\n")
  | .finish => some (.timed "rasc: sweep complete, " "\n")

def sweepAll (a : Arguments) (c : Code) (gallery : Gallery) : Talk Gallery := do
  let bound := do
    let s ← bindAll Session.bindSource 0 (a.sources.map Prod.fst) (.start c)
    bindAll Session.bindDestination a.sources.length c.destinations s
  match bound with
  | .error f => failed (.failed f)
  | .ok s =>
    let sweep := s.sweep Session.defaultLimit (fun size => max 1 (size / 10)) gallery
    if a.verbose then (sweep.events.filterMap eventNotice?).forM notice
    match sweep.result with
    | .ok _ => return sweep.gallery
    | .error halt => failed halt
where
  failed (halt : Halt) : Talk Gallery := do
    say s!"rasc: runtime error: {halt.message}\n"
    quit 1

/-- A single raster is a document of its own; several are the members of an object, by name. -/
def rastersJson : List (String × Raster) → Json
  | [(_, r)] => r.toJson
  | named =>
    .record ((named.mergeSort fun x y => !(y.1 < x.1)).map fun x => (x.1, x.2.toJson))

def runScript (files : Files) (a : Arguments) (c : Code) : Talk String := do
  let sources ← a.sources.mapM fun (_, path) => loadRaster files path
  let extent ← destinationExtent a sources
  let blank := Raster.ofFunction extent fun _ _ => Number.nan
  if a.verbose then
    say (s!"rasc: {sources.length} source(s), {c.destinations.length} destination(s), " ++
      s!"{extent.width}x{extent.height}\n")
  let gallery ← sweepAll a c (sources ++ c.destinations.map fun _ => blank)
  return (rastersJson (c.destinations.zip (gallery.drop sources.length))).compact ++ "\n"

/-! ### Commands -/

def phaseNotice (p : PhaseSummary) : Notice :=
  .timed s!"rasc: {p.phase.name} complete, " s!" ({p.errors} errors, {p.warnings} warnings)\n"

def emit (files : Files) (a : Arguments) (c : Compilation) (p : Program) :
    Talk (Option String) :=
  match a.emit with
  | .check | .tokens => return none
  | .tree => return some (c.script.outline.render ++ "\n")
  | .symbols => return c.binding.map fun b => b.table.listing
  | .code => return some p.code.listing
  | .buildInfo => return some p.provenance.document
  | .run => return some (← runScript files a p.code)

/-- Carry out a command: the text to put out, and the exit code. -/
def perform (files : Files) (a : Arguments) : Talk (Option String × Nat) := do
  if a.verbose then
    say (s!"rasc: script  = {a.script}\n" ++ s!"rasc: dialect = {a.dialect.name}\n" ++
      s!"rasc: emit    = {a.emit.label}\n")
  let text ← readText files a.script
  if a.emit = .tokens then
    let (listing, code) ← listTokens text a.dialect
    return (some listing, code)
  let images := a.sources.map (fun (name, _) => (name, ImageRole.source)) ++
    a.destinations.map fun name => (name, ImageRole.destination)
  let c := Compilation.ofText text ⟨a.dialect, images, some a.script⟩
  if a.verbose then (c.phases.map phaseNotice).forM notice
  match a.messages with
  | .text => say c.report.render
  | .json => say c.report.document
  match c.program with
  | some p => return (← emit files a c p, 0)
  | none =>
    -- The tree of what could be read is put out all the same.
    return (if a.emit = .tree then some (c.script.outline.render ++ "\n") else none, 1)

def usage : String :=
  "Usage: rasc [OPTIONS] <SCRIPT>\n\n" ++
  "Options:\n" ++
  "  --dialect <standard|extended>     How statements end\n" ++
  "  --source <NAME=PATH>              A source image and its raster file (repeatable)\n" ++
  "  --dest <NAME>                     A destination image (repeatable)\n" ++
  "  --width <N> --height <N>          The size of destinations, if not that of a source\n" ++
  "  --emit <STAGE>                    check, tokens, ast, symbols, lir, build-info or run\n" ++
  "  -o, --output <PATH>               The file to write to\n" ++
  "  --diagnostics-format <text|json>  How messages are written\n" ++
  "  --verbose                         Tell about each step\n"

def respond (files : Files) (words : List String) : Response :=
  match Request.ofWords words with
  | .version => ⟨[], 0, some s!"rasc {version}\n", none⟩
  | .help => ⟨[], 0, some usage, none⟩
  | .misuse m => ⟨[.text s!"error: {m.message}\n"], 2, none, none⟩
  | .command a =>
    match (perform files a).run [] with
    | (.ok (output, code), notices) => ⟨notices, code, output, a.output⟩
    | (.error code, notices) => ⟨notices, code, none, none⟩

def inputs (words : List String) : List String :=
  match Request.ofWords words with
  | .command a => a.script :: a.sources.map Prod.snd
  | _ => []

/-- The response when its file could not be written. -/
def Response.unwritten (r : Response) (path reason : String) : Response :=
  { r with
    notices := r.notices ++ [.text s!"rasc: error: {path}: {reason}\n"]
    exit := 2
    output := none }

def Response.errorText (time : String) (r : Response) : String :=
  String.join (r.notices.map (Notice.render time))

end RasterScript.CommandLine
