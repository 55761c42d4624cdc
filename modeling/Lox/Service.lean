import Lox.Number.Whole
import Lox.Session
import Lox.Syntax.Outline

/-!
# The service

Requests to compile or to run a source text, answered with documents. The fields of a request are
checked first, and the faults of all fields are reported together. A whole number may also be given
as a truth value, as a number without a fraction, or as the text of a whole number.
-/

namespace Lox.Service

/-- What can be wrong with a request or with a field of it. -/
inductive Fault where
  /-- The request has no fields at all. -/
  | notRecord
  | missing
  | notText
  | notWhole
  | notWholeText
  | fraction
  | notFinite
  /-- The number is too large to be read. -/
  | tooLarge
  | tooSmall
  deriving DecidableEq, Repr

/-- The name under which a fault is reported. -/
def Fault.name : Fault → String
  | notRecord => "model_type"
  | missing => "missing"
  | notText => "string_type"
  | notWhole => "int_type"
  | notWholeText => "int_parsing"
  | fraction => "int_from_float"
  | notFinite => "finite_number"
  | tooLarge => "int_parsing_size"
  | tooSmall => "greater_than"

/-- The faults of a request, each with the path to the field. The path to the request itself is
empty. -/
abbrev Faults := List (List String × Fault)

/-- A request to run a source text. -/
structure RunRequest where
  source : String
  maxSteps : Int

/-- The number of steps that are admitted unless the request asks for another one. -/
def defaultMaxSteps : Int := 50000

/-! ## Reading requests -/

/-- Reads a whole number that is given as a double, which has to lie strictly between the limits of
64 bits. -/
def wholeOfNumber (x : Float) : Except Fault Int :=
  if x.isFinite then
    match Number.wholeOf? x with
    | some n => if n.natAbs < Nat.pow 2 63 then .ok n else .error .tooLarge
    | none => .error .fraction
  else .error .notFinite

/-- Reads a whole number that is given as a text. -/
def wholeOfText (text : String) : Except Fault Int :=
  (Number.readWhole text).mapError fun
    | .malformed => .notWholeText
    | .tooLong => .tooLarge

/-- Reads a whole number. -/
def whole : Document → Except Fault Int
  | .count n => .ok n
  | .bool b => .ok (if b then 1 else 0)
  | .number x => wholeOfNumber x
  | .text s => wholeOfText s
  | _ => .error .notWhole

/-- The fields of a request. -/
abbrev Fields := List (String × Document)

def readSource (fields : Fields) : Except Fault String :=
  match fields.lookup "source" with
  | none => .error .missing
  | some (.text s) => .ok s
  | some _ => .error .notText

def readMaxSteps (fields : Fields) : Except Fault Int := do
  match fields.lookup "max_steps" with
  | none => return defaultMaxSteps
  | some d =>
    let n ← whole d
    if 0 < n then return n else throw .tooSmall

/-- Reads a request to compile. -/
def readCompile : Document → Except Faults String
  | .record fields => (readSource fields).mapError fun fault ↦ [(["source"], fault)]
  | _ => .error [([], .notRecord)]

/-- Reads a request to run. -/
def readRun : Document → Except Faults RunRequest
  | .record fields =>
    match readSource fields, readMaxSteps fields with
    | .ok source, .ok maxSteps => .ok ⟨source, maxSteps⟩
    | .error a, .error b => .error [(["source"], a), (["max_steps"], b)]
    | .error a, .ok _ => .error [(["source"], a)]
    | .ok _, .error b => .error [(["max_steps"], b)]
  | _ => .error [([], .notRecord)]

/-! ## Answers -/

def diagnosticDocument (d : Diagnostic) : Document :=
  .record [("stage", .text d.stage.name), ("line", .count d.line), ("message", .text d.message),
    ("text", .text d.text)]

def tokenDocument (t : Token) : Document :=
  .record [("kind", .text t.kind.name), ("lexeme", .text t.lexeme), ("value", t.value.document),
    ("line", .count t.line)]

/-- The fields of an answer that tell about the analysis of a text. The token that marks the end is
counted, but it is not listed. How long the analysis took is not among the fields, as no time is
measured here. -/
def analysisFields (a : Analysis (List Stmt)) : List (String × Document) :=
  [("token_count", .count a.tokenCount),
    ("diagnostic_count", .count a.diagnostics.items.size),
    ("diagnostics", .list (a.diagnostics.items.toList.map diagnosticDocument)),
    ("tokens", .list (a.scan.tokens.map tokenDocument)),
    ("ast", Stmt.outlines (Outline.levels Outline.defaultDepth) a.program)]

def issueDocument (i : Issue) : Document :=
  .record [("message", .text i.message), ("line", .ofOption .count i.line)]

def runDocument (r : Run) : Document :=
  .record [("executed", .bool (!r.compilation.hasErrors)),
    ("output", .list (r.printed.map .text)),
    ("steps", .count r.begun),
    ("runtime_error", .ofOption issueDocument r.issue?)]

/-! ## Endpoints -/

/-- The page that is shown to visitors. -/
def index : String :=
  "<h2>minilox API</h2><p>POST <code>/api/run</code> with JSON: "
    ++ "<code>\x7b\"source\": \"print 1 + 2;\"\x7d</code></p>"

/-- Whether the service works. -/
def health : Document := .record [("status", .text "ok")]

/-- Compiles a source text. -/
def compile (nesting : Nat) (source : String) : Document :=
  .record (analysisFields (Lox.compile nesting source))

/-- Runs a source text on a machine of its own. -/
def run (host : Host) (request : RunRequest) : Except Interrupt Document :=
  let host := { host with maxSteps := some request.maxSteps }
  let r := ((Session.start host).run request.source).1
  match r.escaped? with
  | some interrupt => .error interrupt
  | none => .ok (.record (analysisFields r.compilation ++ [("run", runDocument r)]))

end Lox.Service
