import Lexis.Files
import Lexis.Report.Print
import Lexis.Scan.Scanner
import Lexis.Settings

/-!
# The command

`run` is the whole program as a function of the command line and of what lies outside: the files,
the reader of flags, the decoder of settings files, the environment and the printer of dumps. It reads
the flags, then the settings, checks the format and the kinds, loads the source, scans it and prints
the report. The first of these that fails is told in the log and ends the run; only the last one
writes to the sink of the report.
-/
namespace Lexis
namespace Command

/-! ## What lies outside -/

/-- What a command line asks for (`Option`). -/
structure Arguments where
  config : Bytes := []
  format : Bytes := []
  whitespace : Bool := false
  skipTrivia : Bool := false
  identDigits : Bool := false
  colonPercent : Bool := false
  only : List Bytes := []
  debug : Bool := false
  file : Option Bytes := none
  extra : List Bytes := []
  deriving DecidableEq, Repr

/-- Why the reading of a command line ended early. -/
inductive Stop where
  | help
  | wrong
  deriving DecidableEq, Repr

/-- What came out of reading a command line, and what the reader said meanwhile. -/
structure Reading where
  result : Except Stop Arguments
  stdout : Bytes := []
  stderr : Bytes := []

/-- What a run does not decide itself. -/
structure Outside where
  /-- The content of a file. -/
  load : Bytes → Except LoadError Bytes
  /-- The reader of flags, -/
  readFlags : List Bytes → Reading
  /-- and the help that it writes. -/
  help : Bytes
  decoder : Settings.Decoder
  /-- The variable `CCR_LEXER_DEBUG` of the environment, empty if it is not set. -/
  debugVariable : Bytes
  dumpSettings : Settings → Bytes
  dumpDiagnostics : List Diagnostic → Bytes

/-- The texts that switch something on (`ParseBool`). -/
def isTrue (s : Bytes) : Bool :=
  ["1", "t", "T", "TRUE", "true", "True"].any fun word => ascii word = s

/-! ## Plans -/

inductive RunError where
  | settings (error : Settings.Error)
  | format (name : Bytes)
  | only (error : UnknownKind)
  | source (error : SourceError)

def RunError.message : RunError → Bytes
  | settings error => ascii "failed to load config: " ++ error.message
  | format name => ascii "invalid format: " ++ Format.unsupported name
  | only error => ascii "invalid --only: " ++ error.message
  | source error => ascii "failed to load source: " ++ error.message

/-- Adds what the command line says. A format and kinds replace those of a file; a choice can only
be turned on. -/
def Arguments.override (a : Arguments) (s : Settings) : Settings where
  format := if a.format = [] then s.format else a.format
  whitespace := s.whitespace || a.whitespace
  skipTrivia := s.skipTrivia || a.skipTrivia
  identDigits := s.identDigits || a.identDigits
  colonPercent := s.colonPercent || a.colonPercent
  only := if a.only = [] then s.only else a.only

/-- The settings of a run (`loadConfig`): those of the file, if one is named, and the command line. -/
def Arguments.settings (out : Outside) (a : Arguments) : Except Settings.Error Settings :=
  if a.config = [] then .ok (a.override {})
  else (Settings.read out.decoder (out.load a.config)).map a.override

/-- The tokens that are shown. -/
def shown (skipTrivia : Bool) (only : List Kind) (tokens : List Token) : List Token :=
  let kept := if skipTrivia then (Stream.mk tokens).significant else tokens
  if only = [] then kept else kept.filter fun t => only.contains t.kind

/-- All that must be known before anything is scanned. -/
structure Plan where
  settings : Settings
  format : Format
  only : List Kind
  source : Source

def Arguments.plan (out : Outside) (a : Arguments) : Except RunError Plan := do
  let settings ← (a.settings out).mapError .settings
  let format ← match Format.ofName? settings.format with
    | some f => .ok f
    | none => .error (.format settings.format)
  let only ← settings.onlyKinds.mapError .only
  let file := a.file.getD []
  let source ← (Source.read file (out.load file)).mapError .source
  return ⟨settings, format, only, source⟩

/-! ## Runs -/

/-- What a run leaves behind. The sink of the report may be the standard output too; what else is
written there comes first. -/
structure Outcome where
  status : Nat := 0
  /-- What the sink of the report has taken. -/
  report : Bytes := []
  stdout : Bytes := []
  stderr : Bytes := []
  log : List Bytes := []
  deriving DecidableEq, Repr

/-- The lines of the log that are not empty. -/
def Outcome.logLines (o : Outcome) : List Bytes :=
  (o.log.flatMap (splitBytes (byte '\n'))).filter (· ≠ [])

/-- What is told of a scan before its report is printed. A scan is traced if the environment or the
command line says so: each token in the log, and the diagnostics, if there are any, on the standard
output. The command line also has the settings and the diagnostics dumped. -/
def Plan.dumps (out : Outside) (p : Plan) (debug : Bool) : Outcome :=
  let (tokens, diagnostics) := tokenize p.source.text p.settings.options
  let traced := debug || isTrue out.debugVariable
  { log :=
      if traced then tokens.filterMap fun t => (Scanner.traceLine p.source.text t).toOption
      else []
    stdout := if traced && diagnostics ≠ [] then out.dumpDiagnostics diagnostics else []
    stderr :=
      if debug then out.dumpSettings p.settings ++ out.dumpDiagnostics diagnostics else [] }

/-- Scans and prints. -/
def Plan.execute (out : Outside) (p : Plan) (debug : Bool) (sink : Sink) : Outcome :=
  let (tokens, diagnostics) := tokenize p.source.text p.settings.options
  let told := p.dumps out debug
  let tokens := shown p.settings.skipTrivia p.only tokens
  match Report.build p.source.path p.source.text tokens diagnostics with
  | .error e => { told with status := 2, log := told.log ++ [e.message] }
  | .ok report =>
    let printed := report.print p.format sink
    match printed.error with
    | none => { told with report := printed.output }
    | some e =>
      { told with
        status := 1, report := printed.output
        log := told.log ++ [ascii "failed to print tokens: " ++ e.message] }

/-- The run of a command line that is read. -/
def Arguments.run (out : Outside) (a : Arguments) (sink : Sink) : Outcome :=
  if a.extra ≠ [] then { status := 1, stdout := out.help }
  else match a.plan out with
    | .error e => { status := 1, log := [e.message] }
    | .ok plan => plan.execute out a.debug sink

/-- Runs the command, with a sink for the report. -/
def run (out : Outside) (sink : Sink) (words : List Bytes) : Outcome :=
  let reading := out.readFlags words
  let outcome : Outcome := match reading.result with
    | .error .help => {}
    | .error .wrong => { status := 1, stdout := out.help }
    | .ok a => a.run out sink
  { outcome with
    stdout := reading.stdout ++ outcome.stdout, stderr := reading.stderr ++ outcome.stderr }

end Command
end Lexis
