import Lexis.Command.Flags

/-!
# The program

Reads the files that a command line names, runs the command on them with the readers of this library,
and writes what it leaves behind.
-/
namespace Lexis
namespace Command

/-- The content of a file on disk. -/
def loadFile (path : Bytes) : IO (Except LoadError Bytes) := do
  match String.fromUTF8? (ByteArray.mk path.toArray) with
  | none => return .error (.cannotOpen path .notFound)
  | some name =>
    try
      let content ← IO.FS.readBinFile name
      return .ok content.toList
    catch e =>
      match e with
      | .noFileOrDirectory .. => return .error (.cannotOpen path .notFound)
      | .invalidArgument .. => return .error (.cannotOpen path .invalidPath)
      | .inappropriateType _ code _ =>
        -- 21 stands for a directory that is read, all else for a component that is none
        if code = 21 then
          return .error (.cannotRead (ascii "read " ++ path ++ ascii ": is a directory"))
        else return .error (.cannotOpen path .notDirectory)
      | e => return .error (.cannotRead (e.toString.toUTF8.toList))

/-- The paths of the files that a command line needs. -/
def wantedPaths (words : List Bytes) : List Bytes :=
  match Arguments.read words with
  | .ok a => [a.config, a.file.getD []]
  | .error _ => []

/-- A value as a dump shows it. -/
def dump {α : Type} [Repr α] (a : α) : Bytes := (toString (repr a) ++ "\n").toUTF8.toList

end Command
end Lexis

open Lexis in
def main (words : List String) : IO UInt32 := do
  let words := words.map fun w => w.toUTF8.toList
  let files ← (Command.wantedPaths words).mapM fun path => do
    return (path, ← Command.loadFile path)
  let load := fun path =>
    ((files.find? fun f => f.1 = path).map Prod.snd).getD (.error (.cannotOpen path .notFound))
  let setting ← IO.getEnv "CCR_LEXER_DEBUG"
  let outside := { Command.Outside.plain load with
    debugVariable := (setting.getD "").toUTF8.toList
    dumpSettings := Command.dump
    dumpDiagnostics := Command.dump }
  let outcome := Command.run outside .unlimited words
  let out ← IO.getStdout
  let err ← IO.getStderr
  out.write (ByteArray.mk (outcome.stdout ++ outcome.report).toArray)
  err.write (ByteArray.mk outcome.stderr.toArray)
  for line in outcome.logLines do
    err.write (ByteArray.mk (line ++ [byte '\n']).toArray)
  return outcome.status.toUInt32
