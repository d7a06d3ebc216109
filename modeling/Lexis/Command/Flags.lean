import Lexis.Command.Run
import Lexis.Settings.Fields

/-!
# Flags

The command line: flags with a dash and a letter or with two dashes and a name, and one file. Words
are read from the left, and the first that does not fit ends the reading. An argument stands behind
an equals sign, right behind a letter, or in the next word, which then must not be a flag itself. An
argument that starts with a double quote is unquoted.

This is the reader of flags that the program is run with; a run as such takes any.
-/
namespace Lexis
namespace Command

inductive Flag where
  | config | format | whitespace | skipTrivia | identDigits | colonPercent | only | debug | help
  deriving DecidableEq, Repr

namespace Flag

def all : List Flag :=
  [config, format, whitespace, skipTrivia, identDigits, colonPercent, only, debug, help]

def letter? : Flag → Option Char
  | config => some 'c'
  | format => some 'o'
  | help => some 'h'
  | _ => none

def long : Flag → Bytes
  | config => ascii "config"
  | format => ascii "format"
  | whitespace => ascii "whitespace"
  | skipTrivia => ascii "skip-trivia"
  | identDigits => ascii "ident-digits"
  | colonPercent => ascii "c-punct"
  | only => ascii "only"
  | debug => ascii "debug"
  | help => ascii "help"

/-- The type of the argument of a flag that takes one. -/
def argument? : Flag → Option Bytes
  | config | format => some (ascii "string")
  | only => some (ascii "[]string")
  | _ => none

/-- A flag as messages name it. -/
def display (f : Flag) : Bytes :=
  match f.letter? with
  | some c => ascii "-" ++ [byte c] ++ ascii ", --" ++ f.long
  | none => ascii "--" ++ f.long

end Flag

/-- Why the reading of a command line ended early. -/
inductive FlagError where
  | unknown (name : Bytes)
  | missing (flag : Flag)
  | flagInstead (flag : Flag) (word : Bytes)
  | dashesInstead (flag : Flag)
  | unwanted (flag : Flag)
  | badQuotes (flag : Flag)
  | noFile
  | help
  deriving DecidableEq, Repr

/-! ## Messages -/

/-- The bytes of a directive between the percent sign and its verb: flags, a width, a precision. -/
def directiveParts (s : Bytes) : Bytes :=
  let s := s.dropWhile fun b => ((ascii "#0+- ").contains b)
  let s := s.dropWhile fun b => (decimalDigit? b).isSome
  match s with
  | b :: rest => if b = byte '.' then rest.dropWhile fun b => (decimalDigit? b).isSome else s
  | [] => []

/-- A text used as a template without arguments: a doubled percent sign is one, and any other
directive says that its argument is missing. The first `skip` bytes are already written. -/
def fillTemplate : Nat → Bytes → Bytes
  | _, [] => []
  | skip + 1, _ :: rest => fillTemplate skip rest
  | 0, b :: rest =>
    if b = byte '%' then
      match directiveParts rest with
      | [] => ascii "%!(NOVERB)"
      | verb :: after =>
        let r := Utf8.decode verb after
        let taken := rest.length - after.length + (r.width - 1)
        (if verb = byte '%' then [verb] else ascii "%!" ++ Utf8.encode r.toChar ++ ascii "(MISSING)")
          ++ fillTemplate taken rest
    else b :: fillTemplate 0 rest

def quoteName (name : Bytes) : Bytes := ascii "\x60" ++ name ++ ascii "'"

namespace FlagError

def message : FlagError → Bytes
  | unknown name => ascii "unknown flag " ++ quoteName name
  | missing flag => ascii "expected argument for flag " ++ quoteName flag.display
  | flagInstead flag word =>
    fillTemplate 0 <| ascii "expected argument for flag " ++ quoteName flag.display
      ++ ascii ", but got option " ++ quoteName word
  | dashesInstead flag =>
    ascii "expected argument for flag " ++ quoteName flag.display ++ ascii ", but got double dash "
      ++ quoteName (ascii "--")
  | unwanted flag =>
    ascii "bool flag " ++ quoteName flag.display ++ ascii " cannot have an argument"
  | badQuotes flag =>
    ascii "invalid argument for flag " ++ quoteName flag.display ++ ascii " (expected "
      ++ flag.argument?.getD [] ++ ascii "): invalid syntax"
  | noFile => ascii "the required argument \x60FILE\x60 was not provided"
  | help => []

end FlagError

/-! ## Reading -/

/-- Whether a word is a flag: one or two dashes and then something that is no dash. -/
def isFlag : Bytes → Bool
  | d :: e :: rest =>
    d = byte '-' && (e ≠ byte '-' || match rest with
      | [] => false
      | x :: _ => x ≠ byte '-')
  | _ => false

/-- A text cut at its first equals sign. -/
def splitEquals (s : Bytes) : Bytes × Option Bytes :=
  match s.dropWhile (· ≠ byte '=') with
  | [] => (s, none)
  | _ :: argument => (s.takeWhile (· ≠ byte '='), some argument)

/-- The flag behind two dashes, with its argument if that stands in the same word. -/
def longFlag (s : Bytes) : Except FlagError (Flag × Option Bytes) :=
  let (name, argument) := splitEquals s
  match Flag.all.find? fun f => f.long = name with
  | some f => .ok (f, argument)
  | none => .error (.unknown name)

/-- The flag behind one dash. More letters are its argument, or do not matter: of the flags with a
letter, one that takes no argument ends the reading. -/
def shortFlag (s : Bytes) : Except FlagError (Flag × Option Bytes) :=
  match s with
  | [] => .error (.unknown [])
  | b :: rest =>
    let r := Utf8.decode b rest
    match Flag.all.find? fun f => f.letter? = some r.toChar with
    | none => .error (.unknown (Utf8.encode r.toChar))
    | some f =>
      match rest with
      | [] => .ok (f, none)
      | x :: more =>
        if x = byte '=' then .ok (f, some more)
        else if f.argument?.isSome then .ok (f, some rest)
        else .ok (f, none)

/-- The flag of a word that is one. -/
def flagOf (word : Bytes) : Except FlagError (Flag × Option Bytes) :=
  if (ascii "--").isPrefixOf word then longFlag (word.drop 2) else shortFlag (word.drop 1)

/-- Sets a flag that takes no argument. -/
def Arguments.set (a : Arguments) : Flag → Except FlagError Arguments
  | .whitespace => .ok { a with whitespace := true }
  | .skipTrivia => .ok { a with skipTrivia := true }
  | .identDigits => .ok { a with identDigits := true }
  | .colonPercent => .ok { a with colonPercent := true }
  | .debug => .ok { a with debug := true }
  | .help => .error .help
  | .config | .format | .only => .ok a

/-- Gives a flag its argument. -/
def Arguments.give (a : Arguments) (f : Flag) (word : Bytes) : Except FlagError Arguments :=
  let text := if word.head? = some (byte '"') then unquote? word else some word
  match text with
  | none => .error (.badQuotes f)
  | some s =>
    match f with
    | .config => .ok { a with config := s }
    | .format => .ok { a with format := s }
    | .only => .ok { a with only := a.only ++ [s] }
    | _ => .ok a

/-- Takes a word that is no flag: the first is the file. -/
def Arguments.addWord (a : Arguments) (word : Bytes) : Arguments :=
  match a.file with
  | none => { a with file := some word }
  | some _ => { a with extra := a.extra ++ [word] }

def readFrom (a : Arguments) : List Bytes → Except FlagError Arguments
  | [] => .ok a
  | word :: rest =>
    if word = ascii "--" then .ok (rest.foldl Arguments.addWord a)
    else if !isFlag word then readFrom (a.addWord word) rest
    else
      match flagOf word with
      | .error e => .error e
      | .ok (f, argument) =>
        match f.argument?, argument with
        | none, some _ => .error (.unwanted f)
        | none, none =>
          match a.set f with
          | .ok a => readFrom a rest
          | .error e => .error e
        | some _, some s =>
          match a.give f s with
          | .ok a => readFrom a rest
          | .error e => .error e
        | some _, none =>
          match rest with
          | [] => .error (.missing f)
          | next :: rest =>
            if isFlag next then .error (.flagInstead f next)
            else if next = ascii "--" then .error (.dashesInstead f)
            else match a.give f next with
              | .ok a => readFrom a rest
              | .error e => .error e

/-- What a command line asks for. A file must be named. -/
def Arguments.read (words : List Bytes) : Except FlagError Arguments :=
  match readFrom {} words with
  | .error e => .error e
  | .ok a => if a.file.isNone then .error .noFile else .ok a

/-! ## Help -/

/-- The lines of the help. -/
def helpLines : List String :=
  ["Usage:",
    "  ccr-lex [OPTIONS] FILE",
    "",
    "Application Options:",
    "  -c, --config=       [OPTIONAL] YAML config file",
    "  -o, --format=       [OPTIONAL] Output format (text, json, yaml)",
    "      --whitespace    [OPTIONAL] Emit whitespace tokens",
    "      --skip-trivia   [OPTIONAL] Omit whitespace and comment tokens from the",
    "                      output",
    "      --ident-digits  [OPTIONAL] Allow digits after the first character of",
    "                      identifiers",
    "      --c-punct       [OPTIONAL] Recognize ':' and '%' tokens",
    "      --only=         [OPTIONAL] Print only tokens of the kind (repeatable)",
    "      --debug         [OPTIONAL] Dump scanner state to stderr",
    "",
    "Help Options:",
    "  -h, --help          Show this help message",
    "",
    "Arguments:",
    "  FILE:               Source file to scan"]

def helpText : Bytes := helpLines.flatMap fun line => ascii line ++ ascii "\n"

/-- The reading of a command line by these rules. Why it ended early is told, and so is the help if
that is asked for. -/
def readFlags (words : List Bytes) : Reading :=
  match Arguments.read words with
  | .ok a => { result := .ok a }
  | .error .help => { result := .error .help, stdout := helpText ++ ascii "\n" }
  | .error e => { result := .error .wrong, stderr := e.message ++ ascii "\n" }

/-- The readers of this library around the given files, with nothing to dump. -/
def Outside.plain (load : Bytes → Except LoadError Bytes) : Outside where
  load := load
  readFlags := Command.readFlags
  help := helpText
  decoder := .plain
  debugVariable := []
  dumpSettings _ := []
  dumpDiagnostics _ := []

end Command
end Lexis
