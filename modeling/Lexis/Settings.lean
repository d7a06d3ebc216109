import Lexis.Files
import Lexis.Kind
import Lexis.Scan.Lexeme

/-!
# Settings

What a settings file can say: the output format, the options of the scan, and which tokens to show.
A file is decoded in two stages, from a text to a map and from the map to settings. Both are given
from outside.
-/
namespace Lexis

/-- The choices of a run (`Config`). -/
structure Settings where
  format : Bytes := []
  whitespace : Bool := false
  skipTrivia : Bool := false
  identDigits : Bool := false
  colonPercent : Bool := false
  only : List Bytes := []
  deriving DecidableEq, Repr, Inhabited

/-- A name that is no kind of token. -/
structure UnknownKind where
  name : Bytes
  deriving DecidableEq, Repr

def UnknownKind.message (e : UnknownKind) : Bytes := ascii "unknown token kind: " ++ e.name

/-- The named kind of a name, or the error that there is none (`ParseKind`). -/
def Kind.parse (name : Bytes) : Except UnknownKind Kind :=
  (Kind.ofName? name).elim (.error ⟨name⟩) .ok

namespace Settings

/-- The options of the scan (`LexerOptions`). -/
def options (s : Settings) : Options := ⟨s.whitespace, s.identDigits, s.colonPercent⟩

/-- The kinds that the output is restricted to (`OnlyKinds`). -/
def onlyKinds (s : Settings) : Except UnknownKind (List Kind) := s.only.mapM Kind.parse

/-- How a text becomes a map, and a map becomes settings. Either may fail, and says why. -/
structure Decoder where
  Map : Type
  unmarshal : Bytes → Except Bytes Map
  decode : Map → Except Bytes Settings

inductive Error where
  | load (error : LoadError)
  | unmarshal (cause : Bytes)
  | decode (cause : Bytes)
  deriving DecidableEq, Repr

def Error.message : Error → Bytes
  | load error => error.message
  | unmarshal cause => ascii "yaml.Unmarshal: " ++ cause
  | decode cause => ascii "mapstructure.Decode: " ++ cause

/-- The settings that the content of a file gives (`Parse`). -/
def read (d : Decoder) (content : Except LoadError Bytes) : Except Error Settings := do
  let text ← content.mapError .load
  let map ← (d.unmarshal text).mapError .unmarshal
  (d.decode map).mapError .decode

end Settings
end Lexis
