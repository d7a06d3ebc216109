import Lexis.Text.Quoted

/-!
# Files and sources

A small tree of files and the rules for finding one by its path: a path goes from the root of the
tree component by component, `.` stays, `..` goes up, and nothing is known of what lies outside but
that it consists of directories. A directory can be opened like a file; reading it fails.

A source is a text with the path it was loaded from. Only UTF-8 is accepted.
-/
namespace Lexis

/-- Why a path cannot be opened. -/
inductive FileError where
  | notFound
  | notDirectory
  | invalidPath
  | nameTooLong
  deriving DecidableEq, Repr

def FileError.message : FileError → Bytes
  | notFound => ascii "no such file or directory"
  | notDirectory => ascii "not a directory"
  | invalidPath => ascii "invalid argument"
  | nameTooLong => ascii "file name too long"

/-- Why the content of a file cannot be had. -/
inductive LoadError where
  | cannotOpen (path : Bytes) (cause : FileError)
  | cannotRead (cause : Bytes)
  deriving DecidableEq, Repr

def LoadError.message : LoadError → Bytes
  | cannotOpen path cause =>
    ascii "os.Open(" ++ quote path ++ ascii "): open " ++ path ++ ascii ": " ++ cause.message
  | cannotRead cause => ascii "io.ReadAll: " ++ cause

/-- The parts of a text between the separators. -/
def splitBytes (sep : UInt8) : Bytes → List Bytes
  | [] => [[]]
  | b :: rest =>
    if b = sep then [] :: splitBytes sep rest
    else match splitBytes sep rest with
      | [] => [[b]]
      | first :: more => (b :: first) :: more

/-- Files by the components of their paths, a later one in place of an earlier one. -/
structure FileTree where
  files : List (List Bytes × Bytes)
  deriving DecidableEq, Repr

/-- What stands at a path. -/
inductive FileNode where
  | file (content : Bytes)
  | directory
  deriving DecidableEq, Repr

/-- How far a path has been followed: inside the tree, or to a directory outside. -/
inductive Place where
  | inside (path : List Bytes)
  | outside
  deriving DecidableEq, Repr

namespace FileTree

def isHere (component : Bytes) : Bool := component = [] || component = ascii "."

/-- The tree of files that are given by their paths. -/
def ofPaths (files : List (Bytes × Bytes)) : FileTree :=
  ⟨files.map fun (path, content) =>
    ((splitBytes (byte '/') path).filter fun c => !isHere c, content)⟩

def node? (tree : FileTree) : Place → Option FileNode
  | .outside => some .directory
  | .inside path =>
    match tree.files.reverse.find? fun f => f.1 = path with
    | some (_, content) => some (.file content)
    | none =>
      if path = [] || tree.files.any fun f => path.isPrefixOf f.1 then some .directory else none

/-- The place that a component leads to from a directory. -/
def enter (component : Bytes) : Place → Option Place
  | .inside path =>
    if component = ascii ".." then
      some (if path = [] then .outside else .inside path.dropLast)
    else some (.inside (path ++ [component]))
  | .outside => if component = ascii ".." then some .outside else none

/-- Follows the components of a path. -/
def follow (tree : FileTree) (place : Place) : List Bytes → Except FileError FileNode
  | [] => (tree.node? place).elim (.error .notFound) .ok
  | c :: rest =>
    match tree.node? place with
    | none => .error .notFound
    | some (.file _) => .error .notDirectory
    | some .directory =>
      if isHere c then follow tree place rest
      else if 255 < c.length then .error .nameTooLong
      else match enter c place with
        | some next => follow tree next rest
        | none => .error .notFound

/-- What a path names. -/
def find (tree : FileTree) (path : Bytes) : Except FileError FileNode :=
  if path.contains 0 then .error .invalidPath
  else if path = [] then .error .notFound
  else if 4096 ≤ path.length then .error .nameTooLong
  else
    let start := if path.head? = some (byte '/') then .outside else .inside []
    tree.follow start (splitBytes (byte '/') path)

/-- The content of the file at a path. -/
def load (tree : FileTree) (path : Bytes) : Except LoadError Bytes :=
  match tree.find path with
  | .ok (.file content) => .ok content
  | .ok .directory => .error (.cannotRead (ascii "read " ++ path ++ ascii ": is a directory"))
  | .error cause => .error (.cannotOpen path cause)

end FileTree

/-! ## Sources -/

/-- A text that was loaded, with its path (`File`). -/
structure Source where
  path : Bytes
  text : Bytes
  deriving DecidableEq, Repr

inductive SourceError where
  | load (error : LoadError)
  | notUtf8 (path : Bytes)
  deriving DecidableEq, Repr

def SourceError.message : SourceError → Bytes
  | load error => error.message
  | notUtf8 path => path ++ ascii ": source is not valid UTF-8"

namespace Source

/-- The source with the given content, or the failure to read it (`Read`). -/
def read (path : Bytes) (content : Except LoadError Bytes) : Except SourceError Source :=
  match content with
  | .error e => .error (.load e)
  | .ok text => if Utf8.valid text then .ok ⟨path, text⟩ else .error (.notUtf8 path)

end Source

end Lexis
