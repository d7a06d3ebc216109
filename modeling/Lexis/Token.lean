import Lexis.Kind
import Lexis.Literal
import Lexis.Value

/-!
# Tokens

A token is one lexical unit: its kind, what it refers to in the source, and its value. The literal
part counts only for tokens of kind `literal`. Where a token stands is said by a span, a half-open
range of byte offsets. The spans of a scan always lie inside their source; a span from elsewhere may
not, and then `slice` says what is wrong with it.

A stream is the ordered output of a scan. Tokens are pushed at the end and popped from there, and
nothing can be pushed behind an end token.
-/
namespace Lexis

/-! ## Spans -/

structure Span where
  start : Int
  stop : Int
  deriving DecidableEq, Repr, Inhabited

/-- Why a span cuts nothing out of a source. The end is looked at first. -/
inductive SliceError where
  | stopNegative (stop : Int)
  | stopBeyond (stop : Int) (length : Nat)
  | startNegative (start : Int)
  | startAfterStop (start stop : Int)
  deriving DecidableEq, Repr

def SliceError.message : SliceError → Bytes
  | stopNegative stop => ascii "slice bounds out of range [:" ++ signedDecimal stop ++ ascii "]"
  | stopBeyond stop length =>
    ascii "slice bounds out of range [:" ++ signedDecimal stop ++ ascii "] with length "
      ++ decimal length
  | startNegative start => ascii "slice bounds out of range [" ++ signedDecimal start ++ ascii ":]"
  | startAfterStop start stop =>
    ascii "slice bounds out of range [" ++ signedDecimal start ++ ascii ":" ++ signedDecimal stop
      ++ ascii "]"

namespace Span

/-- The number of bytes, as a signed 64-bit word. -/
def length (s : Span) : Int := Int.bmod (s.stop - s.start) (Nat.pow 2 64)

def isEmpty (s : Span) : Bool := s.start = s.stop

/-- The part of a source that a span covers. -/
def slice (s : Span) (source : Bytes) : Except SliceError Bytes :=
  if s.stop < 0 then .error (.stopNegative s.stop)
  else if (source.length : Int) < s.stop then .error (.stopBeyond s.stop source.length)
  else if s.start < 0 then .error (.startNegative s.start)
  else if s.stop < s.start then .error (.startAfterStop s.start s.stop)
  else .ok ((source.drop s.start.toNat).take (s.stop.toNat - s.start.toNat))

/-- How messages show a span (`Span.String`). -/
def render (s : Span) : Bytes :=
  ascii "[" ++ signedDecimal s.start ++ ascii "," ++ signedDecimal s.stop ++ ascii ")"

end Span

/-! ## Tokens -/

structure Token where
  kind : Kind
  literal : Literal
  value : Value
  span : Span
  deriving DecidableEq, Repr

namespace Token

/-- The token whose parts are all empty. -/
def blank : Token := ⟨.unknown, .empty, .absent, ⟨0, 0⟩⟩

instance : Inhabited Token := ⟨blank⟩

def isEof (t : Token) : Bool := t.kind = .eof

/-- The text of a token in the source it was scanned from. -/
def text (t : Token) (source : Bytes) : Except SliceError Bytes := t.span.slice source

/-- How a trace shows a token (`Token.String`). -/
def render (t : Token) : Bytes :=
  let kind :=
    if t.kind = .literal then t.kind.name ++ ascii "(" ++ t.literal.name ++ ascii ")"
    else t.kind.name
  kind ++ t.span.render ++ ascii " " ++ t.value.render

end Token

/-! ## Streams -/

structure Stream where
  tokens : List Token
  deriving DecidableEq, Repr

/-- Something was pushed behind an end token. -/
structure PushError where
  token : Token
  deriving DecidableEq, Repr

def PushError.message (e : PushError) : Bytes :=
  ascii "should not reach here: push " ++ e.token.render ++ ascii " after EOF"

/-- No token has the index. -/
structure IndexError where
  index : Int
  length : Nat
  deriving DecidableEq, Repr

def IndexError.message (e : IndexError) : Bytes :=
  ascii "index out of range [" ++ signedDecimal e.index ++ ascii "]"
    ++ if e.index < 0 then [] else ascii " with length " ++ decimal e.length

namespace Stream

def empty : Stream := ⟨[]⟩

instance : Inhabited Stream := ⟨empty⟩

def length (s : Stream) : Nat := s.tokens.length

/-- Pushes a token. Behind an end token that fails, and the stream stays as it is. -/
def push (s : Stream) (t : Token) : Stream × Option PushError :=
  if s.tokens.getLast?.any Token.isEof then (s, some ⟨t⟩) else (⟨s.tokens ++ [t]⟩, none)

/-- The stream behind a push, for a caller who does not go on if that fails. -/
def tryPush (s : Stream) (t : Token) : Except PushError Stream :=
  match s.push t with
  | (s, none) => .ok s
  | (_, some e) => .error e

/-- The stream of the given tokens, pushed one after the other (`NewStream`). -/
def ofTokens (tokens : List Token) : Except PushError Stream := tokens.foldlM tryPush empty

/-- Takes off the last token, if there is one. -/
def pop (s : Stream) : Option Token × Stream :=
  match s.tokens.getLast? with
  | some t => (some t, ⟨s.tokens.dropLast⟩)
  | none => (none, s)

/-- The token with an index (`At`). -/
def get (s : Stream) (i : Int) : Except IndexError Token :=
  if i < 0 then .error ⟨i, s.length⟩
  else match s.tokens[i.toNat]? with
    | some t => .ok t
    | none => .error ⟨i, s.length⟩

/-- The tokens that are visited in order, with their indices, until `visit` says to stop (`Range`).
The one at which it does is among them. -/
def visitedFrom (visit : Nat → Token → Bool) : Nat → List Token → List (Nat × Token)
  | _, [] => []
  | i, t :: rest => (i, t) :: if visit i t then visitedFrom visit (i + 1) rest else []

def visited (s : Stream) (visit : Nat → Token → Bool) : List (Nat × Token) :=
  visitedFrom visit 0 s.tokens

/-- The tokens that are not trivia. -/
def significant (s : Stream) : List Token := s.tokens.filter fun t => !t.kind.isTrivia

end Stream

end Lexis
