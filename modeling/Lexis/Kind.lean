import Lexis.Bytes

/-!
# Kinds of tokens

Each kind has a number and a name; both are read back by `ofCode` and `ofName?`. A number beyond the
named kinds is a kind of its own that no scan produces.
-/
namespace Lexis

inductive Kind where
  | unknown
  | eof
  | whitespace | lineComment | blockComment
  | ident | literal | header
  | leftParen | rightParen | leftBrace | rightBrace | leftBracket | rightBracket
  | comma | dot | semiColon | colon | pound
  | plus | plusPlus | minus | minusMinus | arrow | star | slash | percent
  | and | or | caret | tilde | bang | bangEqual | equal | equalEqual
  | lt | ltEqual | gt | gtEqual
  | numbered (code : Int) (h : code < 0 ∨ 38 < code)
  deriving DecidableEq, Repr

namespace Kind

/-- The named kinds, in the order of their numbers. -/
def named : List Kind :=
  [.unknown, .eof, .whitespace, .lineComment, .blockComment, .ident, .literal, .header,
   .leftParen, .rightParen, .leftBrace, .rightBrace, .leftBracket, .rightBracket, .comma, .dot,
   .semiColon, .colon, .pound, .plus, .plusPlus, .minus, .minusMinus, .arrow, .star, .slash,
   .percent, .and, .or, .caret, .tilde, .bang, .bangEqual, .equal, .equalEqual, .lt, .ltEqual,
   .gt, .gtEqual]

def code : Kind → Int
  | unknown => 0
  | eof => 1
  | whitespace => 2
  | lineComment => 3
  | blockComment => 4
  | ident => 5
  | literal => 6
  | header => 7
  | leftParen => 8
  | rightParen => 9
  | leftBrace => 10
  | rightBrace => 11
  | leftBracket => 12
  | rightBracket => 13
  | comma => 14
  | dot => 15
  | semiColon => 16
  | colon => 17
  | pound => 18
  | plus => 19
  | plusPlus => 20
  | minus => 21
  | minusMinus => 22
  | arrow => 23
  | star => 24
  | slash => 25
  | percent => 26
  | and => 27
  | or => 28
  | caret => 29
  | tilde => 30
  | bang => 31
  | bangEqual => 32
  | equal => 33
  | equalEqual => 34
  | lt => 35
  | ltEqual => 36
  | gt => 37
  | gtEqual => 38
  | numbered code _ => code

def ofCode (code : Int) : Kind :=
  if h : code < 0 ∨ 38 < code then .numbered code h else named.getD code.toNat .unknown

def name : Kind → Bytes
  | unknown => ascii "Unknown"
  | eof => ascii "EOF"
  | whitespace => ascii "Whitespace"
  | lineComment => ascii "LineComment"
  | blockComment => ascii "BlockComment"
  | ident => ascii "Ident"
  | literal => ascii "Literal"
  | header => ascii "Header"
  | leftParen => ascii "LeftParen"
  | rightParen => ascii "RightParen"
  | leftBrace => ascii "LeftBrace"
  | rightBrace => ascii "RightBrace"
  | leftBracket => ascii "LeftBracket"
  | rightBracket => ascii "RightBracket"
  | comma => ascii "Comma"
  | dot => ascii "Dot"
  | semiColon => ascii "SemiColon"
  | colon => ascii "Colon"
  | pound => ascii "Pound"
  | plus => ascii "Plus"
  | plusPlus => ascii "PlusPlus"
  | minus => ascii "Minus"
  | minusMinus => ascii "MinusMinus"
  | arrow => ascii "Arrow"
  | star => ascii "Star"
  | slash => ascii "Slash"
  | percent => ascii "Percent"
  | and => ascii "And"
  | or => ascii "Or"
  | caret => ascii "Caret"
  | tilde => ascii "Tilde"
  | bang => ascii "Bang"
  | bangEqual => ascii "BangEqual"
  | equal => ascii "Equal"
  | equalEqual => ascii "EqualEqual"
  | lt => ascii "Lt"
  | ltEqual => ascii "LtEqual"
  | gt => ascii "Gt"
  | gtEqual => ascii "GtEqual"
  | numbered code _ => ascii "Kind(" ++ signedDecimal code ++ ascii ")"

/-- The named kind of a name. -/
def ofName? (name : Bytes) : Option Kind := named.find? fun k => k.name = name

/-- Whether tokens of this kind carry no grammatical meaning. -/
def isTrivia : Kind → Bool
  | whitespace | lineComment | blockComment => true
  | _ => false

theorem ofCode_code (k : Kind) : ofCode k.code = k := by
  cases k with
  | numbered code h => simp [ofCode, Kind.code, h]
  | _ => rfl

theorem code_ofCode (code : Int) : (ofCode code).code = code := by
  unfold ofCode
  split
  · rfl
  · next h =>
    obtain ⟨n, rfl⟩ : ∃ n : Nat, code = n := ⟨code.toNat, by omega⟩
    have hn : n < 39 := by omega
    rw [Int.toNat_natCast]
    clear h
    revert n
    decide

end Kind
end Lexis
