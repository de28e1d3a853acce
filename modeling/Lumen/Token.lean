/-
  Lumen.Token — words, marks and tokens.

  The reserved words and the punctuation marks are finite types with one
  spelling each.  A lexeme is the end of the text, a name, a literal, a
  reserved word or a mark, and carries what belongs to it; a token is a lexeme
  at a place.  Two tokens count as equal whenever their lexemes do.

  Main statements:
    * `Word.ofSpelling?_spelling` — a reserved word is known by its spelling;
    * `Mark.firstOf_spelling` — so is a mark, before a blank.
-/
import Lumen.Literal
import Lumen.Position

namespace Lumen

/-! ## §1. Reserved words -/

/-- The reserved words, the names of types among them. -/
inductive Word where
  | let_ | print | if_ | else_ | while_ | for_ | fn | return_ | end_ | and | or
  | int | float | string | bool | list
deriving DecidableEq, Repr

namespace Word

def all : List Word :=
  [let_, print, if_, else_, while_, for_, fn, return_, end_, and, or,
    int, float, string, bool, list]

def spelling : Word → String
  | let_ => "let"
  | print => "print"
  | if_ => "if"
  | else_ => "else"
  | while_ => "while"
  | for_ => "for"
  | fn => "fn"
  | return_ => "return"
  | end_ => "end"
  | and => "and"
  | or => "or"
  | int => "int"
  | float => "float"
  | string => "string"
  | bool => "bool"
  | list => "list"

/-- The reserved word with a spelling. -/
def ofSpelling? (s : Bytes) : Option Word := all.find? fun w => ascii w.spelling == s

/-- Whether a word starts a type. -/
def isTypeMarker : Word → Bool
  | int | float | string | bool | list => true
  | _ => false

theorem mem_all (w : Word) : w ∈ all := by cases w <;> decide

theorem ofSpelling?_spelling (w : Word) : ofSpelling? (ascii w.spelling) = some w := by
  cases w <;> decide

end Word

/-! ## §2. Marks -/

/-- The punctuation marks and operators. -/
inductive Mark where
  | eqEq | bangEq | ge | le | dotDot
  | lparen | rparen | lbracket | rbracket | lbrace | rbrace
  | colon | comma | dot | semicolon
  | equal | plus | minus | star | slash | gt | lt
deriving DecidableEq, Repr

namespace Mark

/-- All marks, the longer ones first. -/
def all : List Mark :=
  [eqEq, bangEq, ge, le, dotDot,
    lparen, rparen, lbracket, rbracket, lbrace, rbrace,
    colon, comma, dot, semicolon,
    equal, plus, minus, star, slash, gt, lt]

def spelling : Mark → String
  | eqEq => "=="
  | bangEq => "!="
  | ge => ">="
  | le => "<="
  | dotDot => ".."
  | lparen => "("
  | rparen => ")"
  | lbracket => "["
  | rbracket => "]"
  | lbrace => "\x7b"
  | rbrace => "\x7d"
  | colon => ":"
  | comma => ","
  | dot => "."
  | semicolon => ";"
  | equal => "="
  | plus => "+"
  | minus => "-"
  | star => "*"
  | slash => "/"
  | gt => ">"
  | lt => "<"

/-- The bytes of a mark. -/
def bytes (m : Mark) : Bytes := ascii m.spelling

/-- The longest mark that a text starts with. -/
def firstOf (s : Bytes) : Option Mark := all.find? fun m => m.bytes.isPrefixOf s

/-- The marks that compare two operands. -/
def isComparison : Mark → Bool
  | eqEq | bangEq | gt | lt | ge | le => true
  | _ => false

theorem mem_all (m : Mark) : m ∈ all := by cases m <;> decide

theorem firstOf_spelling (m : Mark) : firstOf (m.bytes ++ [Byte.space]) = some m := by
  cases m <;> decide

end Mark

/-! ## §3. Lexemes -/

/-- What a token is, apart from its place. -/
inductive Lexeme where
  | eof
  | ident (name : Bytes)
  | literal (value : Literal)
  | word (w : Word)
  | mark (m : Mark)
deriving DecidableEq, Repr

namespace Lexeme

/-- The name of a lexeme's kind. -/
def kindName : Lexeme → String
  | eof => "end of input"
  | ident _ => "identifier"
  | literal (.int _) => "integer literal"
  | literal (.float _) => "float literal"
  | literal (.str _) => "string literal"
  | literal (.bool _) => "boolean literal"
  | word w => "'" ++ w.spelling ++ "'"
  | mark m => "'" ++ m.spelling ++ "'"

/-- A lexeme as source text. -/
def source : Lexeme → Bytes
  | eof => []
  | ident name => name
  | literal v => v.text
  | word w => ascii w.spelling
  | mark m => m.bytes

/-- A lexeme as messages speak of it. -/
def describe : Lexeme → Bytes
  | ident name => ascii "identifier '" ++ name ++ ascii "'"
  | literal (.int n) => ascii "integer " ++ (Literal.int n).text
  | literal (.float x) => ascii "float " ++ (Literal.float x).text
  | literal (.str s) => ascii "string " ++ (Literal.str s).text
  | literal (.bool b) => ascii "boolean " ++ (Literal.bool b).text
  | l => ascii l.kindName

def isTypeMarker : Lexeme → Bool
  | word w => w.isTypeMarker
  | _ => false

def isComparison : Lexeme → Bool
  | mark m => m.isComparison
  | _ => false

/-- The constant that a literal stands for. -/
def literal? : Lexeme → Option Literal
  | literal v => some v
  | _ => none

/-- Sameness of lexemes; doubles compare as numbers. -/
def same : Lexeme → Lexeme → Bool
  | literal v, literal w => v.same w
  | a, b => a == b

end Lexeme

/-! ## §4. Tokens -/

/-- A lexeme at a place. -/
structure Token where
  lexeme : Lexeme
  pos : Pos := {}
deriving DecidableEq, Repr

namespace Token

/-- Whether a token ends the text. -/
def isEof (t : Token) : Bool := t.lexeme == .eof

/-- The texts of some tokens, each after a blank unless nothing stands before
    it. -/
def joinedSource (tokens : List Token) : Bytes :=
  tokens.foldl
    (fun text t => if text.isEmpty then t.lexeme.source else text ++ Byte.space :: t.lexeme.source)
    []

/-- Whether two token lists agree lexeme by lexeme. -/
def sameList : List Token → List Token → Bool
  | [], [] => true
  | a :: s, b :: t => a.lexeme.same b.lexeme && sameList s t
  | _, _ => false

end Token
end Lumen
