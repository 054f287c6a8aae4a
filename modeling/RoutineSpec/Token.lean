import RoutineSpec.Location

/-! # Tokens

What the grammar reads: reserved words, marks, names and integers, each at its place, and one end of
input after them.
-/

namespace RoutineSpec

/-- The reserved words. -/
inductive Keyword where
  | if_
  | else_
  | for_
  | join
  | sequential
  | int
  | float
  | bool
  | returns
  | locals
  | true_
  | false_
  deriving Repr, DecidableEq

namespace Keyword

def spelling : Keyword → String
  | .if_ => "if"
  | .else_ => "else"
  | .for_ => "for"
  | .join => "join"
  | .sequential => "sequential"
  | .int => "int"
  | .float => "float"
  | .bool => "bool"
  | .returns => "returns"
  | .locals => "locals"
  | .true_ => "true"
  | .false_ => "false"

/-- Every reserved word. -/
def all : List Keyword :=
  [.if_, .else_, .for_, .join, .sequential, .int, .float, .bool, .returns, .locals, .true_, .false_]

def ofSpelling? (text : String) : Option Keyword :=
  all.find? fun word => word.spelling == text

theorem ofSpelling?_spelling (word : Keyword) : ofSpelling? word.spelling = some word := by
  cases word <;> decide

theorem ofSpelling?_eq_some_iff {text : String} {word : Keyword} :
    ofSpelling? text = some word ↔ text = word.spelling := by
  constructor
  · intro h
    have hit := List.find?_some h
    exact (by simpa using hit : word.spelling = text).symm
  · rintro rfl
    exact ofSpelling?_spelling word

end Keyword

/-- Operators and punctuation. -/
inductive Mark where
  | plus
  | minus
  | star
  | slash
  | equalEqual
  | notEqual
  | less
  | lessEqual
  | greater
  | greaterEqual
  | andAnd
  | orOr
  | bang
  | tilde
  | pipe
  | equal
  | question
  | colon
  | openParen
  | closeParen
  | openBrace
  | closeBrace
  | openBracket
  | closeBracket
  | semicolon
  | comma
  deriving Repr, DecidableEq

namespace Mark

def spelling : Mark → String
  | .plus => "+"
  | .minus => "-"
  | .star => "*"
  | .slash => "/"
  | .equalEqual => "=="
  | .notEqual => "!="
  | .less => "<"
  | .lessEqual => "<="
  | .greater => ">"
  | .greaterEqual => ">="
  | .andAnd => "&&"
  | .orOr => "||"
  | .bang => "!"
  | .tilde => "~"
  | .pipe => "|"
  | .equal => "="
  | .question => "?"
  | .colon => ":"
  | .openParen => "("
  | .closeParen => ")"
  | .openBrace => "\x7b"
  | .closeBrace => "\x7d"
  | .openBracket => "["
  | .closeBracket => "]"
  | .semicolon => ";"
  | .comma => ","

/-- Every mark. -/
def all : List Mark :=
  [.plus, .minus, .star, .slash, .equalEqual, .notEqual, .less, .lessEqual, .greater, .greaterEqual,
    .andAnd, .orOr, .bang, .tilde, .pipe, .equal, .question, .colon, .openParen, .closeParen,
    .openBrace, .closeBrace, .openBracket, .closeBracket, .semicolon, .comma]

def ofSpelling? (text : String) : Option Mark :=
  all.find? fun mark => mark.spelling == text

theorem ofSpelling?_spelling (mark : Mark) : ofSpelling? mark.spelling = some mark := by
  cases mark <;> decide

theorem ofSpelling?_eq_some_iff {text : String} {mark : Mark} :
    ofSpelling? text = some mark ↔ text = mark.spelling := by
  constructor
  · intro h
    have hit := List.find?_some h
    exact (by simpa using hit : mark.spelling = text).symm
  · rintro rfl
    exact ofSpelling?_spelling mark

end Mark

/-- What a lexeme is, its place aside: a terminal symbol of the grammar. -/
inductive Terminal where
  | identifier (name : String)
  | integer (value : Int)
  | keyword (word : Keyword)
  | mark (sign : Mark)
  deriving Repr, DecidableEq

/-- How messages name a terminal. -/
def Terminal.describe : Terminal → String
  | .identifier name => s!"identifier '{name}'"
  | .integer value => s!"int literal {value}"
  | .keyword word => s!"'{word.spelling}'"
  | .mark sign => s!"'{sign.spelling}'"

/-- The name that a terminal stands for. -/
def Terminal.name? : Terminal → Option String
  | .identifier name => some name
  | _ => none

/-- Recognises one terminal and no other. -/
def Terminal.same? (terminal other : Terminal) : Option Unit :=
  if other = terminal then some () else none

/-- A terminal at the place where its text starts. -/
structure Lexeme where
  terminal : Terminal
  loc : Location
  deriving Repr, DecidableEq

/-- An element of a token stream. A stream may hold an end of input anywhere; nothing after the first
    one is read. -/
inductive Token where
  | lexeme (item : Lexeme)
  | endOfInput (loc : Location)
  deriving Repr, DecidableEq

namespace Token

def loc : Token → Location
  | .lexeme item => item.loc
  | .endOfInput loc => loc

/-- How messages name a token. -/
def describe : Token → String
  | .lexeme item => item.terminal.describe
  | .endOfInput _ => "end of input"

/-- The token of a terminal at a place. -/
def of (terminal : Terminal) (loc : Location) : Token := .lexeme ⟨terminal, loc⟩

end Token

end RoutineSpec
