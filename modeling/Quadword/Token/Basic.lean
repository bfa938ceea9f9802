import Quadword.Program.Operator

/-!
# Tokens

A token is the smallest unit with a meaning of its own. Identifiers keep their name and literals
their value; every other token is told by its spelling. The tables `Keyword.all` and
`Token.operators` list each spelling once.
-/

namespace Quadword

/-- Words that the language reserves. -/
inductive Keyword where
  | goto
  | cond
  | pass
  | sp
  | data
  | const
  | finish
  | align
  | syscall
deriving DecidableEq

namespace Keyword

/-- How the keyword is written; the case of its letters matters. -/
def spelling : Keyword → String
  | goto => "goto"
  | cond => "if"
  | pass => "pass"
  | sp => "sp"
  | data => "data"
  | const => "const"
  | finish => "END"
  | align => "align"
  | syscall => "syscall"

def all : List Keyword := [goto, cond, pass, sp, data, const, finish, align, syscall]

/-- All keywords are in the list, so looking a word up in it finds every keyword. -/
theorem mem_all (k : Keyword) : k ∈ all := by cases k <;> decide

/-- The keyword that a word spells, if it spells one. -/
def ofWord? (word : String) : Option Keyword := all.find? fun k => k.spelling = word

end Keyword

/-- The units that a source text is made of. -/
inductive Token where
  | id (name : String)
  | keyword (k : Keyword)
  | number (value : Word)
  | wide
  | newline
  | eof
  | binary (op : BinOp)
  | compound (op : BinOp)
  | compare (c : Comparison)
  | assign
  | tilde
  | comma
  | hash
  | question
  | colon
  | openParen
  | closeParen
  | openSquare
  | closeSquare
deriving DecidableEq

namespace Token

/-- Punctuation and its spellings. -/
def punctuation : List (String × Token) :=
  [("=", assign), ("~", tilde), (",", comma), ("#", hash), ("?", question), (":", colon),
    ("(", openParen), (")", closeParen), ("[", openSquare), ("]", closeSquare)]

/-- Every operator and punctuation mark with its spelling. -/
def operators : List (String × Token) :=
  punctuation
    ++ BinOp.all.map (fun op => (op.spelling, binary op))
    ++ BinOp.all.map (fun op => (op.spelling ++ "=", compound op))
    ++ Comparison.all.map (fun c => (c.spelling, compare c))

/-- The token of a word: a keyword if it spells one, else an identifier. -/
def ofWord (word : String) : Token :=
  match Keyword.ofWord? word with
  | some k => keyword k
  | none => id word

def describe : Token → String
  | id name => "identifier `" ++ name ++ "`"
  | keyword k => "keyword `" ++ k.spelling ++ "`"
  | number value => "literal `" ++ toString value.toNat ++ "`"
  | wide => "`\x7bwide\x7d`"
  | newline => "end of line"
  | eof => "end of input"
  | binary op => "`" ++ op.spelling ++ "`"
  | compound op => "`" ++ op.spelling ++ "=`"
  | compare c => "`" ++ c.spelling ++ "`"
  | assign => "`=`"
  | tilde => "`~`"
  | comma => "`,`"
  | hash => "`#`"
  | question => "`?`"
  | colon => "`:`"
  | openParen => "`(`"
  | closeParen => "`)`"
  | openSquare => "`[`"
  | closeSquare => "`]`"

end Token

end Quadword
