/-!
# Operators and keywords of trees

The closed sets of operators, directions and declaring words that a Go tree holds, each with its
spelling. Binary operators also have a binding strength.
-/
namespace GoFun

inductive UnaryOp where
  | plus | minus | not | xor | address | receive
  deriving DecidableEq, Repr

namespace UnaryOp

def symbol : UnaryOp → String
  | plus => "+"
  | minus => "-"
  | not => "!"
  | xor => "^"
  | address => "&"
  | receive => "<-"

def all : List UnaryOp := [plus, minus, not, xor, address, receive]

def ofSymbol? (s : String) : Option UnaryOp := all.find? (·.symbol == s)

end UnaryOp

inductive BinaryOp where
  | lor | land
  | eql | neq | lss | leq | gtr | geq
  | add | sub | or | xor
  | mul | quo | rem | shl | shr | and | andNot
  deriving DecidableEq, Repr

namespace BinaryOp

def symbol : BinaryOp → String
  | lor => "||"
  | land => "&&"
  | eql => "=="
  | neq => "!="
  | lss => "<"
  | leq => "<="
  | gtr => ">"
  | geq => ">="
  | add => "+"
  | sub => "-"
  | or => "|"
  | xor => "^"
  | mul => "*"
  | quo => "/"
  | rem => "%"
  | shl => "<<"
  | shr => ">>"
  | and => "&"
  | andNot => "&^"

/-- Binding strength, from 1 for `||` to 5 for `*`. -/
def precedence : BinaryOp → Nat
  | lor => 1
  | land => 2
  | eql | neq | lss | leq | gtr | geq => 3
  | add | sub | or | xor => 4
  | mul | quo | rem | shl | shr | and | andNot => 5

def all : List BinaryOp :=
  [lor, land, eql, neq, lss, leq, gtr, geq, add, sub, or, xor, mul, quo, rem, shl, shr, and, andNot]

def ofSymbol? (s : String) : Option BinaryOp := all.find? (·.symbol == s)

end BinaryOp

inductive AssignOp where
  | assign | define
  | add | sub | mul | quo | rem | and | or | xor | shl | shr | andNot
  deriving DecidableEq, Repr

namespace AssignOp

def symbol : AssignOp → String
  | assign => "="
  | define => ":="
  | add => "+="
  | sub => "-="
  | mul => "*="
  | quo => "/="
  | rem => "%="
  | and => "&="
  | or => "|="
  | xor => "^="
  | shl => "<<="
  | shr => ">>="
  | andNot => "&^="

def all : List AssignOp :=
  [assign, define, add, sub, mul, quo, rem, and, or, xor, shl, shr, andNot]

def ofSymbol? (s : String) : Option AssignOp := all.find? (·.symbol == s)

end AssignOp

inductive Step where
  | inc | dec
  deriving DecidableEq, Repr

def Step.symbol : Step → String
  | inc => "++"
  | dec => "--"

inductive Jump where
  | brk | cont | goto | fallthrough
  deriving DecidableEq, Repr

def Jump.word : Jump → String
  | brk => "break"
  | cont => "continue"
  | goto => "goto"
  | fallthrough => "fallthrough"

/-- The word that opens a declaration of variables, constants or types. -/
inductive DeclWord where
  | var | const | type
  deriving DecidableEq, Repr

def DeclWord.word : DeclWord → String
  | var => "var"
  | const => "const"
  | type => "type"

inductive ChanDir where
  | both | send | receive
  deriving DecidableEq, Repr

namespace ChanDir

def symbol : ChanDir → String
  | both => "chan"
  | send => "chan<-"
  | receive => "<-chan"

def ofSymbol? (s : String) : Option ChanDir := [both, send, receive].find? (·.symbol == s)

end ChanDir

end GoFun
