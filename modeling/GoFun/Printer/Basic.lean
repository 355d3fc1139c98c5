import GoFun.Printer.Spacing
import GoFun.Tree.Extent

/-!
# Printing trees as Go source

Statements and expressions are printed in the common style of Go sources. Nested blocks are indented
by tabs. Arguments and elements that start a new line in the source start one in the print, too, so
the printer needs the source map of the tree.
-/
namespace GoFun

/-- Where an expression stands. -/
structure Slot where
  /-- Binding strength that the place asks for: 6 behind a unary operator, 7 before a suffix. -/
  strength : Nat := 0
  /-- Grows with the nesting inside calls and indices. -/
  depth : Nat := 1
  /-- Parentheses around the whole expression are dropped here. -/
  bare : Bool := false
  deriving DecidableEq, Repr

def tabs (level : Nat) : String := String.ofList (List.replicate level '\t')

def commas (parts : List String) : String := ", ".intercalate parts

def Ident.names (ids : List Ident) : String := commas (ids.map Ident.name)

def Expr.isParen : Expr → Bool
  | .paren _ _ _ => true
  | _ => false

def Expr.isBinary : Expr → Bool
  | .binary _ _ _ _ => true
  | _ => false

/-- Longest function body, with its signature, that may stay on one line, in bytes. -/
def maxInlineBody : Nat := 100

/-- The body of a function on one line, when it fits there. -/
def inlineBody? (signature : String) (stmts : List String) : Option String :=
  let text := "; ".intercalate stmts
  if stmts.isEmpty then some "\x7b\x7d"
  else if text.contains '\n' || maxInlineBody < signature.utf8ByteSize + text.utf8ByteSize then none
  else some ("\x7b " ++ text ++ " \x7d")

/-- Whether the colons of a slice have blanks around them. -/
def sliceBlanks (depth : Nat) (low high max : Option Expr) : Bool :=
  let present := [low, high, max].filterMap id
  depth ≤ 1 && 1 < present.length && present.any Expr.isBinary

def sliceColon (blanks : Bool) (before after : Option Expr) : String :=
  (if before.isSome && blanks then " " else "") ++ ":" ++
    (if after.isSome && blanks then " " else "")

/-- What stands between the last item of a list and the closing bracket. -/
def closeItems (m : SourceMap) (level lastLine : Nat) (isEmpty : Bool) (closing : Pos) : String :=
  if 0 < lastLine && lastLine < m.line closing then
    (if isEmpty then "" else ",") ++ "\n" ++ tabs level
  else ""

/-- Labels stand one level to the left. -/
def Stmt.indent (level : Nat) : Stmt → String
  | .labeled _ _ _ => tabs (level - 1)
  | _ => tabs level

mutual

def Expr.print (m : SourceMap) (level : Nat) (slot : Slot) : Expr → String
  | .ident id => id.name
  | .lit l => l.text
  | .paren _ x _ =>
    if slot.bare then x.print m level { bare := true }
    else if x.isParen then x.print m level { depth := slot.depth }
    else "(" ++ x.print m level { depth := shallower slot.depth } ++ ")"
  | .selector x sel => x.print m level { strength := 7, depth := slot.depth } ++ "." ++ sel.name
  | .index x _ i _ =>
    x.print m level { strength := 7 } ++ "[" ++ i.print m level { depth := slot.depth + 1 } ++ "]"
  | .call f lparen args dots rparen =>
    let depth := if 1 < args.length then slot.depth + 1 else slot.depth
    let (items, last) := printItems m (level + 1) depth (m.line lparen) true args
    f.print m level { strength := 7, depth } ++ "(" ++ items ++
      (if dots.isSome then "..." else "") ++ closeItems m level last args.isEmpty rparen ++ ")"
  | .star _ x =>
    let text := "*" ++ x.print m level {}
    if 6 < slot.strength then "(" ++ text ++ ")" else text
  | .unary _ op x =>
    if 6 < slot.strength then "(" ++ op.symbol ++ x.print m level { strength := 6 } ++ ")"
    else op.symbol ++ x.print m level { strength := 6, depth := slot.depth }
  | .binary x opPos op y =>
    let p := op.precedence
    let enclosed := decide (p < slot.strength)
    let depth := if enclosed then shallower slot.depth else slot.depth
    let blank := if p < cutoff (.binary x opPos op y) slot.depth then " " else ""
    let left := x.print m level
      { strength := p, depth := if x.strength == p then depth else depth + 1 }
    let right := y.print m level { strength := p + 1, depth := depth + 1 }
    let text := left ++ blank ++ op.symbol ++ blank ++ right
    if enclosed then "(" ++ text ++ ")" else text
  | .array _ len elem => "[" ++ printExpr? m level {} len ++ "]" ++ elem.print m level {}
  | .map _ key value => "map[" ++ key.print m level {} ++ "]" ++ value.print m level {}
  | .chan _ dir value => dir.symbol ++ " " ++ value.print m level {}
  | .struct _ fields => "struct" ++ fields.printBraced m level
  | .composite type lbrace elems rbrace =>
    let (items, last) := printItems m (level + 1) 1 (m.line lbrace) true elems
    printExpr? m level { strength := 7, depth := slot.depth } type ++ "\x7b" ++ items ++
      closeItems m level last elems.isEmpty rbrace ++ "\x7d"
  | .keyValue key _ value =>
    key.print m level { depth := slot.depth } ++ ": " ++ value.print m level { depth := slot.depth }
  | .funcLit type ⟨lbrace, list, rbrace⟩ =>
    let signature := type.printSignature m level
    let oneLine :=
      if m.line lbrace == m.line rbrace then inlineBody? signature (printStmts m level list)
      else none
    "func" ++ signature ++ " " ++ match oneLine with
      | some body => body
      | none => "\x7b\n" ++ printLines m (level + 1) list ++ tabs level ++ "\x7d"
  | .slice x _ low high max _ =>
    let blanks := sliceBlanks slot.depth low high max
    let inner : Slot := { depth := slot.depth + 1 }
    x.print m level { strength := 7 } ++ "[" ++ printExpr? m level inner low ++
      sliceColon blanks low high ++ printExpr? m level inner high ++
      (if max.isSome then sliceColon blanks high max else "") ++ printExpr? m level inner max ++ "]"
  | .assertion x _ type _ =>
    x.print m level { strength := 7, depth := slot.depth } ++ ".(" ++
      (if type.isSome then printExpr? m level {} type else "type") ++ ")"
  | .ellipsis _ elem => "..." ++ printExpr? m level {} elem
  | .func type => "func" ++ type.printSignature m level
  | .interface _ methods => "interface" ++ methods.printBraced m level

def printExprs (m : SourceMap) (level : Nat) (slot : Slot) : List Expr → List String
  | [] => []
  | e :: es => e.print m level slot :: printExprs m level slot es

def printExpr? (m : SourceMap) (level : Nat) (slot : Slot) : Option Expr → String
  | none => ""
  | some e => e.print m level slot

/-- The items of a list in brackets, and the source line on which the last one ends. The line before
the first item is that of the opening bracket. -/
def printItems (m : SourceMap) (level depth line : Nat) (first : Bool) : List Expr → String × Nat
  | [] => ("", line)
  | e :: es =>
    let breaks := decide (0 < line && line < m.line e.start)
    let comma := if first then "" else if breaks then "," else ", "
    let newLine := if breaks then "\n" ++ tabs level else ""
    let (rest, last) := printItems m level depth (m.line e.stop) false es
    (comma ++ newLine ++ e.print m level { depth } ++ rest, last)

/-- The fields of a struct or the methods of an interface, in braces. -/
def FieldList.printBraced (m : SourceMap) (level : Nat) : FieldList → String
  | ⟨_, list, _⟩ =>
    if list.isEmpty then "\x7b\x7d"
    else
      let lines := (printFields m (level + 1) list).map fun line => tabs (level + 1) ++ line ++ "\n"
      " \x7b\n" ++ String.join lines ++ tabs level ++ "\x7d"

/-- The methods of an interface are written without the word `func`. -/
def printFields (m : SourceMap) (level : Nat) : List Field → List String
  | [] => []
  | ⟨ids, .func type, tag⟩ :: fields =>
    let names := Ident.names ids
    let word := if names.isEmpty then "func" else if type.funcPos.isSome then " func" else ""
    (names ++ word ++ type.printSignature m level ++ (tag.map (" " ++ ·.text)).getD "") ::
      printFields m level fields
  | ⟨ids, type, tag⟩ :: fields =>
    let names := Ident.names ids
    let blank := if names.isEmpty then "" else " "
    (names ++ blank ++ type.print m level {} ++ (tag.map (" " ++ ·.text)).getD "") ::
      printFields m level fields

/-- A single result without a name has no parentheses. -/
def FuncType.printSignature (m : SourceMap) (level : Nat) : FuncType → String
  | ⟨_, ⟨_, params, _⟩, results⟩ =>
    "(" ++ commas (printFields m level params) ++ ")" ++ printResults m level results

def printResults (m : SourceMap) (level : Nat) : Option FieldList → String
  | none => ""
  | some ⟨_, [], _⟩ => ""
  | some ⟨_, [⟨[], type, _⟩], _⟩ => " " ++ type.print m level { bare := true }
  | some ⟨_, list, _⟩ => " (" ++ commas (printFields m level list) ++ ")"

def Block.print (m : SourceMap) (level : Nat) : Block → String
  | ⟨_, list, _⟩ => "\x7b\n" ++ printLines m (level + 1) list ++ tabs level ++ "\x7d"

/-- The clauses of a switch or select stand below its first word. -/
def Block.printClauses (m : SourceMap) (level : Nat) : Block → String
  | ⟨_, list, _⟩ =>
    let lines := (printStmts m level list).map fun clause => tabs level ++ clause ++ "\n"
    "\x7b\n" ++ String.join lines ++ tabs level ++ "\x7d"

def printSpecs (m : SourceMap) (level : Nat) : List Spec → List String
  | [] => []
  | .value names type values :: specs =>
    let value := if values.isEmpty then "" else " = " ++ commas (printExprs m level {} values)
    (Ident.names names ++ (if type.isSome then " " else "") ++ printExpr? m level {} type ++
      value) ::
      printSpecs m level specs
  | .type name equals type :: specs =>
    (name.name ++ (if equals.isSome then " = " else " ") ++ type.print m level {}) ::
      printSpecs m level specs

def GenDecl.print (m : SourceMap) (level : Nat) : GenDecl → String
  | ⟨_, word, lparen, specs, _⟩ =>
    if lparen.isSome then
      let lines := (printSpecs m (level + 1) specs).map fun spec => tabs (level + 1) ++ spec ++ "\n"
      word.word ++ " (\n" ++ String.join lines ++ tabs level ++ ")"
    else word.word ++ String.join ((printSpecs m level specs).map (" " ++ ·))

def Stmt.print (m : SourceMap) (level : Nat) : Stmt → String
  | .decl d => d.print m level
  | .expr x => x.print m level {}
  | .assign lhs _ op rhs =>
    let slot : Slot := { depth := if 1 < lhs.length && 1 < rhs.length then 2 else 1 }
    commas (printExprs m level slot lhs) ++ " " ++ op.symbol ++ " " ++
      commas (printExprs m level slot rhs)
  | .incDec x _ step => x.print m level { depth := 2 } ++ step.symbol
  | .ret _ results =>
    if results.isEmpty then "return" else "return " ++ commas (printExprs m level {} results)
  | .jump _ word label => word.word ++ (label.map (" " ++ ·.name)).getD ""
  | .block b => b.print m level
  | .ifElse _ init cond body other =>
    "if " ++ printStmt? m level "; " init ++ cond.print m level { bare := true } ++ " " ++
      body.print m level ++ (if other.isSome then " else " else "") ++ printStmt? m level "" other
  | .forLoop _ init cond post body =>
    let condition := printExpr? m level { bare := true } cond
    let header :=
      if init.isNone && post.isNone then condition ++ (if cond.isSome then " " else "")
      else printStmt? m level "" init ++ "; " ++ condition ++ "; " ++ printStmt? m level " " post
    "for " ++ header ++ body.print m level
  | .range _ key value _ op x body =>
    let vars :=
      if key.isSome then
        printExpr? m level {} key ++ (if value.isSome then ", " else "") ++
          printExpr? m level {} value ++ (op.map fun o => " " ++ o.symbol ++ " ").getD ""
      else ""
    "for " ++ vars ++ "range " ++ x.print m level { bare := true } ++ " " ++ body.print m level
  | .go _ call => "go " ++ call.print m level {}
  | .defer _ call => "defer " ++ call.print m level {}
  | .labeled label _ stmt => label.name ++ ":\n" ++ tabs level ++ stmt.print m level
  | .send chan _ value => chan.print m level {} ++ " <- " ++ value.print m level {}
  | .switch _ init tag body =>
    "switch " ++ printStmt? m level "; " init ++ printExpr? m level { bare := true } tag ++
      (if tag.isSome then " " else "") ++ body.printClauses m level
  | .typeSwitch _ init guard body =>
    "switch " ++ printStmt? m level "; " init ++ guard.print m level ++ " " ++
      body.printClauses m level
  | .select _ body => "select " ++ body.printClauses m level
  | .caseClause _ list _ body =>
    (if list.isEmpty then "default:" else "case " ++ commas (printExprs m level {} list) ++ ":") ++
      printClauseBody m (level + 1) body
  | .commClause _ comm _ body =>
    (if comm.isSome then "case " ++ printStmt? m level "" comm ++ ":" else "default:") ++
      printClauseBody m (level + 1) body

def printStmts (m : SourceMap) (level : Nat) : List Stmt → List String
  | [] => []
  | s :: ss => s.print m level :: printStmts m level ss

/-- A statement that is there is followed by `after`. -/
def printStmt? (m : SourceMap) (level : Nat) (after : String) : Option Stmt → String
  | none => ""
  | some s => s.print m level ++ after

/-- Statements on lines of their own. -/
def printLines (m : SourceMap) (level : Nat) : List Stmt → String
  | [] => ""
  | s :: ss => s.indent level ++ s.print m level ++ "\n" ++ printLines m level ss

def printClauseBody (m : SourceMap) (level : Nat) : List Stmt → String
  | [] => ""
  | s :: ss => "\n" ++ s.indent level ++ s.print m level ++ printClauseBody m level ss

end

/-- A statement as it stands at the left margin. -/
def Stmt.text (m : SourceMap) (s : Stmt) : String := s.print m 0

def Expr.text (m : SourceMap) (e : Expr) : String := e.print m 0 {}

end GoFun
