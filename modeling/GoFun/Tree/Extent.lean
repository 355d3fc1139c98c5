import GoFun.Tree.Basic

/-!
# Extents of expressions

`Expr.start` is the position of the first byte of an expression and `Expr.stop` the position right
after its last one.
-/
namespace GoFun

def Ident.stop (id : Ident) : Pos := Pos.plus id.pos id.name.utf8ByteSize

def Expr.start : Expr → Pos
  | .ident id => id.pos
  | .lit l => l.pos
  | .paren lparen _ _ => lparen
  | .selector x _ => x.start
  | .index x _ _ _ => x.start
  | .call f _ _ _ _ => f.start
  | .star starPos _ => starPos
  | .unary opPos _ _ => opPos
  | .binary x _ _ _ => x.start
  | .array lbrack _ _ => lbrack
  | .map mapPos _ _ => mapPos
  | .chan chanPos _ _ => chanPos
  | .struct structPos _ => structPos
  | .composite (some type) _ _ _ => type.start
  | .composite none lbrace _ _ => lbrace
  | .keyValue key _ _ => key.start
  | .funcLit ⟨funcPos, _, _⟩ _ => funcPos
  | .slice x _ _ _ _ _ => x.start
  | .assertion x _ _ _ => x.start
  | .ellipsis dots _ => dots
  | .func ⟨funcPos, _, _⟩ => funcPos
  | .interface interfacePos _ => interfacePos

mutual

def Expr.stop : Expr → Pos
  | .ident id => id.stop
  | .lit l => Pos.plus l.pos l.text.utf8ByteSize
  | .paren _ _ rparen => Pos.plus rparen 1
  | .selector _ sel => sel.stop
  | .index _ _ _ rbrack => Pos.plus rbrack 1
  | .call _ _ _ _ rparen => Pos.plus rparen 1
  | .star _ x => x.stop
  | .unary _ _ x => x.stop
  | .binary _ _ _ y => y.stop
  | .array _ _ elem => elem.stop
  | .map _ _ value => value.stop
  | .chan _ _ value => value.stop
  | .struct _ ⟨_, _, closing⟩ => Pos.plus closing 1
  | .composite _ _ _ rbrace => Pos.plus rbrace 1
  | .keyValue _ _ value => value.stop
  | .funcLit _ ⟨_, _, rbrace⟩ => Pos.plus rbrace 1
  | .slice _ _ _ _ _ rbrack => Pos.plus rbrack 1
  | .assertion _ _ _ rparen => Pos.plus rparen 1
  | .ellipsis _ (some elem) => elem.stop
  | .ellipsis dots none => Pos.plus dots 3
  | .func type => type.stop
  | .interface _ ⟨_, _, closing⟩ => Pos.plus closing 1

/-- A signature ends with the bracket of its results, else with its only result type, else with the
bracket of its parameters. -/
def FuncType.stop : FuncType → Pos
  | ⟨_, ⟨_, _, closing⟩, none⟩ => Pos.plus closing 1
  | ⟨_, ⟨_, _, closing⟩, some ⟨_, list, resultsClosing⟩⟩ =>
    if resultsClosing.isSome then Pos.plus resultsClosing 1 else lastStop (Pos.plus closing 1) list

def lastStop (before : Pos) : List Field → Pos
  | [] => before
  | [⟨_, type, _⟩] => type.stop
  | _ :: fields => lastStop before fields

end

end GoFun
