import GoFun.Tree.Basic

/-!
# Blanks around binary operators

An operator has blanks around it when it binds less strongly than a cutoff, which follows from the
operators of the whole chain and from how deep the chain is nested: `a*b + c`, but `f(a*b+c, d)`.
Where an operator would run into a unary operator behind it, the cutoff is raised.
-/
namespace GoFun

/-- Binding strength of the outermost operator, 0 for all but binary expressions. -/
def Expr.strength : Expr → Nat
  | .binary _ _ op _ => op.precedence
  | _ => 0

/-- The operators of a chain: whether strengths 4 and 5 occur, and the greatest strength of an
operator that must stay apart from its right operand. -/
structure Mix where
  has4 : Bool := false
  has5 : Bool := false
  apart : Nat := 0
  deriving DecidableEq, Repr

def Mix.union (a b : Mix) : Mix := ⟨a.has4 || b.has4, a.has5 || b.has5, max a.apart b.apart⟩

/-- The strength of an operator that would form another token with the operand behind it, else 0. -/
def clash (op : BinaryOp) : Expr → Nat
  | .star _ _ => if op == .quo then 5 else 0
  | .unary _ u _ =>
    match op, u with
    | .and, .address | .and, .xor => 5
    | .add, .plus | .sub, .minus => 4
    | _, _ => 0
  | _ => 0

/-- Operands that get parentheses do not belong to the chain. -/
def Expr.mix : Expr → Mix
  | .binary x _ op y =>
    let p := op.precedence
    let here : Mix := ⟨p == 4, p == 5, clash op y⟩
    let left := if p ≤ x.strength then x.mix else {}
    let right := if p < y.strength then y.mix else {}
    here.union (left.union right)
  | _ => {}

/-- Operators weaker than this have blanks around them. -/
def cutoff (e : Expr) (depth : Nat) : Nat :=
  let mix := e.mix
  if 0 < mix.apart then mix.apart + 1
  else if mix.has4 && mix.has5 then if depth == 1 then 5 else 4
  else if depth == 1 then 6 else 4

/-- Parentheses undo one level of depth. -/
def shallower (depth : Nat) : Nat := max (depth - 1) 1

end GoFun
