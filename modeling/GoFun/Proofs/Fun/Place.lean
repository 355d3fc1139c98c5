import GoFun.Fun.Lowering
import GoFun.Proofs.Printer.Place

/-!
# Lowering does not depend on the place

A tree that stands further down in a text is lowered to the same module. Where it is not lowered,
the failures have the same cause, and only the positions in the part that they show differ.
-/
namespace GoFun.Fun

/-- The same reason, or the same error in a literal. -/
inductive Failure.SameCause : Failure → Failure → Prop where
  | unsupported (reason : Reason) (part part' : Outline) : SameCause (.unsupported reason part)
    (.unsupported reason part')
  | integer (cause : Number.IntegerError) : SameCause (.integer cause) (.integer cause)
  | double (cause : Number.DoubleError) : SameCause (.double cause) (.double cause)

theorem Failure.SameCause.refl : ∀ failure : Failure, failure.SameCause failure
  | .unsupported reason part => .unsupported reason part part
  | .integer cause => .integer cause
  | .double cause => .double cause

/-- Two lowerings have the same result, or fail for the same cause. -/
def Matches {α : Type} : Lowering α → Lowering α → Prop
  | .ok a, .ok a' => a = a'
  | .error failure, .error failure' => failure.SameCause failure'
  | _, _ => False

namespace Matches

variable {α β : Type} {x x' : Lowering α}

theorem refl : ∀ x : Lowering α, Matches x x
  | .ok _ => rfl
  | .error failure => Failure.SameCause.refl failure

theorem unsupported (reason : Reason) (part part' : Outline) :
    Matches (Fun.unsupported reason part : Lowering α) (Fun.unsupported reason part') :=
  Failure.SameCause.unsupported reason part part'

theorem bind {k k' : α → Lowering β} (hx : Matches x x') (hk : ∀ a, Matches (k a) (k' a)) :
    Matches (x >>= k) (x' >>= k') := by
  match x, x', hx with
  | .ok a, .ok _, rfl => exact hk a
  | .error _, .error _, h => exact h

theorem eq_ok_iff (h : Matches x x') (a : α) : x' = .ok a ↔ x = .ok a := by
  match x, x', h with
  | .ok b, .ok _, rfl => exact Iff.rfl
  | .error _, .error _, _ => exact ⟨nofun, nofun⟩

theorem sameCause {failure failure' : Failure} (h : Matches x x') (hx : x = .error failure)
    (hx' : x' = .error failure') :
    failure.SameCause failure' := by
  subst hx hx'
  exact h

end Matches

section Place

variable (c : Config) (f : Pos → Pos)

theorem lowerLiteral_place (l : Literal) :
    Matches (lowerLiteral c l) (lowerLiteral c (l.place f)) := by
  obtain ⟨pos, kind, text⟩ := l
  cases kind with
  | int | float | string => exact .refl _
  | imag => exact .unsupported ..
  | char =>
    simp only [lowerLiteral, Literal.place, lowerChar]
    split
    · exact .unsupported ..
    · exact .refl _
    · split
      · exact .unsupported ..
      · exact .refl _

theorem lowerIdent_place (id : Ident) : Matches (lowerIdent id) (lowerIdent (id.place f)) := by
  obtain ⟨pos, name, obj⟩ := id
  cases obj with
  | none => exact .unsupported ..
  | some obj => exact .refl _

mutual

theorem lowerExpr_place (e : GoFun.Expr) : Matches (lowerExpr c e) (lowerExpr c (e.place f)) := by
  cases e with
  | ident id => exact lowerIdent_place f id
  | binary x _ _ y =>
    exact (lowerExpr_place x).bind fun _ => (lowerExpr_place y).bind fun _ => .refl _
  | selector x _ =>
    cases x with
    | ident => exact .refl _
    | _ => exact .unsupported ..
  | call g _ args _ _ =>
    refine (lowerExpr_place g).bind fun callee => ?_
    cases callee with
    | funcName => exact (lowerExprs_place args).bind fun _ => .refl _
    | _ => exact .unsupported ..
  | lit l => exact lowerLiteral_place c f l
  | _ => exact .unsupported ..

theorem lowerExprs_place (es : List GoFun.Expr) :
    Matches (lowerExprs c es) (lowerExprs c (placeExprs f es)) := by
  cases es with
  | nil => exact .refl _
  | cons e es => exact (lowerExpr_place e).bind fun _ => (lowerExprs_place es).bind fun _ => .refl _

end

theorem lowerStmt_place (s : Stmt) : Matches (lowerStmt c s) (lowerStmt c (s.place f)) := by
  cases s with
  | ret retPos results =>
    match results with
    | [] => exact .unsupported ..
    | [result] => exact lowerExpr_place c f result
    | e :: e' :: es => exact (lowerExprs_place c f (e :: e' :: es)).bind fun _ => .refl _
  | expr x => exact lowerExpr_place c f x
  | _ => exact .unsupported ..

theorem lowerType_place (t : GoFun.Expr) : Matches (lowerType t) (lowerType (t.place f)) := by
  cases t with
  | ident => exact .refl _
  | _ => exact .unsupported ..

theorem lowerParams_place :
    ∀ fields : List Field, Matches (lowerParams fields) (lowerParams (placeFields f fields)) := by
  intro fields
  induction fields with
  | nil => exact .refl _
  | cons field fields ih =>
    obtain ⟨names, t, tag⟩ := field
    refine (lowerType_place f t).bind fun ty => ih.bind fun _ => ?_
    simp only [List.map_map]
    exact .refl _

theorem lowerResults_place :
    ∀ fields : List Field, Matches (lowerResults fields) (lowerResults (placeFields f fields)) := by
  intro fields
  induction fields with
  | nil => exact .refl _
  | cons field fields ih =>
    obtain ⟨names, t, tag⟩ := field
    exact (lowerType_place f t).bind fun _ => ih.bind fun _ => .refl _

theorem lowerImports_place : ∀ specs : List ImportSpec,
    Matches (lowerImports c specs) (lowerImports c (specs.map (ImportSpec.place f)))
  | [] => .refl _
  | ⟨name, path⟩ :: specs => by
    have hspec :
        Matches (lowerImport c ⟨name, path⟩) (lowerImport c (ImportSpec.place f ⟨name, path⟩)) := by
      cases name with
      | some name => exact .unsupported ..
      | none =>
        refine (lowerExpr_place c f path).bind fun e => ?_
        cases e with
        | string => exact .refl _
        | _ => exact .unsupported ..
    exact hspec.bind fun _ => (lowerImports_place specs).bind fun _ => .refl _

end Place

section Files

variable {m m' : SourceMap} {k lines : Nat} (hm : SourceMap.Follows k lines m m') (c : Config)

include hm

theorem lowerBody_place (stmts : List Stmt) :
    Matches (lowerBody m c stmts) (lowerBody m' c (placeStmts (Option.map (· + k)) stmts)) := by
  have htexts : (placeStmts (Option.map (· + k)) stmts).map (·.text m') = stmts.map (·.text m) := by
    simp only [placeStmts_eq_map, List.map_map, Function.comp_def, Stmt.text, Stmt.print_place hm]
  match stmts with
  | [] => exact .refl _
  | [s] => exact (lowerStmt_place c _ s).bind fun _ => .refl _
  | s :: s' :: ss => exact congrArg Body.inline htexts.symm

theorem lowerFunction_place (d : FuncDecl) :
    Matches (lowerFunction m c d) (lowerFunction m' c (d.place (Option.map (· + k)))) := by
  obtain ⟨funcPos, recv, name, ⟨opening, params, closing⟩, results, body⟩ := d
  have hresults : Matches (lowerResults ((results.map FieldList.list).getD []))
      (lowerResults (((placeFieldList? (Option.map (· + k)) results).map FieldList.list).getD
        [])) := by
    cases results with
    | none => exact .refl _
    | some fields =>
      obtain ⟨_, list, _⟩ := fields
      exact lowerResults_place _ list
  refine (lowerParams_place _ params).bind fun _ => hresults.bind fun _ => ?_
  cases body with
  | none => exact .unsupported ..
  | some body =>
    obtain ⟨_, list, _⟩ := body
    exact (lowerBody_place hm c list).bind fun _ => .refl _

theorem lowerDecls_place : ∀ decls : List Decl,
    Matches (lowerDecls m c decls) (lowerDecls m' c (decls.map (Decl.place (Option.map (· + k)))))
  | [] => .refl _
  | .func d :: decls => (lowerFunction_place hm c d).bind fun _ => (lowerDecls_place decls).bind
      fun _ => .refl _
  | .gen g :: decls => by
    simp only [List.map_cons, Decl.place, lowerDecls]
    split
    · exact .unsupported ..
    · exact lowerDecls_place decls

theorem lowerFile_place (file : File) :
    Matches (lowerFile m c file) (lowerFile m' c (file.place (Option.map (· + k)))) :=
  (lowerImports_place c _ file.imports).bind fun _ =>
    (lowerDecls_place hm c file.decls).bind fun _ => .refl _

end Files

end GoFun.Fun
