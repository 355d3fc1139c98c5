import GoFun.Printer.Basic
import GoFun.Proofs.Tree.Place

/-!
# Printing does not depend on the place

The printer asks of the source map only which of two positions stands on the earlier line. So a tree
is printed in the same way when it stands further down in a text, as long as all its lines move down
together.
-/
namespace GoFun

/-- A line that is known is later by `c`. -/
def Below (c line line' : Nat) : Prop := line = 0 ∧ line' = 0 ∨ 0 < line ∧ line' = line + c

/-- The lines of positions `k` bytes further on are later by `c`. -/
def SourceMap.Follows (k c : Nat) (m m' : SourceMap) : Prop :=
  ∀ p : Pos, Below c (m.line p) (m'.line (p.map (· + k)))

theorem Below.breaks (ha : Below c a a') (hb : Below c b b') :
    (decide (0 < a') && decide (a' < b')) = (decide (0 < a) && decide (a < b)) := by
  simp only [Below] at ha hb
  rw [← Bool.decide_and, ← Bool.decide_and]
  exact decide_eq_decide.2 (by omega)

theorem Below.same (ha : Below c a a') (hb : Below c b b') : (a' == b') = (a == b) := by
  simp only [Below] at ha hb
  exact Bool.eq_iff_iff.2 (by simp only [beq_iff_eq]; omega)

theorem Pos.plus_map (k n : Nat) (p : Pos) :
    Pos.plus (p.map (· + k)) n = (Pos.plus p n).map (· + k) := by
  cases p <;> simp [Pos.plus, Nat.add_right_comm]

variable (f : Pos → Pos)

theorem Expr.start_place (e : Expr) : (e.place f).start = f e.start := by
  cases e with
  | selector x _ | index x _ _ _ | call x _ _ _ _ | binary x _ _ _ | keyValue x _ _
  | slice x _ _ _ _ _ | assertion x _ _ _ => exact x.start_place
  | composite t _ _ _ =>
    cases t with
    | none => rfl
    | some x => exact x.start_place
  | func t | funcLit t _ => cases t; rfl
  | _ => rfl

mutual

theorem Expr.stop_place (k : Nat) (e : Expr) :
    (e.place (Option.map (· + k))).stop = e.stop.map (· + k) := by
  cases e with
  | star _ x | unary _ _ x | binary _ _ _ x | array _ _ x | map _ _ x | chan _ _ x
  | keyValue _ _ x => exact x.stop_place k
  | ellipsis _ elem =>
    cases elem with
    | none => exact Pos.plus_map k _ _
    | some x => exact x.stop_place k
  | func t => exact t.stop_place k
  | struct _ fields | interface _ fields => cases fields; exact Pos.plus_map k _ _
  | funcLit _ body => cases body; exact Pos.plus_map k _ _
  | _ => exact Pos.plus_map k _ _

theorem FuncType.stop_place (k : Nat) :
    ∀ t : FuncType, (t.place (Option.map (· + k))).stop = t.stop.map (· + k)
  | ⟨_, ⟨_, _, _⟩, none⟩ => Pos.plus_map k _ _
  | ⟨_, ⟨_, _, closing⟩, some ⟨_, list, resultsClosing⟩⟩ => by
    have hlast := lastStop_place k (Pos.plus closing 1) list
    cases resultsClosing with
    | none => simpa [FuncType.place, placeFieldList?, FieldList.place, FuncType.stop, Pos.plus_map] using hlast
    | some p => simp [FuncType.place, placeFieldList?, FieldList.place, FuncType.stop, Pos.plus]; omega

theorem lastStop_place (k : Nat) (before : Pos) : ∀ fields : List Field,
    lastStop (before.map (· + k)) (placeFields (Option.map (· + k)) fields) = (lastStop before fields).map (· + k)
  | [] => rfl
  | [⟨_, t, _⟩] => t.stop_place k
  | ⟨_, _, _⟩ :: ⟨names, t, tag⟩ :: fields => lastStop_place k before (⟨names, t, tag⟩ :: fields)

end

@[simp] theorem Expr.isParen_place (e : Expr) : (e.place f).isParen = e.isParen := by
  cases e <;> rfl

@[simp] theorem Expr.isBinary_place (e : Expr) : (e.place f).isBinary = e.isBinary := by
  cases e <;> rfl

@[simp] theorem Expr.strength_place (e : Expr) : (e.place f).strength = e.strength := by
  cases e <;> rfl

@[simp] theorem clash_place (op : BinaryOp) (e : Expr) : clash op (e.place f) = clash op e := by
  cases e <;> rfl

theorem Expr.mix_place (e : Expr) : (e.place f).mix = e.mix := by
  cases e with
  | binary x _ _ y => simp [Expr.place, Expr.mix, x.mix_place, y.mix_place]
  | _ => rfl

theorem cutoff_place (e : Expr) (depth : Nat) : cutoff (e.place f) depth = cutoff e depth := by
  simp only [cutoff, e.mix_place f]

theorem sliceBlanks_place (depth : Nat) (low high max : Option Expr) :
    sliceBlanks depth (placeExpr? f low) (placeExpr? f high) (placeExpr? f max) =
      sliceBlanks depth low high max := by
  cases low <;> cases high <;> cases max <;> simp [sliceBlanks, placeExpr?]

@[simp] theorem isSome_placeExpr? (e : Option Expr) : (placeExpr? f e).isSome = e.isSome := by
  cases e <;> rfl

@[simp] theorem isSome_placeStmt? (s : Option Stmt) : (placeStmt? f s).isSome = s.isSome := by
  cases s <;> rfl

@[simp] theorem isNone_placeStmt? (s : Option Stmt) : (placeStmt? f s).isNone = s.isNone := by
  cases s <;> rfl

@[simp] theorem isEmpty_placeExprs (es : List Expr) : (placeExprs f es).isEmpty = es.isEmpty := by
  cases es <;> rfl

@[simp] theorem length_placeExprs (es : List Expr) : (placeExprs f es).length = es.length := by
  simp [placeExprs_eq_map]

@[simp] theorem isEmpty_placeFields (fields : List Field) :
    (placeFields f fields).isEmpty = fields.isEmpty := by
  simp [placeFields_eq_map]

theorem Ident.names_place (ids : List Ident) :
    Ident.names (ids.map (Ident.place f)) = Ident.names ids := by
  simp [Ident.names, Ident.place, Function.comp_def]

theorem sliceColon_place (blanks : Bool) (before after : Option Expr) :
    sliceColon blanks (placeExpr? f before) (placeExpr? f after) =
      sliceColon blanks before after := by
  simp [sliceColon]

theorem Stmt.indent_place (level : Nat) (s : Stmt) : (s.place f).indent level = s.indent level := by
  cases s <;> rfl

/-- All that the printer sees of positions is the same at the other place. -/
structure SourceMap.Alike (m m' : SourceMap) : Prop where
  isSome (p : Pos) : (f p).isSome = p.isSome
  stop (e : Expr) : (e.place f).stop = f e.stop
  breaks (p q : Pos) : (decide (0 < m'.line (f p)) && decide (m'.line (f p) < m'.line (f q))) =
    (decide (0 < m.line p) && decide (m.line p < m.line q))
  same (p q : Pos) : (m'.line (f p) == m'.line (f q)) = (m.line p == m.line q)

variable {f} {m m' : SourceMap}
variable {c a a' b b' k : Nat}

theorem SourceMap.Follows.alike (h : SourceMap.Follows k c m m') :
    Alike (Option.map (· + k)) m m' where
  isSome _ := Option.isSome_map
  stop := Expr.stop_place k
  breaks p q := (h p).breaks (h q)
  same p q := (h p).same (h q)

theorem closeItems_place (hm : SourceMap.Alike f m m') (level : Nat) (p : Pos) (isEmpty : Bool)
    (closing : Pos) :
    closeItems m' level (m'.line (f p)) isEmpty (f closing) =
      closeItems m level (m.line p) isEmpty closing := by
  simp only [closeItems, hm.breaks]

theorem cutoff_binary_place (x y : Expr) (opPos : Pos) (op : BinaryOp) (depth : Nat) :
    cutoff (.binary (x.place f) (f opPos) op (y.place f)) depth =
      cutoff (.binary x opPos op y) depth :=
  cutoff_place f (.binary x opPos op y) depth

theorem printField_place {names : List Ident} {t : Expr} {tag : Option Literal}
    {fields : List Field} {level : Nat} (hm : SourceMap.Alike f m m')
    (ht : (t.place f).print m' level {} = t.print m level {})
    (hrest : printFields m' level (placeFields f fields) = printFields m level fields) :
    printFields m' level (placeFields f (⟨names, t, tag⟩ :: fields)) =
      printFields m level (⟨names, t, tag⟩ :: fields) := by
  have htag : ((tag.map (Literal.place f)).map (" " ++ ·.text)).getD "" =
      (tag.map (" " ++ ·.text)).getD "" := by
    cases tag <;> rfl
  cases t with
  | func t =>
    -- the word in front is the same, so the signatures are
    have hsig : (t.place f).printSignature m' level = t.printSignature m level := by
      simpa only [Expr.place, Expr.print, String.append_right_inj] using ht
    obtain ⟨funcPos, _, _⟩ := t
    simp only [placeFields, Expr.place, FuncType.place] at hsig ⊢
    simp only [printFields, hsig, hrest, htag, Ident.names_place, hm.isSome]
  | _ => simp only [placeFields, Expr.place, printFields] at ht ⊢; simp only [ht, hrest, htag, Ident.names_place]

theorem printResults_place {level : Nat} : ∀ {results : Option FieldList},
    (∀ fields ∈ results, printFields m' level (placeFields f fields.list) = printFields m level fields.list ∧
      ∀ field ∈ fields.list, ∀ slot, (field.type.place f).print m' level slot =
      field.type.print m level slot) →
    printResults m' level (placeFieldList? f results) = printResults m level results
  | none, _ => rfl
  | some ⟨_, [], _⟩, _ => rfl
  | some ⟨_, [⟨[], t, _⟩], _⟩,
    h => by simp_all [placeFieldList?, FieldList.place, placeFields, printResults]
  | some ⟨_, ⟨_ :: _, _, _⟩ :: _, _⟩, h | some ⟨_, ⟨[], _, _⟩ :: ⟨_, _, _⟩ :: _, _⟩, h =>
    congrArg (fun parts => " (" ++ commas parts ++ ")") (h _ rfl).1

theorem print_place_all (hm : SourceMap.Alike f m m') :
    (∀ (e : Expr) level slot, (e.place f).print m' level slot = e.print m level slot) ∧
    (∀ (b : Block) level, (b.place f).print m' level = b.print m level ∧
      (b.place f).printClauses m' level = b.printClauses m level ∧
      printStmts m' level (placeStmts f b.list) = printStmts m level b.list ∧
      printLines m' level (placeStmts f b.list) = printLines m level b.list) ∧
    (∀ ss level, printStmts m' level (placeStmts f ss) = printStmts m level ss ∧
      printLines m' level (placeStmts f ss) = printLines m level ss ∧
      printClauseBody m' level (placeStmts f ss) = printClauseBody m level ss) ∧
    (∀ (s : Stmt) level, (s.place f).print m' level = s.print m level) ∧
    (∀ e level slot, printExpr? m' level slot (placeExpr? f e) = printExpr? m level slot e) ∧
    (∀ s level after, printStmt? m' level after (placeStmt? f s) = printStmt? m level after s) ∧
    (∀ es level, (∀ slot, printExprs m' level slot (placeExprs f es) = printExprs m level slot es) ∧
      ∀ depth p first, (printItems m' level depth (m'.line (f p)) first (placeExprs f es)).1 =
          (printItems m level depth (m.line p) first es).1 ∧
        ∀ level' isEmpty closing,
          closeItems m' level' (printItems m' level depth (m'.line (f p)) first (placeExprs f es)).2
          isEmpty (f closing) =
            closeItems m level' (printItems m level depth (m.line p) first es).2 isEmpty closing) ∧
    (∀ (d : GenDecl) level, (d.place f).print m' level = d.print m level) ∧
    (∀ specs level, printSpecs m' level (placeSpecs f specs) = printSpecs m level specs) ∧
    (∀ (t : FuncType) level, (t.place f).printSignature m' level = t.printSignature m level) ∧
    (∀ results level, printResults m' level (placeFieldList? f results) =
      printResults m level results) ∧
    (∀ (fields : FieldList) level, (fields.place f).printBraced m' level =
      fields.printBraced m level ∧
      printFields m' level (placeFields f fields.list) = printFields m level fields.list ∧
      ∀ field ∈ fields.list, ∀ slot, (field.type.place f).print m' level slot =
      field.type.print m level slot) ∧
    ∀ fields level, printFields m' level (placeFields f fields) = printFields m level fields ∧
      ∀ field ∈ fields, ∀ slot, (field.type.place f).print m' level slot =
      field.type.print m level slot := by
  apply Expr.move.mutual_induct
  all_goals intros
  all_goals try (rename Block => b; cases b)
  all_goals try (rename FieldList => l; cases l)
  all_goals
    simp_all [-Bool.forall_bool, Expr.place, Expr.print, Block.place, Block.print,
      Block.printClauses, placeStmts, printStmts, printLines, printClauseBody, Stmt.place,
      Stmt.print, placeExpr?, printExpr?, placeStmt?, printStmt?, placeExprs, printExprs,
      printItems, closeItems_place hm, GenDecl.place, GenDecl.print, placeSpecs, printSpecs,
      FuncType.place, FuncType.printSignature, FieldList.place, FieldList.printBraced,
      placeFields.eq_1, printFields.eq_1,
      printField_place hm, printResults_place (m := m), Ident.place, Literal.place,
        Ident.names_place, Expr.start_place,
      Stmt.indent_place, cutoff_binary_place, sliceBlanks_place, sliceColon_place, hm.isSome,
        hm.stop, hm.breaks, hm.same,
      Function.comp_def]

theorem Stmt.print_place (hm : SourceMap.Follows k c m m') (s : Stmt) (level : Nat) :
    (s.place (Option.map (· + k))).print m' level = s.print m level :=
  (print_place_all hm.alike).2.2.2.1 s level

end GoFun
