import GoFun.Proofs.Lex.Opening
import GoFun.Proofs.Source.Excerpt
import GoFun.Proofs.Source.Read
import GoFun.Proofs.Tree.Division

/-!
# Comments that are not closed

A block comment without a close is no comment. Where its opening can be read otherwise it is: as a
division whose right operand is what a star points to. So a text is accepted with such an opening
left in it exactly when it has such a division, with the star right behind the slash.
-/
namespace GoFun

open Parser Grammar Token

variable {x : Expr} {p : Pos} {r : List Char} {f : File}

theorem Grammar.yields_importPath (g : Rules) :
    Yields (file g) fun f => ∀ spec ∈ f.imports, spec.path.children = [] := by
  have hspec : Yields importSpec fun spec => spec.path.children = [] :=
    .after fun _ => .after fun _ => .pure rfl
  have hdecl : Yields importDecl fun specs => ∀ spec ∈ specs, spec.path.children = [] :=
    .after fun _ => .orElse (.seqLeft (.seqRight (.sepEndBy hspec)))
      (.bind hspec fun _ h => .pure (by simpa using h))
  refine .after fun _ => .after fun _ => .after fun _ =>
    .bind (.many (.seqRight hdecl)) fun imports hi => .after fun _ => .after fun _ =>
      .after fun _ => .after fun _ => .pure fun spec hs => ?_
  obtain ⟨specs, hm, hs⟩ := List.mem_flatten.1 hs
  exact hi specs hm spec hs

section Operators

variable {src : List Char} {g : Rules} {inHeader : Bool} {u t : Cursor}
variable {e y : Expr} {op : BinaryOp}

theorem yields_primaryOf (hg : g.Sound) (inHeader : Bool) :
    Yields (primaryOf g inHeader) (SoundExpr 7) := by
  cases inHeader with
  | false => exact yields_primary hg
  | true => exact (yields_headerPrimary hg).mono fun _ h => h.1

/-- An expression has no operators between operands, or it is joined by the last one. -/
theorem binding_cases {k : Nat} (h : binding (primaryOf g inHeader) k u = some (e, t)) :
    unaryExpr (primaryOf g inHeader) u = some (e, t) ∨ ∃ j x st v,
      Begins (binding (primaryOf g inHeader) (j + 1)) (step g inHeader j)
      (fun x st => joinBinary x st.1 st.2) u x v ∧
        step g inHeader j v = some (st, t) ∧ e = joinBinary x st.1 st.2 := by
  induction hi : 6 - k generalizing k with
  | zero =>
    rw [binding, hi] at h
    exact .inl h
  | succ i ih =>
    rcases Nat.eq_zero_or_pos k with rfl | hk
    · -- the weakest level is the first one
      obtain rfl : i = 5 := by omega
      exact ih (k := 1) h rfl
    · rw [binding_eq_chain _ hk (by omega)] at h
      rcases (Begins.of_many h).cases_snoc with h | ⟨x, st, v, hx, hst, he⟩
      · exact ih h (by omega)
      · exact .inr ⟨k, x, st, v, hx, hst, he⟩

theorem not_isBinary_of_rank (h : 6 ≤ e.rank) : e ≠ .binary x p op y := by
  rintro rfl
  exact absurd op.precedence_lt (by simpa [Expr.rank] using h)

/-- The operator of an operation stands in the text, and the right operand was read behind it. -/
theorem Grammar.Origin.operation (hg : g.Sound) (hw : g.Spanned) {opPos : Pos} (hu : Reached src u)
    (h : Origin g u t (.binary x opPos op y)) : ∃ v w t k inHeader, Reached src v ∧
      Stretch 0 u v x.stop ∧ operatorOf (levelAt k) v = some ((opPos, op), w) ∧
        binding (primaryOf g inHeader) (k + 1) w = some (y, t) := by
  have hjoined :
      ∀ {inHeader : Bool} {k : Nat} {v t : Cursor} {a : Expr} {st : (Pos × BinaryOp) × Expr},
      Begins (binding (primaryOf g inHeader) (k + 1)) (step g inHeader k)
      (fun x st => joinBinary x st.1 st.2) u a v →
      step g inHeader k v = some (st, t) → .binary x opPos op y = joinBinary a st.1 st.2 →
      ∃ v w t k inHeader, Reached src v ∧
        Stretch 0 u v x.stop ∧ operatorOf (levelAt k) v = some ((opPos, op), w) ∧
          binding (primaryOf g inHeader) (k + 1) w = some (y, t) := by
    intro inHeader k v t a st hbegins hst he
    have hv : Reached src v :=
      hbegins.reached hu (consumes_binding hw inHeader (k + 1)).moves
        (consumes_step hw inHeader k).moves
    have hstretch := stretch_level hw hu.trimmed (spans_binding hw inHeader (k + 1)) hbegins
    obtain ⟨o, w, ho, hst⟩ := Parser.bind_eq_some hst
    obtain ⟨z, t', hz, hst⟩ := Parser.bind_eq_some hst
    obtain ⟨rfl, rfl⟩ := result_inj hst
    obtain ⟨rfl, rfl, rfl, rfl⟩ : x = a ∧ opPos = o.1 ∧ op = o.2 ∧
        y = z := by simpa [joinBinary] using he
    exact ⟨v, w, _, k, inHeader, hv, hstretch, ho, hz⟩
  have hunary : ∀ {inHeader : Bool} {u t : Cursor},
      ¬ unaryExpr (primaryOf g inHeader) u = some (.binary x opPos op y, t) :=
    fun hu => not_isBinary_of_rank (yields_unaryExpr (X := fun _ => True) (fun _ _ h => h)
      ((yields_primaryOf hg _).mono fun _ h => ⟨h, trivial⟩) _ _ _ hu).1.2 rfl
  cases h with
  | level inHeader hk hk' hbegins =>
    rcases hbegins.cases_snoc with hb | ⟨a, st, v, ha, hst, he⟩
    · rcases binding_cases hb with hb | ⟨j, a, st, v, ha, hst, he⟩
      · exact absurd hb hunary
      · exact hjoined ha hst he
    · exact hjoined ha hst he
  | unary inHeader hb => exact absurd hb hunary
  | primary inHeader hl hbegins =>
    rcases hbegins.cases_snoc with hb | ⟨a, suf, v, -, -, he⟩
    · exact absurd rfl (not_isBinary_of_rank (Nat.le_of_succ_le (yields_operand hg _ _ _ hb).1.2))
    · exact absurd he.symm (by cases suf <;> simp [Suffix.apply, composite])
  | type hb => exact absurd rfl (not_isBinary_of_rank (yields_type hg _ _ _ hb).2)

end Operators

/-- The first token on a way is not before its beginning, and where it has the same place it is
there. -/
theorem Passes.first {s t : Cursor} {x : Token} {ts : List Token} {p : Nat}
    (h : Passes s (x :: ts) t)
    (hx : x.place = some (some p)) :
    s.offset ≤ p ∧ (p = s.offset → ∃ r, s.rest = x.text.toList ++ r) := by
  generalize hl : x :: ts = l at h
  induction h with
  | done => cases hl
  | @gap o c cs _ _ _ _ ih =>
    have hpos := Char.utf8Size_pos c
    have hle := (ih hl).1
    simp only [utf8Length, List.map_cons, List.map_nil, List.sum_cons, List.sum_nil] at hle
    exact ⟨by simp only; omega, fun he => by simp only at he; omega⟩
  | @comment o cs q r _ _ hc _ ih =>
    have hpos : 0 < utf8Length q := Nat.pos_of_ne_zero fun hz => by
      have hlen := (Lex.comment_append hc).1
      rw [utf8Length_eq_zero hz] at hlen
      simp at hlen
    have hle := (ih hl).1
    simp only at hle
    exact ⟨by simp only; omega, fun he => by simp only at he; omega⟩
  | @token o y r _ _ hp _ _ _ =>
    obtain ⟨rfl, rfl⟩ := List.cons.inj hl
    obtain rfl : p = o := Option.some.inj (hp _ hx)
    exact ⟨Nat.le_refl p, fun _ => ⟨r, rfl⟩⟩

section Divisions

variable {src : List Char} {g : Rules} {u s : Cursor} {x y : Expr} {p : Nat}

/-- The place of a division, and what stands behind its sign. -/
theorem Grammar.Origin.division (hg : g.Sound) (hw : g.Spanned) (hu : Reached src u)
    (h : Origin g u s (.binary x (some p) .quo y)) (hy : 6 ≤ y.rank) :
    ∃ r w t inHeader, Leads ⟨0, src⟩ ⟨p, '/' :: r⟩ ∧ Skips ⟨p + 1, r⟩ w ∧
      unaryExpr (primaryOf g inHeader) w = some (y, t) := by
  obtain ⟨v, w, t, k, inHeader, hv, -, hop, hread⟩ := h.operation hg hw hu
  obtain ⟨hp, ⟨o, r⟩, hr, ho, hskips⟩ := operatorOf_eq_some hop
  obtain ⟨o', cs⟩ := v
  obtain rfl : p = o' := Option.some.inj hp
  obtain rfl : cs = '/' :: r := by simpa [BinaryOp.symbol] using hr
  obtain rfl : o = p + 1 := by simpa [BinaryOp.symbol, utf8Length, Char.utf8Size] using ho
  refine ⟨r, w, t, inHeader, hv.leads, hskips, ?_⟩
  rcases binding_cases hread with hread | ⟨j, a, st, u, -, -, he⟩
  · exact hread
  · exact absurd he (not_isBinary_of_rank hy)

/-- Where a star follows, the divisor begins with it. -/
theorem Grammar.Origin.star_of_opening (hg : g.Sound) (hw : g.Spanned) (hu : Reached src u)
    (h : Origin g u s (.binary x (some p) .quo y)) (hy : 6 ≤ y.rank)
    (hlead : Leads ⟨0, src⟩ ⟨p, '/' :: '*' :: r⟩) :
    ∃ z, y = .star (some (p + 1)) z := by
  obtain ⟨r', w, t, inHeader, hlead', hskips, hread⟩ := h.division hg hw hu hy
  obtain rfl : '*' :: r = r' := by simpa using hlead.unique hlead' rfl
  have hrest : w.rest = '*' :: r := hskips.rest_eq (c := '*') rfl (by decide) (by decide)
  have hoffset : w.offset = p + 1 := by
    obtain ⟨piece, hpiece, ho⟩ := hskips.leads
    rw [hrest] at hpiece
    obtain rfl : piece = [] := by simpa using hpiece
    exact ho
  obtain ⟨o, cs⟩ := w
  obtain rfl : o = p + 1 := hoffset
  obtain rfl : cs = '*' :: r := hrest
  obtain ⟨l, o', hl, hderef⟩ := reads_lead .deref (show Lex.trim Lex.isBlank r = _ from rfl) (p + 1)
  rcases unaryExpr_cases hread with ⟨hnone, -⟩ | ⟨l', u, z, hl', -, -, rfl⟩
  · exact absurd (hl.symm.trans hnone) (by simp)
  · obtain ⟨rfl, -⟩ := Prod.mk.inj (Option.some.inj (hl.symm.trans hl'))
    obtain ⟨a, v, ha, hv⟩ := Parser.bind_eq_some (f := fun a => blanks >>= fun _ => pure a) hl
    obtain ⟨rfl, -⟩ := Parser.skip_eq_some hv
    obtain ⟨hpos, -⟩ := tokenOf_eq_some ha
    obtain ⟨pos, lead⟩ := l
    obtain rfl : lead = .deref := hderef
    obtain rfl : pos = some (p + 1) := hpos
    exact ⟨z, rfl⟩

/-- Where the divisor begins with a star that is next to the slash, the two look like the opening of
a comment. -/
theorem Grammar.Origin.opening_of_star (hg : g.Sound) (hw : g.Spanned) (hs : g.Spelled false)
    (hu : Reached src u) (h : Origin g u s (.binary x (some p) .quo (.star (some (p + 1)) y))) :
    ∃ r, Leads ⟨0, src⟩ ⟨p, '/' :: '*' :: r⟩ := by
  obtain ⟨r, w, t, inHeader, hlead, hskips, hread⟩ := h.division hg hw hu (Nat.le_refl 6)
  have hprimary : Meets false (primaryOf g inHeader) Expr.tokens := by
    cases inHeader with
    | false => exact consumes_primary hs
    | true => exact consumes_headerPrimary hs
  obtain ⟨ts, _, hcross, -, us, harranges, hus⟩ :=
    consumes_unaryExpr hprimary _ _ _ hskips.trimmed hread
  have hhead : ts.head? = some (placed (some (p + 1)) "*") := by
    rw [harranges.head, show us = _ from hus, Expr.tokens]
    rfl
  obtain ⟨ts, rfl⟩ := List.head?_eq_some_iff.1 hhead
  obtain ⟨hle, hstar⟩ := hcross.passes.first rfl
  obtain ⟨piece, hpiece, ho⟩ := hskips.leads
  simp only at hpiece ho
  obtain rfl : piece = [] := utf8Length_eq_zero (by omega)
  obtain ⟨r', hr'⟩ := hstar (by simpa [utf8Length] using ho.symm)
  refine ⟨r', ?_⟩
  rw [hpiece, List.nil_append, hr'] at hlead
  simpa using hlead

end Divisions

theorem Token.Stands.isSlash {x : Token} (h : x.Stands r) (hx : x.text = "/") : x.IsSlash := by
  cases h with
  | name h _ => exact absurd hx (ne_slash_of_lexer (k := .word) (by simp) h)
  | literal hk h => exact absurd hx (ne_slash_of_lexer (.tail _ hk) h)
  | word | sign => exact ⟨rfl, hx⟩

/-- The openings that are left in a file are divisions of its tree. -/
theorem parse?_mem_openings {text : String} (h : parse? text = some f) (p : Nat) :
    p ∈ Lex.openings text ↔ (∃ x y, f.Has (.expr (.binary x (some p) .quo y))) ∧
      ∃ r, Leads ⟨0, text.toList⟩ ⟨p, '/' :: '*' :: r⟩ := by
  have hformed := (parse?_sound h).formed
  obtain ⟨⟨f, t⟩, hfile, rfl⟩ := Option.map_eq_some_iff.1 h
  obtain ⟨front, ts, hcross, hfront, harranges⟩ := file_crosses (rules_spelled true _) hfile
  have hslash : ∀ x, x ∈ front ++ ts ∧ x.text = "/" ↔
      ∃ a q b, f.Has (.expr (.binary a q .quo b)) ∧ x = placed q "/" := by
    intro x
    constructor
    · rintro ⟨hmem, htext⟩
      have hmem' : x ∈ ts := (List.mem_append.1 hmem).resolve_left fun hx => hfront x hx htext
      obtain ⟨-, r, hstands⟩ := hcross.passes.stands x hmem
      exact (File.mem_tokens hformed (yields_importPath _ _ _ _ hfile) (hstands.isSlash htext)).1
        (harranges.perm.mem_iff.1 hmem')
    · rintro ⟨a, q, b, hhas, rfl⟩
      exact ⟨List.mem_append_right _ (harranges.perm.mem_iff.2
        ((File.mem_tokens hformed (yields_importPath _ _ _ _ hfile) ⟨rfl, rfl⟩).2 ⟨a, q, b, hhas,
          rfl⟩)), rfl⟩
  have hplace : ∀ x ∈ front ++ ts, x.text = "/" → x.place.isSome = true := by
    intro x hmem htext
    obtain ⟨a, q, b, -, rfl⟩ := (hslash x).1 ⟨hmem, htext⟩
    rfl
  rw [Lex.openings, hcross.passes.mem_openingsFrom ⟨[], rfl, rfl⟩ hplace, file_rest hfile]
  simp only [Lex.openingsFrom, List.not_mem_nil, or_false]
  constructor
  · rintro ⟨x, hmem, htext, hp, hlead⟩
    obtain ⟨a, q, b, hhas, rfl⟩ := (hslash x).1 ⟨hmem, htext⟩
    obtain rfl : q = some p := Option.some.inj hp
    exact ⟨⟨a, b, hhas⟩, hlead⟩
  · rintro ⟨⟨a, b, hhas⟩, hlead⟩
    obtain ⟨hmem, htext⟩ := (hslash _).2 ⟨a, some p, b, hhas, rfl⟩
    exact ⟨_, hmem, htext, rfl, hlead⟩

theorem parse?_openings {text : String} (h : parse? text = some f) (p : Nat) :
    p ∈ Lex.openings text ↔ ∃ x z,
    f.Has (.expr (.binary x (some p) .quo (.star (some (p + 1)) z))) := by
  have hg := rules_sound (depthFor text.toList)
  have hw := rules_spanned (depthFor text.toList)
  rw [parse?_mem_openings h]
  constructor
  · rintro ⟨⟨x, y, hhas⟩, r, hlead⟩
    have hy : 6 ≤ y.rank := ((parse?_sound h).formed.has hhas).here.2.1
    obtain ⟨u, t, hu, horigin⟩ := parse?_origin h hhas rfl
    obtain ⟨z, rfl⟩ := horigin.star_of_opening hg hw hu hy hlead
    exact ⟨x, z, hhas⟩
  · rintro ⟨x, z, hhas⟩
    obtain ⟨u, t, hu, horigin⟩ := parse?_origin h hhas rfl
    exact ⟨⟨x, _, hhas⟩, horigin.opening_of_star hg hw (rules_spelled false _) hu⟩

/-- Divisions by what a star points to look the same in trees that differ in objects only. -/
theorem Phrase.division_of_move_eq {z : Expr} {q : Pos} {n : Phrase}
    (h : Phrase.move id (.expr (.binary x p .quo (.star q z))) = n.move id) :
    ∃ x' z', n = .expr (.binary x' p .quo (.star q z')) := by
  cases n with
  | stmt s => cases h
  | expr e =>
    replace h := Phrase.expr.inj h
    cases e with
    | binary x' p' op y =>
      simp only [Expr.move, Expr.binary.injEq, Option.map_id_apply] at h
      obtain ⟨-, rfl, rfl, h⟩ := h
      cases y with
      | star q' z' =>
        simp only [Expr.move, Expr.star.injEq, Option.map_id_apply] at h
        obtain ⟨rfl, -⟩ := h
        exact ⟨x', z', rfl⟩
      | _ => simp [Expr.move] at h
    | _ => simp [Expr.move] at h

/-- In an accepted text, what looks like the opening of a comment that is not closed is a division,
by what a star points to that stands right behind the slash. There is no other such opening, and
every such division is one. -/
theorem SourceUnit.mem_openings_iff {name text : String} {u : SourceUnit}
    (h : read? name text = some u) (p : Nat) :
    p ∈ Lex.openings text ↔ ∃ x z,
    u.file.Has (.expr (.binary x (some p) .quo (.star (some (p + 1)) z))) := by
  obtain ⟨f, hf, rfl⟩ := Option.map_eq_some_iff.1 h
  rw [parse?_openings hf]
  constructor
  · rintro ⟨x, z, hhas⟩
    obtain ⟨n, hn, hmove⟩ := hhas.resolve
    obtain ⟨x', z', rfl⟩ := Phrase.division_of_move_eq hmove
    exact ⟨x', z', hn⟩
  · rintro ⟨x, z, hhas⟩
    obtain ⟨n, hn, hmove⟩ := File.Has.of_resolve hhas
    obtain ⟨x', z', rfl⟩ := Phrase.division_of_move_eq hmove
    exact ⟨x', z', hn⟩

def starsText : String := "package p\nvar s = \"/*\" + a /* , */ / *b // /*\nvar t = a /*b\n"

/-- Of two divisions by what a star points to, the one without a blank is left as an opening. The
others are in a literal and in comments. -/
theorem stars_openings :
    ∃ u, SourceUnit.read? "p.go" starsText = some u ∧ Lex.openings starsText = [56] ∧
    (∃ x z, u.file.Has (.expr (.binary x (some 56) .quo (.star (some 57) z)))) ∧
    ¬ ∃ x z, u.file.Has (.expr (.binary x (some 35) .quo (.star (some 36) z))) := by
  have hread : (SourceUnit.read? "p.go" starsText).isSome = true := by decide +kernel
  have hopenings : Lex.openings starsText = [56] := by decide +kernel
  obtain ⟨u, hu⟩ := Option.isSome_iff_exists.1 hread
  refine ⟨u, hu, hopenings, (SourceUnit.mem_openings_iff hu 56).1 (by simp [hopenings]), fun h =>
    ?_⟩
  have hmem := (SourceUnit.mem_openings_iff hu 35).2 h
  simp [hopenings] at hmem

/-- A file is accepted although a comment is opened in it and not closed. -/
theorem opened_comment_accepted : ∃ u,
    SourceUnit.read? "p.go" "package p\nfunc f(a, b int) int \x7b\nreturn a /*b\n\x7d\n" = some u ∧
      Lex.openings "package p\nfunc f(a, b int) int \x7b\nreturn a /*b\n\x7d\n" = [42] := by
  have hread :
      (SourceUnit.read? "p.go" "package p\nfunc f(a, b int) int \x7b\nreturn a /*b\n\x7d\n").isSome = true := by
    decide +kernel
  obtain ⟨u, hu⟩ := Option.isSome_iff_exists.1 hread
  exact ⟨u, hu, by decide +kernel⟩

end GoFun
