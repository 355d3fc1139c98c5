import GoFun.Proofs.Grammar.Trail

/-!
# Where comments and layout end

A line comment ends in front of the next line break, a block comment with the first close behind its
opening, and without a close it is none. So of all ways to begin a text with blanks and complete
comments, layout is the longest one.
-/
namespace GoFun.Lex

theorem comment_line (rest : List Char) : comment ("//".toList ++ rest) =
    some ("//".toList ++ rest.takeWhile (· != '\n'), rest.dropWhile (· != '\n')) :=
  orElse_eq_some.2 (.inl (append_eq_some.2 ⟨_, _, _, text_eq_some.2 ⟨rfl, rfl⟩, rfl, rfl⟩))

theorem throughClose_close {body : List Char} (hbody : ¬ "*/".toList <:+: body) (cs : List Char) :
    throughClose (body ++ ("*/".toList ++ cs)) = some (body ++ "*/".toList, cs) := by
  induction body with
  | nil => rfl
  | cons c body ih =>
    have htail := ih fun h => hbody (h.trans (List.suffix_cons ..).isInfix)
    rw [List.cons_append, throughClose, htail]
    · rfl
    · -- a close that begins here would stand inside of the body
      intro cs' hc hcs'
      cases body with
      | nil => simp at hcs'
      | cons d body =>
        obtain ⟨rfl, -⟩ := List.cons.inj hcs'
        subst hc
        exact hbody (List.prefix_append "*/".toList body).isInfix

theorem throughClose_eq_some {cs p rest : List Char} (h : throughClose cs = some (p, rest)) :
    ∃ body, ¬ "*/".toList <:+: body ∧ p = body ++ "*/".toList := by
  fun_induction throughClose cs generalizing p with
  | case1 => cases h
  | case2 cs =>
    obtain ⟨rfl, rfl⟩ := result_inj h
    exact ⟨[], by decide, rfl⟩
  | case3 c cs hne ih =>
    obtain ⟨⟨q, r⟩, hq, he⟩ := Option.map_eq_some_iff.1 h
    obtain ⟨rfl, rfl⟩ := Prod.mk.inj he
    obtain ⟨body, hbody, rfl⟩ := ih hq
    refine ⟨c :: body, fun hin => ?_, rfl⟩
    rcases List.infix_cons_iff.1 hin with ⟨t, ht⟩ | hin
    · -- the rest would begin with the second character of a close
      obtain ⟨rfl, rfl⟩ := List.cons.inj (show '*' :: '/' :: t = c :: body from ht)
      exact hne (t ++ "*/".toList ++ r) rfl (throughClose_append hq).symm
    · exact hbody hin

theorem throughClose_isSome {cs : List Char} (h : "*/".toList <:+: cs) :
    (throughClose cs).isSome = true := by
  fun_induction throughClose cs with
  | case1 => simp at h
  | case2 => rfl
  | case3 c cs hne ih =>
    rcases List.infix_cons_iff.1 h with ⟨t, ht⟩ | h
    · obtain ⟨rfl, rfl⟩ := List.cons.inj (show '*' :: '/' :: t = c :: cs from ht)
      exact absurd rfl (hne t rfl)
    · simpa using ih h

theorem comment_block_eq (rest : List Char) :
    comment ("/*".toList ++ rest) = (throughClose rest).map fun x => ("/*".toList ++ x.1, x.2) := by
  rw [comment_eq]
  change (none <|> (throughClose rest >>= fun x => some ("/*".toList ++ x.1, x.2))) = _
  cases throughClose rest <;> rfl

theorem comment_block {body : List Char} (hbody : ¬ "*/".toList <:+: body) (cs : List Char) :
    comment ("/*".toList ++ body ++ "*/".toList ++ cs) =
      some ("/*".toList ++ body ++ "*/".toList, cs) := by
  rw [List.append_assoc, List.append_assoc, comment_block_eq, throughClose_close hbody]
  simp

/-- A comment that is complete in front of the text `after`. -/
inductive Complete (after : List Char) : List Char → Prop
  | line {body : List Char} (hbody : '\n' ∉ body) (hafter : Stops (· != '\n') after) :
      Complete after ("//".toList ++ body)
  | block {body : List Char} (hbody : ¬ "*/".toList <:+: body) : Complete after
      ("/*".toList ++ body ++ "*/".toList)

theorem Complete.comment_eq {p after : List Char} (h : Complete after p) :
    comment (p ++ after) = some (p, after) := by
  cases h with
  | @line body hbody hafter =>
    have hall : ∀ c ∈ body, (c != '\n') = true :=
      fun c hc => bne_iff_ne.2 (ne_of_mem_of_not_mem hc hbody)
    rw [List.append_assoc]
    exact orElse_eq_some.2 (.inl (append_eq_some.2 ⟨_, _, _, text_eq_some.2 ⟨rfl, rfl⟩,
      run_append_stops hall hafter, rfl⟩))
  | block hbody => exact comment_block hbody after

theorem complete_of_comment {cs p after : List Char} (h : comment cs = some (p, after)) :
    Complete after p := by
  rw [comment_eq] at h
  rcases orElse_eq_some.1 h with h | ⟨-, h⟩
  · obtain ⟨_, body, _, ho, hrun, rfl⟩ := append_eq_some.1 h
    obtain ⟨-, rfl⟩ := text_eq_some.1 ho
    obtain ⟨rfl, rfl⟩ := result_inj hrun
    exact .line (fun hn => by simpa using List.all_eq_true.1 List.all_takeWhile _ hn)
      (stops_dropWhile _ _)
  · obtain ⟨_, _, _, ho, hclose, rfl⟩ := append_eq_some.1 h
    obtain ⟨-, rfl⟩ := text_eq_some.1 ho
    obtain ⟨body, hbody, rfl⟩ := throughClose_eq_some hclose
    rw [← List.append_assoc]
    exact .block hbody

/-- A stretch of text in front of the text `after` that is made of blanks and complete comments. -/
inductive LaidOut (blank : Char → Bool) (after : List Char) : List Char → Prop
  | nil : LaidOut blank after []
  | blank {c : Char} {cs : List Char} (hc : blank c = true) (h : LaidOut blank after cs) : LaidOut
      blank after (c :: cs)
  | comment {p cs : List Char} (hp : Complete (cs ++ after) p) (h : LaidOut blank after cs) :
      LaidOut blank after (p ++ cs)

theorem laidOut_layout (blank : Char → Bool) (cs : List Char) :
    (layout blank cs).1 ++ (layout blank cs).2 = cs ∧
    LaidOut blank (layout blank cs).2 (layout blank cs).1 := by
  fun_induction layout blank cs with
  | case1 => exact ⟨rfl, .nil⟩
  | case2 c tail hc s rest hl ih =>
    rw [hl] at ih
    exact ⟨congrArg (c :: ·) ih.1, .blank hc ih.2⟩
  | case3 c tail hc s rest hcm hlt t last hl ih =>
    rw [hl] at ih
    obtain ⟨rfl, hlaid⟩ := ih
    exact ⟨by rw [List.append_assoc]; exact (comment_append hcm).2,
      .comment (complete_of_comment hcm) hlaid⟩
  | case4 => exact ⟨rfl, .nil⟩

theorem LaidOut.prefix_layout {blank : Char → Bool} (hb : blank '/' = false) {after p : List Char}
    (h : LaidOut blank after p) : p <+: (layout blank (p ++ after)).1 := by
  induction h with
  | nil => exact List.nil_prefix
  | @blank c cs hc h ih =>
    rw [List.cons_append, layout_blank hc]
    exact (List.prefix_cons_inj c).2 ih
  | @comment p cs hp h ih =>
    rw [List.append_assoc, layout_comment hb hp.comment_eq]
    exact (List.prefix_append_right_inj p).2 ih

/-- Of all ways to cut `cs` behind blanks and complete comments, `p` in front of `r` is the
longest. -/
structure Longest (blank : Char → Bool) (cs p r : List Char) : Prop where
  cut : p ++ r = cs
  laidOut : LaidOut blank r p
  longest : ∀ q s, q ++ s = cs → LaidOut blank s q → q <+: p

theorem longest_layout {blank : Char → Bool} (hb : blank '/' = false) (cs : List Char) :
    Longest blank cs (layout blank cs).1 (layout blank cs).2 where
  cut := (laidOut_layout blank cs).1
  laidOut := (laidOut_layout blank cs).2
  longest := by
    rintro q s rfl h
    exact h.prefix_layout hb

/-- A body without a close ends with the first one. -/
theorem length_le_of_close {body after x y : List Char} (hbody : ¬ "*/".toList <:+: body)
    (h : body ++ ("*/".toList ++ after) = x ++ ("*/".toList ++ y)) : body.length ≤ x.length := by
  rcases List.append_eq_append_iff.1 h with ⟨z, rfl, -⟩ | ⟨z, rfl, hz⟩
  · simp
  · -- what `x` leaves of the body begins like a close, and a close that begins in it ends in it
    match z, hz with
    | [], _ => simp
    | [c], hz => exact absurd (List.cons.inj (List.cons.inj hz).2).1 (by decide)
    | c :: d :: z, hz =>
      obtain ⟨rfl, htail⟩ :=
        List.cons.inj (show '*' :: '/' :: y = c :: d :: (z ++ ("*/".toList ++ after)) from hz)
      obtain ⟨rfl, -⟩ := List.cons.inj htail
      exact absurd ⟨x, z, by simp⟩ hbody

/-- A block comment ends with the first close, and there is none without one; a line comment ends in
front of the next line break. So blanks, with line breaks or without, go over the longest stretch of
blanks and complete comments. -/
theorem comment_ends (rest : List Char) :
    ((comment ("/*".toList ++ rest)).isSome = true ↔ "*/".toList <:+: rest) ∧
    (∀ p after, comment ("/*".toList ++ rest) = some (p, after) ↔
      ∃ body, p = "/*".toList ++ body ++ "*/".toList ∧ rest = body ++ ("*/".toList ++ after) ∧
        ∀ x y, rest = x ++ ("*/".toList ++ y) → body.length ≤ x.length) ∧
    comment ("//".toList ++ rest) =
      some ("//".toList ++ rest.takeWhile (· != '\n'), rest.dropWhile (· != '\n')) ∧
    ∀ o, (∃ p r, Longest isBlank rest p r ∧
        Grammar.blanks ⟨o, rest⟩ = some ((), ⟨o + Parser.utf8Length p, r⟩)) ∧
      ∃ p r, Longest isBlankOrNewline rest p r ∧
        Grammar.blanksNl ⟨o, rest⟩ = some ((), ⟨o + Parser.utf8Length p, r⟩) := by
  have hblock : ∀ p after, comment ("/*".toList ++ rest) = some (p, after) ↔
      ∃ q, throughClose rest = some (q, after) ∧ p = "/*".toList ++ q := by
    intro p after
    rw [comment_block_eq, Option.map_eq_some_iff]
    exact ⟨fun ⟨x, hx, he⟩ => ⟨x.1, by rw [hx, ← (Prod.mk.inj he).2], (Prod.mk.inj he).1.symm⟩,
      fun ⟨q, hq, hp⟩ => ⟨_, hq, by rw [hp]⟩⟩
  refine ⟨⟨fun h => ?_, fun h => ?_⟩, fun p after => (hblock p after).trans ⟨?_, ?_⟩,
    comment_line rest, fun o => ⟨?_, ?_⟩⟩
  · rw [comment_block_eq, Option.isSome_map] at h
    obtain ⟨⟨q, after⟩, hq⟩ := Option.isSome_iff_exists.1 h
    obtain ⟨body, -, rfl⟩ := throughClose_eq_some hq
    exact ⟨body, after, throughClose_append hq⟩
  · rw [comment_block_eq, Option.isSome_map]
    exact throughClose_isSome h
  · rintro ⟨q, hq, rfl⟩
    obtain ⟨body, hbody, rfl⟩ := throughClose_eq_some hq
    obtain rfl := throughClose_append hq
    exact ⟨body, by simp, by simp, fun x y h => length_le_of_close hbody (by simpa using h)⟩
  · rintro ⟨body, rfl, rfl, hfirst⟩
    refine ⟨body ++ "*/".toList, throughClose_close ?_ after, by simp⟩
    rintro ⟨x, y, rfl⟩
    have := hfirst x (y ++ ("*/".toList ++ after)) (by simp)
    simp only [List.length_append, show "*/".toList.length = 2 from rfl] at this
    omega
  · exact ⟨_, _, longest_layout rfl rest, rfl⟩
  · exact ⟨_, _, longest_layout rfl rest, rfl⟩

end GoFun.Lex
