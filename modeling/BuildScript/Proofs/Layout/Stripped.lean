import BuildScript.Proofs.Layout.Idempotent

/-!
Formatting without parentheses, and again with them. A parenthesis that printing puts back never
breaks; read again it is one like any other, and breaks if there are several lines in it. So the
text stays as it is exactly if no operand that needs a parenthesis has several lines
(`render_stripped`). That it does not stay otherwise shows in the number of its lines.
-/
namespace BuildScript

namespace Shape

theorem breaks_map {α β : Type} (f : α → β) (s : Shape α) : (s.map f).breaks = s.breaks := by
  rw [← mapIdx_eq_map, breaks_mapIdx]

theorem ownLineEnds_pos {α : Type} {s : Shape α} (h : s.breaks = true) : 0 < s.ownLineEnds := by
  cases s with
  | list xs | call _ xs => cases xs <;> simp_all [breaks, ownLineEnds]
  | paren _ | load _ _ => simp [ownLineEnds]
  | _ => cases h

end Shape

namespace Expr
variable {indent : Indentation}

/-- No operand that needs a parenthesis has several lines. -/
def Compact : Expr → Prop :=
  Every fun n => ∀ i x, n.child? i = some x → n.shape.wraps i x = true → x.spreads = false

instance (e : Expr) : Decidable e.Compact :=
  decidable_of_iff (e.Every fun n =>
    ∀ p ∈ n.children.zipIdx, n.shape.wraps p.2 p.1 = true → p.1.spreads = false)
    (forall₂_congr fun n _ => by
      simp only [Prod.forall, List.mem_zipIdx_iff_getElem?, child?, children, Shape.child?_eq]
      exact forall_comm)

theorem compact_iff {e : Expr} : e.Compact ↔ ∀ i x, e.child? i = some x →
    (e.shape.wraps i x = true → x.spreads = false) ∧ x.Compact :=
  every_slots_iff

theorem compact_of_leaf {e : Expr} (h : e.children = []) : e.Compact := by
  rw [compact_iff]
  intro i x hx
  have hmem := Shape.mem_children.2 ⟨i, hx⟩
  rw [show e.shape.children = [] from h] at hmem
  cases hmem

theorem compact_of_isLoad {e : Expr} (h : e.isLoad = true) : e.Compact := by
  rw [compact_iff]
  intro i x hx
  have hleaf := isLoad_children h x (Shape.mem_children.2 ⟨i, hx⟩)
  exact ⟨fun _ => spreads_of_leaf hleaf, compact_of_leaf hleaf⟩

theorem spreads_fused (e : Expr) : e.fused.spreads = e.spreads := by
  induction e using induct with
  | step e ih =>
    rcases fused_cases e with ⟨s, t, x, n, hshape, hx, h⟩ | ⟨-, h⟩
    · have hbelow := ih x (by simp [children, hshape, Shape.children])
      rw [hx, spreads_of_leaf rfl] at hbelow
      rw [h, spreads_of_leaf rfl, spreads_eq]
      simp [isBroken, children, hshape, Shape.breaks, Shape.children, ← hbelow]
    · have hbroken : e.fused.isBroken = e.isBroken := by
        rw [h, isBroken, isBroken, isMultiline_eq, isMultiline_eq, Shape.breaks_map]
      rw [spreads_eq, hbroken, spreads_eq e, h, children, Shape.children_map, List.any_map]
      refine congrArg _ ?_
      rw [Bool.eq_iff_iff, List.any_eq_true, List.any_eq_true]
      exact exists_congr fun c => and_congr_right fun hc => by rw [← ih c hc]; rfl

theorem compact_fused {e : Expr} : e.fused.Compact ↔ e.Compact := by
  induction e using induct with
  | step e ih =>
    rcases fused_cases e with ⟨s, t, x, n, hshape, hx, h⟩ | ⟨-, h⟩
    · have hprimary : x.precedence = .primary := by
        rw [← precedence_fused, hx]
        rfl
      have hcompact := ih x (by simp [children, hshape, Shape.children])
      rw [hx] at hcompact
      rw [h]
      refine iff_of_true (compact_of_leaf rfl) (compact_iff.2 fun i y hy => ?_)
      obtain rfl : y = x := by
        have hmem := Shape.mem_children.2 ⟨i, hy⟩
        rw [hshape] at hmem
        exact List.mem_singleton.1 hmem
      refine ⟨fun hw => ?_, hcompact.1 (compact_of_leaf rfl)⟩
      rw [Shape.wraps_primary _ _ hprimary] at hw
      cases hw
    · have hslot (i : Nat) (x : Expr) :
          (e.shape.map fused).wraps i x.fused = e.shape.wraps i x := by
        rw [Shape.wraps_map, Shape.wraps_congr _ _ (precedence_fused x)]
      rw [h, compact_iff, compact_iff (e := e)]
      simp only [child?, Shape.child?_map, Option.map_eq_some_iff, forall_exists_index, and_imp,
        forall_apply_eq_imp_iff₂, hslot, spreads_fused]
      exact forall₂_congr fun i x => forall_congr' fun hx =>
        and_congr_right fun _ => ih x (Shape.mem_children.2 ⟨i, hx⟩)

theorem expanded_wrappedIf {needed : Bool} {e : Expr} : (wrappedIf needed e).Expanded ↔
    (needed = true → e.spreads = false) ∧ e.Expanded := by
  cases needed with
  | false => simp [wrappedIf]
  | true =>
    have hnode : (paren e).spreads = e.spreads := by
      rw [spreads_eq]
      simp [paren, ofShape, children, Shape.children, isBroken, isMultiline, layoutSpan?]
    show Every _ (paren e) ↔ _
    rw [paren, ofShape, every_paren]
    refine and_congr_left fun _ => ?_
    exact ⟨fun h _ => hnode ▸ h rfl, fun h _ => hnode.trans (h rfl)⟩

/-- Grouping breaks nothing but by a parenthesis around an operand with several lines. -/
theorem expanded_grouped_iff {e : Expr} (h : e.Expanded) : e.grouped.Expanded ↔ e.Compact := by
  induction e using induct with
  | step e ih =>
    obtain ⟨hnode, hbelow⟩ := every_iff.1 h
    have hself : e.grouped.shape.breaks = true → e.grouped.spreads = e.grouped.isMultiline := by
      rw [spreads_grouped, grouped_eq, Shape.breaks_mapIdx, isMultiline_eq, ← isMultiline_eq e]
      exact hnode
    unfold Expanded
    rw [every_iff, and_iff_right hself, compact_iff]
    constructor
    · intro hall i x hx
      have hmem := Shape.mem_children.2 ⟨i, hx⟩
      have hslot := expanded_wrappedIf.1 (hall _ (by
        rw [grouped_eq, children, Shape.mem_children]
        exact ⟨i, by rw [Shape.child?_mapIdx, show e.shape.child? i = _ from hx]; rfl⟩))
      rw [spreads_grouped, ih x hmem (hbelow x hmem)] at hslot
      exact hslot
    · intro hall y hy
      rw [grouped_eq, children, Shape.mem_children] at hy
      obtain ⟨i, hi⟩ := hy
      rw [Shape.child?_mapIdx, Option.map_eq_some_iff] at hi
      obtain ⟨x, hx, rfl⟩ := hi
      have hmem : x ∈ e.children := Shape.mem_children.2 ⟨i, hx⟩
      refine expanded_wrappedIf.2 ?_
      rw [spreads_grouped, ih x hmem (hbelow x hmem)]
      exact hall i x hx

theorem lineBreaks_drawn (e : Expr) : e.drawn.lineBreaks =
    (e.children.map fun c => c.drawn.lineBreaks).sum +
      if e.spreads && e.shape.breaks then e.shape.ownLineEnds else 0 := by
  have hbroken : e.drawn.isBroken = (e.spreads && e.shape.breaks) := by
    rw [drawn_eq, isBroken, isMultiline_eq, any_lineSpan, Shape.breaks_map]
  rw [lineBreaks_eq, hbroken, drawn_eq, Shape.ownLineEnds_map, children, Shape.children_map,
    List.map_map]
  rfl

theorem ownLineEnds_le_drawn (e : Expr) : (if e.isBroken then e.shape.ownLineEnds else 0) ≤
    if e.spreads && e.shape.breaks then e.shape.ownLineEnds else 0 := by
  cases h : e.isBroken with
  | false => exact Nat.zero_le _
  | true =>
    have hspreads : e.spreads = true := by rw [spreads_eq, h, Bool.true_or]
    have hbreaks : e.shape.breaks = true := (Bool.and_eq_true_iff.1 h).2
    rw [hspreads, hbreaks]
    exact Nat.le_refl _

theorem lineBreaks_le_drawn (e : Expr) : e.lineBreaks ≤ e.drawn.lineBreaks := by
  induction e using induct with
  | step e ih =>
    rw [lineBreaks_eq, lineBreaks_drawn]
    exact Nat.add_le_add (List.sum_le_sum ih) (ownLineEnds_le_drawn e)

/-- If drawing adds no line end, it breaks nothing. -/
theorem expanded_of_drawn_le {e : Expr} (h : e.drawn.lineBreaks ≤ e.lineBreaks) : e.Expanded := by
  induction e using induct with
  | step e ih =>
    have hsum : (e.children.map lineBreaks).sum ≤
        (e.children.map fun c => c.drawn.lineBreaks).sum :=
      List.sum_le_sum fun c _ => c.lineBreaks_le_drawn
    have hown := ownLineEnds_le_drawn e
    rw [lineBreaks_drawn, lineBreaks_eq] at h
    refine every_iff.2 ⟨fun hbreaks => ?_, fun c hc => ih c hc (Nat.le_of_not_lt fun hlt => ?_)⟩
    · have hpos := Shape.ownLineEnds_pos hbreaks
      cases hlines : e.isMultiline with
      | true => rw [spreads_eq, isBroken, hlines, hbreaks, Bool.true_and, Bool.true_or]
      | false =>
        refine Bool.eq_false_iff.2 fun hspreads => ?_
        rw [hspreads, hbreaks, isBroken, hlines, Bool.false_and, Bool.true_and, if_pos rfl,
          if_neg (by decide)] at h
        omega
    · have := List.sum_lt_sum lineBreaks _ (fun c _ => c.lineBreaks_le_drawn) ⟨c, hc, hlt⟩
      omega

/-- The text that a statement has when it is formatted again: with the parentheses that it was
printed with, and lines where these have them. -/
def reformatted (indent : Indentation) (e : Expr) : List Char :=
  e.grouped.drawn.grouped.spelled indent 0

theorem Lexical.drawn {e : Expr} (h : e.Lexical) : e.drawn.Lexical := by
  rw [← lexical_eraseSpans, eraseSpans_drawn, lexical_eraseSpans]
  exact h

theorem Grouped.drawn {e : Expr} (h : e.Grouped) : e.drawn.Grouped := by
  rw [← grouped_eraseSpans_iff, eraseSpans_drawn, grouped_eraseSpans_iff]
  exact h

theorem Unfolded.reformatted_of_isLoad {e : Expr} (h : e.isLoad = true) :
    e.reformatted indent = e.grouped.spelled indent 0 := by
  have hunfolded : e.Unfolded := .inl h
  rw [reformatted, (grouped_of_isLoad h).grouped_eq_self, hunfolded.spelled_drawn,
    (grouped_of_isLoad h).grouped_eq_self]

theorem count_newline_reformatted {e : Expr} (h : e.Lexical) :
    (e.reformatted indent).count '\n' = e.grouped.drawn.lineBreaks := by
  rw [reformatted, (grouped_grouped e).drawn.grouped_eq_self,
    count_newline_spelled indent h.grouped.drawn]

theorem Unfolded.reformatted_eq {e : Expr} (h : e.Unfolded) (hcompact : e.Compact) :
    e.reformatted indent = e.grouped.spelled indent 0 := by
  rcases h with h | ⟨h, hlayered⟩
  · exact reformatted_of_isLoad h
  · have hexpanded := (expanded_grouped_iff hlayered.expanded).2 hcompact
    rw [reformatted, hexpanded.spelled_drawn h.grouped, (grouped_grouped e).grouped_eq_self]

theorem Unfolded.count_newline_le_reformatted {e : Expr} (h : e.Unfolded) :
    (e.grouped.spelled indent 0).count '\n' ≤ (e.reformatted indent).count '\n' := by
  rcases h with h | ⟨h, -⟩
  · rw [reformatted_of_isLoad h]
  · rw [count_newline_reformatted h, count_newline_spelled indent h.grouped]
    exact lineBreaks_le_drawn _

theorem Unfolded.compact {e : Expr} (h : e.Unfolded)
    (hle : (e.reformatted indent).count '\n' ≤ (e.grouped.spelled indent 0).count '\n') :
    e.Compact := by
  rcases h with h | ⟨h, hlayered⟩
  · exact compact_of_isLoad h
  · rw [count_newline_reformatted h, count_newline_spelled indent h.grouped] at hle
    exact (expanded_grouped_iff hlayered.expanded).1 (expanded_of_drawn_le hle)

end Expr

namespace Plan
variable {indent : Indentation} {plan : Plan}

def relaid (layout : Expr → Layout) (plan : Plan) : Plan :=
  plan.map fun
    | (.comment c, lines) => (.comment c, lines)
    | (.statement s trailing, lines) => (.statement (s.1, layout s.1) trailing, lines)

variable (layout : Expr → Layout)

theorem statements_relaid :
    (plan.relaid layout).statements = plan.statements.map fun s => (s.1, layout s.1) := by
  induction plan with
  | nil => rfl
  | cons b plan ih =>
    obtain ⟨b, lines⟩ := b
    cases b with
    | comment c => exact ih
    | statement s trailing => exact congrArg ((s.1, layout s.1) :: ·) ih

theorem count_newline_relaid (indent : Indentation) (last : Option Nat) :
    (printEntries indent last (plan.relaid layout).entries).count '\n' +
        (plan.statements.map fun s => (s.2.print indent 0).count '\n').sum =
      (printEntries indent last plan.entries).count '\n' +
        (plan.statements.map fun s => ((layout s.1).print indent 0).count '\n').sum := by
  induction plan generalizing last with
  | nil => rfl
  | cons b plan ih =>
    obtain ⟨b, lines⟩ := b
    have hrest := ih (lines.map Prod.snd)
    cases b with
    | comment c =>
      show (printEntries indent last (⟨.comment c, lines⟩ :: entries (relaid layout plan))).count _
          + ((statements plan).map _).sum =
        (printEntries indent last (⟨.comment c, lines⟩ :: entries plan)).count _ +
          ((statements plan).map _).sum
      simp only [printEntries, List.count_append, List.count_cons_self]
      omega
    | statement s trailing =>
      have hentry (layout : Layout) : ((Entry.statement layout trailing).print indent).count '\n' =
          (layout.print indent 0).count '\n' +
            (trailing.elim [] fun c => c.content.toList).count '\n' := by
        cases trailing with
        | none => rfl
        | some c => simp [Entry.print]
      show (printEntries indent last
          (⟨.statement (layout s.1) trailing, lines⟩ :: entries (relaid layout plan))).count _ +
            ((s :: statements plan).map _).sum =
        (printEntries indent last (⟨.statement s.2 trailing, lines⟩ :: entries plan)).count _ +
          ((s :: statements plan).map _).sum
      simp only [printEntries, List.count_append, List.count_cons_self, hentry, List.map_cons,
        List.sum_cons]
      omega

def reformatted (indent : Indentation) : Plan → Plan :=
  relaid fun e => .token (String.ofList (e.reformatted indent))

theorem print_reformatted {p : Expr × Layout} (h : p ∈ (plan.reformatted indent).statements) :
    p.2.print indent 0 = p.1.reformatted indent := by
  rw [reformatted, statements_relaid] at h
  obtain ⟨p, -, rfl⟩ := List.mem_map.1 h
  exact String.toList_ofList

theorem Sound.compact (hsound : plan.Sound indent)
    (hunfolded : ∀ p ∈ plan.statements, p.1.Unfolded)
    (h : (printEntries indent none (entries (plan.reformatted indent))).count '\n' =
      (printEntries indent none plan.entries).count '\n') :
    ∀ p ∈ plan.statements, p.1.Compact := by
  intro p hp
  have hold (p : Expr × Layout) (hp : p ∈ plan.statements) := (hsound.1 p hp).2
  have hcount := plan.count_newline_relaid
    (fun e => .token (String.ofList (e.reformatted indent))) indent none
  simp only [Layout.print, String.toList_ofList] at hcount
  rw [show (printEntries indent none (entries (plan.relaid _))).count '\n' = _ from h,
    Nat.add_left_cancel_iff] at hcount
  have hle (p : Expr × Layout) (hp : p ∈ plan.statements) :
      (p.2.print indent 0).count '\n' ≤ (p.1.reformatted indent).count '\n' := by
    rw [hold p hp]
    exact (hunfolded p hp).count_newline_le_reformatted
  -- The line ends are as many in all, and nowhere fewer than before.
  have hge : (p.1.reformatted indent).count '\n' ≤ (p.2.print indent 0).count '\n' :=
    Nat.le_of_not_lt fun hlt =>
      absurd hcount (Nat.ne_of_lt (List.sum_lt_sum _ _ hle ⟨p, hp, hlt⟩))
  rw [hold p hp] at hge
  exact (hunfolded p hp).compact hge

end Plan

namespace ReadBack
variable {plan : Plan} {blocks : List (Block Expr)}

theorem relaid {last : Option Nat} {line stop : Nat} (h : ReadBack last line plan blocks stop)
    (layout : Expr → Layout) : ReadBack last line (plan.relaid layout) blocks stop := by
  induction h with
  | nil => exact .nil
  | comment hcontent hline _ ih => exact .comment hcontent hline ih
  | statement he hspan hstart hstop hcontent hline _ ih =>
    exact .statement he hspan hstart hstop hcontent hline ih

/-- What is read back is printed as a plan whose statements have the texts that formatting again
gives them. -/
theorem printEntries_reformatted {indent : Indentation} {stop : Nat}
    (h : ReadBack none 1 plan blocks stop) (hbound : stop ≤ 2 ^ 64)
    (hlegible : ∀ e ∈ Block.statements blocks, e.Legible)
    (hplan : ∀ p ∈ plan.statements, p.2.print indent 0 = p.1.reformatted indent) :
    printEntries indent none (place ((Block.statements blocks).map fun e => (e, e.layout))
      (Block.comments blocks)) = printEntries indent none plan.entries := by
  refine h.printEntries_eq (by decide) hbound (fun _ _ => rfl) (fun p hp e he hlines => ?_)
    (.inl ⟨rfl, rfl⟩)
  have hlegible := hlegible e he
  rw [hplan p hp, hlegible.print_layout, ← hlegible.spelled_onLines, hlines, Expr.reformatted]

end ReadBack

namespace Script
variable {source : String} {s : Script}

/-- What is formatted without parentheses is accepted, and formatted again with them it stays as it
is exactly if no operand that needs a parenthesis has several lines. -/
theorem render_stripped (h : parse source = .ok s) (hlength : source.length < 2 ^ 63)
    (indent : Indentation) :
    ∃ text s' text', s.stripped.1.render indent = .ok text ∧ parse text = .ok s' ∧
      s'.render indent = .ok text' ∧
      (text' = text ↔ ∀ e ∈ s.stripped.1.statements, e.Compact) := by
  obtain ⟨plan, hsound, hstatements, hcomments, hrender⟩ :=
    ((legible_of_parse h).prepared true).exists_plan indent
  obtain ⟨blocks, hparse, hback⟩ := parse_plan hsound
  have hlegible := legible_of_parse hparse
  refine ⟨_, _, _, hrender, hparse, hlegible.render_eq indent, ?_⟩
  have hbound := stop_le h hlength hsound hstatements hcomments
  have hunfolded (p : Expr × Layout) (hp : p ∈ plan.statements) : p.1.Unfolded :=
    (settled_of_plan h hstatements p hp).unfolded
  have hcompact : (∀ p ∈ plan.statements, p.1.Compact) ↔
      ∀ e ∈ s.stripped.1.statements, e.Compact := by
    have hsame : (∀ e ∈ plan.statements.map Prod.fst, e.Compact) ↔
        ∀ e ∈ s.stripped.1.statements.map Expr.fused, e.Compact := hstatements ▸ Iff.rfl
    rw [List.forall_mem_map, List.forall_mem_map] at hsame
    exact hsame.trans (forall₂_congr fun e _ => Expr.compact_fused)
  rw [← hcompact, String.ofList_inj]
  constructor
  · intro htext
    have hprint : _ = printEntries indent none (Plan.entries (plan.reformatted indent)) :=
      (hback.relaid _).printEntries_reformatted hbound hlegible.statements
        fun _ => Plan.print_reformatted
    exact hsound.compact hunfolded (congrArg (List.count '\n') (hprint.symm.trans htext))
  · intro hall
    refine hback.printEntries_reformatted hbound hlegible.statements fun p hp => ?_
    rw [(hsound.1 p hp).2, (hunfolded p hp).reformatted_eq (hall p hp)]

def neededParen : Script where
  path := none
  statements := [⟨some ⟨⟨1, 1, 0⟩, ⟨1, 10, 9⟩⟩, .dot ⟨some ⟨⟨1, 1, 0⟩, ⟨1, 8, 7⟩⟩, .paren
    ⟨some ⟨⟨1, 2, 1⟩, ⟨1, 7, 6⟩⟩, .binary .add ⟨some ⟨⟨1, 2, 1⟩, ⟨1, 3, 2⟩⟩, .ident "a"⟩
      ⟨some ⟨⟨1, 6, 5⟩, ⟨1, 7, 6⟩⟩, .ident "b"⟩⟩⟩ "x"⟩]
  comments := []

theorem parse_neededParen : parse "(a + b).x\n" = .ok neededParen := by cbv

theorem render_stripped_neededParen : parse "(a + b).x\n" = .ok neededParen ∧
    "(a + b).x\n".length < 2 ^ 63 ∧ ∃ text s' text',
      neededParen.stripped.1.render .tabs = .ok text ∧ parse text = .ok s' ∧
      s'.render .tabs = .ok text' ∧ text' = text := by
  refine ⟨parse_neededParen, by decide, ?_⟩
  obtain ⟨text, s', text', hrender, hparse, hagain, hsame⟩ :=
    render_stripped parse_neededParen (by decide) .tabs
  exact ⟨text, s', text', hrender, hparse, hagain, hsame.2 (by decide)⟩

def brokenOperand : Script where
  path := none
  statements := [⟨some ⟨⟨1, 1, 0⟩, ⟨3, 9, 18⟩⟩, .dot ⟨some ⟨⟨1, 1, 0⟩, ⟨3, 7, 16⟩⟩, .paren
    ⟨some ⟨⟨1, 2, 1⟩, ⟨3, 6, 15⟩⟩, .binary .add
      ⟨some ⟨⟨1, 2, 1⟩, ⟨3, 2, 11⟩⟩, .list [⟨some ⟨⟨2, 5, 7⟩, ⟨2, 6, 8⟩⟩, .literal "1"⟩]⟩
      ⟨some ⟨⟨3, 5, 14⟩, ⟨3, 6, 15⟩⟩, .ident "c"⟩⟩⟩ "x"⟩]
  comments := []

/-- An operand with a list on several lines in it, stripped and printed. Printed again with the
parenthesis that it has by then, it gets lines for that. -/
theorem render_brokenOperand : parse "([\n    1,\n] + c).x\n" = .ok brokenOperand ∧
    brokenOperand.stripped.1.render (.spaces 4) = .ok "([\n    1,\n] + c).x\n" ∧
    ∃ text', brokenOperand.render (.spaces 4) = .ok text' ∧
      text' ≠ "([\n    1,\n] + c).x\n" :=
  ⟨by cbv, by cbv, "(\n    [\n        1,\n    ] + c\n).x\n", by cbv, by decide⟩

end Script
end BuildScript
