import BuildScript.Proofs.Layout.LineCount
import BuildScript.Proofs.Layout.Placing

/-!
Formatting once is enough: what has been formatted is accepted, and formatted again it stays as it
is (`render_idempotent`).
-/
namespace BuildScript.Script
variable {source : String} {s : Script}

theorem lineBound_le (h : parse source = .ok s) (indent : Indentation) {stripping : Bool}
    {plan : Plan} (hstatements : plan.statements.map Prod.fst =
      (s.prepared stripping).statements.map Expr.fused)
    (hcomments : plan.comments = (s.prepared stripping).comments) :
    plan.lineBound indent ≤ 2 * source.length + 2 := by
  obtain ⟨-, hcommentsOf, c, d, hskip, hread⟩ := parse_eq_ok.1 h
  have hlength : c.rest.length ≤ source.length := (Grammar.forward_gap .free).length_le hskip
  have hlegible := legible_of_parse h
  rw [prepared_eq] at hstatements hcomments
  have htexts : (plan.statements.map fun s =>
      (s.1.grouped.spelled indent 0).count '\n' + 2).sum ≤
        (s.statements.map fun e => e.lineEnds + 2).sum := by
    have key := congrArg (List.map fun e : Expr => (e.grouped.spelled indent 0).count '\n' + 2)
      hstatements
    rw [List.map_map, List.map_map, List.map_map] at key
    refine Nat.le_trans (Nat.le_of_eq (congrArg List.sum key)) (List.sum_le_sum fun e he => ?_)
    have hprepared := (hlegible.statements e he).prepared stripping
    refine Nat.add_le_add_right ?_ 2
    show ((e.prepared stripping).fused.grouped.spelled indent 0).count '\n' ≤ e.lineEnds
    rw [hprepared.spelled_fused]
    exact Nat.le_trans (hprepared.count_newline_le 0) (e.lineEnds_prepared_le stripping)
  have hcount := length_commentsOf source.toList
  have hlines := hread.lineEnds_le
  have hsame : plan.comments.length = (commentsOf source.toList).length := by
    rw [hcomments, ← hcommentsOf]
  have htoList : source.toList.length = source.length := String.length_toList
  unfold Plan.lineBound
  omega

theorem stop_le (h : parse source = .ok s) (hlength : source.length < 2 ^ 63)
    {indent : Indentation} {stripping : Bool} {plan : Plan} (hsound : plan.Sound indent)
    (hstatements : plan.statements.map Prod.fst =
      (s.prepared stripping).statements.map Expr.fused)
    (hcomments : plan.comments = (s.prepared stripping).comments) :
    1 + (printEntries indent none plan.entries).count '\n' ≤ 2 ^ 64 := by
  have hle := lineBound_le h indent hstatements hcomments
  rcases hsound.count_newline_lt with hcount | hcount <;> omega

theorem settled_of_plan (h : parse source = .ok s) {stripping : Bool} {plan : Plan}
    (hstatements : plan.statements.map Prod.fst =
      (s.prepared stripping).statements.map Expr.fused) :
    ∀ p ∈ plan.statements, p.1.Settled stripping := by
  intro p hp
  have hmem : p.1 ∈ plan.statements.map Prod.fst := List.mem_map_of_mem hp
  rw [hstatements, prepared_eq, List.map_map] at hmem
  obtain ⟨e, he, heq⟩ := List.mem_map.1 hmem
  rw [← heq]
  exact settled_of_parse h stripping e he

/-- Formatting is idempotent, with parentheses and without them. The text is shorter than any that
fits into a memory with addresses of 64 bits, so that its lines can be counted. -/
theorem render_idempotent (h : parse source = .ok s) (hlength : source.length < 2 ^ 63)
    (indent : Indentation) (stripping : Bool) :
    ∃ text s', (s.prepared stripping).render indent = .ok text ∧ parse text = .ok s' ∧
      (s'.prepared stripping).render indent = .ok text := by
  obtain ⟨plan, hsound, hstatements, hcomments, hrender⟩ :=
    ((legible_of_parse h).prepared stripping).exists_plan indent
  obtain ⟨blocks, hparse, hback⟩ := parse_plan hsound
  refine ⟨_, _, hrender, hparse, ?_⟩
  have hbound := stop_le h hlength hsound hstatements hcomments
  have hsettled := settled_of_plan h hstatements
  have hlegible := legible_of_parse hparse
  rw [(hlegible.prepared stripping).render_eq, prepared_eq, List.map_map]
  apply congrArg (fun text => Except.ok (String.ofList text))
  refine hback.printEntries_eq (f := fun e => (e.prepared stripping, (e.prepared stripping).layout))
    (by decide) hbound (fun e he => ?_) (fun p hp e he hlines => ?_) (.inl ⟨rfl, rfl⟩)
  · have hmem : e.onLines ∈ (Block.statements blocks).map Expr.onLines := List.mem_map_of_mem he
    rw [hback.statements] at hmem
    obtain ⟨p, hp, heq⟩ := List.mem_map.1 hmem
    exact (hsettled p hp).span_prepared heq.symm
  · have hprepared := (hlegible.statements e he).prepared stripping
    show (e.prepared stripping).layout.print indent 0 = _
    rw [hprepared.print_layout, (hsettled p hp).spelled_prepared hlines hprepared,
      (hsound.1 p hp).2]

def parenthesized : Script where
  path := none
  statements := [⟨some ⟨⟨1, 1, 0⟩, ⟨1, 4, 3⟩⟩, .paren ⟨some ⟨⟨1, 2, 1⟩, ⟨1, 3, 2⟩⟩, .ident "a"⟩⟩]
  comments := [⟨⟨⟨1, 5, 4⟩, ⟨1, 8, 7⟩⟩, "# b"⟩]

theorem parse_parenthesized : parse "(a) # b\n" = .ok parenthesized := by cbv

theorem render_idempotent_parenthesized :
    parse "(a) # b\n" = .ok parenthesized ∧ "(a) # b\n".length < 2 ^ 63 ∧
      ∃ text s', (parenthesized.prepared true).render .tabs = .ok text ∧ parse text = .ok s' ∧
        (s'.prepared true).render .tabs = .ok text :=
  ⟨parse_parenthesized, by decide, render_idempotent parse_parenthesized (by decide) .tabs true⟩

end BuildScript.Script
