import BuildScript.Proofs.Layout.Placing
import BuildScript.Proofs.Parse.Places

/-!
Formatting keeps comments where they belong: each stands behind the same statement as before, or
after as many of them (`comments_attached`). On both sides what counts are lines. The lines of the
source decide where a comment is printed, and the lines of what is printed tell that it stands
there.
-/
namespace BuildScript
open BuildScript.Parser Grammar

namespace Expr

def endsBefore (line : Nat) (e : Expr) : Bool := e.span.any fun s => decide (s.stop.line < line)

def endsOn (line : Nat) (e : Expr) : Bool := e.span.any fun s => s.stop.line == line

end Expr

/-- Where a line stands among statements: how many end before it, and whether one ends on it. -/
def standing (es : List Expr) (line : Nat) : Nat × Bool :=
  (es.countP (Expr.endsBefore line), es.any (Expr.endsOn line))

/-- Where a comment stands among the statements. -/
def Script.attachment (s : Script) (c : Comment) : Nat × Bool := standing s.statements c.line

namespace InLines
variable {line : Nat} {es : List Expr}

theorem standing_of_lt (h : InLines line es) {l : Nat} (hl : l < line) :
    standing es l = (0, false) := by
  unfold standing
  refine Prod.ext (List.countP_eq_zero.2 fun e he => ?_) (List.any_eq_false.2 fun e he => ?_)
  all_goals
    obtain ⟨s, hs, hstart, hstop⟩ := h.line_le e he
    simp only [Expr.endsBefore, Expr.endsOn, hs, Option.any_some, decide_eq_true_eq, beq_iff_eq]
    omega

variable {e : Expr} {s : Span}

theorem standing_above (hspan : e.span = some s) (rest : InLines (s.stop.line + 1) es) {l : Nat}
    (hl : l < s.stop.line) : standing (e :: es) l = (0, false) := by
  have key := rest.standing_of_lt (l := l) (by omega)
  simp only [standing, Prod.mk.injEq] at key ⊢
  rw [List.countP_cons, List.any_cons, key.1, key.2]
  simp only [Expr.endsBefore, Expr.endsOn, hspan, Option.any_some]
  have hnot : ¬ s.stop.line < l := by omega
  have hne : s.stop.line ≠ l := by omega
  simp [hnot, hne]

theorem standing_behind (hspan : e.span = some s) (rest : InLines (s.stop.line + 1) es) :
    standing (e :: es) s.stop.line = (0, true) := by
  have key := rest.standing_of_lt (Nat.lt_succ_self _)
  simp only [standing, Prod.mk.injEq] at key ⊢
  rw [List.countP_cons, List.any_cons, key.1]
  simp [Expr.endsBefore, Expr.endsOn, hspan]

theorem standing_below (hspan : e.span = some s) {l : Nat} (hl : s.stop.line < l) :
    standing (e :: es) l = ((standing es l).1 + 1, (standing es l).2) := by
  have hne : s.stop.line ≠ l := by omega
  simp only [standing]
  rw [List.countP_cons, List.any_cons]
  simp [Expr.endsBefore, Expr.endsOn, hspan, hl, hne]

end InLines

/-- The comments among printed entries: how many statements stand above each one, of `above` and
those before it, and whether it stands behind one. -/
def attachments (above : Nat) : List Placed → List (Comment × Nat × Bool)
  | [] => []
  | ⟨.comment c, _⟩ :: ps => (c, above, false) :: attachments above ps
  | ⟨.statement _ trailing, _⟩ :: ps =>
    trailing.toList.map (fun c => (c, above, true)) ++ attachments (above + 1) ps

theorem attachments_own (above : Nat) (line : Comment → Nat) (cs : List Comment)
    (ps : List Placed) : attachments above (cs.map (fun c => .ownLine (line c) c) ++ ps) =
      cs.map (fun c => (c, above, false)) ++ attachments above ps := by
  induction cs with
  | nil => rfl
  | cons c cs ih => exact congrArg ((c, above, false) :: ·) ih

def Comment.among (above : Nat) (es : List Expr) (c : Comment) : Comment × Nat × Bool :=
  (c, above + (standing es c.line).1, (standing es c.line).2)

section Among
variable {line above : Nat} {es : List Expr} {e : Expr} {s : Span} {c : Comment}

theorem among_of_lt (h : InLines line es) (hc : c.line < line) :
    c.among above es = (c, above, false) := by
  rw [Comment.among, h.standing_of_lt hc]
  rfl

theorem among_above (hspan : e.span = some s) (rest : InLines (s.stop.line + 1) es)
    (hc : c.line < s.stop.line) : c.among above (e :: es) = (c, above, false) := by
  rw [Comment.among, rest.standing_above hspan hc]
  rfl

theorem among_behind (hspan : e.span = some s) (rest : InLines (s.stop.line + 1) es)
    (hc : c.line = s.stop.line) : c.among above (e :: es) = (c, above, true) := by
  rw [Comment.among, hc, rest.standing_behind hspan]
  rfl

theorem among_below (hspan : e.span = some s) (hc : s.stop.line < c.line) :
    c.among above (e :: es) = c.among (above + 1) es := by
  rw [Comment.among, Comment.among, InLines.standing_below hspan hc]
  exact congrArg (fun n => (c, n, _)) (by omega)

end Among

theorem line_lt_of_trailing {stop : Nat} {trailing : Option Comment} {others : List Comment}
    (h : (trailing.toList ++ others).Pairwise fun a b => a.line < b.line)
    (htrailing : ∀ c ∈ trailing, c.line = stop)
    (hnone : trailing = none → ∀ c ∈ others.head?, stop < c.line) :
    ∀ c ∈ others, stop < c.line := by
  cases trailing with
  | some t =>
    intro c hc
    rw [← htrailing t rfl]
    exact List.rel_of_pairwise_cons h hc
  | none =>
    cases others with
    | nil => simp
    | cons t others =>
      have ht := hnone rfl t rfl
      exact List.forall_mem_cons.2
        ⟨ht, fun c hc => Nat.lt_trans ht (List.rel_of_pairwise_cons h hc)⟩

/-- Comments are printed where they stand among the statements of the source. -/
theorem attachments_place {line : Nat} {pairs : List (Expr × Layout)} {comments : List Comment}
    (h : InLines line (pairs.map Prod.fst)) (hline : 0 < line)
    (hcomments : comments.Pairwise fun a b => a.line < b.line) (above : Nat) :
    attachments above (place pairs comments) =
      comments.map (Comment.among above (pairs.map Prod.fst)) := by
  induction pairs generalizing line comments above with
  | nil =>
    have key := attachments_own above Comment.line comments []
    rw [List.append_nil] at key
    rw [place, key]
    exact List.append_nil _
  | cons pair pairs ih =>
    obtain ⟨e, layout⟩ := pair
    cases h with
    | @cons _ _ s _ hspan hstart hstop rest =>
      obtain ⟨before, inside, trailing, others, rfl, hbefore, -, hinside, htrailing, hnone,
        hplace⟩ :=
        exists_place_cons (layoutSpan?_eq hspan (by omega)) layout pairs comments
      have htail := (List.pairwise_append.1 (List.pairwise_append.1 hcomments).2.1).2.1
      have hothers := line_lt_of_trailing htail htrailing hnone
      have hown (cs : List Comment) (hcs : ∀ c ∈ cs, c.line < s.stop.line) :
          cs.map (fun c => (c, above, false)) =
            cs.map (Comment.among above (e :: pairs.map Prod.fst)) :=
        List.map_congr_left fun c hc => (among_above hspan rest (hcs c hc)).symm
      have hinsides := attachments_own above (fun _ => s.start.line) inside
      show attachments above (place ((e, layout) :: pairs) _) = List.map (Comment.among above
        (e :: pairs.map Prod.fst)) _
      rw [hplace, List.append_assoc, attachments_own, hinsides, attachments,
        ih rest (Nat.succ_pos _) (List.pairwise_append.1 htail).2.1,
        hown before fun c hc => Nat.lt_of_lt_of_le (hbefore c hc) hstop, hown inside hinside,
        List.map_append, List.map_append, List.map_append]
      congr 3
      · exact List.map_congr_left fun c hc =>
          (among_behind hspan rest (htrailing c (Option.mem_toList.1 hc))).symm
      · exact List.map_congr_left fun c hc => (among_below hspan (hothers c hc)).symm

namespace ReadBack
variable {last : Option Nat} {line stop : Nat} {plan : Plan} {blocks : List (Block Expr)}

theorem inLines (h : ReadBack last line plan blocks stop) :
    InLines line (Block.statements blocks) := by
  induction h with
  | nil => exact .nil
  | comment _ hline _ ih => exact ih.mono (by omega)
  | statement _ hspan hstart hstop _ _ _ ih => exact .cons hspan (by omega) hstop ih

theorem attachments (h : ReadBack last line plan blocks stop) (above : Nat) :
    (BuildScript.attachments above plan.entries).map (Prod.map Comment.content id) =
      (Block.comments blocks).map fun c =>
        (c.among above (Block.statements blocks)).map Comment.content id := by
  induction h generalizing above with
  | nil => rfl
  | @comment last lines line stop c c' plan blocks hcontent hline hrest ih =>
    refine List.cons_eq_cons.2 ⟨?_, ih above⟩
    show _ = (c'.among above (Block.statements blocks)).map Comment.content id
    rw [among_of_lt hrest.inLines (Nat.lt_succ_self _)]
    exact Prod.ext hcontent.symm rfl
  | @statement last lines line stop e e' layout trailing trailing' s plan blocks he hspan hstart
      hstop hcontent hline hrest ih =>
    show (trailing.toList.map (fun c => (c, above, true)) ++ BuildScript.attachments (above + 1)
      plan.entries).map _ = (trailing'.toList ++ Block.comments blocks).map fun c =>
        (c.among above (e' :: Block.statements blocks)).map Comment.content id
    rw [List.map_append, List.map_append, ih]
    congr 1
    · cases trailing' with
      | none =>
        obtain rfl : trailing = none := by simpa using hcontent.symm
        rfl
      | some c' =>
        obtain ⟨c, rfl, hc⟩ : ∃ c, trailing = some c ∧ c'.content = c.content := by
          simpa [eq_comm] using hcontent.symm
        show [(c.content, above, true)] =
          [(c'.among above (e' :: Block.statements blocks)).map Comment.content id]
        rw [among_behind hspan hrest.inLines (hline c' rfl), ← hc]
        rfl
    · refine List.map_congr_left fun c hc => ?_
      rw [among_below hspan (hrest.line_le_comment c hc)]

theorem outside (h : ReadBack last line plan blocks stop) : ∀ c ∈ Block.comments blocks,
    ∀ e ∈ Block.statements blocks, ∀ s ∈ e.span, c.line < s.start.line ∨ s.stop.line ≤ c.line := by
  induction h with
  | nil => simp
  | comment _ hline hrest ih =>
    refine List.forall_mem_cons.2 ⟨fun e he s hs => .inl ?_, ih⟩
    obtain ⟨s', hs', hle⟩ := hrest.line_le_statement e he
    cases hs'.symm.trans hs
    exact hle
  | statement _ hspan hstart hstop _ hline hrest ih =>
    intro c hc
    refine List.forall_mem_cons.2 ⟨fun s hs => .inr ?_, fun e he s hs => ?_⟩
    · cases hspan.symm.trans hs
      rcases List.mem_append.1 hc with hc | hc
      · exact (hline c (Option.mem_toList.1 hc)).ge
      · exact (Nat.le_succ _).trans (hrest.line_le_comment c hc)
    · rcases List.mem_append.1 hc with hc | hc
      · obtain ⟨s', hs', hle⟩ := hrest.line_le_statement e he
        cases hs'.symm.trans hs
        left
        rw [hline c (Option.mem_toList.1 hc)]
        exact hle
      · exact ih c hc e he s hs

end ReadBack

namespace Script
variable {source : String} {s : Script}

theorem inLines_of_parse (h : parse source = .ok s) :
    InLines 1 s.statements ∧ s.comments.Pairwise fun a b => a.line < b.line := by
  obtain ⟨-, hcomments, c, d, hskip, hread⟩ := parse_eq_ok.1 h
  obtain ⟨_, hskip⟩ := Scanned.gap hskip
  obtain ⟨_, hscan⟩ := hread.scanned
  obtain ⟨_, hpass⟩ := hskip.passes
  refine ⟨hread.inLines.mono hpass.line_le, ?_⟩
  have hwhole := hskip.trans hscan
  rw [hcomments, hwhole.commentsOf_eq hread.rest_eq_nil]
  exact hwhole.pairwise.imp And.right

/-- Formatting keeps the comments in order and each one where it stands among the statements: behind
the same statement, or below as many of them and above all others. -/
theorem comments_attached (h : parse source = .ok s) (indent : Indentation) :
    ∃ text s', s.render indent = .ok text ∧ parse text = .ok s' ∧
      (s'.comments.map fun c => (c.content, s'.attachment c)) =
        (s.comments.map fun c => (c.content, s.attachment c)) ∧
      ∀ c ∈ s'.comments, ∀ e ∈ s'.statements, ∀ sp ∈ e.span,
        c.line < sp.start.line ∨ sp.stop.line ≤ c.line := by
  obtain ⟨hlines, hcomments⟩ := inLines_of_parse h
  have hlegible := legible_of_parse h
  obtain ⟨plan, hsound, -, -, hplan⟩ := hlegible.exists_plan_place indent
  obtain ⟨blocks, hparse, hback⟩ := parse_plan hsound
  refine ⟨_, _, hplan ▸ hlegible.render_eq indent, hparse, ?_, hback.outside⟩
  have hfst : (s.statements.map fun e => (e, e.layout)).map Prod.fst = s.statements := by
    rw [List.map_map]
    exact List.map_id _
  have hplaced := attachments_place (hfst ▸ hlines) (by decide) hcomments 0
  have hread := hback.attachments 0
  rw [hplan, hplaced, hfst, List.map_map] at hread
  have hamong (es : List Expr) (c : Comment) :
      (c.among 0 es).map Comment.content id = (c.content, standing es c.line) := by
    rw [Comment.among, Nat.zero_add]
    rfl
  calc _ = (Block.comments blocks).map fun c =>
          (c.among 0 (Block.statements blocks)).map Comment.content id :=
        List.map_congr_left fun c _ => (hamong _ c).symm
    _ = s.comments.map fun c => (c.among 0 s.statements).map Comment.content id := hread.symm
    _ = _ := List.map_congr_left fun c _ => hamong _ c

def threeComments : Script where
  path := none
  statements := [⟨some ⟨⟨1, 1, 0⟩, ⟨2, 4, 11⟩⟩, .list [⟨some ⟨⟨1, 2, 1⟩, ⟨1, 3, 2⟩⟩, .ident "x"⟩,
    ⟨some ⟨⟨2, 2, 9⟩, ⟨2, 3, 10⟩⟩, .ident "y"⟩]⟩]
  comments := [⟨⟨⟨1, 5, 4⟩, ⟨1, 8, 7⟩⟩, "# a"⟩, ⟨⟨⟨2, 5, 12⟩, ⟨2, 8, 15⟩⟩, "# b"⟩,
    ⟨⟨⟨3, 1, 16⟩, ⟨3, 4, 19⟩⟩, "# c"⟩]

theorem parse_threeComments : parse "[x, # a\n y] # b\n# c" = .ok threeComments := by cbv

theorem comments_attached_threeComments :
    parse "[x, # a\n y] # b\n# c" = .ok threeComments ∧
      ∃ text s', threeComments.render (.spaces 2) = .ok text ∧ parse text = .ok s' ∧
        (s'.comments.map fun c => (c.content, s'.attachment c)) =
          [("# a", 0, false), ("# b", 0, true), ("# c", 1, false)] := by
  refine ⟨parse_threeComments, ?_⟩
  obtain ⟨text, s', hrender, hparse, hsame, -⟩ := comments_attached parse_threeComments (.spaces 2)
  exact ⟨text, s', hrender, hparse, hsame.trans rfl⟩

end Script
end BuildScript
