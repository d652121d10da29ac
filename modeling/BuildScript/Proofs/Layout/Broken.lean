import BuildScript.Proofs.Expr.Place
import BuildScript.Proofs.Layout.Settled
import BuildScript.Proofs.Parse.Places

/-!
Formatting keeps the lines of brackets. A bracket with content is broken in the text exactly if it
covers several lines of the source, and what is read back covers as many lines as its text; so the
two agree at every place of the tree (`brackets_kept`).
-/
namespace BuildScript
open BuildScript.Parser Grammar

theorem placeAt_line_le {text : List Char} {i j : Nat} (h : i ≤ j) :
    (placeAt text i).line ≤ (placeAt text j).line :=
  Nat.add_le_add_left ((List.take_prefix_take_left h).sublist.count_le _) 1

namespace Expr

def CoversLines (e : Expr) : Prop := ∃ s, e.span = some s ∧ s.start.line < s.stop.line

theorem Fits.isMultiline_iff {text : List Char} {e : Expr} (h : e.Fits text) :
    e.isMultiline = true ↔ e.CoversLines := by
  obtain ⟨s, hspan, hlies, -⟩ := h.span
  have hstart : 0 < s.start.line := by
    rw [hlies.start_eq]
    exact Nat.succ_le_of_lt (Nat.lt_add_right _ Nat.one_pos)
  have hle : s.start.line ≤ s.stop.line := by
    rw [hlies.start_eq, hlies.stop_eq]
    exact placeAt_line_le (Nat.le_of_lt hlies.nonempty)
  have hcovers : e.CoversLines ↔ s.start.line ≠ s.stop.line := by
    unfold CoversLines
    simp only [hspan, Option.some.injEq, exists_eq_left']
    omega
  rw [hcovers, isMultiline_eq, hspan, Option.any_some, ← Bool.not_eq_false,
    Span.isMultiline_eq_false hstart]

theorem child?_respan (span : Expr → Option Span) (e : Expr) (i : Nat) :
    (e.respan span).child? i = (e.child? i).map (respan span) := by
  rw [respan_eq, child?, Shape.child?_map]
  rfl

theorem at?_respan (span : Expr → Option Span) (e : Expr) (path : Path) :
    (e.respan span).at? path = (e.at? path).map (respan span) := by
  induction path generalizing e with
  | nil => rfl
  | cons i path ih =>
    rw [at?_cons, at?_cons, child?_respan]
    cases e.child? i with
    | none => rfl
    | some c => exact ih c

theorem Unfolded.expanded {e : Expr} (h : e.Unfolded) : e.Expanded := by
  rcases h with h | ⟨-, h⟩
  · refine every_iff.2 ⟨fun _ => spreads_of_isLoad h, fun c hc => ?_⟩
    have hleaf := isLoad_children h c hc
    refine every_iff.2 ⟨fun hbreaks => ?_, by simp [hleaf]⟩
    obtain ⟨s, shape⟩ := c
    cases shape <;> simp_all [children, Shape.children, Shape.breaks]
  · exact h.expanded

/-- Of a tree that was drawn and read back, each node is in its place, and a bracket with content
covers several lines if it did so before. -/
theorem Expanded.at?_of_onLines {e e' : Expr} (h : e.Expanded) (he' : e'.onLines = e.drawn)
    {path : Path} {x : Expr} (hx : e.at? path = some x) (hbreaks : x.shape.breaks = true) :
    ∃ x', e'.at? path = some x' ∧ x'.isMultiline = x.isMultiline := by
  have hplaces : (e'.at? path).map onLines = some x.drawn := by
    have key := congrArg (at? · path) he'
    rw [onLines_eq_respan, drawn_eq_respan, at?_respan, at?_respan, hx] at key
    exact key
  obtain ⟨x', hx', hdrawn⟩ := Option.map_eq_some_iff.1 hplaces
  refine ⟨x', hx', ?_⟩
  have hspan := congrArg (fun n : Expr => n.span.any Span.isMultiline) hdrawn
  rw [onLines_eq, drawn_eq, any_lineSpan, any_lineSpan, ← isMultiline_eq] at hspan
  rw [hspan, (every_iff.1 (Every.at? h hx)).1 hbreaks]

/-- The trees are the same but for their spans, and a bracket with content has several lines in the
one if it has them in the other. -/
structure BreaksAlike (e e' : Expr) : Prop where
  same : e'.eraseSpans = e.eraseSpans
  lines : ∀ path x, e.at? path = some x → x.shape.breaks = true →
    ∃ x', e'.at? path = some x' ∧ (x'.CoversLines ↔ x.CoversLines)

theorem Expanded.breaksAlike {text text' : List Char} {e e' : Expr} (h : e.Expanded)
    (he' : e'.onLines = e.drawn) (hfits : e.Every (Fits text)) (hfits' : e'.Every (Fits text')) :
    e.BreaksAlike e' where
  same := eraseSpans_eq_of_onLines he'
  lines path x hx hbreaks := by
    obtain ⟨x', hx', hlines⟩ := h.at?_of_onLines he' hx hbreaks
    refine ⟨x', hx', ?_⟩
    rw [← (every_iff.1 (hfits.at? hx)).1.isMultiline_iff,
      ← (every_iff.1 (hfits'.at? hx')).1.isMultiline_iff, hlines]

end Expr

namespace Script
variable {source : String} {s : Script}

/-- A source in which no name hangs on a number is formatted to a text with the same trees, and the
brackets with content that have several lines are the same in both. -/
theorem brackets_kept (h : parse source = .ok s) (hseparated : ∀ e ∈ s.statements, e.Separated)
    (indent : Indentation) : ∃ text s', s.render indent = .ok text ∧ parse text = .ok s' ∧
      List.Forall₂ Expr.BreaksAlike s.statements s'.statements := by
  obtain ⟨plan, hsound, hplan, -, hrender⟩ := (legible_of_parse h).exists_plan indent
  obtain ⟨blocks, hparse, hback⟩ := parse_plan hsound
  refine ⟨_, _, hrender, hparse, ?_⟩
  have hself : ∀ e ∈ s.statements, e.fused = e := fun e he => (hseparated e he).fused_eq_self
  obtain ⟨-, -, c, d, -, hread⟩ := parse_eq_ok.1 h
  have hgrouped : ∀ e ∈ s.statements, e.Grouped :=
    hread.forall fun _ _ _ => ReadsStatement.grouped
  have hexpanded : ∀ e ∈ s.statements, e.Expanded := fun e he =>
    hself e he ▸ (settled_of_parse h false e he).unfolded.expanded
  have hdrawn : (Block.statements blocks).map Expr.onLines = s.statements.map Expr.drawn := by
    calc (Block.statements blocks).map Expr.onLines
        = (plan.statements.map Prod.fst).map fun e => e.grouped.drawn := by
          rw [hback.statements, List.map_map]
          rfl
      _ = s.statements.map Expr.drawn := by
          rw [hplan, List.map_map]
          refine List.map_congr_left fun e he => ?_
          show e.fused.grouped.drawn = _
          rw [hself e he, (hgrouped e he).grouped_eq_self]
  have hequal : List.Forall₂ (· = ·) (s.statements.map Expr.drawn)
      ((Block.statements blocks).map Expr.onLines) := by
    rw [List.forall₂_eq_eq_eq]
    exact hdrawn.symm
  have hpairs : List.Forall₂ (fun e e' => e.drawn = e'.onLines) s.statements
      (Block.statements blocks) :=
    List.forall₂_map_right_iff.1 (List.forall₂_map_left_iff.1 hequal)
  obtain ⟨hlength, hzip⟩ := List.forall₂_iff_zip.1 hpairs
  refine List.forall₂_iff_zip.2 ⟨hlength, fun {e e'} hmem => ?_⟩
  obtain ⟨he, he'⟩ := List.of_mem_zip hmem
  exact (hexpanded e he).breaksAlike (hzip hmem).symm (fits_of_parse h e he)
    (fits_of_parse hparse e' he')

def brokenCall : Script where
  path := none
  statements := [⟨some ⟨⟨1, 1, 0⟩, ⟨2, 7, 9⟩⟩, .call
    ⟨some ⟨⟨1, 1, 0⟩, ⟨1, 2, 1⟩⟩, .ident "f"⟩
    [⟨some ⟨⟨2, 2, 4⟩, ⟨2, 5, 7⟩⟩, .list [⟨some ⟨⟨2, 3, 5⟩, ⟨2, 4, 6⟩⟩, .ident "a"⟩]⟩]⟩]
  comments := []

theorem parse_brokenCall : parse "f(\n [a] )" = .ok brokenCall := by cbv

theorem brackets_kept_brokenCall : parse "f(\n [a] )" = .ok brokenCall ∧
    (∀ e ∈ brokenCall.statements, e.Separated) ∧
    ∃ text s', brokenCall.render .tabs = .ok text ∧ parse text = .ok s' ∧
      List.Forall₂ Expr.BreaksAlike brokenCall.statements s'.statements :=
  ⟨parse_brokenCall, by decide, brackets_kept parse_brokenCall (by decide) .tabs⟩

end Script
end BuildScript
