import BuildScript.Proofs.Layout.Layered
import BuildScript.Proofs.Layout.Meaning

/-!
Trees that formatting leaves alone. A tree from a source, prepared for printing, is `Settled`: read
back from its text and prepared again, it has the same text (`spelled_prepared`).
-/
namespace BuildScript
open BuildScript.Parser Lexeme Grammar

theorem Span.isMultiline_eq_false {s : Span} (h : 0 < s.start.line) :
    s.isMultiline = false ↔ s.start.line = s.stop.line := by
  have hne : (s.start.line == 0) = false := by simp; omega
  simp [isMultiline, isEmpty, hne]

theorem Grammar.Reads.layered {m : Mode} {e : Expr} {c d : Cursor} (h : Reads m e c d)
    (hc : 0 < c.position.line) : e.Layered := by
  intro n hn hlines k hk
  obtain ⟨_, c₁, d₁, _, _, hread, hv, -⟩ := h.nodes n hn
  obtain ⟨_, c₂, d₂, _, _, hread', hv', hw'⟩ := hread.nodes k hk
  obtain ⟨_, _, -, hpass⟩ := hread'.passes
  have h₁ := hv.line_le
  have h₂ := hv'.line_le
  have h₃ := hpass.line_le
  have h₄ := hw'.line_le
  rw [Expr.isMultiline_eq, hread.span_eq, Option.any_some,
    Span.isMultiline_eq_false (Nat.lt_of_lt_of_le hc h₁)] at hlines
  rw [Expr.isMultiline_eq, hread'.span_eq, Option.any_some,
    Span.isMultiline_eq_false (Nat.lt_of_lt_of_le hc (Nat.le_trans h₁ h₂))]
  exact Nat.le_antisymm h₃ (Nat.le_trans h₄ (Nat.le_trans (Nat.le_of_eq hlines.symm) h₂))

namespace Expr

theorem prepared_onLines (stripping : Bool) (e : Expr) :
    (e.prepared stripping).onLines = e.onLines.prepared stripping := by
  cases stripping with
  | false => rfl
  | true => exact (strip_mapSpans _ e).symm

structure Settled (stripping : Bool) (e : Expr) : Prop where
  unfolded : e.Unfolded
  bare : stripping = true → e.Bare
  /-- Drawn with the parentheses that it needs and prepared, it is drawn as it is. -/
  prepared : e.grouped.drawn.prepared stripping = e.drawn

theorem Unfolded.settled_false {e : Expr} (h : e.Unfolded) (hgrouped : e.Grouped) :
    e.Settled false where
  unfolded := h
  bare := by simp
  prepared := by
    rw [hgrouped.grouped_eq_self]
    rfl

theorem Unfolded.settled_true {e : Expr} (h : e.Unfolded) (hbare : e.Bare) : e.Settled true where
  unfolded := h
  bare _ := hbare
  prepared := hbare.strip_drawn_grouped

theorem Settled.span_prepared {stripping : Bool} {e e' : Expr} (h : e.Settled stripping)
    (he' : e'.onLines = e.grouped.drawn) : (e'.prepared stripping).span = e'.span := by
  cases stripping with
  | false => rfl
  | true =>
    have hroot : e'.onLines.shape.isParen = e'.shape.isParen := by
      rw [onLines_eq, Shape.isParen_map]
    rw [he', drawn_eq, Shape.isParen_map, grouped_eq, Shape.isParen_mapIdx,
      (every_iff.1 (h.bare rfl)).1] at hroot
    show e'.strip.span = e'.span
    rw [strip_of_not_paren hroot.symm]

/-- Read back and prepared, a settled tree has the text that it had. -/
theorem Settled.spelled_prepared {indent : Indentation} {stripping : Bool} {e e' : Expr}
    (h : e.Settled stripping) (he' : e'.onLines = e.grouped.drawn)
    (hlegible : (e'.prepared stripping).Legible) :
    (e'.prepared stripping).grouped.spelled indent = e.grouped.spelled indent := by
  rw [← hlegible.spelled_onLines, prepared_onLines, he', h.prepared, h.unfolded.spelled_drawn]

theorem bare_of_isLoad {e : Expr} (h : e.isLoad = true) : e.Bare :=
  strip_of_isLoad h ▸ bare_strip e

end Expr

theorem Grammar.ReadsStatement.settled {e : Expr} {c d : Cursor} (h : ReadsStatement e c d)
    (hc : 0 < c.position.line) (stripping : Bool) :
    (e.prepared stripping).fused.Settled stripping := by
  rcases h with h | ⟨h, hgrouped⟩
  · have hload := isLoad_of_load h
    have hself : (e.prepared stripping).fused = e := by
      have : e.prepared stripping = e := by
        cases stripping with
        | false => rfl
        | true => exact Expr.strip_of_isLoad hload
      rw [this, (Expr.separated_of_isLoad hload).fused_eq_self]
    rw [hself]
    cases stripping with
    | false => exact Expr.Unfolded.settled_false (.inl hload) (Expr.grouped_of_isLoad hload)
    | true => exact Expr.Unfolded.settled_true (.inl hload) (Expr.bare_of_isLoad hload)
  · have hlayered := h.layered hc
    cases stripping with
    | false =>
      exact Expr.Unfolded.settled_false (.inr ⟨h.lexical.fused, hlayered.fused⟩) hgrouped.fused
    | true =>
      exact Expr.Unfolded.settled_true (.inr ⟨h.lexical.strip.fused, hlayered.strip.fused⟩)
        (Expr.bare_strip e).fused

theorem Grammar.ReadsLines.settled {es : List Expr} {c d : Cursor} (h : ReadsLines es c d)
    (hc : 0 < c.position.line) (stripping : Bool) :
    ∀ e ∈ es, (e.prepared stripping).fused.Settled stripping := by
  induction h with
  | nil _ => simp
  | cons he hg hend hg' _ ih =>
    obtain ⟨_, _, -, hpass⟩ := he.passes
    obtain ⟨_, hg⟩ := hg.passes
    obtain ⟨_, hend⟩ := hend.passes
    obtain ⟨_, hg'⟩ := hg'.passes
    have hline := (((hpass.trans hg).trans hend).trans hg').line_le
    exact List.forall_mem_cons.2 ⟨he.settled hc stripping, ih (Nat.lt_of_lt_of_le hc hline)⟩

/-- The statements of a source, prepared and fused, are settled. -/
theorem Script.settled_of_parse {source : String} {s : Script} (h : parse source = .ok s)
    (stripping : Bool) : ∀ e ∈ s.statements, (e.prepared stripping).fused.Settled stripping := by
  obtain ⟨-, -, c, d, hskip, hread⟩ := parse_eq_ok.1 h
  obtain ⟨_, hskip⟩ := hskip.passes
  exact hread.settled (Nat.lt_of_lt_of_le (by decide : 0 < 1) hskip.line_le) stripping

end BuildScript
