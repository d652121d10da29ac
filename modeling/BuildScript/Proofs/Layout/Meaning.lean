import BuildScript.Proofs.Expr.Stripping
import BuildScript.Proofs.Layout.RoundTrip
import BuildScript.Proofs.Parse.Nodes

/-!
Formatting and meaning. What a source means does not depend on its parentheses and its places; it is
what `strip` and `eraseSpans` leave. Formatting keeps it but for one thing: where a name hangs on a
number, the blank that held them apart is lost.
-/
namespace BuildScript
open BuildScript.Parser Lexeme Grammar

theorem Grammar.ReadsStatement.legible {e : Expr} {c d : Cursor} (h : ReadsStatement e c d) :
    e.Legible := by
  rcases h with h | ⟨h, -⟩
  · exact .inl (isLoad_of_load h)
  · exact .inr h.lexical

theorem Grammar.ReadsStatement.grouped {e : Expr} {c d : Cursor} (h : ReadsStatement e c d) :
    e.Grouped := by
  rcases h with h | ⟨-, h⟩
  · exact Expr.grouped_of_isLoad (isLoad_of_load h)
  · exact h

theorem Grammar.ReadsLines.forall {P : Expr → Prop} (hP : ∀ e c d, ReadsStatement e c d → P e)
    {es : List Expr} {c d : Cursor} (h : ReadsLines es c d) : ∀ e ∈ es, P e := by
  induction h with
  | nil _ => simp
  | cons he _ _ _ _ ih => exact List.forall_mem_cons.2 ⟨hP _ _ _ he, ih⟩

def Expr.prepared (stripping : Bool) (e : Expr) : Expr := if stripping then e.strip else e

theorem Expr.Legible.prepared {e : Expr} (h : e.Legible) (stripping : Bool) :
    (e.prepared stripping).Legible := by
  cases stripping with
  | false => exact h
  | true =>
    rcases h with hload | hlexical
    · left
      show e.strip.isLoad = true
      rw [strip_of_isLoad hload]
      exact hload
    · exact .inr hlexical.strip

namespace Script
variable {source : String} {s : Script}

theorem legible_of_parse (h : parse source = .ok s) : s.Legible := by
  obtain ⟨-, hcomments, c, d, -, hread⟩ := parse_eq_ok.1 h
  exact ⟨hread.forall fun _ _ _ => ReadsStatement.legible, hcomments ▸ commentsOf_valid⟩

/-- What is printed of a script: all of it, or what is left without its parentheses. -/
def prepared (stripping : Bool) (s : Script) : Script :=
  if stripping then s.stripped.1 else s

theorem prepared_eq (stripping : Bool) (s : Script) : s.prepared stripping =
    { s with statements := s.statements.map (Expr.prepared stripping) } := by
  cases stripping with
  | false =>
    show s = { s with statements := s.statements.map id }
    rw [List.map_id]
  | true => exact stripped_eq s

theorem Legible.prepared (h : s.Legible) (stripping : Bool) : (s.prepared stripping).Legible := by
  rw [prepared_eq]
  exact ⟨List.forall_mem_map.2 fun e he => (h.statements e he).prepared stripping, h.comments⟩

/-- The statements without parentheses and places. -/
def meaning (s : Script) : List Expr := s.stripped.1.statements.map Expr.eraseSpans

theorem meaning_eq (s : Script) : s.meaning = s.statements.map fun e => e.strip.eraseSpans := by
  rw [meaning, stripped_eq, List.map_map]
  rfl

theorem meaning_prepared (stripping : Bool) (s : Script) :
    (s.prepared stripping).meaning = s.meaning := by
  rw [meaning_eq, meaning_eq, prepared_eq, List.map_map]
  apply List.map_congr_left
  intro e _
  cases stripping with
  | false => rfl
  | true => exact congrArg Expr.eraseSpans e.strip_strip

/-- A source is formatted to a text that means the same exactly if no name hangs on a number in
what is printed. -/
theorem meaning_parse_render (h : parse source = .ok s) (indent : Indentation) (stripping : Bool) :
    ∃ text s', (s.prepared stripping).render indent = .ok text ∧ parse text = .ok s' ∧
      (s'.meaning = s.meaning ↔ ∀ e ∈ (s.prepared stripping).statements, e.Separated) := by
  obtain ⟨text, s', hrender, hparse, hback⟩ :=
    ((legible_of_parse h).prepared stripping).reparse indent
  refine ⟨text, s', hrender, hparse, ?_⟩
  have hstripped (e : Expr) : e.fused.grouped.eraseSpans.strip = e.fused.strip.eraseSpans := by
    rw [Expr.strip_eraseSpans, Expr.strip_grouped]
  have hread : s'.meaning =
      (s.prepared stripping).statements.map fun e => e.fused.strip.eraseSpans := by
    calc s'.meaning
        = (s'.statements.map Expr.eraseSpans).map Expr.strip := by
          rw [meaning_eq, List.map_map]
          exact List.map_congr_left fun e _ => e.strip_eraseSpans.symm
      _ = _ := by
          rw [hback, List.map_map]
          exact List.map_congr_left fun e _ => hstripped e
  rw [hread, ← meaning_prepared stripping, meaning_eq, List.map_inj_left]
  refine forall₂_congr fun e _ => ⟨Expr.separated_of_fused, fun h => ?_⟩
  rw [h.fused_eq_self]

def spacedDot : Script where
  path := none
  statements := [⟨some ⟨⟨1, 1, 0⟩, ⟨1, 5, 4⟩⟩,
    .dot ⟨some ⟨⟨1, 1, 0⟩, ⟨1, 2, 1⟩⟩, .literal "1"⟩ "x"⟩]
  comments := []

theorem parse_spacedDot : parse "1 .x\n" = .ok spacedDot := by cbv

/-- Formatted and read again, the name is gone. -/
theorem meaning_parse_render_spacedDot : parse "1 .x\n" = .ok spacedDot ∧
    ∃ text s', (spacedDot.prepared false).render .tabs = .ok text ∧ parse text = .ok s' ∧
      s'.meaning ≠ spacedDot.meaning := by
  refine ⟨parse_spacedDot, ?_⟩
  obtain ⟨text, s', hrender, hparse, hmeaning⟩ :=
    meaning_parse_render parse_spacedDot .tabs false
  exact ⟨text, s', hrender, hparse, (not_congr hmeaning).2 (by decide)⟩

end Script
end BuildScript
