import BuildScript.Parse.Source
import BuildScript.Proofs.Layout.Entries
import BuildScript.Proofs.Layout.Fused

/-!
Printing and reading. The text of a script that can be printed is accepted, and what it is read as
is the script with the parentheses that printing puts (`parse_render`).
-/
namespace BuildScript
open BuildScript.Parser Lexeme Grammar

namespace ReadBack
variable {last : Option Nat} {line stop : Nat} {plan : Plan} {blocks : List (Block Expr)}

theorem statements (h : ReadBack last line plan blocks stop) :
    (Block.statements blocks).map Expr.onLines =
      plan.statements.map fun s => s.1.grouped.drawn := by
  induction h with
  | nil => rfl
  | comment _ _ _ ih => exact ih
  | statement he _ _ _ _ _ _ ih => exact List.cons_eq_cons.2 ⟨he, ih⟩

theorem eraseSpans (h : ReadBack last line plan blocks stop) :
    (Block.statements blocks).map Expr.eraseSpans =
      plan.statements.map fun s => s.1.grouped.eraseSpans := by
  have key := congrArg (List.map Expr.eraseSpans) h.statements
  rw [List.map_map, List.map_map] at key
  have hlines : Expr.eraseSpans ∘ Expr.onLines = Expr.eraseSpans :=
    funext Expr.eraseSpans_onLines
  have hdrawn : (Expr.eraseSpans ∘ fun s : Expr × Layout => s.1.grouped.drawn) =
      fun s => s.1.grouped.eraseSpans := funext fun s => Expr.eraseSpans_drawn _
  rwa [hlines, hdrawn] at key

end ReadBack

namespace Script

structure Legible (s : Script) : Prop where
  statements : ∀ e ∈ s.statements, e.Legible
  comments : ∀ c ∈ s.comments, c.Valid

/-- All of the script can be written down so that it is read as what it is. -/
structure Printable (s : Script) : Prop where
  statements : ∀ e ∈ s.statements, e.Writable
  comments : ∀ c ∈ s.comments, c.Valid

theorem Legible.render_eq {s : Script} (h : s.Legible) (indent : Indentation) :
    s.render indent = .ok (String.ofList (printEntries indent none
      (place (s.statements.map fun e => (e, e.layout)) s.comments))) := by
  have hlayouts : s.statements.mapM Layout.ofExpr = .ok (s.statements.map Expr.layout) := by
    have hall := h.statements
    generalize s.statements = es at hall
    induction es with
    | nil => rfl
    | cons e es ih =>
      obtain ⟨he, hes⟩ := List.forall_mem_cons.1 hall
      rw [List.mapM_cons, he.ofExpr_eq, ih hes]
      rfl
  have hzip : s.statements.zip (s.statements.map Expr.layout) =
      s.statements.map fun e => (e, e.layout) := by
    rw [← List.zip_map', List.map_id']
  unfold render entries
  rw [hlayouts]
  exact congrArg (fun pairs => Except.ok (String.ofList (printEntries indent none
    (place pairs s.comments)))) hzip

/-- The entries of a script are those of a plan, which has each name that hangs on a number as a
part of that number. -/
theorem Legible.exists_plan_place {s : Script} (h : s.Legible) (indent : Indentation) :
    ∃ plan : Plan, plan.Sound indent ∧
      plan.statements.map Prod.fst = s.statements.map Expr.fused ∧ plan.comments = s.comments ∧
      plan.entries = place (s.statements.map fun e => (e, e.layout)) s.comments := by
  obtain ⟨plan, hplan, hstatements, hcomments⟩ :=
    BuildScript.exists_plan Expr.fused (s.statements.map fun e => (e, e.layout)) s.comments
  rw [List.map_map] at hstatements
  refine ⟨plan, ⟨?_, ?_⟩, ?_, hcomments, hplan.symm⟩
  · rw [hstatements, List.forall_mem_map]
    intro e he
    have hlegible := h.statements e he
    refine ⟨hlegible.fused, ?_⟩
    exact (hlegible.print_layout indent 0).trans (hlegible.spelled_fused indent 0).symm
  · rw [hcomments]
    exact h.comments
  · rw [hstatements, List.map_map]
    rfl

/-- The text of a script is that of its plan. -/
theorem Legible.exists_plan {s : Script} (h : s.Legible) (indent : Indentation) :
    ∃ plan : Plan, plan.Sound indent ∧
      plan.statements.map Prod.fst = s.statements.map Expr.fused ∧ plan.comments = s.comments ∧
      s.render indent = .ok (String.ofList (printEntries indent none plan.entries)) := by
  obtain ⟨plan, hsound, hstatements, hcomments, hplan⟩ := h.exists_plan_place indent
  exact ⟨plan, hsound, hstatements, hcomments, hplan ▸ h.render_eq indent⟩

theorem parse_plan {indent : Indentation} {plan : Plan} (h : plan.Sound indent) :
    ∃ blocks, parse (String.ofList (printEntries indent none plan.entries)) =
        .ok ⟨none, Block.statements blocks, Block.comments blocks⟩ ∧
      ReadBack none 1 plan blocks (1 + (printEntries indent none plan.entries).count '\n') := by
  obtain ⟨blocks, c, d, d', hskip, hread, hscan, hback⟩ :=
    h.readsPlan none (q := .start) (by decide)
  rw [Position.line_after] at hback
  refine ⟨blocks, parse_eq_ok.2 ⟨rfl, ?_, c, d, ?_, hread⟩, hback⟩
  · rw [String.toList_ofList]
    exact (commentsOf_eq hscan).symm
  · rw [String.toList_ofList]
    exact hskip

theorem Legible.reparse {s : Script} (h : s.Legible) (indent : Indentation) :
    ∃ text s', s.render indent = .ok text ∧ parse text = .ok s' ∧
      s'.statements.map Expr.eraseSpans =
        s.statements.map fun e => e.fused.grouped.eraseSpans := by
  obtain ⟨plan, hsound, hstatements, -, hrender⟩ := h.exists_plan indent
  obtain ⟨blocks, hparse, hback⟩ := parse_plan hsound
  refine ⟨_, _, hrender, hparse, ?_⟩
  have key := congrArg (List.map fun e => e.grouped.eraseSpans) hstatements
  rw [List.map_map, List.map_map] at key
  exact hback.eraseSpans.trans key

theorem Printable.legible {s : Script} (h : s.Printable) : s.Legible where
  statements e he := (h.statements e he).legible
  comments := h.comments

/-- Parsing undoes printing, up to the parentheses that printing puts. -/
theorem parse_render (s : Script) (h : s.Printable) (indent : Indentation) :
    ∃ text s', s.render indent = .ok text ∧ parse text = .ok s' ∧
      s'.statements.map Expr.eraseSpans = s.statements.map fun e => e.grouped.eraseSpans := by
  obtain ⟨text, s', hrender, hparse, hback⟩ := h.legible.reparse indent
  refine ⟨text, s', hrender, hparse, hback.trans (List.map_congr_left fun e he => ?_)⟩
  rw [(h.statements e he).separated.fused_eq_self]

def bareProduct : Script where
  path := none
  statements := [⟨none, .binary .mul
    ⟨none, .binary .add ⟨none, .ident "a"⟩ ⟨none, .literal "1"⟩⟩ ⟨none, .ident "b"⟩⟩]
  comments := [⟨.zero, "# a sum"⟩]

theorem printable_bareProduct : bareProduct.Printable where
  statements := by decide
  comments := List.forall_mem_singleton.2 ⟨⟨_, rfl⟩, by decide, by decide⟩

theorem parse_render_bareProduct : bareProduct.Printable ∧
    ∃ text s', bareProduct.render (.spaces 4) = .ok text ∧ parse text = .ok s' ∧
      s'.statements.map Expr.eraseSpans = [⟨none, .binary .mul
        ⟨none, .paren ⟨none, .binary .add ⟨none, .ident "a"⟩ ⟨none, .literal "1"⟩⟩⟩
        ⟨none, .ident "b"⟩⟩] :=
  ⟨printable_bareProduct, parse_render bareProduct printable_bareProduct (.spaces 4)⟩

end Script
end BuildScript
