import BuildScript.Proofs.Layout.Entries

/-!
Formatting loses nothing. Whatever the spans say, the lines of a script are its statements and its
comments, each of them once and in its order (`Script.entries_keep`).
-/
namespace BuildScript

namespace Entry

def line : Entry → Layout
  | comment c => .token c.content
  | statement layout none => layout
  | statement layout (some c) => .joined [layout, .token "  ", .token c.content]

theorem print_eq (indent : Indentation) (entry : Entry) :
    entry.print indent = entry.line.print indent 0 := by
  rcases entry with c | ⟨layout, _ | c⟩
  · rfl
  · rfl
  · show _ = layout.print indent 0 ++ (' ' :: ' ' :: (c.content.toList ++ []))
    rw [List.append_nil]
    rfl

def statement? : Entry → Option Layout
  | comment _ => none
  | statement layout _ => some layout

def comment? : Entry → Option Comment
  | comment c => some c
  | statement _ trailing => trailing

end Entry

namespace Plan

theorem statement?_entries (plan : Plan) :
    (plan.entries.filterMap fun p => p.entry.statement?) = plan.statements.map Prod.snd := by
  unfold statements Block.statements blocks entries
  rw [List.filterMap_map, List.filterMap_map, List.map_filterMap]
  refine List.filterMap_congr fun b _ => ?_
  rcases b with ⟨c | ⟨s, trailing⟩, lines⟩ <;> rfl

theorem comment?_entries (plan : Plan) :
    (plan.entries.filterMap fun p => p.entry.comment?) = plan.comments := by
  unfold comments Block.comments blocks entries
  induction plan with
  | nil => rfl
  | cons b plan ih =>
    rcases b with ⟨c | ⟨s, _ | c⟩, lines⟩
    · exact congrArg (c :: ·) ih
    · exact ih
    · exact congrArg (c :: ·) ih

end Plan

/-- What is printed are the lines of the entries, and blank lines before some of them. -/
theorem printEntries_eq (indent : Indentation) (last : Option Nat) (placed : List Placed) :
    ∃ gaps : List Bool, gaps.length = placed.length ∧
      printEntries indent last placed = (List.zipWith (fun gap p =>
        (if gap then ['\n'] else []) ++ p.entry.line.print indent 0 ++ ['\n'])
          gaps placed).flatten := by
  induction placed generalizing last with
  | nil => exact ⟨[], rfl, rfl⟩
  | cons p placed ih =>
    obtain ⟨gaps, hlength, htext⟩ := ih (p.lines.map Prod.snd)
    refine ⟨gapBetween last p.lines :: gaps, congrArg (· + 1) hlength, ?_⟩
    rw [printEntries, htext, Entry.print_eq, List.zipWith_cons_cons, List.flatten_cons]
    simp

theorem length_of_mapM {es : List Expr} {layouts : List Layout}
    (h : es.mapM Layout.ofExpr = .ok layouts) : layouts.length = es.length := by
  induction es generalizing layouts with
  | nil =>
    cases h
    rfl
  | cons e es ih =>
    rw [List.mapM_cons] at h
    cases he : Layout.ofExpr e with
    | error _ =>
      rw [he] at h
      cases h
    | ok first =>
      cases hes : es.mapM Layout.ofExpr with
      | error _ =>
        rw [he, hes] at h
        cases h
      | ok others =>
        rw [he, hes] at h
        cases h
        exact congrArg (· + 1) (ih hes)

namespace Script
variable {s : Script} {placed : List Placed}

theorem entries_eq_ok : s.entries = .ok placed ↔ ∃ layouts,
    s.statements.mapM Layout.ofExpr = .ok layouts ∧
      place (s.statements.zip layouts) s.comments = placed := by
  unfold entries
  cases s.statements.mapM Layout.ofExpr with
  | error _ =>
    constructor
    · exact nofun
    · rintro ⟨_, h, -⟩
      cases h
  | ok layouts =>
    constructor
    · exact fun h => ⟨layouts, rfl, Except.ok.inj h⟩
    · rintro ⟨_, h, rfl⟩
      cases h
      rfl

/-- Where formatting succeeds, the lines hold the statements, laid out, and the comments, all of
them in their order; a line is a comment, a statement, or a statement with a comment behind it. -/
theorem entries_keep (h : s.entries = .ok placed) :
    s.statements.mapM Layout.ofExpr = .ok (placed.filterMap fun p => p.entry.statement?) ∧
    (placed.filterMap fun p => p.entry.comment?) = s.comments ∧
    ∀ indent, ∃ gaps : List Bool, gaps.length = placed.length ∧
      s.render indent = .ok (String.ofList (List.zipWith (fun gap p =>
        (if gap then ['\n'] else []) ++ p.entry.line.print indent 0 ++ ['\n'])
          gaps placed).flatten) := by
  obtain ⟨layouts, hlayouts, hplaced⟩ := entries_eq_ok.1 h
  obtain ⟨plan, hplan, hstatements, hcomments⟩ :=
    exists_plan id (s.statements.zip layouts) s.comments
  have hentries : placed = plan.entries := hplaced.symm.trans hplan
  refine ⟨?_, ?_, fun indent => ?_⟩
  · rw [hlayouts, hentries, Plan.statement?_entries, hstatements, Prod.map_id, List.map_id,
      List.map_snd_zip (length_of_mapM hlayouts).le]
  · rw [hentries, Plan.comment?_entries, hcomments]
  · obtain ⟨gaps, hlength, htext⟩ := printEntries_eq indent none placed
    refine ⟨gaps, hlength, ?_⟩
    rw [render, h, ← htext]
    rfl

def twoLines : Script where
  path := none
  statements := [⟨some ⟨⟨1, 1, 0⟩, ⟨2, 2, 5⟩⟩, .list []⟩, .ident "x"]
  comments := [⟨⟨⟨1, 3, 2⟩, ⟨1, 4, 3⟩⟩, "#a"⟩, ⟨⟨⟨2, 4, 7⟩, ⟨2, 6, 9⟩⟩, "#b"⟩]

theorem entries_keep_twoLines : ∃ placed, twoLines.entries = .ok placed ∧
    placed.length = 3 ∧
      (placed.filterMap fun p => p.entry.statement?) =
        [.sequence .square [] true true, .token "x"] ∧
      (placed.filterMap fun p => p.entry.comment?) = twoLines.comments := by
  have hentries : twoLines.entries = .ok (place (twoLines.statements.zip
      [.sequence .square [] true true, .token "x"]) twoLines.comments) := rfl
  obtain ⟨hstatements, hcomments, -⟩ := entries_keep hentries
  exact ⟨_, hentries, rfl, (Except.ok.inj hstatements).symm, hcomments⟩

end Script
end BuildScript
