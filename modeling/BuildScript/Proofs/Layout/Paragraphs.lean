import BuildScript.Proofs.Layout.Attached
import BuildScript.Proofs.Layout.Broken
import BuildScript.Proofs.Layout.Tidy

/-!
What is printed falls into paragraphs: a statement with the comment behind it, or a comment. The
lines of a paragraph are tidy, and at most one blank line stands between two of them
(`cleanLines_of_paragraphs`); it stands there if the source has one (`render_clean`).
-/
namespace BuildScript
open BuildScript.Parser Grammar

theorem Block.statements_append {α : Type} (as bs : List (Block α)) :
    statements (as ++ bs) = statements as ++ statements bs :=
  List.filterMap_append

theorem Block.comments_append {α : Type} (as bs : List (Block α)) :
    comments (as ++ bs) = comments as ++ comments bs :=
  List.flatMap_append

def Block.map {α β : Type} (f : α → β) : Block α → Block β
  | comment c => .comment c
  | statement s trailing => .statement (f s) trailing

theorem Block.statements_map {α β : Type} (f : α → β) (bs : List (Block α)) :
    statements (bs.map (Block.map f)) = (statements bs).map f := by
  unfold statements
  rw [List.filterMap_map, List.map_filterMap]
  refine List.filterMap_congr fun b _ => ?_
  cases b <;> rfl

theorem Block.comments_map {α β : Type} (f : α → β) (bs : List (Block α)) :
    comments (bs.map (Block.map f)) = comments bs := by
  unfold comments
  rw [List.flatMap_map]
  refine List.flatMap_congr fun b _ => ?_
  cases b <;> rfl

def Block.HasText (indent : Indentation) : Block Expr → List Char → Prop
  | comment c, text => text = c.content.toList
  | statement e trailing, text => ∃ t, e.render indent = .ok t ∧
    text = t.toList ++ match trailing with
      | none => []
      | some c => ' ' :: ' ' :: c.content.toList

/-- The source lines that a block counts for, among the statements `es`. A comment inside of a
statement counts for the first line of it. -/
def Block.CountsFor (es : List Expr) (first last : Nat) : Block Expr → Prop
  | comment c => first = last ∧
    ((∃ e ∈ es, ∃ s, e.span = some s ∧ s.start.line ≤ c.line ∧ c.line < s.stop.line ∧
        first = s.start.line) ∨
      (∀ e ∈ es, ∀ s ∈ e.span, c.line < s.start.line ∨ s.stop.line ≤ c.line) ∧ first = c.line)
  | statement e _ => ∃ s, e.span = some s ∧ first = s.start.line ∧ last = s.stop.line

def BlankLine (line : List Char) : Prop := ∀ x ∈ line, isBlank x = true

/-- Lines without white space at their ends, the first and the last of them not blank, and no two
blank ones in a row. -/
structure CleanLines (lines : List (List Char)) : Prop where
  whole : ∀ line ∈ lines, '\n' ∉ line
  trimmed : ∀ line ∈ lines, ∀ x ∈ line.getLast?, isBlank x = false
  first : ∀ line ∈ lines.head?, ¬BlankLine line
  last : ∀ line ∈ lines.getLast?, ¬BlankLine line
  single : lines.IsChain fun line next => BlankLine line → ¬BlankLine next

theorem TidyLine.not_blankLine {line : List Char} (h : TidyLine line) : ¬BlankLine line := by
  obtain ⟨-, x, hx, hblank⟩ := h
  intro hall
  rw [hall x (List.mem_of_getLast? hx)] at hblank
  cases hblank

def EndsOnce (text : List Char) : Prop :=
  text = [] ∨ ∃ before x, text = before ++ [x, '\n'] ∧ x ≠ '\n'

theorem CleanLines.endsOnce {lines : List (List Char)} (h : CleanLines lines) :
    EndsOnce (unlines lines) := by
  rcases List.eq_nil_or_concat lines with rfl | ⟨above, line, rfl⟩
  · exact .inl rfl
  · have hlast := h.last line (by simp)
    have hwhole := h.whole line (by simp)
    rcases List.eq_nil_or_concat line with rfl | ⟨before, x, rfl⟩
    · exact absurd nofun hlast
    · refine .inr ⟨unlines above ++ before, x, ?_, ?_⟩
      · simp [unlines]
      · rintro rfl
        exact hwhole (by simp)

/-- A block with the lines of its text, and whether a blank line stands before it. -/
structure Paragraph where
  block : Block Expr
  gap : Bool
  lines : List (List Char)

namespace Paragraph

def allLines (p : Paragraph) : List (List Char) := (if p.gap then [[]] else []) ++ p.lines

structure Shows (indent : Indentation) (p : Paragraph) : Prop where
  ne_nil : p.lines ≠ []
  tidy : ∀ line ∈ p.lines, TidyLine line
  text : ∃ text, p.block.HasText indent text ∧ unlines p.lines = text ++ ['\n']

/-- A blank line stands before the second paragraph exactly if the source has lines between what the
two count for, among the statements `es`. -/
def Spaced (es : List Expr) (p q : Paragraph) : Prop :=
  ∃ first last first' last', p.block.CountsFor es first last ∧ q.block.CountsFor es first' last' ∧
    (q.gap = true ↔ last + 1 < first')

end Paragraph

section Lines
variable {p : Paragraph} {ps : List Paragraph}

theorem Paragraph.tidyLine_getLast (hne : p.lines ≠ [])
    (htidy : ∀ line ∈ p.lines, TidyLine line) : ∀ line ∈ p.allLines.getLast?, TidyLine line := by
  intro line hline
  rw [allLines, List.getLast?_append_of_ne_nil _ hne] at hline
  exact htidy line (List.mem_of_getLast? hline)

theorem Paragraph.isChain_allLines (htidy : ∀ line ∈ p.lines, TidyLine line) :
    p.allLines.IsChain fun line next => BlankLine line → ¬BlankLine next := by
  have hlines : p.lines.IsChain fun line next => BlankLine line → ¬BlankLine next :=
    (List.pairwise_of_forall_mem_list fun line _ next hnext (_ : BlankLine line) =>
      (htidy next hnext).not_blankLine).isChain
  unfold allLines
  split
  · exact List.isChain_cons.2
      ⟨fun next hnext _ => (htidy next (List.mem_of_mem_head? hnext)).not_blankLine, hlines⟩
  · exact hlines

variable (hne : ∀ p ∈ ps, p.lines ≠ []) (htidy : ∀ p ∈ ps, ∀ line ∈ p.lines, TidyLine line)
include hne htidy

theorem tidyLine_getLast : ∀ line ∈ (ps.flatMap Paragraph.allLines).getLast?, TidyLine line := by
  induction ps with
  | nil => simp
  | cons p ps ih =>
    obtain ⟨hne, hnes⟩ := List.forall_mem_cons.1 hne
    obtain ⟨htidy, htidys⟩ := List.forall_mem_cons.1 htidy
    intro line hline
    rw [List.flatMap_cons, List.getLast?_append, Option.mem_def, Option.or_eq_some_iff] at hline
    rcases hline with hline | ⟨-, hline⟩
    · exact ih hnes htidys line hline
    · exact Paragraph.tidyLine_getLast hne htidy line hline

theorem isChain_flatMap_allLines : (ps.flatMap Paragraph.allLines).IsChain
    fun line next => BlankLine line → ¬BlankLine next := by
  induction ps with
  | nil => exact .nil
  | cons p ps ih =>
    obtain ⟨hne, hnes⟩ := List.forall_mem_cons.1 hne
    obtain ⟨htidy, htidys⟩ := List.forall_mem_cons.1 htidy
    rw [List.flatMap_cons, List.isChain_append]
    refine ⟨Paragraph.isChain_allLines htidy, ih hnes htidys, fun line hline _ _ hblank => ?_⟩
    exact absurd hblank (Paragraph.tidyLine_getLast hne htidy line hline).not_blankLine

theorem cleanLines_of_paragraphs (hfirst : ∀ p ∈ ps.head?, p.gap = false) :
    CleanLines (ps.flatMap Paragraph.allLines) := by
  have hall : ∀ line ∈ ps.flatMap Paragraph.allLines, line = [] ∨ TidyLine line := by
    intro line hline
    obtain ⟨p, hp, hline⟩ := List.mem_flatMap.1 hline
    rcases List.mem_append.1 hline with hgap | hline
    · left
      split at hgap
      · exact List.mem_singleton.1 hgap
      · cases hgap
    · exact .inr (htidy p hp line hline)
  refine ⟨fun line hline => ?_, fun line hline x hx => ?_, fun line hline => ?_,
    fun line hline => (tidyLine_getLast hne htidy line hline).not_blankLine,
    isChain_flatMap_allLines hne htidy⟩
  · rcases hall line hline with rfl | h
    · exact List.not_mem_nil
    · exact h.1
  · rcases hall line hline with rfl | ⟨-, y, hy, hblank⟩
    · cases hx
    · cases hx.symm.trans hy
      exact hblank
  · cases ps with
    | nil => cases hline
    | cons p ps =>
      have hgap := hfirst p rfl
      obtain ⟨first, lines, hlines⟩ := List.exists_cons_of_ne_nil (hne p (.head _))
      simp only [List.flatMap_cons, Paragraph.allLines, hgap, hlines] at hline
      cases hline
      exact (htidy p (.head _) line (hlines ▸ .head _)).not_blankLine

end Lines

namespace Plan

inductive Shown (indent : Indentation) : Option Nat → Plan → List Paragraph → Prop
  | nil {last : Option Nat} : Shown indent last [] []
  | cons {last : Option Nat} {b : Block (Expr × Layout)} {lines : Option (Nat × Nat)} {plan : Plan}
    {p : Paragraph} {ps : List Paragraph} (hblock : p.block = b.map Prod.fst)
    (hgap : p.gap = gapBetween last lines) (hshows : p.Shows indent)
    (hprint : (b.placed lines).entry.print indent ++ ['\n'] = unlines p.lines)
    (rest : Shown indent (lines.map Prod.snd) plan ps) :
    Shown indent last ((b, lines) :: plan) (p :: ps)

variable {indent : Indentation} {last : Option Nat} {plan : Plan} {ps : List Paragraph}

theorem Shown.printEntries_eq (h : Shown indent last plan ps) :
    printEntries indent last plan.entries = unlines (ps.flatMap Paragraph.allLines) := by
  induction h with
  | nil => rfl
  | @cons last b lines plan p ps hblock hgap _ hprint _ ih =>
    have hlines : (b.placed lines).lines = lines := by cases b <;> rfl
    show printEntries indent last (b.placed lines :: plan.entries) = _
    rw [printEntries, hlines, ih, ← hgap, List.flatMap_cons, Paragraph.allLines]
    have hgaps : unlines (if p.gap then [[]] else []) = if p.gap then ['\n'] else [] := by
      cases p.gap <;> rfl
    rw [unlines_append, unlines_append, ← hprint, hgaps]
    simp

theorem Shown.blocks (h : Shown indent last plan ps) :
    ps.map Paragraph.block = plan.blocks.map (Block.map Prod.fst) := by
  induction h with
  | nil => rfl
  | cons hblock _ _ _ _ ih => exact List.cons_eq_cons.2 ⟨hblock, ih⟩

theorem Shown.shows (h : Shown indent last plan ps) : ∀ p ∈ ps, p.Shows indent := by
  induction h with
  | nil => simp
  | cons _ _ hshows _ _ ih => exact List.forall_mem_cons.2 ⟨hshows, ih⟩

theorem print_block (indent : Indentation) (lines : Option (Nat × Nat))
    {b : Block (Expr × Layout)}
    (hstatements : ∀ s ∈ Block.statements [b], s.1.Legible ∧ s.2 = s.1.layout)
    (hcomments : ∀ c ∈ Block.comments [b], c.Valid) :
    (b.map Prod.fst).HasText indent ((b.placed lines).entry.print indent) ∧
      Tidy ((b.placed lines).entry.print indent) := by
  cases b with
  | comment c => exact ⟨rfl, (hcomments c (.head _)).tidy⟩
  | statement s trailing =>
    obtain ⟨hlegible, hlayout⟩ := hstatements s (.head _)
    have hrender : s.1.render indent = .ok (String.ofList (s.2.print indent 0)) := by
      rw [Expr.render, hlegible.ofExpr_eq, hlayout]
      rfl
    have htidy : Tidy (s.2.print indent 0) := hlayout ▸ hlegible.tidy_print indent
    cases trailing with
    | none => exact ⟨⟨_, hrender, by simp [Block.placed, Entry.print]⟩, htidy⟩
    | some c =>
      refine ⟨⟨_, hrender, by simp [Block.placed, Entry.print]⟩, htidy.append ?_⟩
      exact .cons (by decide) (.cons (by decide) (hcomments c (by simp)).tidy)

theorem exists_shown (indent : Indentation)
    (hstatements : ∀ s ∈ plan.statements, s.1.Legible ∧ s.2 = s.1.layout)
    (hcomments : ∀ c ∈ plan.comments, c.Valid) (last : Option Nat) :
    ∃ ps, Shown indent last plan ps := by
  induction plan generalizing last with
  | nil => exact ⟨[], .nil⟩
  | cons b plan ih =>
    obtain ⟨b, lines⟩ := b
    have hsplit : statements ((b, lines) :: plan) = Block.statements [b] ++ statements plan :=
      Block.statements_append [b] (blocks plan)
    have hsplit' : comments ((b, lines) :: plan) = Block.comments [b] ++ comments plan :=
      Block.comments_append [b] (blocks plan)
    obtain ⟨hstatement, hstatements⟩ := List.forall_mem_append.1 (hsplit ▸ hstatements)
    obtain ⟨hcomment, hcomments⟩ := List.forall_mem_append.1 (hsplit' ▸ hcomments)
    obtain ⟨ps, hps⟩ := ih hstatements hcomments (lines.map Prod.snd)
    obtain ⟨htext, htidy⟩ := print_block indent lines hstatement hcomment
    obtain ⟨texts, hne, hunlines, htexts⟩ := htidy.exists_lines
    exact ⟨_, .cons (p := ⟨b.map Prod.fst, gapBetween last lines, texts⟩) rfl rfl
      ⟨hne, htexts, _, htext, hunlines.symm⟩ hunlines hps⟩

theorem Shown.head?_gap (h : Shown indent none plan ps) : ∀ p ∈ ps.head?, p.gap = false := by
  cases h with
  | nil => simp
  | cons _ hgap _ _ _ =>
    rintro _ ⟨⟩
    exact hgap

def Lined (es : List Expr) (bound : Nat) (plan : Plan) : Prop :=
  ∀ b ∈ plan, ∃ first last, b.2 = some (first, last) ∧ last ≤ bound ∧
    (b.1.map Prod.fst).CountsFor es first last

/-- Blank lines are put where the lines that the blocks count for leave some out. -/
theorem Shown.isChain {es : List Expr} {bound : Nat} (h : Shown indent last plan ps)
    (hlines : plan.Lined es bound) (hbound : bound + 1 < 2 ^ 64) :
    ps.IsChain (Paragraph.Spaced es) := by
  induction h with
  | nil => exact .nil
  | @cons last b lines plan p ps hblock _ _ _ hrest ih =>
    obtain ⟨hline, hrests⟩ := List.forall_mem_cons.1 hlines
    refine List.isChain_cons.2 ⟨fun q hq => ?_, ih hrests⟩
    cases hrest with
    | nil => cases hq
    | @cons _ b' lines' plan' q' ps' hblock' hgap' _ _ _ =>
      cases hq
      obtain ⟨first, last, rfl, hle, hcounts⟩ := hline
      obtain ⟨first', last', hfirst', -, hcounts'⟩ := hrests _ (.head _)
      obtain rfl : lines' = some (first', last') := hfirst'
      refine ⟨first, last, first', last', hblock ▸ hcounts, hblock' ▸ hcounts', ?_⟩
      rw [hgap']
      show decide (lineAfter last < first') = true ↔ _
      rw [decide_eq_true_iff, lineAfter_eq (by omega)]

section Lined
variable {es : List Expr} {bound : Nat}

theorem lined_append {a b : Plan} (ha : Lined es bound a) (hb : Lined es bound b) :
    Lined es bound (a ++ b) :=
  List.forall_mem_append.2 ⟨ha, hb⟩

theorem lined_own {line : Comment → Nat} {cs : List Comment} (h : ∀ c ∈ cs, line c ≤ bound ∧
    (Block.comment c).CountsFor es (line c) (line c)) : Lined es bound (own line cs) :=
  List.forall_mem_map.2 fun c hc => ⟨line c, line c, rfl, h c hc⟩

theorem countsFor_outside {c : Comment}
    (h : ∀ e ∈ es, ∀ s ∈ e.span, c.line < s.start.line ∨ s.stop.line ≤ c.line) :
    (Block.comment c).CountsFor es c.line c.line :=
  ⟨rfl, .inr ⟨h, rfl⟩⟩

theorem le_of_head? {line : Nat} {cs : List Comment} (h : cs.Pairwise fun a b => a.line < b.line)
    (hhead : ∀ c ∈ cs.head?, line ≤ c.line) : ∀ c ∈ cs, line ≤ c.line := by
  cases cs with
  | nil => simp
  | cons c cs =>
    have hc := hhead c rfl
    exact List.forall_mem_cons.2
      ⟨hc, fun d hd => Nat.le_of_lt (Nat.lt_of_le_of_lt hc (List.rel_of_pairwise_cons h hd))⟩

def EndsAbove (es placed : List Expr) (comments : List Comment) : Prop :=
  ∀ e ∈ es, e ∈ placed ∨ ∀ s ∈ e.span, ∀ c ∈ comments, s.stop.line ≤ c.line

section EndsAbove
variable {placed : List Expr} {comments others : List Comment} {c : Comment} {line : Nat}

theorem EndsAbove.countsFor (h : EndsAbove es placed comments) (hlines : InLines line placed)
    (hmem : c ∈ comments) (hc : c.line < line) : (Block.comment c).CountsFor es c.line c.line := by
  refine countsFor_outside fun e he s hs => ?_
  rcases h e he with hplaced | habove
  · obtain ⟨t, ht, hle, -⟩ := hlines.line_le e hplaced
    cases ht.symm.trans hs
    exact .inl (Nat.lt_of_lt_of_le hc hle)
  · exact .inr (habove s hs c hmem)

theorem EndsAbove.tail {e : Expr} {s : Span} (h : EndsAbove es (e :: placed) comments)
    (hspan : e.span = some s) (hsub : ∀ c ∈ others, c ∈ comments)
    (hbelow : ∀ c ∈ others, s.stop.line < c.line) : EndsAbove es placed others := by
  intro e' he'
  rcases h e' he' with hplaced | habove
  · rcases List.mem_cons.1 hplaced with rfl | hplaced
    · right
      intro s' hs' c hc
      cases hspan.symm.trans hs'
      exact (hbelow c hc).le
    · exact .inl hplaced
  · exact .inr fun s' hs' c hc => habove s' hs' c (hsub c hc)

end EndsAbove
end Lined

/-- Placing finds the lines that statements and comments count for. -/
theorem exists_lined {es : List Expr} {bound line : Nat} {pairs : List (Expr × Layout)}
    {comments : List Comment} (h : InLines line (pairs.map Prod.fst)) (hline : 0 < line)
    (hcomments : comments.Pairwise fun a b => a.line < b.line) (hpairs : ∀ p ∈ pairs, p.1 ∈ es)
    (habove : EndsAbove es (pairs.map Prod.fst) comments)
    (hes : ∀ e ∈ es, ∀ s ∈ e.span, s.stop.line ≤ bound) (hbound : ∀ c ∈ comments, c.line ≤ bound) :
    ∃ plan : Plan, place pairs comments = plan.entries ∧ plan.statements = pairs ∧
      plan.comments = comments ∧ plan.Lined es bound := by
  induction pairs generalizing line comments with
  | nil =>
    refine ⟨own Comment.line comments ++ [], ?_, statements_own _ _ _, ?_,
      lined_append (lined_own fun c hc => ⟨hbound c hc, ?_⟩) nofun⟩
    · rw [entries_own]
      exact (List.append_nil _).symm
    · rw [comments_own]
      exact List.append_nil _
    · have hnone : InLines (c.line + 1) [] := .nil
      exact habove.countsFor hnone hc (Nat.lt_succ_self _)
  | cons pair pairs ih =>
    obtain ⟨e, layout⟩ := pair
    cases h with
    | @cons _ _ s _ hspan hstart hstop rest =>
      obtain ⟨before, inside, trailing, others, rfl, hbefore, hhead, hinside, htrailing, hnone,
        hplace⟩ :=
        exists_place_cons (layoutSpan?_eq hspan (by omega)) layout pairs comments
      obtain ⟨he, hpairs⟩ := List.forall_mem_cons.1 hpairs
      obtain ⟨-, hlater, -⟩ := List.pairwise_append.1 hcomments
      obtain ⟨hinsides, hlast, -⟩ := List.pairwise_append.1 hlater
      have hothers (c : Comment) (hc : c ∈ others) :
          c ∈ before ++ (inside ++ (trailing.toList ++ others)) := by simp [hc]
      obtain ⟨plan, hplan, hstatements, hplanned, hlined⟩ := ih rest (Nat.succ_pos _)
        (List.pairwise_append.1 hlast).2.1 hpairs
        (habove.tail hspan hothers (line_lt_of_trailing hlast htrailing hnone))
        fun c hc => hbound c (hothers c hc)
      have hlines : InLines s.start.line (e :: pairs.map Prod.fst) :=
        .cons hspan (Nat.le_refl _) hstop rest
      have hwithin := le_of_head? hinsides hhead
      refine ⟨own Comment.line before ++ (own (fun _ => s.start.line) inside ++
        (.statement (e, layout) trailing, some (s.start.line, s.stop.line)) :: plan), ?_, ?_, ?_,
        lined_append (lined_own fun c hc => ?_)
          (lined_append (lined_own fun c hc => ?_) (List.forall_mem_cons.2 ⟨?_, hlined⟩))⟩
      · rw [hplace, hplan, entries_own, entries_own, List.append_assoc]
        rfl
      · rw [statements_own, statements_own]
        exact congrArg ((e, layout) :: ·) hstatements
      · rw [comments_own, comments_own, ← hplanned]
        rfl
      · have hmem := List.mem_append_left (inside ++ (trailing.toList ++ others)) hc
        exact ⟨hbound c hmem, habove.countsFor hlines hmem (hbefore c hc)⟩
      · have hle := hwithin c hc
        exact ⟨Nat.le_trans hle (hbound c (by simp [hc])), rfl,
          .inl ⟨e, he, s, hspan, hle, hinside c hc, rfl⟩⟩
      · exact ⟨_, _, rfl, hes e he s hspan, s, hspan, rfl, rfl⟩

end Plan

namespace Script
variable {source : String} {s : Script}

theorem comments_line_le (h : parse source = .ok s) :
    ∀ c ∈ s.comments, c.line ≤ source.toList.length + 1 := by
  intro c hc
  rw [Comment.line, (comments_lieIn h c hc).start_eq]
  exact placeAt_line_le_length _ _

theorem stop_line_le (h : parse source = .ok s) : ∀ e ∈ s.statements, ∀ sp ∈ e.span,
    sp.stop.line ≤ source.toList.length + 1 := by
  intro e he sp hsp
  obtain ⟨t, ht, hlies, -⟩ := (Expr.every_iff.1 (fits_of_parse h e he)).1.span
  cases ht.symm.trans hsp
  rw [hlies.stop_eq]
  exact placeAt_line_le_length _ _

/-- The entries of what is printed for a source are those of a plan, which has the lines of the
source if nothing was taken away. -/
theorem exists_lined_plan (h : parse source = .ok s) (stripping : Bool) :
    ∃ plan : Plan, place ((s.prepared stripping).statements.map fun e => (e, e.layout)) s.comments =
        plan.entries ∧
      plan.statements = ((s.prepared stripping).statements.map fun e => (e, e.layout)) ∧
      plan.comments = s.comments ∧
      (stripping = false → plan.Lined s.statements (source.toList.length + 1)) := by
  cases stripping with
  | true =>
    obtain ⟨plan, hplan, hstatements, hcomments⟩ := exists_plan id
      ((s.prepared true).statements.map fun e => (e, e.layout)) s.comments
    exact ⟨plan, hplan, by rw [hstatements, Prod.map_id, List.map_id], hcomments, nofun⟩
  | false =>
    have hfst : (s.statements.map fun e => (e, e.layout)).map Prod.fst = s.statements := by
      rw [List.map_map]
      exact List.map_id _
    obtain ⟨hlines, hcomments⟩ := inLines_of_parse h
    obtain ⟨plan, hplan, hstatements, hsame, hlined⟩ := Plan.exists_lined (hfst.symm ▸ hlines)
      Nat.one_pos hcomments (List.forall_mem_map.2 fun e he => he)
      (fun e he => .inl (hfst.symm ▸ he)) (stop_line_le h) (comments_line_le h)
    exact ⟨plan, hplan, hstatements, hsame, fun _ => hlined⟩

structure Printed (s : Script) (indent : Indentation) (text : String) (ps : List Paragraph) :
    Prop where
  statements : Block.statements (ps.map Paragraph.block) = s.statements
  comments : Block.comments (ps.map Paragraph.block) = s.comments
  shows : ∀ p ∈ ps, p.Shows indent
  text : text.toList = unlines (ps.flatMap Paragraph.allLines)

/-- The text of a source has clean lines, with parentheses and without them. If the parentheses are
kept, a blank line stands between two paragraphs exactly if their lines in the source leave one
between them. The source is shorter than any that fits into a memory with addresses of 64 bits, so
that its lines can be counted. -/
theorem render_clean (h : parse source = .ok s) (indent : Indentation) (stripping : Bool) :
    ∃ text ps, (s.prepared stripping).render indent = .ok text ∧
      (s.prepared stripping).Printed indent text ps ∧
      CleanLines (ps.flatMap Paragraph.allLines) ∧ EndsOnce text.toList ∧
      (stripping = false → source.length < 2 ^ 63 →
        ps.IsChain (Paragraph.Spaced s.statements)) := by
  obtain ⟨plan, hplan, hstatements, hcomments, hlined⟩ := exists_lined_plan h stripping
  have hlegible := (legible_of_parse h).prepared stripping
  have hsame : (s.prepared stripping).comments = s.comments := by rw [prepared_eq]
  have hlayouts : ∀ p ∈ plan.statements, p.1.Legible ∧ p.2 = p.1.layout := by
    rw [hstatements]
    exact List.forall_mem_map.2 fun e he => ⟨hlegible.statements e he, rfl⟩
  have hvalid : ∀ c ∈ plan.comments, c.Valid := by
    rw [hcomments, ← hsame]
    exact hlegible.comments
  obtain ⟨ps, hps⟩ := Plan.exists_shown indent hlayouts hvalid none
  have hclean := cleanLines_of_paragraphs (fun p hp => (hps.shows p hp).ne_nil)
    (fun p hp => (hps.shows p hp).tidy) hps.head?_gap
  have htext : (String.ofList (printEntries indent none plan.entries)).toList =
      unlines (ps.flatMap Paragraph.allLines) := by
    rw [String.toList_ofList, hps.printEntries_eq]
  refine ⟨_, ps, ?_, ⟨?_, ?_, hps.shows, htext⟩, hclean, htext ▸ hclean.endsOnce,
    fun hs hlength => ?_⟩
  · rw [hlegible.render_eq, hsame, hplan]
  · rw [hps.blocks, Block.statements_map]
    show plan.statements.map Prod.fst = _
    rw [hstatements, List.map_map]
    exact List.map_id _
  · rw [hps.blocks, Block.comments_map, hsame]
    exact hcomments
  · exact hps.isChain (hlined hs) (by rw [String.length_toList]; omega)

def movedComment : Script where
  path := none
  statements := [⟨some ⟨⟨1, 1, 0⟩, ⟨2, 3, 8⟩⟩, .list [⟨some ⟨⟨1, 2, 1⟩, ⟨1, 3, 2⟩⟩, .ident "a"⟩]⟩,
    ⟨some ⟨⟨4, 1, 10⟩, ⟨4, 2, 11⟩⟩, .ident "b"⟩]
  comments := [⟨⟨⟨1, 4, 3⟩, ⟨1, 6, 5⟩⟩, "#c"⟩]

theorem parse_movedComment : parse "[a #c\n ]\n\nb" = .ok movedComment := by cbv

theorem render_clean_movedComment : parse "[a #c\n ]\n\nb" = .ok movedComment ∧
    ∃ text ps, (movedComment.prepared false).render .tabs = .ok text ∧
      movedComment.Printed .tabs text ps ∧ CleanLines (ps.flatMap Paragraph.allLines) ∧
      EndsOnce text.toList ∧ ps.IsChain (Paragraph.Spaced movedComment.statements) := by
  refine ⟨parse_movedComment, ?_⟩
  obtain ⟨text, ps, hrender, hprinted, hclean, hends, hspaced⟩ :=
    render_clean parse_movedComment .tabs false
  exact ⟨text, ps, hrender, hprinted, hclean, hends, hspaced rfl (by decide)⟩

end Script
end BuildScript
