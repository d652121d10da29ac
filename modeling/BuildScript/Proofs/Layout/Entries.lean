import BuildScript.Layout.Block
import BuildScript.Proofs.Expr.Spans
import BuildScript.Proofs.Layout.Quiet
import BuildScript.Proofs.Layout.Reread
import BuildScript.Proofs.Parse.Statement

/-!
Printed scripts are read back entry by entry. Statements are found again on their lines, comments
stay where they were put, and the blank lines between entries show in the line numbers
(`Plan.Sound.readsPlan`).
-/
namespace BuildScript
open BuildScript.Parser Lexeme Grammar

namespace Expr

theorem eraseSpans_onLines (e : Expr) : e.onLines.eraseSpans = e.eraseSpans :=
  eraseSpans_mapSpans _ e

theorem eraseSpans_drawn (e : Expr) : e.drawn.eraseSpans = e.eraseSpans := by
  induction e using induct with
  | step e ih =>
    rw [drawn_eq, eraseSpans_eq, eraseSpans_eq e, Shape.map_map]
    exact congrArg _ (Shape.map_congr ih)

theorem eraseSpans_eq_of_onLines {e g : Expr} (h : e.onLines = g.drawn) :
    e.eraseSpans = g.eraseSpans := by
  rw [← eraseSpans_onLines, h, eraseSpans_drawn]

theorem reads_statement {indent : Indentation} {e : Expr} (h : e.Writable) {p : Position}
    (hp : 0 < p.line) {rest : List Char} (hr : Stops isNumberChar rest) :
    ∃ e', ReadsStatement e' ⟨p, e.grouped.spelled indent 0 ++ rest⟩
        ⟨p.after (e.grouped.spelled indent 0), rest⟩ ∧
      e'.onLines = e.grouped.drawn ∧
      e'.span = some ⟨p, p.after (e.grouped.spelled indent 0)⟩ := by
  rcases h with h | ⟨hl, hs⟩
  · rw [(grouped_of_isLoad h).grouped_eq_self]
    obtain ⟨e', he, hlines⟩ := result?_load_text indent h 0 p hp rest
    obtain ⟨origin, s, bindings, -, rfl⟩ := result?_load.1 he
    exact ⟨_, .inl he, hlines, rfl⟩
  · obtain ⟨e', hread, hlines⟩ := reads_spelled indent hl.grouped hs.grouped
      (grouped_grouped e) .line 0 p rest hp (Stops.mono (fun _ hx => goesOn_le hx) hr)
    have hgrouped : e'.Grouped := by
      rw [← grouped_eraseSpans_iff, eraseSpans_eq_of_onLines hlines, grouped_eraseSpans_iff]
      exact grouped_grouped e
    exact ⟨e', .inr ⟨hread, hgrouped⟩, hlines, hread.span_eq⟩

end Expr

inductive Block (α : Type) where
  | comment (c : Comment)
  | statement (s : α) (trailing : Option Comment)

namespace Block
variable {α : Type}

def statements (bs : List (Block α)) : List α :=
  bs.filterMap fun
    | comment _ => none
    | statement s _ => some s

def comments (bs : List (Block α)) : List Comment :=
  bs.flatMap fun
    | comment c => [c]
    | statement _ trailing => trailing.toList

@[simp] theorem statements_nil : statements ([] : List (Block α)) = [] := rfl

@[simp] theorem statements_comment (c : Comment) (bs : List (Block α)) :
    statements (comment c :: bs) = statements bs := rfl

@[simp] theorem statements_statement (s : α) (trailing : Option Comment) (bs : List (Block α)) :
    statements (statement s trailing :: bs) = s :: statements bs := rfl

@[simp] theorem comments_nil : comments ([] : List (Block α)) = [] := rfl

@[simp] theorem comments_comment (c : Comment) (bs : List (Block α)) :
    comments (comment c :: bs) = c :: comments bs := rfl

@[simp] theorem comments_statement (s : α) (trailing : Option Comment) (bs : List (Block α)) :
    comments (statement s trailing :: bs) = trailing.toList ++ comments bs := rfl

def placed (b : Block (Expr × Layout)) (lines : Option (Nat × Nat)) : Placed :=
  match b with
  | comment c => ⟨.comment c, lines⟩
  | statement s trailing => ⟨.statement s.2 trailing, lines⟩

end Block

/-- Blocks with the lines they count for. -/
abbrev Plan := List (Block (Expr × Layout) × Option (Nat × Nat))

namespace Plan

def blocks (plan : Plan) : List (Block (Expr × Layout)) := plan.map Prod.fst

def entries (plan : Plan) : List Placed := plan.map fun b => b.1.placed b.2

def statements (plan : Plan) : List (Expr × Layout) := Block.statements plan.blocks

def comments (plan : Plan) : List Comment := Block.comments plan.blocks

def own (line : Comment → Nat) (cs : List Comment) : Plan :=
  cs.map fun c => (.comment c, some (line c, line c))

variable (line : Comment → Nat) (cs : List Comment) (plan : Plan)

theorem entries_own :
    entries (own line cs ++ plan) = cs.map (fun c => .ownLine (line c) c) ++ plan.entries := by
  unfold entries own
  rw [List.map_append, List.map_map]
  rfl

theorem statements_own : statements (own line cs ++ plan) = plan.statements := by
  induction cs with
  | nil => rfl
  | cons c cs ih => exact ih

theorem comments_own : comments (own line cs ++ plan) = cs ++ plan.comments := by
  induction cs with
  | nil => rfl
  | cons c cs ih => exact congrArg (c :: ·) ih

end Plan

/-- A statement comes behind the comments that stand before its last line, and takes the one that
stands there along. -/
theorem exists_place_cons {e : Expr} {s : Span} (h : e.layoutSpan? = some s) (layout : Layout)
    (pairs : List (Expr × Layout)) (comments : List Comment) :
    ∃ before inside trailing rest,
      before ++ (inside ++ (Option.toList trailing ++ rest)) = comments ∧
      (∀ c ∈ before, c.line < s.start.line) ∧
      (∀ c ∈ inside.head?, s.start.line ≤ c.line) ∧ (∀ c ∈ inside, c.line < s.stop.line) ∧
      (∀ c ∈ trailing, c.line = s.stop.line) ∧
      (trailing = none → ∀ c ∈ rest.head?, s.stop.line < c.line) ∧
      place ((e, layout) :: pairs) comments =
        before.map (fun c => .ownLine c.line c) ++ inside.map (.ownLine s.start.line) ++
          ⟨.statement layout trailing, some (s.start.line, s.stop.line)⟩ :: place pairs rest := by
  have hall : comments.takeWhile (fun c => c.line < s.start.line) ++
      ((comments.dropWhile fun c => c.line < s.start.line).takeWhile (fun c => c.line < s.stop.line)
        ++ (comments.dropWhile fun c => c.line < s.start.line).dropWhile
          fun c => c.line < s.stop.line) = comments := by
    rw [List.takeWhile_append_dropWhile, List.takeWhile_append_dropWhile]
  have hbefore : ∀ c ∈ comments.takeWhile (fun c => c.line < s.start.line),
      c.line < s.start.line := fun c hc => by simpa using List.mem_takeWhile_imp hc
  have hinside : ∀ c ∈ (comments.dropWhile fun c => c.line < s.start.line).takeWhile
      (fun c => c.line < s.stop.line), c.line < s.stop.line :=
    fun c hc => by simpa using List.mem_takeWhile_imp hc
  have hhead : ∀ c ∈ ((comments.dropWhile fun c => c.line < s.start.line).takeWhile
      (fun c => c.line < s.stop.line)).head?, s.start.line ≤ c.line := by
    intro c hc
    have hfirst := List.head?_dropWhile_not (fun c : Comment => decide (c.line < s.start.line))
      comments
    rw [List.head?_takeWhile, Option.mem_def, Option.filter_eq_some_iff] at hc
    rw [hc.1] at hfirst
    simpa using hfirst
  cases hbehind : (comments.dropWhile fun c => c.line < s.start.line).dropWhile
      fun c => c.line < s.stop.line with
  | nil =>
    rw [hbehind] at hall
    exact ⟨_, _, none, [], hall, hbefore, hhead, hinside, by simp, by simp,
      by simp only [place, h, hbehind]⟩
  | cons c rest =>
    rw [hbehind] at hall
    have hle : s.stop.line ≤ c.line := by
      have hhead := List.head?_dropWhile_not (fun c : Comment => decide (c.line < s.stop.line))
        (comments.dropWhile fun c => c.line < s.start.line)
      rw [hbehind] at hhead
      simpa using hhead
    by_cases hline : c.line = s.stop.line
    · exact ⟨_, _, some c, rest, hall, hbefore, hhead, hinside, by simpa using hline, by simp,
        by simp only [place, h, hbehind, hline, if_true]⟩
    · refine ⟨_, _, none, c :: rest, hall, hbefore, hhead, hinside, by simp, fun _ => ?_,
        by simp only [place, h, hbehind, hline, if_false]⟩
      simp only [List.head?_cons, Option.mem_def, Option.some.injEq, forall_eq']
      omega

/-- Placing loses no statement and no comment, whatever trees the layouts are taken to stand for. -/
theorem exists_plan (f : Expr → Expr) (pairs : List (Expr × Layout)) (comments : List Comment) :
    ∃ plan : Plan, place pairs comments = plan.entries ∧
      plan.statements = pairs.map (Prod.map f id) ∧ plan.comments = comments := by
  induction pairs generalizing comments with
  | nil =>
    refine ⟨Plan.own Comment.line comments ++ [], ?_, ?_, ?_⟩
    · rw [Plan.entries_own]
      exact (List.append_nil _).symm
    · exact Plan.statements_own _ _ _
    · rw [Plan.comments_own]
      exact List.append_nil _
  | cons pair pairs ih =>
    obtain ⟨e, layout⟩ := pair
    cases hspan : e.layoutSpan? with
    | none =>
      obtain ⟨plan, hplan, hstatements, hcomments⟩ := ih comments
      refine ⟨(.statement (f e, layout) none, none) :: plan, ?_, ?_, hcomments⟩
      · simp only [place, hspan, hplan]
        rfl
      · exact congrArg ((f e, layout) :: ·) hstatements
    | some s =>
      obtain ⟨before, inside, trailing, rest, hall, -, -, -, -, -, hplace⟩ :=
        exists_place_cons hspan layout pairs comments
      obtain ⟨plan, hplan, hstatements, hcomments⟩ := ih rest
      refine ⟨Plan.own Comment.line before ++ (Plan.own (fun _ => s.start.line) inside ++
        ((.statement (f e, layout) trailing, some (s.start.line, s.stop.line)) :: plan)), ?_, ?_,
        ?_⟩
      · rw [hplace, hplan, Plan.entries_own, Plan.entries_own, List.append_assoc]
        rfl
      · rw [Plan.statements_own, Plan.statements_own]
        exact congrArg ((f e, layout) :: ·) hstatements
      · rw [Plan.comments_own, Plan.comments_own, ← hall, ← hcomments]
        rfl

def gapLines (last : Option Nat) (lines : Option (Nat × Nat)) : Nat :=
  if gapBetween last lines then 1 else 0

/-- The blocks are those of the plan as they are read back from where it was printed: each begins
on the line behind the one before it, or after a blank line if the plan leaves a gap there. -/
inductive ReadBack : Option Nat → Nat → Plan → List (Block Expr) → Nat → Prop
  | nil {last : Option Nat} {line : Nat} : ReadBack last line [] [] line
  | comment {last : Option Nat} {lines : Option (Nat × Nat)} {line stop : Nat} {c c' : Comment}
    {plan : Plan} {blocks : List (Block Expr)} (hcontent : c'.content = c.content)
    (hline : c'.line = line + gapLines last lines)
    (rest : ReadBack (lines.map Prod.snd) (c'.line + 1) plan blocks stop) :
    ReadBack last line ((.comment c, lines) :: plan) (.comment c' :: blocks) stop
  | statement {last : Option Nat} {lines : Option (Nat × Nat)} {line stop : Nat} {e e' : Expr}
    {layout : Layout} {trailing trailing' : Option Comment} {s : Span} {plan : Plan}
    {blocks : List (Block Expr)} (he : e'.onLines = e.grouped.drawn) (hspan : e'.span = some s)
    (hstart : s.start.line = line + gapLines last lines) (hstop : s.start.line ≤ s.stop.line)
    (hcontent : trailing'.map Comment.content = trailing.map Comment.content)
    (hline : ∀ c ∈ trailing', c.line = s.stop.line)
    (rest : ReadBack (lines.map Prod.snd) (s.stop.line + 1) plan blocks stop) :
    ReadBack last line ((.statement (e, layout) trailing, lines) :: plan)
      (.statement e' trailing' :: blocks) stop

def Plan.Sound (indent : Indentation) (plan : Plan) : Prop :=
  (∀ s ∈ plan.statements, s.1.Writable ∧ s.2.print indent 0 = s.1.grouped.spelled indent 0) ∧
    ∀ c ∈ plan.comments, c.Valid

def ReadsPlan (last : Option Nat) (q : Position) (plan : Plan) (text : List Char) : Prop :=
  ∃ blocks c d d', Mode.free.Skips ⟨q, text⟩ c ∧ ReadsLines (Block.statements blocks) c d ∧
    Scans ⟨q, text⟩ (Block.comments blocks) d' ∧
    ReadBack last q.line plan blocks (q.after text).line

theorem Comment.Valid.body {c : Comment} (h : c.Valid) : ∃ body, c.content.toList = '#' :: body ∧
    '\n' ∉ body ∧ String.ofList (trimEnd ('#' :: body)) = c.content := by
  obtain ⟨⟨body, hbody⟩, hn, htrim⟩ := h
  rw [hbody] at hn htrim
  refine ⟨body, hbody, fun h => hn (List.mem_cons_of_mem _ h), ?_⟩
  rw [htrim, ← hbody, String.ofList_toList]

section ReadsPlan
variable {indent : Indentation} {last : Option Nat} {lines : Option (Nat × Nat)} {plan : Plan}
  {q : Position} {text : List Char}

theorem gap_before (last : Option Nat) (lines : Option (Nat × Nat)) :
    ∃ gap : List Char, (if gapBetween last lines then ['\n'] else []) = gap ∧
      (∀ x ∈ gap, isBlank x = true) ∧
        ∀ q : Position, (q.after gap).line = q.line + gapLines last lines := by
  refine ⟨_, rfl, ?_, ?_⟩
  · split
    · exact List.forall_mem_singleton.2 (by decide)
    · exact fun x hx => absurd hx List.not_mem_nil
  · intro q
    unfold gapLines
    rw [Position.line_after]
    split <;> rfl

theorem readsPlan_comment {c : Comment} (hc : c.Valid)
    (h : ∀ q : Position, 0 < q.line → ReadsPlan (lines.map Prod.snd) q plan text)
    (hq : 0 < q.line) : ReadsPlan last q ((.comment c, lines) :: plan)
      ((if gapBetween last lines then ['\n'] else []) ++ c.content.toList ++ '\n' :: text) := by
  obtain ⟨gap, hgap, hblank, hline⟩ := gap_before last lines
  obtain ⟨body, hbody, hn, hcontent⟩ := hc.body
  have hstop : Stops (· != '\n') ('\n' :: text) := stops_cons.2 (by decide)
  have hsame : (((q.after gap).after ('#' :: body))).line = (q.after gap).line := by
    rw [Position.line_after, List.count_eq_zero_of_not_mem]
    · rfl
    · simpa using hn
  obtain ⟨blocks, d, d₁, d₂, hskip, hread, hscan, hback⟩ :=
    h (((q.after gap).after ('#' :: body)).next '\n') (Expr.line_pos_after
      (Expr.line_pos_after (Expr.line_pos_after hq gap) ('#' :: body)) ['\n'])
  refine ⟨.comment ⟨⟨q.after gap, (q.after gap).after ('#' :: body)⟩, c.content⟩ :: blocks, d, d₁,
    d₂, ?_, hread, ?_, ?_⟩
  · rw [hgap, hbody, List.append_assoc]
    exact .blanks hblank (.comment hn hstop (.blanks (w := ['\n']) (List.forall_mem_singleton.2 (by decide)) hskip))
  · rw [hgap, hbody, List.append_assoc, ← hcontent]
    exact (quiet_blanks hblank).scans (.comment hn hstop (.plain (by decide) hscan))
  · rw [hgap, hbody, Position.after_append, Position.after_append]
    refine .comment rfl (hline q) ?_
    show ReadBack _ ((q.after gap).line + 1) _ _ _
    rw [← hsame]
    exact hback

theorem readsPlan_trailing {trailing : Option Comment} (htrailing : ∀ c ∈ trailing, c.Valid)
    (p : Position) (text : List Char) :
    ∃ trailing' : Option Comment, ∃ behind,
      (∀ layout, (Entry.statement layout trailing).print indent =
        layout.print indent 0 ++ behind) ∧
      trailing'.map Comment.content = trailing.map Comment.content ∧
      (∀ c ∈ trailing', c.line = p.line) ∧
      Mode.line.Skips ⟨p, behind ++ '\n' :: text⟩ ⟨p.after behind, '\n' :: text⟩ ∧
      (p.after behind).line = p.line ∧ Stops isNumberChar (behind ++ '\n' :: text) ∧
      ∀ comments d, Scans ⟨(p.after behind).next '\n', text⟩ comments d →
        Scans ⟨p, behind ++ '\n' :: text⟩ (trailing'.toList ++ comments) d := by
  cases trailing with
  | none =>
    exact ⟨none, [], fun _ => (List.append_nil _).symm, rfl, by simp, .at_cons (by decide), rfl,
      stops_cons.2 (by decide), fun comments d h => .plain (by decide) h⟩
  | some c =>
    obtain ⟨body, hbody, hn, hcontent⟩ := (htrailing c rfl).body
    have hstop : Stops (· != '\n') ('\n' :: text) := stops_cons.2 (by decide)
    refine ⟨some ⟨⟨(p.next ' ').next ' ', ((p.next ' ').next ' ').after ('#' :: body)⟩, c.content⟩,
      ' ' :: ' ' :: '#' :: body, fun _ => by rw [← hbody]; rfl, rfl,
      by simp [Comment.line, Position.next], ?_, ?_, stops_cons.2 (by decide), ?_⟩
    · exact .blanks (w := [' ', ' ']) (List.all_eq_true.1 (by decide))
        (.comment hn hstop (.at_cons (by decide)))
    · rw [Position.line_after, List.count_eq_zero_of_not_mem]
      · rfl
      · simpa using hn
    · intro comments d h
      have := Scans.comment (p := (p.next ' ').next ' ') hn hstop (.plain (by decide) h)
      rw [hcontent] at this
      exact .plain (by decide) (.plain (by decide) this)

theorem readsPlan_statement {e : Expr} {layout : Layout} {trailing : Option Comment}
    (he : e.Writable) (hlayout : layout.print indent 0 = e.grouped.spelled indent 0)
    (htrailing : ∀ c ∈ trailing, c.Valid)
    (h : ∀ q : Position, 0 < q.line → ReadsPlan (lines.map Prod.snd) q plan text)
    (hq : 0 < q.line) : ReadsPlan last q ((.statement (e, layout) trailing, lines) :: plan)
      ((if gapBetween last lines then ['\n'] else []) ++
        (Entry.statement layout trailing).print indent ++ '\n' :: text) := by
  obtain ⟨gap, hgap, hblank, hline⟩ := gap_before last lines
  obtain ⟨trailing', behind, hbehind, hcontent, hlines, hskip, hsame, hstop, hscan⟩ :=
    readsPlan_trailing htrailing ((q.after gap).after (e.grouped.spelled indent 0)) text
  have hpos := Expr.line_pos_after hq gap
  obtain ⟨e', hread, honLines, hspan⟩ := Expr.reads_statement he hpos hstop
  obtain ⟨blocks, d, d₁, d₂, hskip', hread', hscan', hback⟩ :=
    h ((((q.after gap).after (e.grouped.spelled indent 0)).after behind).next '\n')
      (Expr.line_pos_after (Expr.line_pos_after (Expr.line_pos_after hpos _) behind) ['\n'])
  have hprint : (Entry.statement layout trailing).print indent =
      e.grouped.spelled indent 0 ++ behind := by
    rw [hbehind, hlayout]
  have hfirst : Mode.free.Skips
      ⟨q.after gap, e.grouped.spelled indent 0 ++ (behind ++ '\n' :: text)⟩
      ⟨q.after gap, e.grouped.spelled indent 0 ++ (behind ++ '\n' :: text)⟩ := by
    obtain ⟨x, w, hx, hw⟩ := hread.passes
    refine .of_stops ?_
    rw [hw.1, List.cons_append, stops_cons]
    exact not_opens_of_beginsOperand hx .free
  have hquiet := he.grouped.quiet indent 0
  refine ⟨.statement e' trailing' :: blocks, _, d₁, d₂, ?_,
    .cons hread hskip (.inl ⟨rfl, rfl⟩) hskip' hread', ?_, ?_⟩
  · rw [hgap, hprint]
    simp only [List.append_assoc]
    exact .blanks hblank hfirst
  · rw [hgap, hprint]
    simp only [List.append_assoc]
    exact (quiet_blanks hblank).scans (hquiet.scans (hscan _ _ hscan'))
  · rw [hgap, hprint]
    simp only [Position.after_append, Position.after_cons]
    refine .statement honLines hspan (hline q) ?_ hcontent hlines ?_
    · exact Nat.le.intro (Position.line_after _ _).symm
    · show ReadBack _ (((q.after gap).after (e.grouped.spelled indent 0)).line + 1) _ _ _
      rw [← hsame]
      exact hback

theorem Plan.Sound.readsPlan (h : plan.Sound indent) (last : Option Nat) {q : Position}
    (hq : 0 < q.line) : ReadsPlan last q plan (printEntries indent last plan.entries) := by
  induction plan generalizing last q with
  | nil =>
    exact ⟨[], _, _, _, .of_stops (stops_nil _), .nil rfl, .stop, .nil⟩
  | cons b plan ih =>
    obtain ⟨b, lines⟩ := b
    obtain ⟨hstatements, hcomments⟩ := h
    cases b with
    | comment c =>
      exact readsPlan_comment (hcomments c (by simp [comments, blocks]))
        (fun q hq => ih ⟨hstatements, fun c hc => hcomments c (List.mem_cons_of_mem _ hc)⟩ _ hq) hq
    | statement s trailing =>
      obtain ⟨⟨he, hlayout⟩, hstatements⟩ := List.forall_mem_cons.1 hstatements
      obtain ⟨htrailing, hcomments⟩ := List.forall_mem_append.1 hcomments
      exact readsPlan_statement he hlayout (fun c hc => htrailing c (by simpa using hc))
        (fun q hq => ih ⟨hstatements, hcomments⟩ _ hq) hq

end ReadsPlan

end BuildScript
