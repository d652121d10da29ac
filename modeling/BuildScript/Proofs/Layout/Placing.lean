import BuildScript.Proofs.Layout.RoundTrip
import BuildScript.Proofs.Layout.Settled

/-!
Placing again. In a text that was printed every entry stands on lines of its own, so placing finds
each comment where it was, and a blank line exactly where one was put (`ReadBack.printEntries_eq`).
-/
namespace BuildScript

theorem layoutSpan?_eq {e : Expr} {s : Span} (h : e.span = some s) (hs : 0 < s.start.line) :
    e.layoutSpan? = some s := by
  have hne : (s.start.line == 0) = false := by simp; omega
  rw [Expr.layoutSpan?, h, Option.filter_some, if_pos]
  simp [Span.isEmpty, hne]

section Place
variable {pairs : List (Expr × Layout)} {comments : List Comment}

theorem place_comment {c : Comment}
    (h : ∀ p ∈ pairs, ∃ s, p.1.layoutSpan? = some s ∧ c.line < s.start.line) :
    place pairs (c :: comments) = .ownLine c.line c :: place pairs comments := by
  cases pairs with
  | nil => rfl
  | cons p pairs =>
    obtain ⟨e, layout⟩ := p
    obtain ⟨s, hs, hline⟩ := h _ (.head _)
    simp only [place, hs, List.takeWhile_cons, List.dropWhile_cons, hline, decide_true, if_true,
      List.map_cons, List.cons_append]

theorem place_statement {e : Expr} {layout : Layout} {s : Span} {trailing : Option Comment}
    (hs : e.layoutSpan? = some s) (hlines : s.start.line ≤ s.stop.line)
    (htrailing : ∀ c ∈ trailing, c.line = s.stop.line)
    (hcomments : ∀ c ∈ comments, s.stop.line < c.line) :
    place ((e, layout) :: pairs) (trailing.toList ++ comments) =
      ⟨.statement layout trailing, some (s.start.line, s.stop.line)⟩ :: place pairs comments := by
  have hnone (line : Nat) (hline : line ≤ s.stop.line) (cs : List Comment)
      (hcs : ∀ c ∈ cs, s.stop.line ≤ c.line) :
      cs.takeWhile (fun c => decide (c.line < line)) = [] ∧
        cs.dropWhile (fun c => decide (c.line < line)) = cs := by
    cases cs with
    | nil => exact ⟨rfl, rfl⟩
    | cons c cs =>
      have hc := hcs c (.head _)
      have hnot : ¬c.line < line := by omega
      simp [hnot]
  have hall : ∀ c ∈ trailing.toList ++ comments, s.stop.line ≤ c.line := by
    intro c hc
    rcases List.mem_append.1 hc with hc | hc
    · exact Nat.le_of_eq (htrailing c (Option.mem_toList.1 hc)).symm
    · exact Nat.le_of_lt (hcomments c hc)
  obtain ⟨htake, hdrop⟩ := hnone s.start.line hlines _ hall
  obtain ⟨htake', hdrop'⟩ := hnone s.stop.line (Nat.le_refl _) _ hall
  simp only [place, hs, htake, hdrop, htake', hdrop', List.map_nil, List.nil_append]
  cases trailing with
  | some c => simp [htrailing c rfl]
  | none =>
    cases comments with
    | nil => rfl
    | cons c comments =>
      have hc := hcomments c (.head _)
      have hne : c.line ≠ s.stop.line := by omega
      simp [hne]

end Place

namespace ReadBack
variable {last : Option Nat} {line stop : Nat} {plan : Plan} {blocks : List (Block Expr)}

theorem line_le_comment (h : ReadBack last line plan blocks stop) :
    ∀ c ∈ Block.comments blocks, line ≤ c.line := by
  induction h with
  | nil => simp
  | comment _ hline _ ih =>
    refine List.forall_mem_cons.2 ⟨by omega, fun c hc => ?_⟩
    have := ih c hc
    omega
  | statement _ _ hstart hstop _ hline _ ih =>
    intro c hc
    rcases List.mem_append.1 hc with hc | hc
    · have := hline c (Option.mem_toList.1 hc)
      omega
    · have := ih c hc
      omega

theorem line_le_statement (h : ReadBack last line plan blocks stop) :
    ∀ e ∈ Block.statements blocks, ∃ s, e.span = some s ∧ line ≤ s.start.line := by
  induction h with
  | nil => simp
  | comment _ hline _ ih =>
    intro e he
    obtain ⟨s, hs, hle⟩ := ih e he
    exact ⟨s, hs, by omega⟩
  | statement _ hspan hstart hstop _ _ _ ih =>
    refine List.forall_mem_cons.2 ⟨⟨_, hspan, by omega⟩, fun e he => ?_⟩
    obtain ⟨s, hs, hle⟩ := ih e he
    exact ⟨s, hs, by omega⟩

theorem line_le (h : ReadBack last line plan blocks stop) : line ≤ stop := by
  induction h with
  | nil => exact Nat.le_refl _
  | comment _ _ _ ih => omega
  | statement _ _ _ _ _ _ _ ih => omega

theorem gapBetween_eq {last last' : Option Nat} {lines : Option (Nat × Nat)} {line first : Nat}
    (stop : Nat) (hlast : last' = none ∧ last = none ∨ ∃ l, last' = some l ∧ l + 1 = line)
    (hline : line < 2 ^ 64) (hfirst : first = line + gapLines last lines) :
    gapBetween last' (some (first, stop)) = gapBetween last lines := by
  rcases hlast with ⟨rfl, rfl⟩ | ⟨l, rfl, rfl⟩
  · rfl
  · subst hfirst
    show decide (lineAfter l < l + 1 + gapLines last lines) = _
    rw [lineAfter_eq hline, gapLines]
    cases gapBetween last lines <;> simp

/-- Placed again, the blocks have the text that they were read from, as long as their statements
have the same text and there are no more lines than can be counted. -/
theorem printEntries_eq {indent : Indentation} {f : Expr → Expr × Layout}
    (h : ReadBack last line plan blocks stop) (hpos : 0 < line) (hbound : stop ≤ 2 ^ 64)
    (hspan : ∀ e ∈ Block.statements blocks, (f e).1.span = e.span)
    (hprint : ∀ s ∈ plan.statements, ∀ e ∈ Block.statements blocks,
      e.onLines = s.1.grouped.drawn → (f e).2.print indent 0 = s.2.print indent 0)
    {last' : Option Nat} (hlast : last' = none ∧ last = none ∨ ∃ l, last' = some l ∧ l + 1 = line) :
    printEntries indent last' (place ((Block.statements blocks).map f) (Block.comments blocks)) =
      printEntries indent last plan.entries := by
  induction h generalizing last' with
  | nil => rfl
  | @comment last lines line stop c c' plan blocks hcontent hline hrest ih =>
    have hle := hrest.line_le
    have hplace : place ((Block.statements blocks).map f) (c' :: Block.comments blocks) =
        .ownLine c'.line c' :: place ((Block.statements blocks).map f) (Block.comments blocks) := by
      refine place_comment (List.forall_mem_map.2 fun e he => ?_)
      obtain ⟨s, hs, hstart⟩ := hrest.line_le_statement e he
      exact ⟨s, layoutSpan?_eq ((hspan e he).trans hs) (by omega), hstart⟩
    have hgap := gapBetween_eq c'.line hlast (by omega) hline
    have hrest' := ih (by omega) hbound hspan hprint (.inr ⟨c'.line, rfl, rfl⟩)
    show printEntries indent last' (place ((Block.statements blocks).map f)
        (c' :: Block.comments blocks)) =
      printEntries indent last (⟨.comment c, lines⟩ :: Plan.entries plan)
    rw [hplace, printEntries, printEntries]
    simp only [Placed.ownLine, hgap, Entry.print, hcontent, Option.map_some, hrest']
  | @statement last lines line stop e e' layout trailing trailing' s plan blocks he hs hstart hlines
      hcontent hline hrest ih =>
    have hle := hrest.line_le
    obtain ⟨hspan, hspans⟩ := List.forall_mem_cons.1 hspan
    obtain ⟨hprint, hprints⟩ := List.forall_mem_cons.1 hprint
    have htext := hprint e' (.head _) he
    have hplace : place (f e' :: (Block.statements blocks).map f)
        (trailing'.toList ++ Block.comments blocks) =
          ⟨.statement (f e').2 trailing', some (s.start.line, s.stop.line)⟩ ::
            place ((Block.statements blocks).map f) (Block.comments blocks) :=
      place_statement (e := (f e').1) (layoutSpan?_eq (hspan.trans hs) (by omega)) hlines hline
        fun c hc => hrest.line_le_comment c hc
    have hgap := gapBetween_eq s.stop.line hlast (by omega) hstart
    have hrest' := ih (by omega) hbound hspans
      (fun s hs e he => hprints s hs e (List.mem_cons_of_mem _ he))
      (.inr ⟨s.stop.line, rfl, rfl⟩)
    have hentry : (Entry.statement (f e').2 trailing').print indent =
        (Entry.statement layout trailing).print indent := by
      cases trailing with
      | none =>
        obtain rfl : trailing' = none := by simpa using hcontent
        exact htext
      | some c =>
        obtain ⟨c', rfl, hc⟩ : ∃ c', trailing' = some c' ∧ c'.content = c.content := by
          simpa using hcontent
        simp only [Entry.print, htext, hc]
    show printEntries indent last' (place (f e' :: (Block.statements blocks).map f)
        (trailing'.toList ++ Block.comments blocks)) =
      printEntries indent last (⟨.statement layout trailing, lines⟩ :: Plan.entries plan)
    rw [hplace, printEntries, printEntries]
    simp only [hgap, hentry, Option.map_some, hrest']

end ReadBack
end BuildScript
