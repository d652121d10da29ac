import BuildScript.Proofs.Layout.Layered
import BuildScript.Proofs.Layout.Meaning
import BuildScript.Proofs.Parse.LineEnds

/-!
Printing looks at lines. Of the places in a source no more counts for the printed text than the lines
that they lie on (`render_moved`), so it does not matter by which characters the lines of the
source end (`parse_crlf`).
-/
namespace BuildScript

def Span.lines (s : Span) : Nat × Nat := (s.start.line, s.stop.line)

def KeepsLines (f : Position → Position) : Prop := ∀ p, (f p).line = p.line

namespace Expr
variable {f : Position → Position}

theorem isMultiline_moved (hf : KeepsLines f) (s : Option Span) :
    (s.map (Span.moved f)).any Span.isMultiline = s.any Span.isMultiline := by
  cases s with
  | none => rfl
  | some s => simp [Span.moved, Span.isMultiline, Span.isEmpty, hf _]

theorem onLines_moved (hf : KeepsLines f) (e : Expr) : (e.moved f).onLines = e.onLines := by
  unfold onLines moved
  rw [mapSpans_mapSpans]
  simp only [isMultiline_moved hf]

theorem lines_layoutSpan?_moved (hf : KeepsLines f) (e : Expr) :
    (e.moved f).layoutSpan?.map Span.lines = e.layoutSpan?.map Span.lines := by
  rw [moved_eq, layoutSpan?, layoutSpan?]
  cases e.span with
  | none => rfl
  | some s =>
    have hempty : (s.moved f).isEmpty = s.isEmpty := by simp [Span.moved, Span.isEmpty, hf _]
    rw [Option.map_some, Option.filter_some, Option.filter_some, hempty]
    split
    · simp [Span.lines, Span.moved, hf _]
    · rfl

theorem print_layout_moved (hf : KeepsLines f) {e : Expr} (h : e.Legible)
    (h' : (e.moved f).Legible) (indent : Indentation) (level : Nat) :
    (e.moved f).layout.print indent level = e.layout.print indent level := by
  rw [h'.print_layout, h.print_layout, ← h'.spelled_onLines, onLines_moved hf, h.spelled_onLines]

theorem prepared_moved (stripping : Bool) (f : Position → Position) (e : Expr) :
    (e.moved f).prepared stripping = (e.prepared stripping).moved f := by
  cases stripping with
  | false => rfl
  | true => exact strip_mapSpans _ e

end Expr

section Shown
variable {indent : Indentation}

def Placed.shown (indent : Indentation) (p : Placed) : List Char × Option (Nat × Nat) :=
  (p.entry.print indent, p.lines)

theorem printEntries_congr {ps qs : List Placed}
    (h : ps.map (Placed.shown indent) = qs.map (Placed.shown indent)) (last : Option Nat) :
    printEntries indent last ps = printEntries indent last qs := by
  induction ps generalizing qs last with
  | nil =>
    rw [List.map_eq_nil_iff.1 h.symm]
  | cons p ps ih =>
    obtain ⟨q, qs, rfl, hq, hqs⟩ := List.map_eq_cons_iff.1 h.symm
    obtain ⟨hprint, hlines⟩ := Prod.mk.inj hq
    rw [printEntries, printEntries, ih hqs.symm, hprint, hlines]

def statementShown (indent : Indentation) (p : Expr × Layout) : Option (Nat × Nat) × List Char :=
  (p.1.layoutSpan?.map Span.lines, p.2.print indent 0)

def Comment.shown (c : Comment) : Nat × String := (c.line, c.content)

theorem map_shown_ownLine {cs cs' : List Comment}
    (h : cs.map Comment.shown = cs'.map Comment.shown) (line : Nat → Nat) :
    (cs.map fun c => Placed.ownLine (line c.line) c).map (Placed.shown indent) =
      (cs'.map fun c => Placed.ownLine (line c.line) c).map (Placed.shown indent) := by
  have key (cs : List Comment) :
      (cs.map fun c => Placed.ownLine (line c.line) c).map (Placed.shown indent) =
        (cs.map Comment.shown).map fun c => (c.2.toList, some (line c.1, line c.1)) := by
    rw [List.map_map, List.map_map]
    rfl
  rw [key, key, h]

theorem shown_split {cs cs' : List Comment} (h : cs.map Comment.shown = cs'.map Comment.shown)
    (line : Nat) :
    (cs.takeWhile fun c => c.line < line).map Comment.shown =
        (cs'.takeWhile fun c => c.line < line).map Comment.shown ∧
      (cs.dropWhile fun c => c.line < line).map Comment.shown =
        (cs'.dropWhile fun c => c.line < line).map Comment.shown := by
  have htake (cs : List Comment) : (cs.takeWhile fun c => c.line < line).map Comment.shown =
      (cs.map Comment.shown).takeWhile fun c => c.1 < line := by
    rw [List.takeWhile_map]
    rfl
  have hdrop (cs : List Comment) : (cs.dropWhile fun c => c.line < line).map Comment.shown =
      (cs.map Comment.shown).dropWhile fun c => c.1 < line := by
    rw [List.dropWhile_map]
    rfl
  rw [htake, htake, hdrop, hdrop, h]
  exact ⟨rfl, rfl⟩

/-- Placing does not look at more than lines. -/
theorem shown_place {pairs pairs' : List (Expr × Layout)} {cs cs' : List Comment}
    (h : pairs.map (statementShown indent) = pairs'.map (statementShown indent))
    (hcs : cs.map Comment.shown = cs'.map Comment.shown) :
    (place pairs cs).map (Placed.shown indent) = (place pairs' cs').map (Placed.shown indent) := by
  induction pairs generalizing pairs' cs cs' with
  | nil =>
    rw [List.map_eq_nil_iff.1 h.symm]
    exact map_shown_ownLine hcs id
  | cons p pairs ih =>
    obtain ⟨p', pairs', rfl, hp, hpairs⟩ := List.map_eq_cons_iff.1 h.symm
    obtain ⟨e, layout⟩ := p
    obtain ⟨e', layout'⟩ := p'
    obtain ⟨hspan, hprint⟩ := Prod.mk.inj hp
    have hentry (trailing trailing' : Option Comment)
        (h : trailing.map Comment.shown = trailing'.map Comment.shown) :
        (Entry.statement layout trailing).print indent =
          (Entry.statement layout' trailing').print indent := by
      cases trailing with
      | none =>
        obtain rfl : trailing' = none := by simpa using h.symm
        exact hprint.symm
      | some c =>
        obtain ⟨c', rfl, hc⟩ : ∃ c', trailing' = some c' ∧ c'.shown = c.shown :=
          Option.map_eq_some_iff.1 h.symm
        simp only [Entry.print, (Prod.mk.inj hc).2]
        exact congrArg (· ++ _) hprint.symm
    cases hs : e.layoutSpan? with
    | none =>
      have hs' : e'.layoutSpan? = none := by simpa [hs] using hspan
      simp only [place, hs, hs', List.map_cons, Placed.shown, hentry none none rfl]
      exact congrArg _ (ih hpairs.symm hcs)
    | some s =>
      obtain ⟨s', hs', hlines⟩ : ∃ s', e'.layoutSpan? = some s' ∧ s'.lines = s.lines :=
        Option.map_eq_some_iff.1 (hspan.trans (by rw [hs]; rfl))
      obtain ⟨hstart, hstop⟩ := Prod.mk.inj hlines
      obtain ⟨hbefore, hcs⟩ := shown_split hcs s.start.line
      obtain ⟨hinside, hcs⟩ := shown_split hcs s.stop.line
      simp only [place, hs, hs', hstart, hstop, List.map_append]
      refine congrArg₂ _ (congrArg₂ _ (map_shown_ownLine hbefore id)
        (map_shown_ownLine hinside fun _ => s.start.line)) ?_
      generalize List.dropWhile _ (List.dropWhile _ cs) = ds at hcs ⊢
      generalize List.dropWhile _ (List.dropWhile _ cs') = ds' at hcs ⊢
      have hstatement (trailing trailing' : Option Comment) (es es' : List Comment)
          (h : trailing.map Comment.shown = trailing'.map Comment.shown)
          (hes : es.map Comment.shown = es'.map Comment.shown) :
          (⟨.statement layout trailing, some s.lines⟩ :: place pairs es).map
              (Placed.shown indent) =
            (⟨.statement layout' trailing', some s.lines⟩ :: place pairs' es').map
              (Placed.shown indent) := by
        rw [List.map_cons, List.map_cons, Placed.shown, Placed.shown, hentry _ _ h,
          ih hpairs.symm hes]
      cases ds with
      | nil =>
        rw [List.map_eq_nil_iff.1 hcs.symm]
        exact hstatement none none [] [] rfl rfl
      | cons c ds =>
        obtain ⟨c', ds', rfl, hc, hds⟩ := List.map_eq_cons_iff.1 hcs.symm
        have hline : c'.line = c.line := (Prod.mk.inj hc).1
        dsimp only
        rw [hline]
        split
        · exact hstatement (some c) (some c') ds ds' (congrArg some hc.symm) hds.symm
        · exact hstatement none none (c :: ds) (c' :: ds') rfl hcs

end Shown

namespace Script
variable {f : Position → Position} {s s' : Script}

theorem render_moved (hf : KeepsLines f) (h : s.Legible) (h' : s'.Legible)
    (hstatements : s'.statements = s.statements.map (Expr.moved f))
    (hcomments : s'.comments.map Comment.shown = s.comments.map Comment.shown)
    (indent : Indentation) (stripping : Bool) :
    (s'.prepared stripping).render indent = (s.prepared stripping).render indent := by
  rw [(h'.prepared stripping).render_eq, (h.prepared stripping).render_eq]
  refine congrArg (fun text => Except.ok (String.ofList text)) (printEntries_congr ?_ none)
  simp only [prepared_eq, hstatements, List.map_map]
  refine shown_place ?_ hcomments
  rw [List.map_map, List.map_map]
  refine List.map_congr_left fun e he => ?_
  have hlegible := (h.statements e he).prepared stripping
  have hlegible' := (h'.statements (e.moved f) (by
    rw [hstatements]
    exact List.mem_map_of_mem he)).prepared stripping
  simp only [Function.comp_apply, statementShown]
  rw [Expr.prepared_moved] at hlegible' ⊢
  rw [Expr.lines_layoutSpan?_moved hf, Expr.print_layout_moved hf hlegible hlegible']

/-- With line ends of two characters a source in which no backslash carries a line over its end is
read as before, with the statements on their lines, the same comments, and the same printed text. -/
theorem parse_crlf {source : String} (h : parse source = .ok s) (hs : Straight source) :
    ∃ s', parse (String.ofList (crlf source.toList)) = .ok s' ∧ s'.path = s.path ∧
      s'.statements = s.statements.map (Expr.moved Position.crlf) ∧
      s'.comments.map Comment.onLine =
        (s.comments.map fun c => (c.moved Position.crlf).onLine) ∧
      ∀ indent stripping,
        (s'.prepared stripping).render indent = (s.prepared stripping).render indent := by
  obtain ⟨s', hparse, hpath, hstatements, hcomments⟩ := hs.exists_parse h
  have hshown := congrArg (List.map fun c => (c.2.1.line, c.1)) hcomments
  rw [List.map_map, List.map_map] at hshown
  have hlines : KeepsLines Position.crlf := fun _ => rfl
  exact ⟨s', hparse, hpath, hstatements, hcomments, render_moved hlines (legible_of_parse h)
    (legible_of_parse hparse) hstatements hshown⟩

def brokenList : Script where
  path := none
  statements := [⟨some ⟨⟨1, 1, 0⟩, ⟨2, 3, 4⟩⟩, .list [⟨some ⟨⟨2, 1, 2⟩, ⟨2, 2, 3⟩⟩, .ident "a"⟩]⟩]
  comments := [⟨⟨⟨2, 4, 5⟩, ⟨2, 7, 8⟩⟩, "# b"⟩]

theorem parse_brokenList : parse "[\na] # b\n" = .ok brokenList := by cbv

theorem parse_crlf_brokenList : parse "[\na] # b\n" = .ok brokenList ∧ Straight "[\na] # b\n" ∧
    ∃ s', parse "[\r\na] # b\r\n" = .ok s' ∧
      s'.statements = brokenList.statements.map (Expr.moved Position.crlf) := by
  have hs : Straight "[\na] # b\n" := Span.straight_of_notMem (by decide) _
  obtain ⟨s', hparse, -, hstatements, -⟩ := parse_crlf parse_brokenList hs
  exact ⟨parse_brokenList, hs, s', hparse, hstatements⟩

/-- A line that is carried over its end is not, if the end has two characters. -/
theorem parse_crlf_carriedLine : (parse "a = 1 + \\\n2\n").isOk = true ∧
    String.ofList (crlf "a = 1 + \\\n2\n".toList) = "a = 1 + \\\r\n2\r\n" ∧
    (parse "a = 1 + \\\r\n2\r\n").isOk = false := by
  decide +kernel

end Script
end BuildScript
