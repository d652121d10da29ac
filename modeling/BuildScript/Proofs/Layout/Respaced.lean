import BuildScript.Proofs.Layout.Meaning
import BuildScript.Proofs.Layout.Tidy

/-!
The choice of the indentation shows at the beginnings of lines only. With spaces for tabs, the text
is that with tabs where each tab that leads a line has become so many spaces (`render_spaces`).
-/
namespace BuildScript
open Lexeme Grammar

/-- The text with `n` spaces for every tab before all else on its line. `leading` tells whether
nothing but tabs has stood on the line yet. -/
def spaced (n : Nat) : Bool → List Char → List Char
  | _, [] => []
  | leading, x :: text =>
    if leading = true ∧ x = '\t' then List.replicate n ' ' ++ spaced n true text
    else x :: spaced n (x == '\n') text

/-- Tabs that do not lead a line stay. -/
example : spaced 2 true "#\tc\n[\n\t\ta,\n]".toList = "#\tc\n[\n    a,\n]".toList := by decide

section Spaced
variable {n : Nat}

theorem spaced_of_ne_tab {x : Char} (h : x ≠ '\t') (leading : Bool) (text : List Char) :
    spaced n leading (x :: text) = x :: spaced n (x == '\n') text := by
  rw [spaced, if_neg fun hx => h hx.2]

theorem spaced_line {w : List Char} (h : '\n' ∉ w) (rest : List Char) :
    spaced n false (w ++ rest) = w ++ spaced n false rest := by
  induction w with
  | nil => rfl
  | cons x w ih =>
    have hx : (x == '\n') = false := by simpa using (List.ne_of_not_mem_cons h).symm
    rw [List.cons_append, spaced, if_neg (by simp), hx, ih (List.not_mem_of_not_mem_cons h)]
    rfl

theorem spaced_margin (level : Nat) (text : List Char) :
    spaced n true (Indentation.tabs.margin level ++ text) =
      (Indentation.spaces n).margin level ++ spaced n true text := by
  induction level with
  | zero => rfl
  | succ level ih =>
    show spaced n true (List.replicate (level + 1) '\t' ++ text) =
      List.replicate (n * (level + 1)) ' ' ++ _
    rw [List.replicate_succ, List.cons_append, spaced, if_pos ⟨rfl, rfl⟩, Nat.mul_succ,
      Nat.add_comm, List.replicate_add, List.append_assoc]
    exact congrArg _ ih

/-- `v` is `u` with its leading tabs replaced, wherever `u` stands on a line, and `u` ends with
something that is no leading tab. -/
def Respaced (n : Nat) (u v : List Char) : Prop :=
  ∀ leading rest, spaced n leading (u ++ rest) = v ++ spaced n false rest

namespace Respaced
variable {u u' v v' w : List Char}

theorem append (hu : Respaced n u u') (hv : Respaced n v v') : Respaced n (u ++ v) (u' ++ v') := by
  intro leading rest
  rw [List.append_assoc, hu, hv, List.append_assoc]

theorem line {x : Char} (hx : x ≠ '\t') (h : '\n' ∉ x :: w) : Respaced n (x :: w) (x :: w) := by
  intro leading rest
  have hnewline : (x == '\n') = false := by simpa using (List.ne_of_not_mem_cons h).symm
  rw [List.cons_append, spaced_of_ne_tab hx, hnewline, spaced_line (List.not_mem_of_not_mem_cons h)]
  rfl

theorem prefixed (hn : '\n' ∉ w) (ht : '\t' ∉ w) (h : Respaced n u u') :
    Respaced n (w ++ u) (w ++ u') := by
  cases w with
  | nil => exact h
  | cons x w => exact (line (List.ne_of_not_mem_cons ht).symm hn).append h

theorem newline (level : Nat) (h : Respaced n u u') :
    Respaced n ('\n' :: (Indentation.tabs.margin level ++ u))
      ('\n' :: ((Indentation.spaces n).margin level ++ u')) := by
  intro leading rest
  rw [List.cons_append, spaced_of_ne_tab (by decide), List.append_assoc]
  show '\n' :: spaced n true _ = _
  rw [spaced_margin, h]
  simp

end Respaced
end Spaced

namespace Layout
variable {n : Nat}

theorem respaced_inlineText {texts : List (List Char × List Char)}
    (h : ∀ text ∈ texts, Respaced n text.1 text.2) {behind behind' : List Char}
    (hbehind : Respaced n behind behind') :
    Respaced n (inlineText (texts.map Prod.fst) ++ behind)
      (inlineText (texts.map Prod.snd) ++ behind') := by
  induction texts with
  | nil => exact hbehind
  | cons text texts ih =>
    obtain ⟨htext, htexts⟩ := List.forall_mem_cons.1 h
    rw [List.map_cons, List.map_cons, inlineText, inlineText, List.append_assoc, List.append_assoc]
    apply htext.append
    rw [List.isEmpty_map, List.isEmpty_map]
    split
    · exact hbehind
    · exact .prefixed (w := [',', ' ']) (by decide) (by decide) (ih htexts)

theorem respaced_linesText {above above' : List Char} (habove : Respaced n above above')
    (level : Nat) (trailing : Bool) {texts : List (List Char × List Char)}
    (h : ∀ text ∈ texts, Respaced n text.1 text.2) :
    Respaced n (above ++ linesText .tabs level trailing (texts.map Prod.fst))
      (above' ++ linesText (.spaces n) level trailing (texts.map Prod.snd)) := by
  induction texts generalizing above above' with
  | nil =>
    show Respaced n (above ++ []) (above' ++ [])
    rwa [List.append_nil, List.append_nil]
  | cons text texts ih =>
    obtain ⟨htext, htexts⟩ := List.forall_mem_cons.1 h
    have hline : Respaced n (text.1 ++ if trailing then [','] else [])
        (text.2 ++ if trailing then [','] else []) := by
      cases trailing with
      | false => exact (List.append_nil text.1).symm ▸ (List.append_nil text.2).symm ▸ htext
      | true => exact htext.append (.line (by decide) (by decide))
    have := ih (habove.append (hline.newline level)) htexts
    simpa [linesText] using this

theorem respaced_bracketText (bracket : Bracket)
    (items : List ((Nat → List Char) × (Nat → List Char)))
    (h : ∀ item ∈ items, ∀ level, Respaced n (item.1 level) (item.2 level))
    (broken trailing : Bool) (level : Nat) :
    Respaced n (bracketText .tabs bracket (items.map Prod.fst) broken trailing level)
      (bracketText (.spaces n) bracket (items.map Prod.snd) broken trailing level) := by
  have hopen : Respaced n [bracket.opening] [bracket.opening] :=
    .line (by cases bracket <;> decide) (by cases bracket <;> decide)
  have hclose : Respaced n [bracket.closing] [bracket.closing] :=
    .line (by cases bracket <;> decide) (by cases bracket <;> decide)
  have htexts (level : Nat) : ∀ text ∈ items.map fun item => (item.1 level, item.2 level),
      Respaced n text.1 text.2 :=
    List.forall_mem_map.2 fun item hitem => h item hitem level
  unfold bracketText
  rw [List.isEmpty_map, List.isEmpty_map]
  split
  · have hlines := respaced_linesText hopen (level + 1) trailing (htexts (level + 1))
    have := hlines.append (hclose.newline level)
    simpa [Function.comp_def] using this
  · have := hopen.append (respaced_inlineText (htexts level) hclose)
    simpa [Function.comp_def] using this

theorem relates_respaced : Relates .tabs (.spaces n) (Respaced n) where
  number := by
    intro t h
    obtain ⟨d, ds, ht, hd, -⟩ := isNumber_iff.1 h
    have hn := newline_not_mem_number h
    rw [ht] at hn ⊢
    exact .line (fun hx => absurd hd (by simp [hx])) hn
  word := by
    intro w h
    obtain ⟨c, cs, hw, hc, -⟩ := isWord_iff.1 h
    have hn := newline_not_mem_word h
    rw [hw] at hn ⊢
    exact .line (fun hx => absurd hc (by subst hx; decide)) hn
  quote value := .line (by decide) (not_mem_quote (.inl rfl) value)
  append := Respaced.append
  signs hn ht _ hu := hu.prefixed hn ht
  bracket := respaced_bracketText

end Layout

theorem Expr.Legible.respaced_print {n : Nat} {e : Expr} (h : e.Legible) :
    Respaced n (e.layout.print .tabs 0) (e.layout.print (.spaces n) 0) := by
  rw [h.print_layout, h.print_layout]
  refine Layout.relates_respaced.legible ?_ 0
  rcases h with h | h
  · rw [(grouped_of_isLoad h).grouped_eq_self]
    exact .inl h
  · exact .inr h.grouped

theorem Comment.Valid.respaced {n : Nat} {c : Comment} (h : c.Valid) :
    Respaced n c.content.toList c.content.toList := by
  obtain ⟨⟨body, hbody⟩, hn, -⟩ := h
  rw [hbody] at hn ⊢
  exact .line (by decide) hn

theorem Plan.respaced_entries {n : Nat} {plan : Plan}
    (hstatements : ∀ s ∈ plan.statements, s.1.Legible ∧ s.2 = s.1.layout)
    (hcomments : ∀ c ∈ plan.comments, c.Valid) :
    ∀ p ∈ plan.entries, Respaced n (p.entry.print .tabs) (p.entry.print (.spaces n)) := by
  refine List.forall_mem_map.2 fun b hb => ?_
  obtain ⟨b, lines⟩ := b
  have hmem : b ∈ plan.blocks := List.mem_map.2 ⟨_, hb, rfl⟩
  cases b with
  | comment c => exact (hcomments c (List.mem_flatMap.2 ⟨_, hmem, .head _⟩)).respaced
  | statement s trailing =>
    obtain ⟨hlegible, hlayout⟩ := hstatements s (List.mem_filterMap.2 ⟨_, hmem, rfl⟩)
    have htext : Respaced n (s.2.print .tabs 0) (s.2.print (.spaces n) 0) :=
      hlayout ▸ hlegible.respaced_print
    cases trailing with
    | none => exact htext
    | some c =>
      have hc := (hcomments c (List.mem_flatMap.2 ⟨_, hmem, .head _⟩)).respaced (n := n)
      exact htext.append (hc.prefixed (w := [' ', ' ']) (by decide) (by decide))

theorem spaced_printEntries {n : Nat} {ps : List Placed} (h : ∀ p ∈ ps,
    Respaced n (p.entry.print .tabs) (p.entry.print (.spaces n))) (last : Option Nat) :
    spaced n true (printEntries .tabs last ps) = printEntries (.spaces n) last ps := by
  induction ps generalizing last with
  | nil => rfl
  | cons p ps ih =>
    obtain ⟨hp, hps⟩ := List.forall_mem_cons.1 h
    have hentry (last : Option Nat) : spaced n true (p.entry.print .tabs ++
        '\n' :: printEntries .tabs last ps) =
          p.entry.print (.spaces n) ++ '\n' :: printEntries (.spaces n) last ps := by
      rw [hp, spaced_of_ne_tab (by decide)]
      exact congrArg (fun rest => _ ++ '\n' :: rest) (ih hps last)
    rw [printEntries, printEntries, List.append_assoc, List.append_assoc]
    split
    · show spaced n true ('\n' :: _) = '\n' :: _
      rw [spaced_of_ne_tab (by decide)]
      exact congrArg ('\n' :: ·) (hentry _)
    · exact hentry _

namespace Script
variable {source : String} {s : Script}

/-- A source is formatted with tabs and with `n` spaces for a level, with its parentheses and
without them. The second text is the first one with `n` spaces for every tab that leads a line. -/
theorem render_spaces (h : parse source = .ok s) (stripping : Bool) (n : Nat) :
    ∃ tabbed text, (s.prepared stripping).render .tabs = .ok tabbed ∧
      (s.prepared stripping).render (.spaces n) = .ok text ∧
      text.toList = spaced n true tabbed.toList := by
  have hlegible := (legible_of_parse h).prepared stripping
  obtain ⟨plan, hplan, hstatements, hcomments⟩ := BuildScript.exists_plan id
    ((s.prepared stripping).statements.map fun e => (e, e.layout)) (s.prepared stripping).comments
  rw [Prod.map_id, List.map_id] at hstatements
  have hentries := Plan.respaced_entries (n := n)
    (hstatements ▸ List.forall_mem_map.2 fun e he => ⟨hlegible.statements e he, rfl⟩)
    (hcomments ▸ hlegible.comments)
  refine ⟨_, _, hlegible.render_eq .tabs, hlegible.render_eq (.spaces n), ?_⟩
  rw [hplan, String.toList_ofList, String.toList_ofList, spaced_printEntries hentries]

def tabbedComment : Script where
  path := none
  statements := [⟨some ⟨⟨1, 1, 0⟩, ⟨2, 2, 7⟩⟩, .list [⟨some ⟨⟨1, 2, 1⟩, ⟨1, 3, 2⟩⟩, .ident "a"⟩]⟩]
  comments := [⟨⟨⟨1, 3, 2⟩, ⟨1, 6, 5⟩⟩, "#\tc"⟩]

theorem parse_tabbedComment : parse "[a#\tc\n]" = .ok tabbedComment := by cbv

theorem render_spaces_tabbedComment : parse "[a#\tc\n]" = .ok tabbedComment ∧
    ∃ tabbed text, (tabbedComment.prepared false).render .tabs = .ok tabbed ∧
      (tabbedComment.prepared false).render (.spaces 2) = .ok text ∧
      text.toList = spaced 2 true tabbed.toList :=
  ⟨parse_tabbedComment, render_spaces parse_tabbedComment false 2⟩

end Script

end BuildScript
