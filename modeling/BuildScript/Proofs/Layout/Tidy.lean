import BuildScript.Proofs.Layout.Entries
import BuildScript.Proofs.Parse.Token

/-!
Tidy text: something stands at the end of every line of it, so that no line is blank and none ends
in white space. The texts of trees are tidy (`Legible.tidy_print`), and a tidy text falls into lines
that are (`Tidy.exists_lines`).
-/
namespace BuildScript
open Lexeme Grammar

def unlines (lines : List (List Char)) : List Char := lines.flatMap fun line => line ++ ['\n']

theorem unlines_append (a b : List (List Char)) : unlines (a ++ b) = unlines a ++ unlines b :=
  List.flatMap_append

def TidyLine (line : List Char) : Prop := '\n' ∉ line ∧ ∃ x ∈ line.getLast?, isBlank x = false

/-- Text with something other than white space at the end of each line. -/
inductive Tidy : List Char → Prop
  | last {x : Char} (hx : isBlank x = false) : Tidy [x]
  | cons {x : Char} {text : List Char} (hx : x ≠ '\n') (rest : Tidy text) : Tidy (x :: text)
  | line {x : Char} {text : List Char} (hx : isBlank x = false) (rest : Tidy text) :
    Tidy (x :: '\n' :: text)

theorem ne_newline_of_not_blank {x : Char} (h : isBlank x = false) : x ≠ '\n' := by
  rintro rfl
  exact absurd h (by decide)

theorem not_blank_of_numberChar {x : Char} (h : isNumberChar x = true) : isBlank x = false := by
  refine Bool.eq_false_iff.2 fun hx => ?_
  have hopens : Mode.free.opens x = true := by simp [Mode.opens, Mode.blank, hx]
  exact absurd h (by simp [not_isNumberChar_of_opens hopens])

theorem tidyLine_singleton {x : Char} (h : isBlank x = false) : TidyLine [x] :=
  ⟨by simpa using (ne_newline_of_not_blank h).symm, x, rfl, h⟩

namespace Tidy
variable {u v w : List Char}

theorem prefixed (hw : '\n' ∉ w) (h : Tidy u) : Tidy (w ++ u) := by
  induction w with
  | nil => exact h
  | cons x w ih =>
    exact .cons (List.ne_of_not_mem_cons hw).symm (ih (List.not_mem_of_not_mem_cons hw))

theorem append (h : Tidy u) (hv : Tidy v) : Tidy (u ++ v) := by
  induction h with
  | last hx => exact .cons (ne_newline_of_not_blank hx) hv
  | cons hx _ ih => exact .cons hx ih
  | line hx _ ih => exact .line hx ih

theorem newline (h : Tidy u) (hv : Tidy v) : Tidy (u ++ '\n' :: v) := by
  induction h with
  | last hx => exact .line hx hv
  | cons hx _ ih => exact .cons hx ih
  | line hx _ ih => exact .line hx ih

theorem of_getLast (hn : '\n' ∉ w) {x : Char} (hx : x ∈ w.getLast?) (hblank : isBlank x = false) :
    Tidy w := by
  obtain ⟨w', rfl⟩ := List.getLast?_eq_some_iff.1 hx
  exact .prefixed (fun h => hn (List.mem_append_left [x] h)) (.last hblank)

theorem of_numberChars (h : ∀ x ∈ w, isNumberChar x = true) (hne : w ≠ []) : Tidy w := by
  refine .of_getLast (fun hn => absurd (h _ hn) (by decide)) (List.getLast_mem_getLast? hne) ?_
  exact not_blank_of_numberChar (h _ (List.getLast_mem hne))

theorem exists_lines (h : Tidy u) : ∃ lines, lines ≠ [] ∧ u ++ ['\n'] = unlines lines ∧
    ∀ line ∈ lines, TidyLine line := by
  induction h with
  | @last x hx =>
    exact ⟨[[x]], List.cons_ne_nil _ _, rfl, List.forall_mem_singleton.2 (tidyLine_singleton hx)⟩
  | @cons x text hx _ ih =>
    obtain ⟨lines, hne, htext, hlines⟩ := ih
    cases lines with
    | nil => exact absurd rfl hne
    | cons first lines =>
      obtain ⟨⟨hn, y, hy, hblank⟩, hlines⟩ := List.forall_mem_cons.1 hlines
      refine ⟨(x :: first) :: lines, List.cons_ne_nil _ _, congrArg (x :: ·) htext,
        List.forall_mem_cons.2 ⟨⟨List.not_mem_cons_of_ne_of_not_mem hx.symm hn, y, ?_, hblank⟩,
          hlines⟩⟩
      cases first with
      | nil => cases hy
      | cons z first => exact hy
  | @line x text hx _ ih =>
    obtain ⟨lines, -, htext, hlines⟩ := ih
    exact ⟨[x] :: lines, List.cons_ne_nil _ _, congrArg (x :: '\n' :: ·) htext,
      List.forall_mem_cons.2 ⟨tidyLine_singleton hx, hlines⟩⟩

end Tidy

theorem tidy_number {t : String} (h : isNumber t = true) : Tidy t.toList := by
  obtain ⟨d, ds, ht, hd, hds⟩ := isNumber_iff.1 h
  rw [ht]
  exact .of_numberChars (List.forall_mem_cons.2 ⟨isNumberChar_of_digit hd, hds⟩)
    (List.cons_ne_nil d ds)

theorem tidy_word {w : String} (h : isWord w = true) : Tidy w.toList := by
  obtain ⟨c, cs, hw, hc, hcs⟩ := isWord_iff.1 h
  rw [hw]
  exact .of_numberChars (List.forall_mem_cons.2
    ⟨isNumberChar_of_nameChar (isNameChar_of_start hc),
      fun x hx => isNumberChar_of_nameChar (hcs x hx)⟩) (List.cons_ne_nil c cs)

theorem tidy_quote (value : List Char) : Tidy (quote value) := by
  have hbody : '\n' ∉ ['"'] ++ value.flatMap quoteChar := fun h =>
    not_mem_quote (.inl rfl) value (List.mem_append_left _ h)
  exact .prefixed hbody (.last (by decide))

theorem not_blank_of_trimEnd {text : List Char} (h : trimEnd text = text) {x : Char}
    (hx : x ∈ text.getLast?) : isBlank x = false := by
  have hhead := List.head?_dropWhile_not isBlank text.reverse
  rw [← List.reverse_reverse (List.dropWhile _ _), ← trimEnd, h, List.head?_reverse, hx] at hhead
  simpa using hhead

theorem Comment.Valid.tidy {c : Comment} (h : c.Valid) : Tidy c.content.toList := by
  obtain ⟨⟨body, hbody⟩, hn, htrim⟩ := h
  have hne : c.content.toList ≠ [] := hbody ▸ List.cons_ne_nil '#' body
  exact .of_getLast hn (List.getLast_mem_getLast? hne)
    (not_blank_of_trimEnd htrim (List.getLast_mem_getLast? hne))

namespace Layout
variable (indent : Indentation)

theorem tidy_inlineText {texts : List (List Char)} (h : ∀ text ∈ texts, Tidy text)
    {behind : List Char} (hbehind : Tidy behind) : Tidy (inlineText texts ++ behind) := by
  induction texts with
  | nil => exact hbehind
  | cons text texts ih =>
    obtain ⟨htext, htexts⟩ := List.forall_mem_cons.1 h
    rw [inlineText, List.append_assoc]
    apply htext.append
    split
    · exact hbehind
    · exact .cons (by decide) (.cons (by decide) (ih htexts))

theorem tidy_linesText {above : List Char} (habove : Tidy above) (level : Nat) (trailing : Bool)
    {texts : List (List Char)} (h : ∀ text ∈ texts, Tidy text) :
    Tidy (above ++ linesText indent level trailing texts) := by
  induction texts generalizing above with
  | nil => exact (List.append_nil above).symm ▸ habove
  | cons text texts ih =>
    obtain ⟨htext, htexts⟩ := List.forall_mem_cons.1 h
    have hline : Tidy (indent.margin level ++ (text ++ if trailing then [','] else [])) := by
      refine .prefixed (newline_not_mem_margin indent level) ?_
      cases trailing with
      | false => exact (List.append_nil text).symm ▸ htext
      | true => exact htext.append (.last (by decide))
    have := ih (habove.newline hline) htexts
    simpa [linesText] using this

theorem tidy_bracketText (bracket : Bracket) {items : List (Nat → List Char)}
    (h : ∀ item ∈ items, ∀ level, Tidy (item level)) (broken trailing : Bool) (level : Nat) :
    Tidy (bracketText indent bracket items broken trailing level) := by
  have hopen : isBlank bracket.opening = false := by cases bracket <;> decide
  have hclose : Tidy [bracket.closing] := .last (by cases bracket <;> decide)
  have htexts (level : Nat) : ∀ text ∈ items.map fun item => item level, Tidy text :=
    List.forall_mem_map.2 fun item hitem => h item hitem level
  unfold bracketText
  split
  · have hlines := tidy_linesText indent (.last hopen) (level + 1) trailing (htexts (level + 1))
    have := hlines.newline (hclose.prefixed (newline_not_mem_margin indent level))
    simpa using this
  · exact .cons (ne_newline_of_not_blank hopen) (tidy_inlineText (htexts level) hclose)

theorem composes_tidy : Composes indent Tidy where
  number := tidy_number
  word := tidy_word
  quote := tidy_quote
  append := Tidy.append
  signs hw _ hu := .prefixed hw hu
  bracket := tidy_bracketText indent

end Layout

theorem Expr.Legible.tidy_print (indent : Indentation) {e : Expr} (h : e.Legible) :
    Tidy (e.layout.print indent 0) := by
  rw [h.print_layout]
  refine (Layout.composes_tidy indent).legible ?_ 0
  rcases h with h | h
  · rw [(grouped_of_isLoad h).grouped_eq_self]
    exact .inl h
  · exact .inr h.grouped

end BuildScript
