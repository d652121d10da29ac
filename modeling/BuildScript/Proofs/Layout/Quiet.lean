import BuildScript.Proofs.Layout.Spelled
import BuildScript.Proofs.Parse.Scan

/-!
The text of a tree holds no comments: every `#` in it belongs to a string.
-/
namespace BuildScript
open Lexeme Grammar

theorem quiet_number {t : String} (h : isNumber t = true) : Quiet t.toList :=
  .of_plain (plain_number h)

theorem quiet_word {w : String} (h : isWord w = true) : Quiet w.toList :=
  .of_plain (plain_word h)

theorem quiet_quote (v : String) : Quiet (quote v.toList) :=
  List.append_nil (quote v.toList) ▸ .string .nil

theorem quiet_blanks {w : List Char} (h : ∀ x ∈ w, isBlank x = true) : Quiet w :=
  .of_plain fun x hx => plain_blank (m := .free) (h x hx)

namespace Layout
variable (indent : Indentation)

theorem quiet_inlineText {texts : List (List Char)} (h : ∀ text ∈ texts, Quiet text) :
    Quiet (inlineText texts) := by
  induction texts with
  | nil => exact .nil
  | cons text texts ih =>
    obtain ⟨htext, htexts⟩ := List.forall_mem_cons.1 h
    rw [inlineText]
    apply htext.append
    split
    · exact .nil
    · exact .plain (by decide) (.plain (by decide) (ih htexts))

theorem quiet_linesText (level : Nat) (trailing : Bool) {texts : List (List Char)}
    (h : ∀ text ∈ texts, Quiet text) : Quiet (linesText indent level trailing texts) := by
  induction texts with
  | nil => exact .nil
  | cons text texts ih =>
    obtain ⟨htext, htexts⟩ := List.forall_mem_cons.1 h
    rw [linesText, List.flatMap_cons]
    have hmargin : Quiet ('\n' :: indent.margin level) :=
      quiet_blanks fun _ => isBlank_margin indent
    have hcomma : Quiet (if trailing then [','] else []) := by
      cases trailing
      · exact .nil
      · exact .plain (by decide) .nil
    exact ((hmargin.append htext).append hcomma).append (ih htexts)

theorem quiet_bracketText (bracket : Bracket) {items : List (Nat → List Char)}
    (h : ∀ item ∈ items, ∀ level, Quiet (item level)) (broken trailing : Bool) (level : Nat) :
    Quiet (bracketText indent bracket items broken trailing level) := by
  have htexts (level : Nat) : ∀ text ∈ items.map fun item => item level, Quiet text := by
    intro text htext
    obtain ⟨item, hitem, rfl⟩ := List.mem_map.1 htext
    exact h item hitem level
  have hmargin : Quiet ('\n' :: indent.margin level) :=
    quiet_blanks fun _ => isBlank_margin indent
  have hinner : Quiet (if broken && !items.isEmpty then
      linesText indent (level + 1) trailing (items.map fun item => item (level + 1)) ++
        '\n' :: indent.margin level
      else inlineText (items.map fun item => item level)) := by
    split
    · exact (quiet_linesText indent _ _ (htexts _)).append hmargin
    · exact quiet_inlineText (htexts _)
  unfold bracketText
  cases bracket
  · exact (Quiet.plain (by decide) hinner).append (.plain (by decide) .nil)
  · exact (Quiet.plain (by decide) hinner).append (.plain (by decide) .nil)

theorem composes_quiet : Composes indent Quiet where
  number := quiet_number
  word := quiet_word
  quote value := by simpa using quiet_quote (String.ofList value)
  append := Quiet.append
  signs _ hw hu := (Quiet.of_all hw).append hu
  bracket := quiet_bracketText indent

end Layout

theorem Expr.Writable.quiet (indent : Indentation) {e : Expr} (h : e.Writable) (level : Nat) :
    Quiet (e.spelled indent level) :=
  (Layout.composes_quiet indent).legible h.legible level

end BuildScript
