import BuildScript.Parse.Source
import BuildScript.Proofs.Parse.Quoted
import BuildScript.Proofs.Parse.Gap

/-!
Comments. They are looked for in the text alone, without the grammar, so all that counts is where a
`#` stands outside of strings: a text that is `Quiet` holds no comment, and every comment is found
up to the end of its line. What is found begins with the `#` and stays on one line
(`commentsOf_valid`).
-/
namespace BuildScript
open BuildScript.Parser Lexeme Grammar

/-- The content begins with a `#`, stays on its line and has no white space at its end. -/
def Comment.Valid (c : Comment) : Prop :=
  (∃ body, c.content.toList = '#' :: body) ∧ '\n' ∉ c.content.toList ∧
    trimEnd c.content.toList = c.content.toList

theorem mem_of_mem_trimEnd {x : Char} {text : List Char} (h : x ∈ trimEnd text) : x ∈ text := by
  rw [trimEnd, List.mem_reverse] at h
  exact List.mem_reverse.1 ((List.dropWhile_sublist _).mem h)

theorem trimEnd_trimEnd (text : List Char) : trimEnd (trimEnd text) = trimEnd text := by
  rw [trimEnd, trimEnd, List.reverse_reverse]
  congr 1
  induction text.reverse with
  | nil => rfl
  | cons x xs ih =>
    rw [List.dropWhile_cons]
    split
    · exact ih
    next h => rw [List.dropWhile_cons_of_neg h]

theorem trimEnd_cons {x : Char} {text : List Char} (h : isBlank x = false) :
    trimEnd (x :: text) = x :: trimEnd text := by
  rw [trimEnd, trimEnd, List.reverse_cons]
  induction text.reverse with
  | nil => simp [h]
  | cons y ys ih =>
    rw [List.cons_append, List.dropWhile_cons, List.dropWhile_cons]
    split
    · exact ih
    · simp

namespace Grammar

theorem consumes_comment : Consumes comment := by
  intro c text d h
  obtain ⟨body, rfl, -, hpass, -⟩ := result?_comment.1 h
  exact hpass.length_lt

theorem consumes_string : Consumes string := by
  intro c v d h
  obtain ⟨q, w, -, -, hpass⟩ := result?_string.1 h
  exact hpass.length_lt

theorem consumes_commentOrOther : Consumes commentOrOther := by
  have hskip {α : Type} {p : Parser α} (hp : Consumes p) : Consumes (skip p) :=
    hp.bind fun _ => .pure _
  exact (consumes_comment.spanned.bind fun _ => .pure _).orElse
    (((hskip consumes_string).orElse (hskip (.satisfy _ _))).bind fun _ => .pure _)

def Scans (c : Cursor) (comments : List Comment) (d : Cursor) : Prop :=
  ∃ out, Run commentOrOther c out d ∧ out.filterMap id = comments

theorem result?_commentOrOther_some {c d : Cursor} {cm : Comment} :
    result? commentOrOther c = some (some cm, d) ↔ ∃ text, result? comment c = some (text, d) ∧
      cm = ⟨c.span d, String.ofList (trimEnd text)⟩ := by
  unfold commentOrOther
  rw [result?_orElse, Option.or_eq_some_iff]
  constructor
  · rintro (h | ⟨-, h⟩)
    · rw [result?_bind, Option.bind_eq_some_iff] at h
      obtain ⟨⟨⟨text, span⟩, d'⟩, hs, heq⟩ := h
      cases heq
      rw [result?_spanned, Option.map_eq_some_iff] at hs
      obtain ⟨⟨text', d''⟩, hc, heq⟩ := hs
      cases heq
      exact ⟨text', hc, rfl⟩
    · rw [result?_bind, Option.bind_eq_some_iff] at h
      obtain ⟨_, -, heq⟩ := h
      cases heq
  · rintro ⟨text, hc, rfl⟩
    left
    rw [result?_bind, result?_spanned, hc]
    rfl

theorem comment_none {c : Cursor} (h : c.rest.head? ≠ some '#') : result? comment c = none := by
  unfold comment
  rw [result?_bind, result?_char_of_head h]
  rfl

theorem result?_commentOrOther_none {c : Cursor} (h : c.rest.head? ≠ some '#') :
    result? commentOrOther c =
      (((result? string c).map fun r => (none, r.2)).or
        ((result? (charWhere fun _ => true) c).map fun r => (none, r.2))) := by
  unfold commentOrOther skip
  rw [result?_orElse, result?_bind, result?_spanned, comment_none h]
  simp only [Option.map_none, Option.bind_none, Option.none_or, result?_bind, result?_orElse]
  cases result? string c <;> cases result? (charWhere fun _ => true) c <;> rfl

namespace Scans
variable {p : Position} {rest : List Char} {comments : List Comment} {d : Cursor}

theorem stop : Scans ⟨p, []⟩ [] ⟨p, []⟩ := by
  refine ⟨[], .stop ?_, rfl⟩
  rw [result?_commentOrOther_none (by simp), result?_string_of_stops (stops_nil _)]
  rfl

theorem comment {body : List Char} (hn : '\n' ∉ body) (hs : Stops (· != '\n') rest)
    (h : Scans ⟨p.after ('#' :: body), rest⟩ comments d) :
    Scans ⟨p, '#' :: body ++ rest⟩
      (⟨⟨p, p.after ('#' :: body)⟩, String.ofList (trimEnd ('#' :: body))⟩ :: comments) d := by
  obtain ⟨out, hrun, rfl⟩ := h
  have hc : result? Lexeme.comment ⟨p, '#' :: body ++ rest⟩ =
      some ('#' :: body, ⟨p.after ('#' :: body), rest⟩) :=
    result?_comment.2 ⟨body, rfl, hn, ⟨rfl, rfl⟩, hs⟩
  exact ⟨_, .step (result?_commentOrOther_some.2 ⟨_, hc, rfl⟩) hrun, rfl⟩

theorem plain {x : Char} (hx : x ≠ '#' ∧ x ≠ '"' ∧ x ≠ '\'')
    (h : Scans ⟨p.next x, rest⟩ comments d) : Scans ⟨p, x :: rest⟩ comments d := by
  obtain ⟨out, hrun, rfl⟩ := h
  have hstring : result? string ⟨p, x :: rest⟩ = none :=
    result?_string_of_stops (stops_cons.2 (by simp [hx]))
  refine ⟨none :: out, .step ?_ hrun, rfl⟩
  rw [result?_commentOrOther_none (by simp [hx]), hstring, result?_charWhere_cons]
  rfl

theorem string (v : String) (h : Scans ⟨p.after (quote v.toList), rest⟩ comments d) :
    Scans ⟨p, quote v.toList ++ rest⟩ comments d := by
  obtain ⟨out, hrun, rfl⟩ := h
  refine ⟨none :: out, .step ?_ hrun, rfl⟩
  rw [result?_commentOrOther_none (by simp [quote]), result?_string_quote]
  rfl

end Scans

abbrev Plain (x : Char) : Prop := x ≠ '#' ∧ x ≠ '"' ∧ x ≠ '\''

theorem forall_plain {w : List Char} (h : (w.all fun x => x != '#' && x != '"' && x != '\'') = true) :
    ∀ x ∈ w, Plain x := by
  intro x hx
  have hx := List.all_eq_true.1 h x hx
  simpa [and_assoc] using hx

/-- A text without comments: strings, and characters that begin neither a comment nor a string. -/
inductive Quiet : List Char → Prop
  | nil : Quiet []
  | plain {x : Char} {w : List Char} (hx : x ≠ '#' ∧ x ≠ '"' ∧ x ≠ '\'') (h : Quiet w) :
    Quiet (x :: w)
  | string {v : String} {w : List Char} (h : Quiet w) : Quiet (quote v.toList ++ w)

namespace Quiet
variable {v w : List Char}

theorem append (hv : Quiet v) (hw : Quiet w) : Quiet (v ++ w) := by
  induction hv with
  | nil => exact hw
  | plain hx _ ih => exact .plain hx ih
  | string _ ih =>
    rw [List.append_assoc]
    exact .string ih

theorem of_plain (h : ∀ x ∈ w, x ≠ '#' ∧ x ≠ '"' ∧ x ≠ '\'') : Quiet w := by
  induction w with
  | nil => exact .nil
  | cons x w ih =>
    obtain ⟨hx, hw⟩ := List.forall_mem_cons.1 h
    exact .plain hx (ih hw)

theorem of_all (h : (w.all fun x => x != '#' && x != '"' && x != '\'') = true) : Quiet w :=
  .of_plain (forall_plain h)

theorem scans (h : Quiet w) {p : Position} {rest : List Char} {comments : List Comment} {d : Cursor}
    (hrest : Scans ⟨p.after w, rest⟩ comments d) : Scans ⟨p, w ++ rest⟩ comments d := by
  induction h generalizing p with
  | nil => exact hrest
  | plain hx _ ih => exact .plain hx (ih hrest)
  | @string v w _ ih =>
    rw [Position.after_append] at hrest
    rw [List.append_assoc]
    exact .string v (ih hrest)

end Quiet
end Grammar

namespace Script

theorem commentsOf_eq {text : List Char} {comments : List Comment} {d : Cursor}
    (h : Scans (.ofText text) comments d) : commentsOf text = comments := by
  obtain ⟨out, hrun, rfl⟩ := h
  have hmany := (result?_many_eq_some consumes_commentOrOther).2 hrun
  have hout : (runWithin commentOrOther text (.ofText text)).1 = out := by
    have := Option.some.inj hmany
    exact congrArg Prod.fst this
  rw [commentsOf, hout]

theorem commentsOf_valid {text : List Char} : ∀ c ∈ commentsOf text, c.Valid := by
  obtain ⟨out, d, hmany⟩ : ∃ out d, result? (many commentOrOther) (.ofText text) = some (out, d) :=
    ⟨_, _, rfl⟩
  have hrun := (result?_many_eq_some consumes_commentOrOther).1 hmany
  rw [commentsOf_eq ⟨out, hrun, rfl⟩]
  clear hmany
  generalize Cursor.ofText text = c₀ at hrun
  induction hrun with
  | stop _ => simp
  | @step c c' d o out h _ ih =>
    cases o with
    | none => exact ih
    | some cm =>
      refine List.forall_mem_cons.2 ⟨?_, ih⟩
      obtain ⟨text, hc, rfl⟩ := result?_commentOrOther_some.1 h
      obtain ⟨body, rfl, hn, -, -⟩ := result?_comment.1 hc
      unfold Comment.Valid
      rw [String.toList_ofList, trimEnd_trimEnd]
      refine ⟨⟨_, trimEnd_cons (by decide)⟩, ?_, rfl⟩
      intro hmem
      rcases List.mem_cons.1 (mem_of_mem_trimEnd hmem) with h | h
      · exact absurd h (by decide)
      · exact hn h

end Script
end BuildScript
