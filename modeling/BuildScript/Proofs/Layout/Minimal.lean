import BuildScript.Proofs.Layout.Around
import BuildScript.Proofs.Parse.Marked
import BuildScript.Proofs.Parse.Statement

/-!
No parenthesis that printing puts can be left out. Without it the text has the marks of a tree with
an operand that needs a parenthesis and has none. What can be read from a text has all it needs, so
it is another tree, or nothing is read at all (`parse_without_parenthesis`).
-/
namespace BuildScript
open BuildScript.Parser Lexeme Grammar Mark

namespace Expr
variable {indent : Indentation}

def LeavesMarks (indent : Indentation) (e : Expr) : Prop :=
  ∀ (level : Nat) (c d : Cursor) (ms : List Mark), c.Passes (e.spelled indent level) d →
    Marked d ms → Marked c (e.marks ++ ms)

theorem marked_items {between tail : List Char} (hb : ∀ x ∈ between, isBlank x = true)
    (ht : tail = [] ∨ ∃ w, tail = ',' :: w ∧ ∀ x ∈ w, isBlank x = true) {m : Mark}
    (hm : m = .char ')' ∨ m = .char ']') {inner : Nat} {d : Cursor} {ms : List Mark}
    (k : Marked d (m :: ms)) {x : Expr} {xs : List Expr} (hl : ∀ y ∈ x :: xs, y.Lexical)
    (h : ∀ y ∈ x :: xs, y.LeavesMarks indent) {c : Cursor}
    (hp : c.Passes (x.spelled indent inner ++
      ((xs.flatMap fun y => ',' :: (between ++ y.spelled indent inner)) ++ tail)) d) :
    Marked c (commas ((x :: xs).map marks) ++ m :: ms) := by
  induction xs generalizing x c with
  | nil =>
    obtain ⟨e, hx, hp⟩ := hp.append
    rw [List.map_singleton, commas_singleton]
    apply h x (by simp) inner c e _ hx
    rw [List.flatMap_nil, List.nil_append] at hp
    rcases ht with rfl | ⟨w, rfl, hw⟩
    · exact .blanks (by simp) hp k
    · obtain ⟨e, hcomma, hp⟩ := Cursor.Passes.append (v := [',']) hp
      exact .behind hm hcomma (.blanks hw hp k)
  | cons y ys ih =>
    obtain ⟨hx, hxs⟩ := List.forall_mem_cons.1 h
    obtain ⟨m', ms', hbegins, hm'⟩ := commas_begins (hl y (by simp)) ys
    obtain ⟨e, hfirst, hp⟩ := hp.append
    rw [List.flatMap_cons, List.append_assoc, List.cons_append, List.append_assoc] at hp
    obtain ⟨e', hcomma, hp⟩ := Cursor.Passes.append (v := [',']) hp
    obtain ⟨e'', hbetween, hp⟩ := hp.append
    have hrest := ih (List.forall_mem_cons.1 hl).2 hxs hp
    rw [hbegins, List.cons_append] at hrest
    rw [List.map_cons, List.map_cons, commas_cons_cons, ← List.map_cons, hbegins,
      List.append_assoc, List.cons_append, List.cons_append]
    exact hx inner c e _ hfirst (.between hm' hcomma (.blanks hb hbetween hrest))

theorem marked_bracketText {xs : List Expr} (hl : ∀ x ∈ xs, x.Lexical)
    (h : ∀ x ∈ xs, x.LeavesMarks indent) (bracket : Bracket) (broken : Bool) (level : Nat)
    {c d : Cursor} {ms : List Mark}
    (hp : c.Passes
      (Layout.bracketText indent bracket (xs.map (spelled indent)) broken true level) d)
    (k : Marked d ms) : Marked c
      (.char bracket.opening :: (commas (xs.map marks) ++ .char bracket.closing :: ms)) := by
  have hopen : startOf bracket.opening = .sign := by cases bracket <;> decide
  have hclose : startOf bracket.closing = .sign := by cases bracket <;> decide
  have hm : Mark.char bracket.closing = .char ')' ∨ Mark.char bracket.closing = .char ']' := by
    cases bracket <;> decide
  cases xs with
  | nil =>
    have htext : Layout.bracketText indent bracket (([] : List Expr).map (spelled indent)) broken
        true level = [bracket.opening] ++ [bracket.closing] := by
      cases broken <;> rfl
    rw [htext] at hp
    obtain ⟨e, hfirst, hp⟩ := hp.append
    exact .sign hopen hfirst (.sign hclose hp k)
  | cons x xs =>
    obtain ⟨lead, between, tail, inner, hlead, hbetween, htail, htext⟩ :=
      Layout.bracketText_form indent bracket (x.spelled indent) (xs.map (spelled indent)) broken
        level
    rw [List.map_cons, htext, List.flatMap_map] at hp
    obtain ⟨e, hfirst, hp⟩ := Cursor.Passes.append (v := [bracket.opening]) hp
    obtain ⟨e', hblanks, hp⟩ := hp.append
    rw [← List.append_assoc _ tail, ← List.append_assoc] at hp
    obtain ⟨e'', hitems, hp⟩ := hp.append
    exact .sign hopen hfirst (.blanks hlead hblanks
      (marked_items hbetween htail hm (.sign hclose hp k) hl h hitems))

theorem leavesMarks {e : Expr} (h : e.Lexical) : e.LeavesMarks indent := by
  induction e using induct with
  | step e ih =>
    obtain ⟨hnode, hbelow⟩ := every_iff.1 h
    have ih (c : Expr) (hc : c ∈ e.children) : c.LeavesMarks indent := ih c hc (hbelow c hc)
    intro level c d ms hp k
    obtain ⟨s, shape⟩ := e
    cases shape with
    | literal t => exact .word (isWritten_lexeme (.inl hnode)) hp k
    | string v =>
      refine .text (result?_string.2 ⟨'"', v.toList.flatMap quoteChar, .inl rfl,
        spells_quote v.toList, hp⟩) k
    | ident n => exact .word (isWritten_lexeme (.inr hnode)) hp k
    | binary op l r =>
      rw [spelled_binary, List.append_assoc] at hp
      obtain ⟨e₁, hleft, hp⟩ := hp.append
      obtain ⟨e₂, hblank, hp⟩ := Cursor.Passes.append (v := [' ']) hp
      obtain ⟨e₃, hop, hp⟩ := hp.append
      obtain ⟨e₄, hblank', hp⟩ := Cursor.Passes.append (v := [' ']) hp
      have hspace : ∀ x ∈ [' '], isBlank x = true := List.forall_mem_singleton.2 (by decide)
      rw [marks_binary, List.append_assoc, List.append_assoc]
      apply ih l (by simp [children, Shape.children]) level c e₁ _ hleft
      refine .blanks hspace hblank (.word (isWritten_symbol op) hop (.blanks hspace hblank' ?_))
      exact ih r (by simp [children, Shape.children]) level e₄ d ms hp k
    | unary op x =>
      rw [spelled_unary] at hp
      obtain ⟨e, hsign, hp⟩ := hp.append
      have hx := ih x (by simp [children, Shape.children]) level e d ms hp k
      have hmarks : ofWord (Layout.signText op).toList = ofWord op.symbol.toList := by
        cases op <;> decide
      rw [marks_unary, List.append_assoc, ← hmarks]
      exact .word (List.all_eq_true.1 (by cases op <;> decide)) hsign hx
    | paren x =>
      obtain ⟨lead, tail, inner, hlead, htail, -, htext⟩ := Layout.bracketText_single indent .round
        (x.spelled indent) (Expr.node s (.paren x)).isMultiline level
      rw [spelled_paren, htext] at hp
      obtain ⟨e₁, hopen, hp⟩ := Cursor.Passes.append (v := ['(']) hp
      obtain ⟨e₂, hblanks, hp⟩ := hp.append
      obtain ⟨e₃, hbody, hp⟩ := hp.append
      obtain ⟨e₄, hblanks', hclose⟩ := hp.append
      rw [marks_paren, List.cons_append, List.append_assoc]
      refine .sign (by decide) hopen (.blanks hlead hblanks ?_)
      exact ih x (by simp [children, Shape.children]) inner e₂ e₃ _ hbody
        (.blanks htail hblanks' (.sign (by decide) hclose k))
    | list xs =>
      rw [spelled_list] at hp
      rw [marks_list, List.cons_append, List.append_assoc]
      exact marked_bracketText hbelow ih .square _ level hp k
    | call f xs =>
      rw [spelled_call] at hp
      obtain ⟨e, hcallee, hp⟩ := hp.append
      rw [marks_call, List.append_assoc, List.cons_append, List.append_assoc]
      apply ih f (by simp [children, Shape.children]) level c e _ hcallee
      exact marked_bracketText (fun x hx => hbelow x (by simp [children, Shape.children, hx]))
        (fun x hx => ih x (by simp [children, Shape.children, hx])) .round _ level hp k
    | dot x n =>
      rw [spelled_dot] at hp
      obtain ⟨e₁, hreceiver, hp⟩ := hp.append
      obtain ⟨e₂, hdot, hp⟩ := Cursor.Passes.append (v := ['.']) hp
      rw [marks_dot, List.append_assoc, List.cons_append]
      exact ih x (by simp [children, Shape.children]) level c e₁ _ hreceiver
        (.sign (by decide) hdot (.word (isWritten_lexeme (.inr hnode)) hp k))
    | load m bs => cases hnode

theorem marks_of_parse {t e : Expr} (ht : t.Lexical) {level : Nat}
    (h : parse (String.ofList (t.spelled indent level)) = .ok e) :
    e.Lexical ∧ e.Grouped ∧ e.marks = t.marks := by
  obtain ⟨hgrouped, c, d, d', hskip, hread, hskip', hend⟩ := parse_eq_ok.1 h
  rw [String.toList_ofList] at hskip
  have hparsed : Marked (.ofText (t.spelled indent level)) (e.marks ++ []) :=
    .skips hskip (hread.marked (.skips hskip' (.stop hend)))
  have hspelled : Marked (.ofText (t.spelled indent level)) (t.marks ++ []) :=
    leavesMarks ht level _ ⟨_, []⟩ [] ⟨(List.append_nil _).symm, rfl⟩ (.stop rfl)
  have heq := hparsed.unique hspelled
  rw [List.append_nil, List.append_nil] at heq
  exact ⟨hread.lexical, hgrouped, heq⟩

/-- What is read from the text of a tree that lacks parentheses is another tree. -/
theorem parse_ungrouped {t e : Expr} (ht : t.Lexical) (hg : ¬ t.Grouped) {level : Nat}
    (h : parse (String.ofList (t.spelled indent level)) = .ok e) :
    e.strip.eraseSpans ≠ t.strip.eraseSpans := by
  intro hstrip
  obtain ⟨hlexical, hgrouped, hmarks⟩ := marks_of_parse ht h
  refine hg (grouped_eraseSpans_iff.1 ?_)
  rw [← distinct_of_lexical hlexical t ht hstrip hmarks]
  exact grouped_eraseSpans_iff.2 hgrouped

theorem not_grouped_put? {e n x t : Expr} {path : Path} {i : Nat} (hn : e.at? path = some n)
    (hw : n.shape.wraps i x = true)
    (ht : e.grouped.put? (e.groupedPath path ++ [i]) x.grouped = some t) : ¬ t.Grouped := by
  intro hg
  obtain ⟨n', hput, hat⟩ := at?_of_put?_append (at?_groupedPath hn) ht
  obtain ⟨c, c', hc, hself, rfl⟩ := put?_cons_eq_some.1 hput
  obtain rfl := Option.some.inj hself
  have hwraps := (grouped_iff.1 (Every.at? hg hat) i x.grouped (child?_withChild hc _)).1
  rw [wraps_withChild, grouped_eq, Shape.wraps_mapIdx,
    Shape.wraps_congr _ _ (precedence_grouped x), hw] at hwraps
  cases hwraps

/-- The text of a tree without one of the parentheses that printing put is rejected, or read as
another tree. -/
theorem parse_without_parenthesis (indent : Indentation) {e n x : Expr} (he : e.Lexical)
    (path : Path) (i : Nat) (hn : e.at? path = some n) (hx : n.child? i = some x)
    (hw : n.shape.wraps i x = true) : ∃ before after level,
      e.render indent =
        .ok (String.ofList (before ++ '(' :: x.grouped.spelled indent level ++ ')' :: after)) ∧
      e.grouped.at? (e.groupedPath path ++ [i]) = some (paren x.grouped) ∧
      (∀ y t, e.grouped.put? (e.groupedPath path ++ [i]) y = some t →
        t.spelled indent 0 = before ++ y.spelled indent level ++ after) ∧
      ∀ e', parse (String.ofList (before ++ x.grouped.spelled indent level ++ after)) = .ok e' →
        e'.strip.eraseSpans ≠ e.strip.eraseSpans := by
  have hat : e.grouped.at? (e.groupedPath path ++ [i]) = some (paren x.grouped) := by
    rw [at?_append, at?_groupedPath hn, Option.bind_some, at?_singleton, child?_grouped hx, hw]
    rfl
  obtain ⟨before, after, level, htext⟩ := spelled_put? indent he.grouped hat 0
  refine ⟨before, after, level, ?_, hat, htext, fun e' hparse => ?_⟩
  · have hlegible : e.Legible := .inr he
    have hwhole := htext _ _ (put?_self hat)
    have hparen : (paren x.grouped).spelled indent level =
        '(' :: (x.grouped.spelled indent level ++ []) ++ [')'] := rfl
    rw [render, hlegible.ofExpr_eq]
    show Except.ok (String.ofList (e.layout.print indent 0)) = _
    rw [hlegible.print_layout, hwhole, hparen]
    simp only [List.append_nil, List.append_assoc, List.cons_append, List.nil_append]
  · obtain ⟨t, ht⟩ := exists_put? hat x.grouped
    have hxl : x.Lexical := (every_iff.1 (Every.at? he hn)).2 x (Shape.mem_children.2 ⟨i, hx⟩)
    have htl : t.Lexical := he.grouped.put? hxl.grouped ht
    have hinner : x.grouped.strip = (paren x.grouped).strip := rfl
    have hstrip : t.strip = e.strip := (strip_put? hat hinner ht).trans (strip_grouped e)
    rw [← htext _ _ ht] at hparse
    rw [← hstrip]
    exact parse_ungrouped htl (not_grouped_put? hn hw ht) hparse

def bareSum : Expr := binary .add (ident "a") (literal "1")

def sumReceiver : Expr := list [dot bareSum "b"]

theorem parse_without_parenthesis_sumReceiver :
    sumReceiver.Lexical ∧ ∃ before after level,
      sumReceiver.render .tabs = .ok (String.ofList
        (before ++ '(' :: bareSum.grouped.spelled .tabs level ++ ')' :: after)) ∧
      sumReceiver.grouped.at? [0, 0] = some (paren bareSum.grouped) ∧
      (∀ y t, sumReceiver.grouped.put? [0, 0] y = some t →
        t.spelled .tabs 0 = before ++ y.spelled .tabs level ++ after) ∧
      ∀ e', parse (String.ofList
          (before ++ bareSum.grouped.spelled .tabs level ++ after)) = .ok e' →
        e'.strip.eraseSpans ≠ sumReceiver.strip.eraseSpans :=
  ⟨by decide, parse_without_parenthesis .tabs (by decide) [0] 0 rfl rfl (by decide)⟩

end Expr
end BuildScript
