import BuildScript.Parse.Source
import BuildScript.Proofs.Parse.Load

/-!
Whole sources: what it means that statements stand in a text line by line, and that a source is
accepted exactly if its text is of that form (`parse_eq_ok`, and `Expr.parse_eq_ok` for a single
expression). The bound on the nesting of brackets plays no part, since every text is long enough.
-/
namespace BuildScript.Grammar
open BuildScript.Parser Lexeme

def ReadsStatement (e : Expr) (c d : Cursor) : Prop :=
  result? load c = some (e, d) ∨ Reads .line e c d ∧ e.Grouped

def EndsLine (c d : Cursor) : Prop := c.Passes ['\n'] d ∨ c.rest = [] ∧ d = c

inductive ReadsLines : List Expr → Cursor → Cursor → Prop
  | nil {c : Cursor} (h : c.rest = []) : ReadsLines [] c c
  | cons {e : Expr} {es : List Expr} {c c₁ c₂ c₃ c₄ d : Cursor} (he : ReadsStatement e c c₁)
    (hg : Mode.line.Skips c₁ c₂) (hend : EndsLine c₂ c₃) (hg' : Mode.free.Skips c₃ c₄)
    (rest : ReadsLines es c₄ d) : ReadsLines (e :: es) c d

theorem ReadsLoad.passes {origin : String} {s : Span} {bindings : List (Binding Expr)}
    {c d : Cursor} (h : ReadsLoad origin s bindings c d) : ∃ w, c.Passes ('l' :: w) d := by
  obtain ⟨c₁, c₂, c₃, c₄, c₅, c₆, c₇, hload, -, hg, ho, hm, -, hg', hb, hc, hy⟩ := h
  obtain ⟨_, hg⟩ := hg.passes
  obtain ⟨_, ho⟩ := ho.passes
  obtain ⟨_, hm⟩ := forward_string _ _ _ hm
  obtain ⟨_, hg'⟩ := hg'.passes
  have hforward : Forward (many (comma *> binding <* gap)) :=
    (((forward_opening ',').seqRight forward_binding).seqLeft (forward_gap .free)).many
  obtain ⟨_, hb⟩ := hforward _ _ _ ((result?_many_eq_some consumes_bindings).2 hb)
  have hcomma : Forward (Parser.optional comma) := (forward_opening ',').optional
  obtain ⟨_, hc⟩ := hcomma _ _ _ (hc ▸ result?_optional comma c₆)
  exact ⟨_, ((((((hload.trans hg).trans ho).trans hm).trans hg').trans hb).trans hc).trans hy⟩

theorem ReadsStatement.passes {e : Expr} {c d : Cursor} (h : ReadsStatement e c d) :
    ∃ x w, beginsOperand x = true ∧ c.Passes (x :: w) d := by
  rcases h with h | ⟨h, -⟩
  · obtain ⟨origin, s, bindings, hr, -⟩ := result?_load.1 h
    obtain ⟨w, hw⟩ := hr.passes
    exact ⟨'l', w, by decide, hw⟩
  · exact h.passes

theorem Reads.load_none {m : Mode} {e : Expr} {c d : Cursor} (h : Reads m e c d) :
    result? load c = none := by
  refine result?_eq_none fun e' d' he => ?_
  obtain ⟨origin, s, bindings, ⟨c₁, c₂, c₃, c₄, c₅, c₆, c₇, hload, hstop, -⟩, -⟩ :=
    result?_load.1 he
  have hword : result? word c = some ("load", c₁) := result?_word.2 ⟨by decide, hload, hstop⟩
  rcases h.first_word hword with hw | hw
  · exact absurd hw (by decide)
  · exact hw (by decide)

theorem statement_sound {depth : Nat} {e : Expr} {c d : Cursor}
    (h : result? (statement depth) c = some (e, d)) :
    ∃ d₀, ReadsStatement e c d₀ ∧ Mode.line.Skips d₀ d := by
  unfold statement at h
  rw [result?_orElse, Option.or_eq_some_iff] at h
  rcases h with h | ⟨-, h⟩
  · rw [result?_seqLeft, Option.bind_eq_some_iff] at h
    obtain ⟨⟨e', d₀⟩, he, h⟩ := h
    rw [Option.map_eq_some_iff] at h
    obtain ⟨⟨⟨⟩, d'⟩, hg, heq⟩ := h
    cases heq
    exact ⟨d₀, .inl he, hg⟩
  · obtain ⟨d₀, hr, hg, hgrouped, -⟩ := sound_expression (m := .line) (sound_nested depth) _ _ _ h
    exact ⟨d₀, .inr ⟨hr, hgrouped⟩, hg⟩

theorem statement_complete {depth : Nat} {e : Expr} {c d d' : Cursor} (h : ReadsStatement e c d)
    (hg : Mode.line.Skips d d') (hend : Ends 0 d') (hb : c.rest.length ≤ depth + 1) :
    result? (statement depth) c = some (e, d') := by
  unfold statement
  rw [result?_orElse, result?_seqLeft]
  rcases h with h | ⟨h, hgrouped⟩
  · rw [h, Option.bind_some, show result? lineGap d = some ((), d') from hg]
    rfl
  · rw [h.load_none, Option.bind_none, Option.none_or]
    exact complete_expression (m := .line) (sound_nested depth) (complete_nested depth) e c d d' h
      hgrouped (Nat.zero_le _) hg hend hb

theorem result?_lineEnd {c d : Cursor} : result? lineEnd c = some ((), d) ↔ EndsLine c d := by
  unfold lineEnd EndsLine
  rw [result?_about, result?_orElse, Option.or_eq_some_iff, result?_skip, result?_endOfInput]
  constructor
  · rintro (⟨x, hx⟩ | ⟨-, h⟩)
    · exact .inl (result?_char_eq_some.1 hx).2
    · split at h
      next hr =>
        cases h
        exact .inr ⟨hr, rfl⟩
      · cases h
  · rintro (h | ⟨hr, rfl⟩)
    · exact .inl ⟨'\n', result?_char_eq_some.2 ⟨rfl, h⟩⟩
    · refine .inr ⟨?_, if_pos hr⟩
      unfold skip
      rw [result?_bind, result?_char_of_head (by simp [hr])]
      rfl

def line (depth : Nat) : Parser Expr := statement depth <* lineEnd <* gap

theorem result?_line {depth : Nat} {e : Expr} {c d : Cursor} :
    result? (line depth) c = some (e, d) ↔ ∃ c₁ c₂, result? (statement depth) c = some (e, c₁) ∧
      EndsLine c₁ c₂ ∧ Mode.free.Skips c₂ d := by
  unfold line
  rw [result?_seqLeft, result?_seqLeft]
  constructor
  · intro h
    simp only [Option.bind_eq_some_iff, Option.map_eq_some_iff] at h
    obtain ⟨⟨e', c₂⟩, ⟨⟨e'', c₁⟩, hs, ⟨⟨⟩, c₂'⟩, hend, heq⟩, ⟨⟨⟩, d'⟩, hg, heq'⟩ := h
    cases heq
    cases heq'
    exact ⟨c₁, c₂', hs, result?_lineEnd.1 hend, hg⟩
  · rintro ⟨c₁, c₂, hs, hend, hg⟩
    rw [hs, Option.bind_some, result?_lineEnd.2 hend, Option.map_some, Option.bind_some,
      show result? gap c₂ = some ((), d) from hg]
    rfl

theorem EndsLine.ends {c d : Cursor} (h : EndsLine c d) : Ends 0 c := by
  refine .of_closes fun x hx => ?_
  rcases h with h | ⟨h, -⟩
  · rw [h.1] at hx
    cases hx
    decide
  · rw [h] at hx
    cases hx

theorem EndsLine.passes {c d : Cursor} (h : EndsLine c d) : ∃ w, c.Passes w d := by
  rcases h with h | ⟨-, rfl⟩
  · exact ⟨_, h⟩
  · exact ⟨[], .refl _⟩

theorem consumes_line (depth : Nat) : Consumes (line depth) := by
  intro c e d h
  obtain ⟨c₁, c₂, hs, hend, hg⟩ := result?_line.1 h
  obtain ⟨c₀, hr, hg'⟩ := statement_sound hs
  obtain ⟨x, w, -, hw⟩ := hr.passes
  obtain ⟨_, hg'⟩ := hg'.passes
  obtain ⟨_, hend⟩ := hend.passes
  obtain ⟨_, hg⟩ := hg.passes
  have := (((hw.trans hg').trans hend).trans hg).length_eq
  simp only [List.length_append, List.length_cons] at this
  omega

theorem line_none {depth : Nat} {c : Cursor} (h : c.rest = []) : result? (line depth) c = none := by
  refine result?_eq_none fun e d he => ?_
  have := consumes_line depth c e d he
  rw [h] at this
  exact Nat.not_lt_zero _ this

theorem ReadsLines.rest_eq_nil {es : List Expr} {c d : Cursor} (h : ReadsLines es c d) :
    d.rest = [] := by
  induction h with
  | nil h => exact h
  | cons _ _ _ _ _ ih => exact ih

theorem run_line {depth : Nat} {es : List Expr} {c d : Cursor} (hb : c.rest.length ≤ depth + 1) :
    Run (line depth) c es d ∧ d.rest = [] ↔ ReadsLines es c d := by
  constructor
  · rintro ⟨h, hd⟩
    induction h with
    | stop h => exact .nil hd
    | @step c c₄ d e es h _ ih =>
      have hlt := consumes_line depth _ _ _ h
      obtain ⟨c₂, c₃, hs, hend, hg⟩ := result?_line.1 h
      obtain ⟨c₁, hr, hg'⟩ := statement_sound hs
      exact .cons hr hg' hend hg (ih (by omega) hd)
  · intro h
    refine ⟨?_, h.rest_eq_nil⟩
    induction h with
    | nil h => exact .stop (line_none h)
    | @cons e es c c₁ c₂ c₃ c₄ d he hg hend hg' _ ih =>
      have hs := statement_complete he hg hend.ends hb
      have hline := result?_line.2 ⟨c₂, c₃, hs, hend, hg'⟩
      have hlt := consumes_line depth _ _ _ hline
      exact .step hline (ih (by omega))

theorem result?_statements {depth : Nat} {es : List Expr} {c d : Cursor}
    (hb : c.rest.length ≤ depth + 1) : result? (statements depth) c = some (es, d) ↔
      ∃ c₁, Mode.free.Skips c c₁ ∧ ReadsLines es c₁ d := by
  unfold statements
  rw [result?_seqLeft, result?_seqRight]
  constructor
  · intro h
    simp only [Option.bind_eq_some_iff, Option.map_eq_some_iff] at h
    obtain ⟨⟨es', d'⟩, ⟨⟨⟨⟩, c₁⟩, hg, hm⟩, ⟨⟨⟩, d''⟩, hend, heq⟩ := h
    cases heq
    rw [result?_endOfInput] at hend
    split at hend
    next hr =>
      cases hend
      have hle := (forward_gap .free).length_le hg
      exact ⟨c₁, hg, (run_line (Nat.le_trans hle hb)).1
        ⟨(result?_many_eq_some (consumes_line depth)).1 hm, hr⟩⟩
    · cases hend
  · rintro ⟨c₁, hg, h⟩
    have hle := (forward_gap .free).length_le hg
    obtain ⟨hrun, hr⟩ := (run_line (Nat.le_trans hle hb)).2 h
    rw [show result? gap c = some ((), c₁) from hg, Option.bind_some,
      show result? (many (statement depth <* lineEnd <* gap)) c₁ = some (es, d) from
        (result?_many_eq_some (consumes_line depth)).2 hrun, Option.bind_some,
      result?_endOfInput, if_pos hr]
    rfl

end BuildScript.Grammar

namespace BuildScript
open BuildScript.Parser Lexeme Grammar

theorem Parser.run_eq_ok {α : Type} {p : Parser α} {source : List Char} {a : α} :
    p.run source = .ok a ↔ ∃ d, result? p (.ofText source) = some (a, d) := by
  unfold run result?
  cases p (.ofText source) with
  | success b d met => simp [Reply.result?]
  | failure f => simp [Reply.result?]

/-- A source is accepted exactly if its text is a gap and statements on a line each. -/
theorem Script.parse_eq_ok {source : String} {s : Script} : Script.parse source = .ok s ↔
    s.path = none ∧ s.comments = commentsOf source.toList ∧
      ∃ c d, Mode.free.Skips (.ofText source.toList) c ∧ ReadsLines s.statements c d := by
  have hb : (Cursor.ofText source.toList).rest.length ≤ nestingBound source.toList + 1 := by
    show source.toList.length ≤ source.toList.length + 1 + 1
    omega
  unfold Script.parse
  dsimp only
  constructor
  · intro h
    cases hrun : (Grammar.statements (nestingBound source.toList)).run source.toList with
    | error e =>
      rw [hrun] at h
      cases h
    | ok es =>
      rw [hrun] at h
      cases h
      obtain ⟨d, hd⟩ := run_eq_ok.1 hrun
      obtain ⟨c, hg, hr⟩ := (result?_statements hb).1 hd
      exact ⟨rfl, rfl, c, d, hg, hr⟩
  · obtain ⟨path, es, comments⟩ := s
    rintro ⟨rfl, rfl, c, d, hg, hr⟩
    have hrun := run_eq_ok.2 ⟨d, (result?_statements hb).2 ⟨c, hg, hr⟩⟩
    rw [hrun]
    rfl

/-- A text is accepted as an expression exactly if one stands in it, grouped as it has to be, with
nothing but gaps around it. -/
theorem Expr.parse_eq_ok {source : String} {e : Expr} : Expr.parse source = .ok e ↔
    e.Grouped ∧ ∃ c d d', Mode.free.Skips (.ofText source.toList) c ∧ Reads .free e c d ∧
      Mode.free.Skips d d' ∧ d'.rest = [] := by
  have hlen : (Cursor.ofText source.toList).rest.length ≤ nestingBound source.toList := by
    show source.toList.length ≤ source.toList.length + 1
    omega
  unfold Expr.parse
  rw [run_eq_ok]
  unfold soleExpression
  simp only [result?_seqLeft, result?_seqRight, Option.bind_eq_some_iff, Option.map_eq_some_iff]
  constructor
  · rintro ⟨d', ⟨e', d''⟩, ⟨⟨⟨⟩, c⟩, hg, h⟩, ⟨⟨⟩, d'''⟩, hend, heq⟩
    cases heq
    obtain ⟨d, hr, hg', hgrouped, -⟩ := sound_nested _ _ _ _ h
    rw [result?_endOfInput] at hend
    split at hend
    next hrest =>
      cases hend
      exact ⟨hgrouped, c, d, d'', hg, hr, hg', hrest⟩
    · cases hend
  · rintro ⟨hgrouped, c, d, d', hg, hr, hg', hrest⟩
    have hle := (forward_gap .free).length_le hg
    have hend : Ends 0 d' := .of_closes fun x hx => by
      rw [hrest] at hx
      cases hx
    have he := complete_nested (nestingBound source.toList) e c d d' hr hgrouped (Nat.zero_le _) hg'
      hend (Nat.le_trans hle hlen)
    refine ⟨d', (e, d'), ⟨((), c), hg, he⟩, ((), d'), ?_, rfl⟩
    rw [result?_endOfInput, if_pos hrest]

end BuildScript
