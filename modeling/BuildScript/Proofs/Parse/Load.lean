import BuildScript.Proofs.Expr.Every
import BuildScript.Proofs.Parse.Complete

/-!
Load statements: which of them can be written down, and that those and no others are read.
-/
namespace BuildScript

namespace Grammar
open BuildScript.Parser Lexeme

theorem forward_name : Forward name := (forward_word.filterMap _).about _

theorem forward_string : Forward string := by
  intro c v d h
  obtain ⟨q, w, -, -, hpass⟩ := result?_string.1 h
  exact ⟨_, hpass⟩

theorem forward_binding : Forward binding :=
  (forward_name.spanned.bind fun _ => (forward_gap .free).bind fun _ =>
    (Forward.satisfy _ _).bind fun _ => (forward_gap .free).bind fun _ =>
      forward_string.spanned.bind fun _ => .pure _).orElse
    (forward_string.spanned.bind fun _ => .pure _)

theorem consumes_bindings : Consumes (comma *> binding <* gap) :=
  ((consumes_opening ',').seqRight forward_binding).seqLeft (forward_gap .free)

theorem result?_spanned_eq_some {α : Type} {p : Parser α} {a : α} {s : Span} {c d : Cursor} :
    result? (spanned p) c = some ((a, s), d) ↔ s = c.span d ∧ result? p c = some (a, d) := by
  rw [result?_spanned, Option.map_eq_some_iff]
  constructor
  · rintro ⟨⟨a', d'⟩, h, heq⟩
    cases heq
    exact ⟨rfl, h⟩
  · rintro ⟨rfl, h⟩
    exact ⟨(a, d), h, rfl⟩

theorem result?_binding {b : Binding Expr} {c d : Cursor} : result? binding c = some (b, d) ↔
    (∃ target source c₁ c₂ c₃ c₄, result? name c = some (target, c₁) ∧ Mode.free.Skips c₁ c₂ ∧
      c₂.Passes ['='] c₃ ∧ Mode.free.Skips c₃ c₄ ∧ result? string c₄ = some (source, d) ∧
      b = ⟨nodeAt (.ident source) (c₄.span d), nodeAt (.ident target) (c.span c₁)⟩) ∨
    ∃ both, result? string c = some (both, d) ∧
      b = ⟨nodeAt (.ident both) (c.span d), nodeAt (.ident both) (c.span d)⟩ := by
  unfold binding
  rw [result?_orElse, Option.or_eq_some_iff]
  constructor
  · rintro (h | ⟨-, h⟩)
    · simp only [result?_bind, Option.bind_eq_some_iff] at h
      obtain ⟨⟨⟨target, span⟩, c₁⟩, hn, ⟨⟨⟩, c₂⟩, hg, ⟨x, c₃⟩, heq, ⟨⟨⟩, c₄⟩, hg',
        ⟨⟨source, span'⟩, d'⟩, hs, h⟩ := h
      cases h
      rw [result?_spanned_eq_some] at hn
      obtain ⟨rfl, hn⟩ := hn
      rw [result?_spanned_eq_some] at hs
      obtain ⟨rfl, hs⟩ := hs
      exact .inl ⟨target, source, c₁, c₂, c₃, c₄, hn, hg, (result?_char_eq_some.1 heq).2, hg', hs,
        rfl⟩
    · rw [result?_bind, Option.bind_eq_some_iff] at h
      obtain ⟨⟨⟨both, span⟩, d'⟩, hs, h⟩ := h
      cases h
      rw [result?_spanned_eq_some] at hs
      obtain ⟨rfl, hs⟩ := hs
      exact .inr ⟨both, hs, rfl⟩
  · rintro (⟨target, source, c₁, c₂, c₃, c₄, hn, hg, heq, hg', hs, rfl⟩ | ⟨both, hs, rfl⟩)
    · left
      simp only [result?_bind, Option.bind_eq_some_iff]
      exact ⟨((target, c.span c₁), c₁), result?_spanned_eq_some.2 ⟨rfl, hn⟩, ((), c₂), hg,
        ('=', c₃), result?_char_eq_some.2 ⟨rfl, heq⟩, ((), c₄), hg',
        ((source, c₄.span d), d), result?_spanned_eq_some.2 ⟨rfl, hs⟩, rfl⟩
    · right
      -- A quotation mark begins no name, so the reading of the other form stops at once.
      have hnone : result? name c = none := by
        obtain ⟨q, w, hq, -, hpass⟩ := result?_string.1 hs
        apply result?_name_of_stops
        rw [hpass.1, List.append_assoc, List.cons_append, stops_cons]
        rcases hq with rfl | rfl <;> decide
      rw [result?_bind, result?_spanned, hnone, result?_bind, Option.bind_eq_some_iff]
      exact ⟨rfl, ((both, c.span d), d), result?_spanned_eq_some.2 ⟨rfl, hs⟩, rfl⟩

theorem isWritable_of_binding {b : Binding Expr} {c d : Cursor}
    (h : result? binding c = some (b, d)) : b.isWritable = true := by
  rcases result?_binding.1 h with ⟨target, source, c₁, c₂, c₃, c₄, hn, -, -, -, -, rfl⟩ |
    ⟨both, -, rfl⟩
  · have htarget := (result?_name.1 hn).1
    simp [Binding.isWritable, Expr.ident?, nodeAt, htarget]
  · simp [Binding.isWritable, Expr.ident?, nodeAt]

def ReadsLoad (origin : String) (originSpan : Span) (bindings : List (Binding Expr))
    (c d : Cursor) : Prop :=
  ∃ c₁ c₂ c₃ c₄ c₅ c₆ c₇, c.Passes "load".toList c₁ ∧ Stops isNameChar c₁.rest ∧
    Mode.free.Skips c₁ c₂ ∧ Opens '(' c₂ c₃ ∧ result? string c₃ = some (origin, c₄) ∧
    originSpan = c₃.span c₄ ∧ Mode.free.Skips c₄ c₅ ∧
    Run (comma *> binding <* gap) c₅ bindings c₆ ∧
    ((result? comma c₆).map Prod.snd).getD c₆ = c₇ ∧ c₇.Passes [')'] d

theorem result?_load {e : Expr} {c d : Cursor} : result? load c = some (e, d) ↔
    ∃ origin originSpan bindings, ReadsLoad origin originSpan bindings c d ∧
      e = ⟨some (c.span d), .load (nodeAt (.string origin) originSpan) bindings⟩ := by
  unfold load
  rw [result?_about, result?_bind, Option.bind_eq_some_iff]
  constructor
  · rintro ⟨⟨⟨shape, span⟩, d'⟩, hs, heq⟩
    cases heq
    rw [result?_spanned_eq_some] at hs
    obtain ⟨rfl, hs⟩ := hs
    simp only [result?_bind, Option.bind_eq_some_iff] at hs
    obtain ⟨⟨⟨⟩, c₁⟩, hk, ⟨⟨⟩, c₂⟩, hg, ⟨x, c₃'⟩, hx, ⟨⟨⟩, c₃⟩, hg', ⟨⟨origin, os⟩, c₄⟩, hm,
      ⟨⟨⟩, c₅⟩, hg'', ⟨bindings, c₆⟩, hb, ⟨o, c₇⟩, ho, ⟨y, d''⟩, hy, heq⟩ := hs
    cases heq
    rw [result?_optional] at ho
    cases ho
    rw [result?_spanned_eq_some] at hm
    obtain ⟨rfl, hm⟩ := hm
    obtain ⟨hpass, hstop⟩ := (result?_keyword (by decide)).1 hk
    exact ⟨origin, _, bindings, ⟨c₁, c₂, c₃, c₄, c₅, c₆, _, hpass, hstop, hg,
      ⟨c₃', (result?_char_eq_some.1 hx).2, hg'⟩, hm, rfl, hg'',
      (result?_many_eq_some consumes_bindings).1 hb, rfl, (result?_char_eq_some.1 hy).2⟩, rfl⟩
  · rintro ⟨origin, os, bindings, ⟨c₁, c₂, c₃, c₄, c₅, c₆, c₇, hpass, hstop, hg,
      ⟨c₃', hx, hg'⟩, hm, rfl, hg'', hb, rfl, hy⟩, rfl⟩
    refine ⟨((.load (nodeAt (.string origin) (c₃.span c₄)) bindings, c.span d), d),
      result?_spanned_eq_some.2 ⟨rfl, ?_⟩, rfl⟩
    simp only [result?_bind, Option.bind_eq_some_iff]
    exact ⟨((), c₁), (result?_keyword (by decide)).2 ⟨hpass, hstop⟩, ((), c₂), hg, ('(', c₃'),
      result?_char_eq_some.2 ⟨rfl, hx⟩, ((), c₃), hg', ((origin, c₃.span c₄), c₄),
      result?_spanned_eq_some.2 ⟨rfl, hm⟩, ((), c₅), hg'', (bindings, c₆),
      (result?_many_eq_some consumes_bindings).2 hb, (_, _), result?_optional _ _,
      (')', d), result?_char_eq_some.2 ⟨rfl, hy⟩, rfl⟩

theorem result?_bindingItem {b : Binding Expr} {c d : Cursor} :
    result? (comma *> binding <* gap) c = some (b, d) ↔ ∃ c₁ c₂, Opens ',' c c₁ ∧
      result? binding c₁ = some (b, c₂) ∧ Mode.free.Skips c₂ d := by
  rw [result?_seqLeft, result?_seqRight]
  simp only [Option.bind_eq_some_iff, Option.map_eq_some_iff]
  constructor
  · rintro ⟨⟨b', c₂⟩, ⟨⟨⟨⟩, c₁⟩, hc, hb⟩, ⟨⟨⟩, d'⟩, hg, heq⟩
    cases heq
    exact ⟨c₁, c₂, result?_opening.1 hc, hb, hg⟩
  · rintro ⟨c₁, c₂, hc, hb, hg⟩
    exact ⟨(b, c₂), ⟨((), c₁), result?_opening.2 hc, hb⟩, ((), d), hg, rfl⟩

/-- Bindings up to the closing parenthesis, each behind a comma, and perhaps a comma behind them. -/
inductive ReadsBindings : List (Binding Expr) → Cursor → Cursor → Prop
  | nil {c : Cursor} : ReadsBindings [] c c
  | comma {c d : Cursor} (h : Opens ',' c d) : ReadsBindings [] c d
  | cons {b : Binding Expr} {bs : List (Binding Expr)} {c c₁ c₂ c₃ d : Cursor} (hc : Opens ',' c c₁)
    (hb : result? binding c₁ = some (b, c₂)) (hg : Mode.free.Skips c₂ c₃)
    (h : ReadsBindings bs c₃ d) : ReadsBindings (b :: bs) c d

theorem result?_binding_of_closed {c d : Cursor} (h : c.Passes [')'] d) :
    result? binding c = none := by
  refine result?_eq_none fun b e hb => ?_
  rcases result?_binding.1 hb with ⟨target, _, c₁, _, _, _, hn, -⟩ | ⟨both, hs, -⟩
  · have hnone : result? name c = none := by
      apply result?_name_of_stops
      rw [h.1, List.singleton_append, stops_cons]
      decide
    rw [hnone] at hn
    cases hn
  · have hnone : result? string c = none := by
      apply result?_string_of_stops
      rw [h.1, List.singleton_append, stops_cons]
      decide
    rw [hnone] at hs
    cases hs

theorem run_bindings {bs : List (Binding Expr)} {c d e : Cursor} (he : d.Passes [')'] e) :
    (∃ c', Run (comma *> binding <* gap) c bs c' ∧
      ((result? comma c').map Prod.snd).getD c' = d) ↔ ReadsBindings bs c d := by
  constructor
  · rintro ⟨c', hrun, hd⟩
    induction hrun with
    | @stop c _ =>
      cases hc : result? comma c with
      | none =>
        rw [hc] at hd
        obtain rfl : c = d := hd
        exact .nil
      | some r =>
        rw [hc] at hd
        obtain rfl : r.2 = d := hd
        exact .comma (result?_opening.1 hc)
    | step h _ ih =>
      obtain ⟨c₁, c₂, hc, hb, hg⟩ := result?_bindingItem.1 h
      exact .cons hc hb hg (ih hd)
  · intro h
    induction h with
    | @nil c =>
      have hnone : result? comma c = none := by
        unfold comma opening
        rw [result?_bind, result?_char_of_head (by rw [he.1]; simp)]
        rfl
      refine ⟨c, .stop ?_, by rw [hnone]; rfl⟩
      rw [result?_seqLeft, result?_seqRight, hnone]
      rfl
    | @comma c d h =>
      have hcomma : result? Grammar.comma c = some ((), d) := result?_opening.2 h
      refine ⟨c, .stop ?_, by rw [hcomma]; rfl⟩
      rw [result?_seqLeft, result?_seqRight, hcomma, Option.bind_some,
        result?_binding_of_closed he]
      rfl
    | cons hc hb hg _ ih =>
      obtain ⟨c', hrun, hd⟩ := ih he
      exact ⟨c', .step (result?_bindingItem.2 ⟨_, _, hc, hb, hg⟩) hrun, hd⟩

theorem readsLoad_iff {origin : String} {s : Span} {bindings : List (Binding Expr)} {c d : Cursor} :
    ReadsLoad origin s bindings c d ↔ ∃ c₁ c₂ c₃ c₄ c₅ c₆, c.Passes "load".toList c₁ ∧
      Stops isNameChar c₁.rest ∧ Mode.free.Skips c₁ c₂ ∧ Opens '(' c₂ c₃ ∧
      result? string c₃ = some (origin, c₄) ∧ s = c₃.span c₄ ∧ Mode.free.Skips c₄ c₅ ∧
      ReadsBindings bindings c₅ c₆ ∧ c₆.Passes [')'] d := by
  constructor
  · rintro ⟨c₁, c₂, c₃, c₄, c₅, c₆, c₇, hload, hstop, hg, ho, hm, hs, hg', hb, hc, hy⟩
    exact ⟨c₁, c₂, c₃, c₄, c₅, c₇, hload, hstop, hg, ho, hm, hs, hg',
      (run_bindings hy).1 ⟨c₆, hb, hc⟩, hy⟩
  · rintro ⟨c₁, c₂, c₃, c₄, c₅, c₇, hload, hstop, hg, ho, hm, hs, hg', hb, hy⟩
    obtain ⟨c₆, hb, hc⟩ := (run_bindings hy).2 hb
    exact ⟨c₁, c₂, c₃, c₄, c₅, c₆, c₇, hload, hstop, hg, ho, hm, hs, hg', hb, hc, hy⟩

theorem isLoad_of_load {e : Expr} {c d : Cursor} (h : result? load c = some (e, d)) :
    e.isLoad = true := by
  obtain ⟨origin, os, bindings, ⟨c₁, c₂, c₃, c₄, c₅, c₆, c₇, -, -, -, -, -, -, -, hb, -, -⟩, rfl⟩ :=
    result?_load.1 h
  simp only [Expr.isLoad, Expr.string?, nodeAt, Option.isSome_some, Bool.true_and, List.all_eq_true]
  clear h
  induction hb with
  | stop _ => simp
  | step h _ ih =>
    refine List.forall_mem_cons.2 ⟨?_, ih⟩
    simp only [result?_seqLeft, result?_seqRight, Option.bind_eq_some_iff,
      Option.map_eq_some_iff] at h
    obtain ⟨⟨b, e⟩, ⟨⟨⟨⟩, c'⟩, -, h⟩, r, -, heq⟩ := h
    cases heq
    exact isWritable_of_binding h

end Grammar
end BuildScript
