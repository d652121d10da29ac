import BuildScript.Parse.Parser
import Mathlib

/-!
What a parser may do to the text: it only moves forward. Both notions pass through all combinators,
so that each repetition of the grammar is known to end, and a success always splits the text into
what was read and what is left.
-/
namespace BuildScript

theorem Position.line_after (p : Position) (w : List Char) :
    (p.after w).line = p.line + w.count '\n' := by
  induction w generalizing p with
  | nil => rfl
  | cons x w ih =>
    rw [after_cons, ih, next]
    split
    next h =>
      subst h
      rw [List.count_cons_self]
      show p.line + 1 + _ = _
      omega
    next h =>
      rw [List.count_cons_of_ne h]

def Cursor.Passes (c : Cursor) (w : List Char) (d : Cursor) : Prop :=
  c.rest = w ++ d.rest ∧ d.position = c.position.after w

namespace Cursor.Passes
variable {c d e : Cursor} {v w : List Char}

theorem refl (c : Cursor) : c.Passes [] c := ⟨rfl, rfl⟩

theorem trans (h : c.Passes v d) (k : d.Passes w e) : c.Passes (v ++ w) e := by
  refine ⟨?_, ?_⟩
  · rw [h.1, k.1, List.append_assoc]
  · rw [k.2, h.2, Position.after_append]

theorem length_eq (h : c.Passes w d) : c.rest.length = w.length + d.rest.length := by
  rw [h.1, List.length_append]

theorem right_eq (h : c.Passes w d) : d = ⟨c.position.after w, d.rest⟩ := by
  rw [← h.2]

theorem left_eq (h : c.Passes w d) : c = ⟨c.position, w ++ d.rest⟩ := by
  rw [← h.1]

theorem length_lt {x : Char} (h : c.Passes (x :: w) d) : d.rest.length < c.rest.length := by
  rw [h.length_eq, List.length_cons]
  omega

theorem head_eq {x y : Char} (h : c.Passes (x :: v) d) (k : c.Passes (y :: w) e) : x = y :=
  (List.cons.inj (h.1.symm.trans k.1)).1

theorem right_unique (h : c.Passes w d) (k : c.Passes w e) : d = e := by
  rw [h.right_eq, k.right_eq, List.append_cancel_left (h.1.symm.trans k.1)]

theorem split (h : c.Passes w d) :
    ∃ p rest, c = ⟨p, w ++ rest⟩ ∧ d = ⟨p.after w, rest⟩ :=
  ⟨c.position, d.rest, h.left_eq, h.right_eq⟩

theorem append (h : c.Passes (v ++ w) e) : ∃ d, c.Passes v d ∧ d.Passes w e := by
  obtain ⟨p, rest, rfl, rfl⟩ := h.split
  exact ⟨⟨p.after v, w ++ rest⟩, ⟨List.append_assoc .., rfl⟩, ⟨rfl, Position.after_append ..⟩⟩

theorem offset_eq (h : c.Passes w d) : d.position.offset = c.position.offset + w.length := by
  rw [h.2, Position.offset_after]

theorem line_le (h : c.Passes w d) : c.position.line ≤ d.position.line := by
  rw [h.2, Position.line_after]
  exact Nat.le_add_right _ _

end Cursor.Passes

namespace Parser
variable {α β : Type}

theorem result?_eq_none {p : Parser α} {c : Cursor} (h : ∀ a d, result? p c ≠ some (a, d)) :
    result? p c = none :=
  Option.eq_none_iff_forall_ne_some.2 fun r => h r.1 r.2

theorem result?_satisfy_eq_some {test : Char → Bool} {expected : List Expectation} {x : Char}
    {c d : Cursor} : result? (satisfy test expected) c = some (x, d) ↔
      test x = true ∧ c.Passes [x] d := by
  obtain ⟨p, text⟩ := c
  rw [result?_satisfy]
  cases text with
  | nil => simp [Cursor.Passes]
  | cons y rest =>
    constructor
    · intro h
      dsimp only at h
      split at h
      next hy =>
        cases h
        exact ⟨hy, rfl, rfl⟩
      next => cases h
    · rintro ⟨hx, hpass⟩
      obtain ⟨q, left, h, rfl⟩ := hpass.split
      cases h
      exact if_pos hx

/-- A success stands further on in the same text, or where it began. -/
def Forward (p : Parser α) : Prop :=
  ∀ c a d, result? p c = some (a, d) → ∃ w, c.Passes w d

theorem Forward.length_le {p : Parser α} (hp : Forward p) {c d : Cursor} {a : α}
    (h : result? p c = some (a, d)) : d.rest.length ≤ c.rest.length := by
  obtain ⟨w, hw⟩ := hp c a d h
  have := hw.length_eq
  omega

namespace Forward
variable {p : Parser α} {q : Parser β} {f : α → Parser β}

theorem pure (a : α) : Forward (Pure.pure a : Parser α) := by
  intro c b d h
  cases h
  exact ⟨[], .refl c⟩

theorem bind (hp : Forward p) (hf : ∀ a, Forward (f a)) : Forward (p >>= f) := by
  intro c b e h
  rw [result?_bind] at h
  obtain ⟨⟨a, d⟩, ha, hb⟩ := Option.bind_eq_some_iff.1 h
  obtain ⟨v, hv⟩ := hp c a d ha
  obtain ⟨w, hw⟩ := hf a d b e hb
  exact ⟨v ++ w, hv.trans hw⟩

theorem map (hp : Forward p) (g : α → β) : Forward (g <$> p) :=
  hp.bind fun a => .pure (g a)

theorem seqLeft (hp : Forward p) (hq : Forward q) : Forward (p <* q) :=
  hp.bind fun a => hq.bind fun _ => .pure a

theorem seqRight (hp : Forward p) (hq : Forward q) : Forward (p *> q) :=
  hp.bind fun _ => hq

theorem satisfy (test : Char → Bool) (expected : List Expectation) :
    Forward (Parser.satisfy test expected) := by
  intro c x d h
  exact ⟨[x], (result?_satisfy_eq_some.1 h).2⟩

theorem orElse {p q : Parser α} (hp : Forward p) (hq : Forward q) : Forward (p <|> q) := by
  intro c a d h
  rw [result?_orElse] at h
  rcases Option.or_eq_some_iff.1 h with h | ⟨-, h⟩
  · exact hp c a d h
  · exact hq c a d h

theorem choice {ps : List (Parser α)} (h : ∀ p ∈ ps, Forward p) : Forward (Parser.choice ps) := by
  intro c a d hc
  rw [result?_choice] at hc
  obtain ⟨p, hp, hpc⟩ := List.exists_of_findSome?_eq_some hc
  exact h p hp c a d hpc

theorem many (hp : Forward p) : Forward (Parser.many p) := by
  suffices ∀ bound (c : Cursor), ∃ w, c.Passes w (runWithin p bound c).2.1 by
    intro c as d h
    obtain ⟨w, hw⟩ := this c.rest c
    cases h
    exact ⟨w, hw⟩
  intro bound
  induction bound with
  | nil =>
    intro c
    unfold runWithin
    cases hc : p c with
    | failure e => exact ⟨[], .refl c⟩
    | success a d met => exact hp c a d (by simp [result?, hc, Reply.result?])
  | cons x bound ih =>
    intro c
    unfold runWithin
    cases hc : p c with
    | failure e => exact ⟨[], .refl c⟩
    | success a d met =>
      obtain ⟨v, hv⟩ := hp c a d (by simp [result?, hc, Reply.result?])
      obtain ⟨w, hw⟩ := ih d
      exact ⟨v ++ w, hv.trans hw⟩

theorem optional (hp : Forward p) : Forward (Parser.optional p) := by
  intro c a d h
  rw [result?_optional] at h
  cases hc : result? p c with
  | none =>
    simp only [hc, Option.map_none, Option.getD_none, Option.some.injEq, Prod.mk.injEq] at h
    exact ⟨[], h.2 ▸ .refl c⟩
  | some r =>
    simp only [hc, Option.map_some, Option.getD_some, Option.some.injEq, Prod.mk.injEq] at h
    exact h.2 ▸ hp c r.1 r.2 hc

theorem spanned (hp : Forward p) : Forward (Parser.spanned p) := by
  intro c a d h
  rw [result?_spanned] at h
  obtain ⟨r, hr, h⟩ := Option.map_eq_some_iff.1 h
  cases h
  exact hp c r.1 r.2 hr

theorem filterMap (hp : Forward p) (check : α → Except Reason β) :
    Forward (Parser.filterMap p check) := by
  intro c b d h
  rw [result?_filterMap] at h
  obtain ⟨r, hr, h⟩ := Option.bind_eq_some_iff.1 h
  obtain ⟨b', -, h⟩ := Option.map_eq_some_iff.1 h
  cases h
  exact hp c r.1 r.2 hr

theorem about (hp : Forward p) (name : String) : Forward (Parser.about name p) := by
  intro c a d h
  rw [result?_about] at h
  exact hp c a d h

theorem separated (hp : Forward p) (hq : Forward q) : Forward (Parser.separated p q) :=
  (optional (hp.bind fun _ =>
    (many (hq.bind fun _ => hp)).bind fun _ => hq.optional.bind fun _ => .pure _)).bind
      fun _ => .pure _

end Forward

namespace Consumes
variable {p : Parser α} {q : Parser β} {f : α → Parser β}

theorem satisfy (test : Char → Bool) (expected : List Expectation) :
    Consumes (Parser.satisfy test expected) := by
  intro c x d h
  exact (result?_satisfy_eq_some.1 h).2.length_lt

theorem bind (hp : Consumes p) (hf : ∀ a, Forward (f a)) : Consumes (p >>= f) := by
  intro c b e h
  rw [result?_bind] at h
  obtain ⟨⟨a, d⟩, ha, hb⟩ := Option.bind_eq_some_iff.1 h
  exact Nat.lt_of_le_of_lt ((hf a).length_le hb) (hp c a d ha)

theorem map (hp : Consumes p) (g : α → β) : Consumes (g <$> p) :=
  hp.bind fun a => .pure (g a)

theorem seqLeft (hp : Consumes p) (hq : Forward q) : Consumes (p <* q) :=
  hp.bind fun a => hq.bind fun _ => .pure a

theorem seqRight (hp : Consumes p) (hq : Forward q) : Consumes (p *> q) :=
  hp.bind fun _ => hq

theorem orElse {p q : Parser α} (hp : Consumes p) (hq : Consumes q) : Consumes (p <|> q) := by
  intro c a d h
  rw [result?_orElse] at h
  rcases Option.or_eq_some_iff.1 h with h | ⟨-, h⟩
  · exact hp c a d h
  · exact hq c a d h

theorem spanned (hp : Consumes p) : Consumes (Parser.spanned p) := by
  intro c a d h
  rw [result?_spanned] at h
  obtain ⟨r, hr, h⟩ := Option.map_eq_some_iff.1 h
  cases h
  exact hp c r.1 r.2 hr

theorem filterMap (hp : Consumes p) (check : α → Except Reason β) :
    Consumes (Parser.filterMap p check) := by
  intro c b d h
  rw [result?_filterMap] at h
  obtain ⟨r, hr, h⟩ := Option.bind_eq_some_iff.1 h
  obtain ⟨b', -, h⟩ := Option.map_eq_some_iff.1 h
  cases h
  exact hp c r.1 r.2 hr

end Consumes

/-- The successes of a repeated parser, one after the other, up to its first failure. -/
inductive Run (p : Parser α) : Cursor → List α → Cursor → Prop
  | stop {c : Cursor} (h : result? p c = none) : Run p c [] c
  | step {c d e : Cursor} {a : α} {as : List α} (h : result? p c = some (a, d))
      (rest : Run p d as e) : Run p c (a :: as) e

theorem result?_many_eq_some {p : Parser α} (hp : Consumes p) {c : Cursor} {as : List α}
    {e : Cursor} : result? (many p) c = some (as, e) ↔ Run p c as e := by
  constructor
  · intro h
    induction as generalizing c with
    | nil =>
      rw [result?_many hp] at h
      cases hc : result? p c with
      | none =>
        simp only [hc, Option.some.injEq, Prod.mk.injEq, true_and] at h
        exact h ▸ .stop hc
      | some r => simp [hc] at h
    | cons a as ih =>
      rw [result?_many hp] at h
      cases hc : result? p c with
      | none => simp [hc] at h
      | some r =>
        simp only [hc, Option.map_eq_some_iff, Prod.mk.injEq, List.cons.injEq] at h
        obtain ⟨s, hs, ⟨rfl, rfl⟩, rfl⟩ := h
        exact .step hc (ih hs)
  · intro h
    induction h with
    | stop h => rw [result?_many hp, h]
    | step h rest ih => rw [result?_many hp, h]; simp [ih]

theorem result?_many_of_none {p : Parser α} (hp : Consumes p) {c : Cursor}
    (h : result? p c = none) : result? (many p) c = some ([], c) := by
  rw [result?_many hp, h]

end Parser
end BuildScript
