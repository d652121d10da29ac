import BuildScript.Proofs.Parse.Word

/-!
The failures that a parse tells of. A reply carries one failure at most, the furthest that was met.
Each combinator hands on a failure of one of its parts, so a failure can be followed back to the
character or the word that it comes from.
-/
namespace BuildScript
open BuildScript.Lexeme

def Reply.failure? {α : Type} : Reply α → Option Failure
  | .success _ _ met => met
  | .failure f => some f

namespace Failure

def Alike (f g : Failure) : Prop := f.span = g.span ∧ f.reach = g.reach

theorem furthest_cases (x y : Failure) :
    (x.furthest y).Alike x ∧ y.reach ≤ x.reach ∨ (x.furthest y).Alike y ∧ x.reach < y.reach := by
  unfold furthest
  split
  next h => exact .inl ⟨⟨rfl, rfl⟩, Nat.le_of_lt h⟩
  next h =>
    split
    next h' => exact .inr ⟨⟨rfl, rfl⟩, h'⟩
    next h' => exact .inl ⟨⟨rfl, rfl⟩, Nat.le_of_not_lt h'⟩

/-- Of two failures met one after the other the later one leads, unless the earlier got further. -/
theorem join_cases {a b : Option Failure} {f : Failure} (h : join a b = some f) :
    (∃ y, b = some y ∧ f.Alike y ∧ ∀ x, a = some x → x.reach ≤ y.reach) ∨
      ∃ x, a = some x ∧ f.Alike x ∧ ∀ y, b = some y → y.reach < x.reach := by
  cases a with
  | none =>
    rw [join_none_left] at h
    exact .inl ⟨f, h, ⟨rfl, rfl⟩, nofun⟩
  | some x =>
    cases b with
    | none =>
      rw [join_none_right] at h
      exact .inr ⟨f, h, ⟨rfl, rfl⟩, nofun⟩
    | some y =>
      obtain rfl := Option.some.inj h
      rcases y.furthest_cases x with ⟨hf, hle⟩ | ⟨hf, hlt⟩
      · exact .inl ⟨y, rfl, hf, fun x' hx => Option.some.inj hx ▸ hle⟩
      · exact .inr ⟨x, rfl, hf, fun y' hy => Option.some.inj hy ▸ hlt⟩

end Failure

namespace Parser
variable {α β : Type}

/-- Read from `c`, the parser tells of a failure at the place `q` that got `r` characters far. -/
def Tells (p : Parser α) (c : Cursor) (q : Position) (r : Nat) : Prop :=
  ∃ f, (p c).failure? = some f ∧ f.span.start = q ∧ f.reach = r

theorem reply_cases (p : Parser α) (c : Cursor) :
    (∃ f, p c = .failure f ∧ result? p c = none) ∨
      ∃ a d met, p c = .success a d met ∧ result? p c = some (a, d) := by
  unfold result?
  cases hp : p c with
  | failure f => exact .inl ⟨f, rfl, rfl⟩
  | success a d met => exact .inr ⟨a, d, met, rfl, rfl⟩

theorem exists_success {p : Parser α} {c d : Cursor} {a : α} (h : result? p c = some (a, d)) :
    ∃ met, p c = .success a d met := by
  rcases p.reply_cases c with ⟨f, -, hr⟩ | ⟨a', d', met, hp, hr⟩
  · rw [hr] at h
    cases h
  · rw [hr] at h
    cases h
    exact ⟨met, hp⟩

theorem exists_failure {p : Parser α} {c : Cursor} (h : result? p c = none) :
    ∃ f, p c = .failure f := by
  rcases p.reply_cases c with ⟨f, hp, -⟩ | ⟨a, d, met, -, hr⟩
  · exact ⟨f, hp⟩
  · rw [hr] at h
    cases h

namespace Tells
variable {c : Cursor} {q : Position} {r : Nat} {p : Parser α} {f : α → Parser β}

theorem not_pure (a : α) : ¬ Tells (Pure.pure a : Parser α) c q r := by
  rintro ⟨f, h, -⟩
  cases h

theorem bind (h : Tells (p >>= f) c q r) :
    Tells p c q r ∨ ∃ a d, result? p c = some (a, d) ∧ Tells (f a) d q r := by
  obtain ⟨g, hg, rfl, rfl⟩ := h
  change (Parser.bind p f c).failure? = some g at hg
  unfold Parser.bind at hg
  rcases p.reply_cases c with ⟨e, hp, -⟩ | ⟨a, d, met, hp, hr⟩
  · rw [hp] at hg
    cases hg
    exact .inl ⟨g, by rw [hp]; rfl, rfl, rfl⟩
  rw [hp] at hg
  have first {x : Failure} (hx : met = some x) (hgx : g.Alike x) :
      Tells p c g.span.start g.reach :=
    ⟨x, by rw [hp]; exact hx, by rw [hgx.1], hgx.2.symm⟩
  have second {x : Failure} (hx : (f a d).failure? = some x) (hgx : g.Alike x) :
      ∃ a d, result? p c = some (a, d) ∧ Tells (f a) d g.span.start g.reach :=
    ⟨a, d, hr, x, hx, by rw [hgx.1], hgx.2.symm⟩
  dsimp only at hg
  cases hf : f a d with
  | failure e =>
    rw [hf] at hg second
    obtain rfl := Option.some.inj hg
    cases met with
    | none => exact .inr (second rfl ⟨rfl, rfl⟩)
    | some x =>
      rcases e.furthest_cases x with ⟨hx, -⟩ | ⟨hx, -⟩
      · exact .inr (second rfl hx)
      · exact .inl (first rfl hx)
  | success b d' met' =>
    rw [hf] at hg second
    rcases Failure.join_cases hg with ⟨y, hy, hgy, -⟩ | ⟨x, hx, hgx, -⟩
    · exact .inr (second hy hgy)
    · exact .inl (first hx hgx)

theorem map {g : α → β} (h : Tells (g <$> p) c q r) : Tells p c q r :=
  (bind h).elim id fun ⟨_, _, _, h⟩ => absurd h (not_pure _)

theorem seqLeft {p' : Parser β} (h : Tells (p <* p') c q r) :
    Tells p c q r ∨ ∃ a d, result? p c = some (a, d) ∧ Tells p' d q r :=
  (bind h).imp_right fun ⟨a, d, hp, h⟩ => ⟨a, d, hp, map (g := fun _ => a) h⟩

theorem seqRight {p' : Parser β} (h : Tells (p *> p') c q r) :
    Tells p c q r ∨ ∃ a d, result? p c = some (a, d) ∧ Tells p' d q r :=
  bind h

theorem fail (h : Tells (Parser.fail : Parser α) c q r) :
    q = c.position ∧ r = c.position.offset := by
  obtain ⟨f, hf, rfl, rfl⟩ := h
  cases hf
  refine ⟨?_, rfl⟩
  show c.nextSpan.start = _
  unfold Cursor.nextSpan
  split <;> rfl

theorem satisfy {test : Char → Bool} {expected : List Expectation}
    (h : Tells (Parser.satisfy test expected) c q r) :
    Stops test c.rest ∧ q = c.position ∧ r = c.position.offset := by
  obtain ⟨p, text⟩ := c
  obtain ⟨f, hf, rfl, rfl⟩ := h
  unfold Parser.satisfy at hf
  cases text with
  | nil =>
    cases hf
    exact ⟨stops_nil _, rfl, rfl⟩
  | cons x rest =>
    dsimp only at hf
    split at hf
    next => cases hf
    next hx =>
      cases hf
      exact ⟨stops_cons.2 (by simpa using hx), rfl, rfl⟩

theorem endOfInput (h : Tells Parser.endOfInput c q r) :
    c.rest ≠ [] ∧ q = c.position ∧ r = c.position.offset := by
  obtain ⟨p, text⟩ := c
  obtain ⟨f, hf, rfl, rfl⟩ := h
  cases text with
  | nil => cases hf
  | cons x rest =>
    cases hf
    exact ⟨List.cons_ne_nil _ _, rfl, rfl⟩

/-- What an alternative that failed has met is forgotten once another one succeeds. -/
theorem orElse {p p' : Parser α} (h : Tells (p <|> p') c q r) :
    Tells p c q r ∧ (result? p c = none → result? p' c = none) ∨
      result? p c = none ∧ Tells p' c q r := by
  obtain ⟨g, hg, rfl, rfl⟩ := h
  change (Parser.orElse p p' c).failure? = some g at hg
  unfold Parser.orElse at hg
  rcases p.reply_cases c with ⟨e, hp, hr⟩ | ⟨a, d, met, hp, hr⟩
  · rw [hp] at hg
    dsimp only at hg
    rcases p'.reply_cases c with ⟨e', hq, hr'⟩ | ⟨a, d, met, hq, -⟩
    · rw [hq] at hg
      obtain rfl := Option.some.inj hg
      rcases e.furthest_cases e' with ⟨hx, -⟩ | ⟨hx, -⟩
      · exact .inl ⟨⟨e, by rw [hp]; rfl, by rw [hx.1], hx.2.symm⟩, fun _ => hr'⟩
      · exact .inr ⟨hr, e', by rw [hq]; rfl, by rw [hx.1], hx.2.symm⟩
    · rw [hq] at hg
      exact .inr ⟨hr, g, by rw [hq]; exact hg, rfl, rfl⟩
  · rw [hp] at hg
    refine .inl ⟨⟨g, by rw [hp]; exact hg, rfl, rfl⟩, fun h => ?_⟩
    rw [hr] at h
    cases h

theorem choice {ps : List (Parser α)} (h : Tells (Parser.choice ps) c q r) :
    (∃ p ∈ ps, Tells p c q r ∧
      (result? p c = none ∨ result? p c = result? (Parser.choice ps) c)) ∨
        q = c.position ∧ r = c.position.offset := by
  suffices ∀ met, Tells (choiceAfter met ps) c q r →
      (∃ p ∈ ps, Tells p c q r ∧
        (result? p c = none ∨ result? p c = result? (Parser.choice ps) c)) ∨
          (∃ f ∈ met, f.span.start = q ∧ f.reach = r) ∨
            q = c.position ∧ r = c.position.offset by
    rcases this none h with h | ⟨f, hf, -⟩ | h
    · exact .inl h
    · cases hf
    · exact .inr h
  clear h
  induction ps with
  | nil =>
    rintro met ⟨f, hf, rfl, rfl⟩
    cases met with
    | none => exact .inr (.inr (Tells.fail (α := α) ⟨f, hf, rfl, rfl⟩))
    | some g =>
      cases hf
      exact .inr (.inl ⟨g, rfl, rfl, rfl⟩)
  | cons p ps ih =>
    rintro met ⟨f, hf, rfl, rfl⟩
    rw [choiceAfter] at hf
    rcases p.reply_cases c with ⟨e, hp, hr⟩ | ⟨a, d, met', hp, hr⟩
    · have hrest : result? (Parser.choice (p :: ps)) c = result? (Parser.choice ps) c := by
        rw [result?_choice, result?_choice, List.findSome?_cons, hr]
      rw [hp] at hf
      dsimp only at hf
      rcases ih _ ⟨f, hf, rfl, rfl⟩ with ⟨p', hp', h, hs⟩ | ⟨g, hg, hq, hr'⟩ | h
      · exact .inl ⟨p', .tail _ hp', h, hrest ▸ hs⟩
      · rw [← hq, ← hr']
        rcases Failure.join_cases hg with ⟨y, hy, hgy, -⟩ | ⟨x, hx, hgx, -⟩
        · cases hy
          exact .inl ⟨p, .head _, ⟨e, by rw [hp]; rfl, by rw [hgy.1], hgy.2.symm⟩, .inl hr⟩
        · exact .inr (.inl ⟨x, hx, by rw [hgx.1], hgx.2.symm⟩)
      · exact .inr (.inr h)
    · rw [hp] at hf
      refine .inl ⟨p, .head _, ⟨f, by rw [hp]; exact hf, rfl, rfl⟩, .inr ?_⟩
      rw [result?_choice, List.findSome?_cons, hr]

end Tells

inductive Steps (p : Parser α) : Cursor → List α → Cursor → Prop
  | refl {c : Cursor} : Steps p c [] c
  | step {c d e : Cursor} {a : α} {as : List α} (h : result? p c = some (a, d))
      (rest : Steps p d as e) : Steps p c (a :: as) e

theorem Run.steps {p : Parser α} {c d : Cursor} {as : List α} (h : Run p c as d) :
    Steps p c as d := by
  induction h with
  | stop _ => exact .refl
  | step h _ ih => exact .step h ih

theorem Steps.run {p : Parser α} {c d e : Cursor} {as bs : List α} (h : Steps p c as e)
    (hrun : Run p c bs d) : ∃ cs, Run p e cs d := by
  induction h generalizing bs with
  | refl => exact ⟨bs, hrun⟩
  | step h _ ih =>
    cases hrun with
    | stop hnone => simp [hnone] at h
    | step h' hrun =>
      cases h.symm.trans h'
      exact ih hrun

namespace Tells
variable {c : Cursor} {q : Position} {r : Nat} {p : Parser α}

theorem many (h : Tells (Parser.many p) c q r) : ∃ as d, Steps p c as d ∧ Tells p d q r := by
  suffices ∀ bound c as d met f, runWithin p bound c = (as, d, met) → met = some f →
      ∃ as d, Steps p c as d ∧ Tells p d f.span.start f.reach by
    obtain ⟨f, hf, rfl, rfl⟩ := h
    exact this _ _ _ _ _ _ rfl hf
  clear h
  intro bound
  induction bound with
  | nil =>
    intro c as d met f hrun hmet
    unfold runWithin at hrun
    refine ⟨[], c, .refl, f, ?_, rfl, rfl⟩
    cases hp : p c <;> rw [hp] at hrun <;> cases hrun <;> exact hmet
  | cons x bound ih =>
    intro c as d met f hrun hmet
    unfold runWithin at hrun
    rcases p.reply_cases c with ⟨e, hp, -⟩ | ⟨a, d', met', hp, hr⟩
    · rw [hp] at hrun
      cases hrun
      exact ⟨[], c, .refl, f, by rw [hp]; exact hmet, rfl, rfl⟩
    · rw [hp] at hrun
      cases hrun
      rcases Failure.join_cases hmet with ⟨y, hy, hfy, -⟩ | ⟨x, hx, hfx, -⟩
      · obtain ⟨as, e, hsteps, h⟩ := ih _ _ _ _ _ rfl hy
        exact ⟨a :: as, e, .step hr hsteps, by rwa [hfy.1, hfy.2]⟩
      · exact ⟨[], c, .refl, x, by rw [hp]; exact hx, by rw [hfx.1], hfx.2.symm⟩

theorem optional (h : Tells (Parser.optional p) c q r) : Tells p c q r := by
  obtain ⟨f, hf, rfl, rfl⟩ := h
  unfold Parser.optional at hf
  refine ⟨f, ?_, rfl, rfl⟩
  cases hp : p c <;> rw [hp] at hf <;> exact hf

theorem spanned (h : Tells (Parser.spanned p) c q r) : Tells p c q r := by
  obtain ⟨f, hf, rfl, rfl⟩ := h
  unfold Parser.spanned at hf
  refine ⟨f, ?_, rfl, rfl⟩
  cases hp : p c <;> rw [hp] at hf <;> exact hf

theorem filterMap {check : α → Except Reason β} (h : Tells (Parser.filterMap p check) c q r) :
    (Tells p c q r ∧ ∀ a d, result? p c = some (a, d) → ∃ b, check a = .ok b) ∨
      ∃ a d reason, result? p c = some (a, d) ∧ check a = .error reason ∧ q = c.position ∧
        r = d.position.offset := by
  obtain ⟨f, hf, rfl, rfl⟩ := h
  unfold Parser.filterMap at hf
  rcases p.reply_cases c with ⟨e, hp, hr⟩ | ⟨a, d, met, hp, hr⟩
  · rw [hp] at hf
    refine .inl ⟨⟨f, by rw [hp]; exact hf, rfl, rfl⟩, fun a d h => ?_⟩
    rw [hr] at h
    cases h
  · rw [hp] at hf
    dsimp only at hf
    cases hc : check a with
    | ok b =>
      rw [hc] at hf
      refine .inl ⟨⟨f, by rw [hp]; exact hf, rfl, rfl⟩, fun a' d' h => ?_⟩
      rw [hr] at h
      cases h
      exact ⟨b, hc⟩
    | error reason =>
      rw [hc] at hf
      cases hf
      exact .inr ⟨a, d, reason, hr, hc, rfl, rfl⟩

theorem about {name : String} (h : Tells (Parser.about name p) c q r) : Tells p c q r := by
  have hsame (f : Failure) : (f.about name).Alike f := by
    unfold Failure.about
    split <;> exact ⟨rfl, rfl⟩
  obtain ⟨f, hf, rfl, rfl⟩ := h
  unfold Parser.about at hf
  rcases p.reply_cases c with ⟨e, hp, -⟩ | ⟨a, d, met, hp, -⟩
  · rw [hp] at hf
    obtain rfl := Option.some.inj hf
    exact ⟨e, by rw [hp]; rfl, by rw [(hsame e).1], (hsame e).2.symm⟩
  · rw [hp] at hf
    obtain ⟨e, he, rfl⟩ := Option.map_eq_some_iff.1 hf
    exact ⟨e, by rw [hp]; exact he, by rw [(hsame e).1], (hsame e).2.symm⟩

end Tells

end Parser

def Reply.after {α : Type} (met : Option Failure) : Reply α → Reply α
  | .failure e => .failure (met.elim e e.furthest)
  | .success a d met' => .success a d (Failure.join met met')

namespace Parser
variable {α β : Type} {p : Parser α} {f : α → Parser β} {c d : Cursor} {a : α}
  {met : Option Failure}

theorem result?_of_success (h : p c = .success a d met) : result? p c = some (a, d) := by
  rw [result?, h]
  rfl

theorem result?_of_failure {e : Failure} (h : p c = .failure e) : result? p c = none := by
  rw [result?, h]
  rfl

theorem tells_of_failure {e : Failure} (h : p c = .failure e) : Tells p c e.span.start e.reach :=
  ⟨e, by rw [h]; rfl, rfl, rfl⟩

theorem tells_of_met {e : Failure} (h : p c = .success a d met) (he : e ∈ met) :
    Tells p c e.span.start e.reach :=
  ⟨e, by rw [h]; exact he, rfl, rfl⟩

theorem bind_failure {e : Failure} (h : p c = .failure e) : (p >>= f) c = .failure e := by
  change Parser.bind p f c = _
  rw [Parser.bind, h]

theorem bind_success (h : p c = .success a d met) : (p >>= f) c = (f a d).after met := by
  change Parser.bind p f c = _
  rw [Parser.bind, h]
  dsimp only
  cases f a d <;> rfl

theorem many_failure {e : Failure} (h : p c = .failure e) : many p c = .success [] c (some e) := by
  cases hc : c.rest <;> simp [many, runWithin, hc, h]

theorem many_success (hp : Consumes p) (h : p c = .success a d met) : ∃ as e met',
    many p d = .success as e met' ∧ many p c = .success (a :: as) e (Failure.join met met') := by
  have hlt := hp.lt h
  cases hc : c.rest with
  | nil =>
    rw [hc] at hlt
    exact absurd hlt (Nat.not_lt_zero _)
  | cons x rest =>
    rw [hc, List.length_cons] at hlt
    have hrun : runWithin p rest d = runWithin p d.rest d :=
      runWithin_eq hp (Nat.lt_succ_iff.1 hlt) (Nat.le_refl _)
    exact ⟨_, _, _, rfl, by simp [many, runWithin, hc, h, hrun]⟩

end Parser
end BuildScript
