import BuildScript.Proofs.Parse.Begins
import BuildScript.Proofs.Parse.Tracked

/-!
Two texts that begin alike, and a parser at the same place in both. As long as it has not looked at
what differs, it gives the same reply (`Fork.Alike`); each combinator keeps that up. A parser that
has looked tells of a failure behind the place where the texts part, or has read beyond it.
-/
namespace BuildScript
open BuildScript.Parser Lexeme

namespace Parser
variable {α β : Type} {p : Parser α} {c d : Cursor} {a : α}

structure Onward (p : Parser α) : Prop where
  forward : Forward p
  lies {c : Cursor} {q : Position} {r : Nat} (h : Tells p c q r) :
    c.position.offset ≤ q.offset ∧ q.offset ≤ r

theorem Tracks.onward (h : Tracks p) : Onward p :=
  ⟨h.forward, fun ht => (h.lies ht).le⟩

namespace Onward

theorem le (h : Onward p) (hp : result? p c = some (a, d)) :
    c.position.offset ≤ d.position.offset := by
  obtain ⟨w, hw⟩ := h.forward c a d hp
  rw [hw.offset_eq]
  exact Nat.le_add_right _ _

theorem bind {f : α → Parser β} (hp : Onward p) (hf : ∀ a, Onward (f a)) : Onward (p >>= f) where
  forward := hp.forward.bind fun a => (hf a).forward
  lies h := by
    rcases h.bind with h | ⟨a, d, ha, h⟩
    · exact hp.lies h
    · have := (hf a).lies h
      exact ⟨Nat.le_trans (hp.le ha) this.1, this.2⟩

theorem satisfy (test : Char → Bool) (expected : List Expectation) :
    Onward (Parser.satisfy test expected) where
  forward := .satisfy test expected
  lies h := by
    obtain ⟨-, rfl, rfl⟩ := h.satisfy
    exact ⟨Nat.le_refl _, Nat.le_refl _⟩

theorem orElse {p p' : Parser α} (hp : Onward p) (hp' : Onward p') : Onward (p <|> p') where
  forward := hp.forward.orElse hp'.forward
  lies h := h.orElse.elim (hp.lies ·.1) (hp'.lies ·.2)

theorem choice {ps : List (Parser α)} (h : ∀ p ∈ ps, Onward p) : Onward (Parser.choice ps) where
  forward := .choice fun p hp => (h p hp).forward
  lies ht := by
    rcases ht.choice with ⟨p, hp, ht, -⟩ | ⟨rfl, rfl⟩
    · exact (h p hp).lies ht
    · exact ⟨Nat.le_refl _, Nat.le_refl _⟩

theorem steps_le (hp : Onward p) {as : List α} (h : Steps p c as d) :
    c.position.offset ≤ d.position.offset := by
  induction h with
  | refl => exact Nat.le_refl _
  | step h _ ih => exact Nat.le_trans (hp.le h) ih

theorem many (hp : Onward p) : Onward (Parser.many p) where
  forward := hp.forward.many
  lies h := by
    obtain ⟨as, e, hsteps, h⟩ := h.many
    exact ⟨Nat.le_trans (hp.steps_le hsteps) (hp.lies h).1, (hp.lies h).2⟩

theorem about (hp : Onward p) (name : String) : Onward (Parser.about name p) where
  forward := hp.forward.about name
  lies h := hp.lies h.about

end Onward

structure Settles (p : Parser α) : Prop where
  le {c d : Cursor} {a : α} {q : Position} {r : Nat} (hr : result? p c = some (a, d))
    (ht : Tells p c q r) : r ≤ d.position.offset

namespace Settles

theorem pure (a : α) : Settles (Pure.pure a : Parser α) :=
  ⟨fun _ h => absurd h (Tells.not_pure a)⟩

theorem bind {f : α → Parser β} (hp : Settles p) (hf : ∀ a, Settles (f a))
    (hon : ∀ a, Onward (f a)) : Settles (p >>= f) where
  le hr ht := by
    rw [result?_bind] at hr
    obtain ⟨⟨a, e⟩, ha, hb⟩ := Option.bind_eq_some_iff.1 hr
    rcases ht.bind with ht | ⟨a', e', ha', ht⟩
    · exact Nat.le_trans (hp.le ha ht) ((hon a).le hb)
    · cases ha.symm.trans ha'
      exact (hf a).le hb ht

theorem about (hp : Settles p) (name : String) : Settles (Parser.about name p) where
  le hr ht := by
    rw [result?_about] at hr
    exact hp.le hr ht.about

theorem satisfy (test : Char → Bool) (expected : List Expectation) :
    Settles (Parser.satisfy test expected) where
  le hr ht := by
    rw [((Begins.satisfy test expected).shy ht.satisfy.1).1] at hr
    cases hr

theorem many_satisfy (test : Char → Bool) (expected : List Expectation) :
    Settles (Parser.many (Parser.satisfy test expected)) where
  le hr ht := by
    obtain ⟨ys, e, hys, hall, hstop, rfl, rfl⟩ := ht.many_satisfy
    cases hr.symm.trans (result?_many_satisfy.2 ⟨hall, hys, hstop⟩)
    exact Nat.le_refl _

end Settles
end Parser

/-- Two texts that begin alike. They may part behind a word: then a refusal of that word does not
look at what follows, and the word is none that is refused again by later operators. -/
structure Fork where
  before : List Char
  left : List Char
  right : List Char
  /-- Whether the texts part behind a word. -/
  word : Bool
  stops_left (h : word = true) : Stops isNameChar left
  stops_right (h : word = true) : Stops isNameChar right
  last (h : word = true) : ∃ x ∈ before.getLast?, isNameChar x = true
  unlike (h : word = true) : ∀ v k : List Char, before = v ++ k → Edges v k →
    k ∉ ["and".toList, "in".toList, "not".toList]

namespace Fork
variable (F : Fork) {α β : Type}

def place : Nat := F.before.length

def Shown (q : Position) (r : Nat) : Prop :=
  F.place < r ∨ r = F.place ∧ (F.word = true → q.offset = F.place)

inductive Meets : Cursor → Cursor → Prop
  | intro {v u : List Char} (h : F.before = v ++ u) (hu : u ≠ []) :
    Meets ⟨Position.start.after v, u ++ F.left⟩ ⟨Position.start.after v, u ++ F.right⟩

/-- The cursor stands in the left text before the texts part, and no word is torn there. -/
inductive Edge : Cursor → Prop
  | intro {v u : List Char} (h : F.before = v ++ u) (hu : u ≠ []) (he : Edges v u) :
    Edge ⟨Position.start.after v, u ++ F.left⟩

/-- The parser has read beyond the place where the texts part, or looked there. If it has gone back
before a word, `B` says where it stands. -/
def Seen (B : Cursor → Prop) : Reply α → Prop
  | .failure f => F.Shown f.span.start f.reach
  | .success _ d met => F.place ≤ d.position.offset ∨
    (∃ f ∈ met, F.Shown f.span.start f.reach) ∧ (F.word = true → B d)

def Agrees : Reply α → Reply α → Prop
  | .failure _, .failure _ => True
  | .success a d _, .success a' d' _ => a = a' ∧ F.Meets d d'
  | _, _ => False

/-- Either the parser has looked at what differs, or its replies agree. -/
def Alike (B : Cursor → Prop) (reply reply' : Reply α) : Prop :=
  F.Seen B reply ∨ F.Agrees reply reply'

/-- From `c` on, no word is refused at the place where the texts part, and successes before that
place are as `B` says. -/
def Quiet (B : Cursor → Prop) (p : Parser α) (c : Cursor) : Prop :=
  (∀ {q}, Tells p c q F.place → F.place ≤ q.offset) ∧
    ∀ {a d}, result? p c = some (a, d) → d.position.offset < F.place → B d

variable {F} {c c' d d' : Cursor} {B B' : Cursor → Prop}

theorem offset_start_after (v : List Char) : (Position.start.after v).offset = v.length := by
  rw [Position.offset_after]
  exact Nat.zero_add _

theorem Shown.le {q : Position} {r : Nat} (h : F.Shown q r) : F.place ≤ r :=
  h.elim Nat.le_of_lt fun h => Nat.le_of_eq h.1.symm

theorem shown_of_le {q : Position} {r : Nat} (hq : F.place ≤ q.offset) (hr : q.offset ≤ r) :
    F.Shown q r := by
  rcases Nat.lt_or_eq_of_le (Nat.le_trans hq hr) with h | h
  · exact .inl h
  · exact .inr ⟨h.symm, fun _ => by omega⟩

theorem shown_of_not_word (hw : F.word = false) {q : Position} {r : Nat} (h : F.place ≤ r) :
    F.Shown q r := by
  rcases Nat.lt_or_eq_of_le h with h | h
  · exact .inl h
  · exact .inr ⟨h.symm, fun hw' => absurd hw' (by simp [hw])⟩

theorem Shown.alike {f g : Failure} (h : F.Shown g.span.start g.reach) (hf : f.Alike g) :
    F.Shown f.span.start f.reach := by
  rw [hf.1, hf.2]
  exact h

theorem Shown.furthest {e : Failure} (h : F.Shown e.span.start e.reach) (x : Failure) :
    F.Shown (e.furthest x).span.start (e.furthest x).reach := by
  rcases e.furthest_cases x with ⟨hx, -⟩ | ⟨hx, hlt⟩
  · exact h.alike hx
  · exact .inl (hx.2 ▸ Nat.lt_of_le_of_lt h.le hlt)

theorem Shown.furthest_right {e x : Failure} (h : F.Shown x.span.start x.reach)
    (he : F.word = true → e.reach = F.place → F.place ≤ e.span.start.offset)
    (hle : e.span.start.offset ≤ e.reach) :
    F.Shown (e.furthest x).span.start (e.furthest x).reach := by
  rcases e.furthest_cases x with ⟨hx, hr⟩ | ⟨hx, -⟩
  · refine Shown.alike (g := e) ?_ hx
    rcases Nat.lt_or_eq_of_le (Nat.le_trans h.le hr) with hlt | heq
    · exact .inl hlt
    · exact .inr ⟨heq.symm, fun hw => by have := he hw heq.symm; omega⟩
  · exact h.alike hx

theorem last_of_append (hw : F.word = true) {v u : List Char} (h : F.before = v ++ u)
    (hu : u ≠ []) : ∃ x ∈ u.getLast?, isNameChar x = true := by
  obtain ⟨x, hx, hname⟩ := F.last hw
  rw [h, List.getLast?_append_of_ne_nil _ hu] at hx
  exact ⟨x, hx, hname⟩

theorem Meets.lt (h : F.Meets c c') : c.position.offset < F.place := by
  obtain ⟨hb, hu⟩ := h
  have := List.length_pos_iff.2 hu
  rw [place, hb, List.length_append, offset_start_after]
  omega

theorem Edge.meets (h : F.Edge c) : ∃ c', F.Meets c c' := by
  obtain ⟨hb, hu, -⟩ := h
  exact ⟨_, .intro hb hu⟩

theorem Edge.lt (h : F.Edge c) : c.position.offset < F.place :=
  h.meets.elim fun _ h => h.lt

/-- A word that ends before the texts part is read in both. -/
theorem Meets.passes {w : List Char} (h : F.Meets c c') (hw : c.Passes w d)
    (hd : d.position.offset < F.place) : ∃ d', c'.Passes w d' ∧ F.Meets d d' := by
  obtain @⟨v, u, hb, hu⟩ := h
  have hoffset := hw.offset_eq
  have hrest : u ++ F.left = w ++ d.rest := hw.1
  rw [offset_start_after] at hoffset
  rw [place, hb, List.length_append] at hd
  obtain ⟨t, rfl, hleft⟩ | ⟨t, rfl, hleft⟩ := List.append_eq_append_iff.1 hrest
  · rw [List.length_append] at hoffset
    omega
  · rw [List.length_append] at hd
    have ht : t ≠ [] := by
      rintro rfl
      rw [List.length_nil] at hd
      omega
    have hb' : F.before = (v ++ w) ++ t := by rw [hb, List.append_assoc]
    refine ⟨⟨Position.start.after (v ++ w), t ++ F.right⟩,
      ⟨List.append_assoc .., Position.after_append ..⟩, ?_⟩
    have hd' : d = ⟨Position.start.after (v ++ w), t ++ F.left⟩ := by
      rw [hw.right_eq, hleft, Position.after_append]
    exact hd' ▸ .intro hb' ht

theorem Edge.passes {w : List Char} (h : F.Edge c) (hw : c.Passes w d) (he : Edges w d.rest)
    (hd : d.position.offset < F.place) : F.Edge d := by
  obtain ⟨c', hmeets⟩ := h.meets
  obtain ⟨_, -, hmeets'⟩ := hmeets.passes hw hd
  obtain @⟨v, u, hb, hu, hv⟩ := h
  obtain @⟨v', u', hb', hu'⟩ := hmeets'
  have hrest : u = w ++ u' := List.append_cancel_right (hw.1.trans (List.append_assoc ..).symm)
  have hv' : v' = v ++ w :=
    List.append_cancel_right ((hb'.symm.trans hb).trans (by rw [hrest, List.append_assoc]))
  have heads : Edges w u' := fun x hx hname y hy =>
    he x hx hname y (by cases u' with
      | nil => exact absurd rfl hu'
      | cons z u' => exact hy)
  exact .intro hb' hu' (hv' ▸ hv.append hrest heads)

theorem Seen.after {reply : Reply α} (h : F.Seen B reply) (met : Option Failure) :
    F.Seen B (reply.after met) := by
  cases reply with
  | failure e =>
    cases met with
    | none => exact h
    | some x => exact Shown.furthest h x
  | success a d met' =>
    rcases h with h | ⟨⟨y, hy, h⟩, hB⟩
    · exact .inl h
    · refine .inr ⟨?_, hB⟩
      obtain rfl : met' = some y := hy
      cases met with
      | none => exact ⟨y, rfl, h⟩
      | some x => exact ⟨y.furthest x, rfl, h.furthest x⟩

theorem Seen.after_shown {p : Parser α} {x : Failure} (hp : Onward p)
    (hx : F.Shown x.span.start x.reach) (hquiet : F.word = true → F.Quiet B p d) :
    F.Seen B ((p d).after (some x)) := by
  cases h : p d with
  | failure e =>
    have ht := tells_of_failure h
    exact hx.furthest_right (fun hw he => (hquiet hw).1 (he ▸ ht)) (hp.lies ht).2
  | success a e met =>
    by_cases hplace : F.place ≤ e.position.offset
    · exact .inl hplace
    have hB (hw : F.word = true) : B e := (hquiet hw).2 (result?_of_success h) (by omega)
    cases met with
    | none => exact .inr ⟨⟨x, rfl, hx⟩, hB⟩
    | some y =>
      have ht := tells_of_met h (rfl : y ∈ some y)
      exact .inr ⟨⟨_, rfl, hx.furthest_right (fun hw he => (hquiet hw).1 (he ▸ ht))
        (hp.lies ht).2⟩, hB⟩

theorem Seen.of_le {p : Parser α} (hp : Onward p) (h : F.place ≤ d.position.offset) :
    F.Seen B (p d) := by
  cases hd : p d with
  | failure e =>
    have := hp.lies (tells_of_failure hd)
    exact shown_of_le (Nat.le_trans h this.1) this.2
  | success a e met => exact .inl (Nat.le_trans h (hp.le (result?_of_success hd)))

theorem Agrees.after {reply reply' : Reply α} (h : F.Agrees reply reply') (met met') :
    F.Agrees (reply.after met) (reply'.after met') := by
  cases reply <;> cases reply' <;> exact h

theorem Alike.mono {reply reply' : Reply α} (h : F.Alike B reply reply')
    (hB : ∀ d, B d → B' d) : F.Alike B' reply reply' := by
  refine h.imp_left fun h => ?_
  cases reply with
  | failure e => exact h
  | success a d met => exact h.imp_right fun h => ⟨h.1, fun hw => hB d (h.2 hw)⟩

theorem Alike.bind {p p' : Parser α} {f f' : α → Parser β} (hp : F.Alike B (p c) (p' c'))
    (hf : ∀ {a d d'}, result? p c = some (a, d) → F.Meets d d' → F.Alike B' (f a d) (f' a d'))
    (hon : ∀ a, Onward (f a))
    (hquiet : F.word = true → ∀ {a d}, result? p c = some (a, d) →
      d.position.offset < F.place → B d → F.Quiet B' (f a) d) :
    F.Alike B' ((p >>= f) c) ((p' >>= f') c') := by
  cases hpc : p c with
  | failure e =>
    rw [bind_failure hpc]
    rw [hpc] at hp
    refine hp.imp id fun hp => ?_
    cases hpc' : p' c' with
    | failure e' =>
      rw [bind_failure hpc']
      trivial
    | success => exact (hpc' ▸ hp : F.Agrees (.failure e) (.success ..)).elim
  | success a d met =>
    have hr := result?_of_success hpc
    rw [bind_success hpc]
    rw [hpc] at hp
    rcases hp with (hplace | ⟨⟨x, hx, hshown⟩, hB⟩) | hp
    · exact .inl ((Seen.of_le (hon a) hplace).after met)
    · obtain rfl : met = some x := hx
      by_cases hplace : F.place ≤ d.position.offset
      · exact .inl ((Seen.of_le (hon a) hplace).after _)
      · exact .inl (Seen.after_shown (hon a) hshown fun hw => hquiet hw hr (by omega) (hB hw))
    · cases hpc' : p' c' with
      | failure e' => exact (hpc' ▸ hp : F.Agrees (.success ..) (.failure e')).elim
      | success a' d' met' =>
        obtain ⟨rfl, hmeets⟩ := (hpc' ▸ hp : F.Agrees (.success ..) (.success a' d' met'))
        rw [bind_success hpc']
        exact (hf hr hmeets).imp (·.after met) (·.after met met')

theorem Alike.map {p p' : Parser α} (hp : F.Alike B (p c) (p' c')) (g : α → β) :
    F.Alike B ((g <$> p) c) ((g <$> p') c') := by
  refine Alike.bind hp (fun _ h => .inr ⟨rfl, h⟩) (fun a => (Tracks.pure (g a)).onward) ?_
  intro _ a d _ _ hB
  refine ⟨fun h => absurd h (Tells.not_pure _), fun h _ => ?_⟩
  cases h
  exact hB

theorem Alike.many {p p' : Parser α} (hc : Consumes p) (hc' : Consumes p') (hon : Onward p)
    {E : Cursor → Prop} (hE : ∀ {c a d}, E c → result? p c = some (a, d) →
      d.position.offset < F.place → E d)
    (hp : ∀ {c c'}, E c → F.Meets c c' → F.Alike B (p c) (p' c'))
    (hquiet : F.word = true → ∀ {c a d}, E c → result? p c = some (a, d) →
      d.position.offset < F.place → B d → F.Quiet B' (Parser.many p) d)
    (hstop : F.word = true → ∀ {c e}, E c → p c = .failure e → c.position.offset < F.place →
      F.Shown e.span.start e.reach → B' c) (hce : E c) (hmeets : F.Meets c c') :
    F.Alike B' (Parser.many p c) (Parser.many p' c') := by
  have honmany := hon.many
  suffices ∀ n c c', c.rest.length ≤ n → E c → F.Meets c c' →
      F.Alike B' (Parser.many p c) (Parser.many p' c') from
    this _ c c' (Nat.le_refl _) hce hmeets
  intro n
  induction n with
  | zero =>
    rintro _ _ hn - @⟨v, u, -, hu⟩
    have := List.length_pos_iff.2 hu
    simp only [List.length_append] at hn
    omega
  | succ n ih =>
    intro c c' hn hce hmeets
    have hpc := hp hce hmeets
    cases h : p c with
    | failure e =>
      rw [many_failure h]
      rw [h] at hpc
      rcases hpc with hpc | hpc
      · exact .inl (.inr ⟨⟨e, rfl, hpc⟩, fun hw => hstop hw hce h hmeets.lt hpc⟩)
      · cases h' : p' c' with
        | failure e' =>
          rw [many_failure h']
          exact .inr ⟨rfl, hmeets⟩
        | success => exact (h' ▸ hpc : F.Agrees (.failure e) (.success ..)).elim
    | success a d met =>
      have hr := result?_of_success h
      have hlt := hc.lt h
      obtain ⟨as, e, met₁, hmany, heq⟩ := many_success hc h
      rw [h] at hpc
      -- The rest of the repetition, behind what this step has met.
      have hafter : F.Seen B' ((Parser.many p d).after met) → F.Seen B' (Parser.many p c) := by
        rw [hmany, heq]
        exact id
      rcases hpc with (hplace | ⟨⟨x, hx, hshown⟩, hB⟩) | hpc
      · exact .inl (hafter ((Seen.of_le honmany hplace).after met))
      · obtain rfl : met = some x := hx
        by_cases hplace : F.place ≤ d.position.offset
        · exact .inl (hafter ((Seen.of_le honmany hplace).after _))
        · exact .inl (hafter (Seen.after_shown honmany hshown fun hw =>
            hquiet hw hce hr (by omega) (hB hw)))
      · cases h' : p' c' with
        | failure e' => exact (h' ▸ hpc : F.Agrees (.success ..) (.failure e')).elim
        | success a' d' met' =>
          obtain ⟨rfl, hmeets'⟩ := (h' ▸ hpc : F.Agrees (.success ..) (.success a' d' met'))
          obtain ⟨as', e', met₂, hmany', heq'⟩ := many_success hc' h'
          rcases ih d d' (by omega) (hE hce hr hmeets'.lt) hmeets' with hih | hih
          · exact .inl (hafter (hih.after met))
          · rw [hmany, hmany'] at hih
            rw [heq, heq']
            exact .inr ⟨congrArg _ hih.1, hih.2⟩

theorem Alike.optional {p p' : Parser α} (hmeets : F.Meets c c')
    (hp : F.Alike B (p c) (p' c'))
    (hstop : F.word = true → ∀ {e}, p c = .failure e → F.Shown e.span.start e.reach → B c) :
    F.Alike B (Parser.optional p c) (Parser.optional p' c') := by
  unfold Parser.optional
  cases h : p c with
  | failure e =>
    rw [h] at hp
    rcases hp with hp | hp
    · exact .inl (.inr ⟨⟨e, rfl, hp⟩, fun hw => hstop hw h hp⟩)
    · cases h' : p' c' with
      | failure e' => exact .inr ⟨rfl, hmeets⟩
      | success => exact (h' ▸ hp : F.Agrees (.failure e) (.success ..)).elim
  | success a d met =>
    rw [h] at hp
    rcases hp with hp | hp
    · exact .inl hp
    · cases h' : p' c' with
      | failure e' => exact (h' ▸ hp : F.Agrees (.success ..) (.failure e')).elim
      | success a' d' met' =>
        obtain ⟨rfl, hmeets'⟩ := (h' ▸ hp : F.Agrees (.success ..) (.success a' d' met'))
        exact .inr ⟨rfl, hmeets'⟩

theorem Meets.position (h : F.Meets c c') : c'.position = c.position := by
  cases h
  rfl

theorem Alike.spanned {p p' : Parser α} (hmeets : F.Meets c c')
    (hp : F.Alike B (p c) (p' c')) :
    F.Alike B (Parser.spanned p c) (Parser.spanned p' c') := by
  unfold Parser.spanned
  cases h : p c with
  | failure e =>
    rw [h] at hp
    refine hp.imp id fun hp => ?_
    cases h' : p' c' with
    | failure e' => trivial
    | success => exact (h' ▸ hp : F.Agrees (.failure e) (.success ..)).elim
  | success a d met =>
    rw [h] at hp
    refine hp.imp id fun hp => ?_
    cases h' : p' c' with
    | failure e' => exact (h' ▸ hp : F.Agrees (.success ..) (.failure e')).elim
    | success a' d' met' =>
      obtain ⟨rfl, hmeets'⟩ := (h' ▸ hp : F.Agrees (.success ..) (.success a' d' met'))
      refine ⟨?_, hmeets'⟩
      rw [Cursor.span, Cursor.span, hmeets.position, hmeets'.position]

theorem Alike.about {p p' : Parser α} (hp : F.Alike B (p c) (p' c')) (name : String) :
    F.Alike B (Parser.about name p c) (Parser.about name p' c') := by
  have hsame (f : Failure) : (f.about name).Alike f := by
    unfold Failure.about
    split <;> exact ⟨rfl, rfl⟩
  unfold Parser.about
  cases h : p c with
  | failure e =>
    rw [h] at hp
    rcases hp with hp | hp
    · exact .inl (Shown.alike (g := e) hp (hsame e))
    · cases h' : p' c' with
      | failure e' => exact .inr trivial
      | success => exact (h' ▸ hp : F.Agrees (.failure e) (.success ..)).elim
  | success a d met =>
    rw [h] at hp
    rcases hp with (hp | ⟨⟨x, hx, hshown⟩, hB⟩) | hp
    · exact .inl (.inl hp)
    · obtain rfl : met = some x := hx
      exact .inl (.inr ⟨⟨_, rfl, hshown.alike (hsame x)⟩, hB⟩)
    · cases h' : p' c' with
      | failure e' => exact (h' ▸ hp : F.Agrees (.success ..) (.failure e')).elim
      | success a' d' met' => exact .inr (h' ▸ hp : F.Agrees (.success ..) (.success a' d' met'))

/-- Of two alternatives the first one that fails must not have looked further than the second one
if that succeeds, and the second one must not be led by a refusal. -/
theorem Alike.orElse {p q p' q' : Parser α} (hp : F.Alike B (p c) (p' c'))
    (hq : F.Alike B (q c) (q' c'))
    (hfirst : ∀ {e}, p c = .failure e → F.Shown e.span.start e.reach →
      F.Seen B (q c) ∨ ∃ e', q c = .failure e')
    (hsecond : ∀ {e e'}, p c = .failure e → q c = .failure e' →
      F.Shown e'.span.start e'.reach → F.Shown e.span.start e.reach ∨ e.reach < e'.reach) :
    F.Alike B ((p <|> q) c) ((p' <|> q') c') := by
  change F.Alike B (Parser.orElse p q c) (Parser.orElse p' q' c')
  unfold Parser.orElse
  cases h : p c with
  | success a d met =>
    rw [h] at hp
    refine hp.imp id fun hp => ?_
    cases h' : p' c' with
    | failure e' => exact (h' ▸ hp : F.Agrees (.success ..) (.failure e')).elim
    | success a' d' met' => exact (h' ▸ hp : F.Agrees (.success ..) (.success a' d' met'))
  | failure e =>
    rw [h] at hp
    -- A failure that was shown stays so, whatever the second alternative does.
    rcases hp with hp | hp
    · rcases hfirst h hp with hseen | ⟨e', hqc⟩
      · cases hqc : q c with
        | success a d met =>
          rw [hqc] at hseen
          exact .inl hseen
        | failure e' => exact .inl (Shown.furthest hp e')
      · rw [hqc]
        exact .inl (Shown.furthest hp e')
    · cases hqc : q c with
      | success a d met =>
        rw [hqc] at hq
        refine hq.imp id fun hq => ?_
        cases h' : p' c' with
        | success => exact (h' ▸ hp : F.Agrees (.failure e) (.success ..)).elim
        | failure e₁ =>
          cases hqc' : q' c' with
          | failure e' => exact (hqc' ▸ hq : F.Agrees (.success ..) (.failure e')).elim
          | success a' d' met' => exact (hqc' ▸ hq : F.Agrees (.success ..) (.success a' d' met'))
      | failure e' =>
        rw [hqc] at hq
        rcases hq with hq | hq
        · left
          rcases hsecond h hqc hq with hshown | hlt
          · exact Shown.furthest hshown e'
          · rcases e.furthest_cases e' with ⟨-, hle⟩ | ⟨hx, -⟩
            · omega
            · exact Shown.alike (g := e') hq hx
        · right
          cases h' : p' c' with
          | success => exact (h' ▸ hp : F.Agrees (.failure e) (.success ..)).elim
          | failure e₁ =>
            cases hqc' : q' c' with
            | failure e₂ => trivial
            | success => exact (hqc' ▸ hq : F.Agrees (.failure e') (.success ..)).elim

theorem Alike.orElse_of_shy {p q p' q' : Parser α} (hmeets : F.Meets c c')
    (hp : F.Alike B (p c) (p' c')) (hq : F.Alike B (q c) (q' c')) (hshy : Shy p c ∨ Shy q c) :
    F.Alike B ((p <|> q) c) ((p' <|> q') c') := by
  have hlt := hmeets.lt
  refine hp.orElse hq (fun h hshown => ?_) fun h h' hshown => ?_
  · rcases hshy with hshy | hshy
    · have := (hshy.2 (tells_of_failure h)).2
      have := hshown.le
      omega
    · obtain ⟨e', he'⟩ := exists_failure hshy.1
      exact .inr ⟨e', he'⟩
  · rcases hshy with hshy | hshy
    · have := (hshy.2 (tells_of_failure h)).2
      have := hshown.le
      omega
    · have := (hshy.2 (tells_of_failure h')).2
      have := hshown.le
      omega

theorem seen_choiceAfter {ps : List (Parser α)} {x : Failure}
    (hlt : c.position.offset < F.place) (hx : F.Shown x.span.start x.reach)
    (hshy : ∀ p ∈ ps, Shy p c) : F.Seen B (choiceAfter (some x) ps c) := by
  induction ps generalizing x with
  | nil => exact hx
  | cons p ps ih =>
    obtain ⟨hp, hps⟩ := List.forall_mem_cons.1 hshy
    obtain ⟨e, he⟩ := exists_failure hp.1
    rw [choiceAfter, he]
    refine ih ?_ hps
    rcases e.furthest_cases x with ⟨-, hle⟩ | ⟨hf, -⟩
    · have := (hp.2 (tells_of_failure he)).2
      have := hx.le
      omega
    · exact hx.alike hf

theorem Alike.choice {ps ps' : List (Parser α)} (hmeets : F.Meets c c')
    (hps : List.Forall₂ (fun p p' => F.Alike B (p c) (p' c')) ps ps')
    (hshy : ps.Pairwise fun p q => Shy p c ∨ Shy q c) :
    F.Alike B (Parser.choice ps c) (Parser.choice ps' c') := by
  have hlt := hmeets.lt
  suffices ∀ met met' : Option Failure,
      (∀ x ∈ met, F.Shown x.span.start x.reach → ∀ p ∈ ps, Shy p c) →
        F.Alike B (choiceAfter met ps c) (choiceAfter met' ps' c') from this none none nofun
  induction hps with
  | nil => exact fun _ _ _ => .inr trivial
  | @cons p p' ps ps' hp _ ih =>
    intro met met' hmet
    obtain ⟨hfirst, hshy⟩ := List.pairwise_cons.1 hshy
    -- If `p` has shown something it has read something, so all others are shy.
    have others {e : Failure} (h : p c = .failure e) (hshown : F.Shown e.span.start e.reach) :
        ∀ q ∈ ps, Shy q c := by
      intro q hq
      refine (hfirst q hq).resolve_left fun hshy => ?_
      have := (hshy.2 (tells_of_failure h)).2
      have := hshown.le
      omega
    cases h : p c with
    | success a d met₁ =>
      rw [choiceAfter, h]
      rw [h] at hp
      refine hp.imp id fun hp => ?_
      cases h' : p' c' with
      | failure e' => exact (h' ▸ hp : F.Agrees (.success ..) (.failure e')).elim
      | success a' d' met₂ =>
        rw [choiceAfter, h']
        exact (h' ▸ hp : F.Agrees (.success ..) (.success a' d' met₂))
    | failure e =>
      rw [choiceAfter, h]
      rw [h] at hp
      rcases hp with hp | hp
      · left
        have hrest := others h hp
        cases met with
        | none => exact seen_choiceAfter hlt hp hrest
        | some x => exact seen_choiceAfter hlt (Shown.furthest hp x) hrest
      · cases h' : p' c' with
        | success => exact (h' ▸ hp : F.Agrees (.failure e) (.success ..)).elim
        | failure e' =>
          rw [choiceAfter, h']
          refine ih hshy _ _ fun x hx hshown => ?_
          rcases Failure.join_cases hx with ⟨y, hy, hxy, -⟩ | ⟨y, hy, hxy, -⟩
          · cases hy
            exact others h (Shown.alike hshown ⟨hxy.1.symm, hxy.2.symm⟩)
          · exact fun q hq => hmet y hy (Shown.alike hshown ⟨hxy.1.symm, hxy.2.symm⟩) q (.tail _ hq)

theorem Alike.satisfy (hmeets : F.Meets c c') (test : Char → Bool) (expected : List Expectation) :
    F.Alike B (Parser.satisfy test expected c) (Parser.satisfy test expected c') := by
  obtain @⟨v, u, hb, hu⟩ := hmeets
  cases u with
  | nil => exact absurd rfl hu
  | cons x u =>
    unfold Parser.satisfy
    dsimp only [List.cons_append]
    split
    next =>
      have hb' : F.before = (v ++ [x]) ++ u := by simp [hb]
      by_cases hu' : u = []
      · subst hu'
        refine .inl (.inl (Nat.le_of_eq ?_))
        rw [place, hb, Position.offset_next, offset_start_after, List.length_append]
        rfl
      · refine .inr ⟨rfl, ?_⟩
        have := Meets.intro (F := F) hb' hu'
        rwa [Position.after_append] at this
    next => exact .inr trivial

theorem Alike.endOfInput (hmeets : F.Meets c c') :
    F.Alike B (Parser.endOfInput c) (Parser.endOfInput c') := by
  obtain @⟨v, u, hb, hu⟩ := hmeets
  cases u with
  | nil => exact absurd rfl hu
  | cons x u => exact .inr trivial

theorem Meets.last (h : F.Meets c c') (hw : F.word = true)
    (hc : F.place ≤ c.position.offset + 1) : ∀ x ∈ c.rest.head?, isNameChar x = true := by
  obtain @⟨v, u, hb, hu⟩ := h
  obtain ⟨y, hy, hname⟩ := last_of_append hw hb hu
  rw [place, hb, List.length_append, offset_start_after] at hc
  obtain ⟨x, rfl⟩ : ∃ x, u = [x] := by
    refine List.length_eq_one_iff.1 ?_
    have := List.length_pos_iff.2 hu
    omega
  obtain rfl : x = y := by simpa using hy
  simpa using hname

theorem Meets.rest (h : F.Meets c c') : ∃ u, u ≠ [] ∧ c.rest = u ++ F.left ∧
    c'.rest = u ++ F.right ∧ c.position.offset + u.length = F.place := by
  obtain @⟨v, u, hb, hu⟩ := h
  refine ⟨u, hu, rfl, rfl, ?_⟩
  rw [offset_start_after, place, hb, List.length_append]

theorem Meets.stops (h : F.Meets c c') {test : Char → Bool} :
    Stops test c.rest ↔ Stops test c'.rest := by
  obtain ⟨u, hu, hleft, hright, -⟩ := h.rest
  rw [hleft, hright]
  cases u with
  | nil => exact absurd rfl hu
  | cons x u => rw [List.cons_append, List.cons_append, stops_cons, stops_cons]

theorem isNameChar_of_mem {w : String} (hw : isWord w = true) :
    ∀ x ∈ w.toList, isNameChar x = true := by
  obtain ⟨x, xs, hx, hstart, hall⟩ := isWord_iff.1 hw
  rw [hx]
  exact List.forall_mem_cons.2 ⟨isNameChar_of_start hstart, hall⟩

theorem word_append {w v rest : List Char} (hrest : Stops isNameChar rest)
    (hw : ∀ x ∈ w, isNameChar x = true) {u : List Char} (h : w = u ++ v)
    (hv : rest = v ++ d.rest) : v = [] := by
  cases v with
  | nil => rfl
  | cons x v =>
    have hx := hw x (by simp [h])
    rw [hv, List.cons_append, stops_cons, hx] at hrest
    cases hrest

/-- Where the texts part behind a word, no word reaches beyond it. -/
theorem Meets.word_le (h : F.Meets c c') (hw : F.word = true) {w : String}
    (hr : result? Lexeme.word c = some (w, d)) : d.position.offset ≤ F.place := by
  obtain ⟨hword, hpass, -⟩ := result?_word.1 hr
  obtain ⟨u, -, hleft, -, hplace⟩ := h.rest
  rw [hpass.offset_eq, ← hplace]
  rcases List.append_eq_append_iff.1 (hleft.symm.trans hpass.1) with
    ⟨v, hv, hrest⟩ | ⟨v, rfl, -⟩
  · obtain rfl := word_append (F.stops_left hw) (isNameChar_of_mem hword) hv hrest
    simp [hv]
  · simp

theorem Meets.word (h : F.Meets c c') {w : String} (hr : result? Lexeme.word c = some (w, d))
    (hd : F.word = true ∨ d.position.offset < F.place) :
    ∃ d', result? Lexeme.word c' = some (w, d') ∧
      (d.position.offset < F.place → F.Meets d d') := by
  obtain ⟨hw, hpass, hstop⟩ := result?_word.1 hr
  by_cases hlt : d.position.offset < F.place
  · obtain ⟨d', hpass', hmeets⟩ := h.passes hpass hlt
    exact ⟨d', result?_word.2 ⟨hw, hpass', hmeets.stops.1 hstop⟩, fun _ => hmeets⟩
  · have hword := hd.resolve_right hlt
    obtain ⟨u, -, hleft, hright, hplace⟩ := h.rest
    have hoffset := hpass.offset_eq
    rcases List.append_eq_append_iff.1 (hleft.symm.trans hpass.1) with
      ⟨v, hv, hrest⟩ | ⟨v, rfl, hrest⟩
    · obtain rfl := word_append (F.stops_left hword) (isNameChar_of_mem hw) hv hrest
      rw [List.append_nil] at hv
      have hpass' : c'.Passes w.toList ⟨c'.position.after w.toList, F.right⟩ :=
        ⟨hv ▸ hright, rfl⟩
      exact ⟨_, result?_word.2 ⟨hw, hpass', F.stops_right hword⟩, fun h => absurd h hlt⟩
    · rw [List.length_append] at hplace
      have hv : v = [] := List.eq_nil_of_length_eq_zero (by omega)
      subst hv
      have hpass' : c'.Passes w.toList ⟨c'.position.after w.toList, F.right⟩ :=
        ⟨by simpa using hright, rfl⟩
      exact ⟨_, result?_word.2 ⟨hw, hpass', F.stops_right hword⟩, fun h => absurd h hlt⟩

theorem Alike.checked (hmeets : F.Meets c c') (check : String → Except Reason β) :
    F.Alike B (filterMap Lexeme.word check c) (filterMap Lexeme.word check c') := by
  unfold filterMap
  rcases Lexeme.word.reply_cases c with ⟨e, he, hr⟩ | ⟨w, d, met, hwc, hr⟩
  · have ht := tells_of_failure he
    have hstop : Stops isNameStart c.rest := by
      rcases tells_run ht with ⟨-, ⟨-, hstop⟩ | ⟨t, d, hd, -⟩⟩
      · exact hstop
      · exact absurd (show result? Lexeme.word c = some (t, d) from hd) (by simp [hr])
    obtain ⟨e', he'⟩ := exists_failure (result?_word_of_stops (hmeets.stops.1 hstop))
    rw [he, he']
    exact .inr trivial
  rw [hwc]
  dsimp only
  by_cases hplace : F.word = true ∨ d.position.offset < F.place
  · obtain ⟨d', hr', hmeets'⟩ := hmeets.word hr hplace
    obtain ⟨met', hwc'⟩ := exists_success hr'
    rw [hwc']
    dsimp only
    cases check w with
    | error reason => exact .inr trivial
    | ok b =>
      by_cases hlt : d.position.offset < F.place
      · exact .inr ⟨rfl, hmeets' hlt⟩
      · exact .inl (.inl (Nat.le_of_not_lt hlt))
  · rw [not_or, Bool.not_eq_true] at hplace
    left
    cases check w with
    | ok b => exact .inl (Nat.le_of_not_lt hplace.2)
    | error reason => exact shown_of_not_word hplace.1 (Nat.le_of_not_lt hplace.2)

variable (F) in
/-- A parser that is led by no refusal, so whatever it has met may be shown. -/
structure Plain (p : Parser α) : Prop where
  onward : Onward p
  char {c : Cursor} {q : Position} {r : Nat} (h : Tells p c q r) : r = q.offset
  alike {c c' : Cursor} (h : F.Meets c c') : F.Alike (fun _ => True) (p c) (p c')

namespace Plain
variable {p : Parser α} {f : α → Parser β}

theorem quiet (h : F.Plain p) (c : Cursor) : F.Quiet (fun _ => True) p c :=
  ⟨fun ht => Nat.le_of_eq (h.char ht), fun _ _ => trivial⟩

theorem pure (a : α) : F.Plain (Pure.pure a : Parser α) where
  onward := (Tracks.pure a).onward
  char h := absurd h (Tells.not_pure a)
  alike h := .inr ⟨rfl, h⟩

theorem bind (hp : F.Plain p) (hf : ∀ a, F.Plain (f a)) : F.Plain (p >>= f) where
  onward := hp.onward.bind fun a => (hf a).onward
  char h := h.bind.elim hp.char fun ⟨a, _, _, h⟩ => (hf a).char h
  alike h := (hp.alike h).bind (fun _ h => (hf _).alike h) (fun a => (hf a).onward)
    fun _ _ _ _ _ _ => (hf _).quiet _

theorem map (hp : F.Plain p) (g : α → β) : F.Plain (g <$> p) := hp.bind fun a => .pure (g a)

theorem seqRight {p' : Parser β} (hp : F.Plain p) (hp' : F.Plain p') : F.Plain (p *> p') :=
  hp.bind fun _ => hp'

theorem skip (hp : F.Plain p) : F.Plain (skip p) := hp.bind fun _ => .pure _

theorem satisfy (test : Char → Bool) (expected : List Expectation) :
    F.Plain (Parser.satisfy test expected) where
  onward := .satisfy test expected
  char h := by
    obtain ⟨-, rfl, rfl⟩ := h.satisfy
    rfl
  alike h := .satisfy h test expected

theorem endOfInput : F.Plain Parser.endOfInput where
  onward := Tracks.endOfInput.onward
  char h := by
    obtain ⟨-, rfl, rfl⟩ := h.endOfInput
    rfl
  alike h := .endOfInput h

theorem orElse {p p' : Parser α} (hp : F.Plain p) (hp' : F.Plain p')
    (hshy : ∀ c, Shy p c ∨ Shy p' c) : F.Plain (p <|> p') where
  onward := hp.onward.orElse hp'.onward
  char h := h.orElse.elim (hp.char ·.1) (hp'.char ·.2)
  alike h := .orElse_of_shy h (hp.alike h) (hp'.alike h) (hshy _)

theorem choice {ps : List (Parser α)} (h : ∀ p ∈ ps, F.Plain p)
    (hshy : ps.Pairwise fun p q => ∀ c, Shy p c ∨ Shy q c) : F.Plain (Parser.choice ps) where
  onward := .choice fun p hp => (h p hp).onward
  char ht := by
    rcases ht.choice with ⟨p, hp, ht, -⟩ | ⟨rfl, rfl⟩
    · exact (h p hp).char ht
    · rfl
  alike hmeets := .choice hmeets (List.forall₂_same.2 fun p hp => (h p hp).alike hmeets)
    (hshy.imp fun h => h _)

theorem many (hp : F.Plain p) (hc : Consumes p) : F.Plain (Parser.many p) where
  onward := hp.onward.many
  char h := by
    obtain ⟨_, _, -, h⟩ := h.many
    exact hp.char h
  alike h := by
    refine .many hc hc hp.onward (E := fun _ => True) (fun _ _ _ => trivial)
      (fun _ h => hp.alike h) (fun _ _ _ _ _ _ _ _ => ⟨fun ht => ?_, fun _ _ => trivial⟩)
      (fun _ _ _ _ _ _ _ => trivial) trivial h
    obtain ⟨_, _, -, ht⟩ := ht.many
    exact Nat.le_of_eq (hp.char ht)

theorem about (hp : F.Plain p) (name : String) : F.Plain (Parser.about name p) where
  onward := hp.onward.about name
  char h := hp.char h.about
  alike h := (hp.alike h).about name

end Plain

variable (F) in
/-- Where the texts part behind a word, the parser does not go back before that word. -/
def Tight (p : Parser α) : Prop :=
  F.word = true → ∀ {c c' d a q r}, F.Meets c c' → result? p c = some (a, d) → Tells p c q r →
    F.Shown q r → F.place ≤ d.position.offset

theorem Tight.of_settles {p : Parser α} (h : Settles p) : F.Tight p :=
  fun _ _ _ _ _ _ _ _ hr ht hshown => Nat.le_trans hshown.le (h.le hr ht)

theorem Tight.bind {p : Parser α} {f : α → Parser β} (hp : F.Tight p) (hforward : Forward p)
    (hf : ∀ a, F.Tight (f a)) (hon : ∀ a, Onward (f a)) : F.Tight (p >>= f) := by
  intro hw c c' d b q r hmeets hr ht hshown
  rw [result?_bind] at hr
  obtain ⟨⟨a, e⟩, ha, hb⟩ := Option.bind_eq_some_iff.1 hr
  rcases ht.bind with ht | ⟨a', e', ha', ht⟩
  · exact Nat.le_trans (hp hw hmeets ha ht hshown) ((hon a).le hb)
  · cases ha.symm.trans ha'
    by_cases hplace : F.place ≤ e.position.offset
    · exact Nat.le_trans hplace ((hon a).le hb)
    · obtain ⟨w, hpass⟩ := hforward _ _ _ ha
      obtain ⟨_, -, hmeets'⟩ := hmeets.passes hpass (by omega)
      exact hf a hw hmeets' hb ht hshown

theorem Plain.alike_of_tight {p : Parser α} (hp : F.Plain p) (ht : F.Tight p)
    (h : F.Meets c c') : F.Alike B (p c) (p c') := by
  refine (hp.alike h).imp_left fun hseen => ?_
  cases hpc : p c with
  | failure e =>
    rw [hpc] at hseen
    exact hseen
  | success a d met =>
    rw [hpc] at hseen
    rcases hseen with hplace | ⟨⟨x, hx, hshown⟩, -⟩
    · exact .inl hplace
    · by_cases hw : F.word = true
      · exact .inl (ht hw h (result?_of_success hpc) (tells_of_met hpc hx) hshown)
      · exact .inr ⟨⟨x, hx, hshown⟩, fun h => absurd h hw⟩

end Fork
end BuildScript
