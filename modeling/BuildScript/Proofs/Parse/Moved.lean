import BuildScript.Proofs.Parse.Carried

/-!
Moving a text. What is read depends on the characters that it is made of and on nothing else: at
another place, and with another text behind that does not go on with its last word, the same is
read, with its spans moved along, and the same comments are found (`carries_moved`).
-/
namespace BuildScript
open BuildScript.Parser Lexeme Grammar

def Steady (f : Position → Position) (p : Position) : Prop :=
  ∀ w, f (p.after w) = (f p).after w

theorem Steady.passes {f : Position → Position} {c d : Cursor} {w : List Char}
    (h : Steady f c.position) (hpass : c.Passes w d) : Steady f d.position := by
  intro v
  rw [hpass.2, ← Position.after_append, h, h, Position.after_append]

/-- The other text goes on with a word or a number only where this one begins alike. -/
def Resembles (rest rest' : List Char) : Prop :=
  ∀ x ∈ rest'.head?, isNumberChar x = true → x ∈ rest.head?

def Cursor.moved (f : Position → Position) (rest rest' : List Char) (c : Cursor) : Cursor :=
  ⟨f c.position, c.rest.take (c.rest.length - rest.length) ++ rest'⟩

section Moved
variable {f : Position → Position} {rest rest' : List Char} {c d e : Cursor}

theorem Cursor.moved_of_rest {w : List Char} (h : c.rest = w ++ rest) :
    c.moved f rest rest' = ⟨f c.position, w ++ rest'⟩ := by
  rw [moved, h, List.length_append, Nat.add_sub_cancel, List.take_left]

theorem Cursor.Passes.suffix {w : List Char} (h : c.Passes w d) (hd : rest <:+ d.rest) :
    rest <:+ c.rest :=
  h.1 ▸ hd.trans (List.suffix_append w d.rest)

theorem Cursor.Passes.moved {w : List Char} (h : c.Passes w d) (hf : Steady f c.position)
    (hd : rest <:+ d.rest) : (c.moved f rest rest').Passes w (d.moved f rest rest') := by
  obtain ⟨u, hu⟩ := hd
  have hc : c.rest = w ++ u ++ rest := by rw [h.1, ← hu, List.append_assoc]
  rw [Cursor.moved_of_rest hc, Cursor.moved_of_rest hu.symm]
  refine ⟨List.append_assoc .., ?_⟩
  show f d.position = (f c.position).after w
  rw [h.2, hf]

/-- What stops before the end that is replaced stops still, and so does what stops at either end. -/
theorem Stops.moved {test : Char → Bool} (h : Stops test d.rest) (hd : rest <:+ d.rest)
    (hend : rest.length < d.rest.length ∨ (Stops test rest → Stops test rest')) :
    Stops test (d.moved f rest rest').rest := by
  obtain ⟨u, hu⟩ := hd
  rw [Cursor.moved_of_rest hu.symm]
  rw [← hu] at h hend
  cases u with
  | nil => exact hend.resolve_left (by simp) h
  | cons x u => exact h

theorem Resembles.stops (hr : Resembles rest rest') {test : Char → Bool}
    (htest : ∀ x, test x = true → isNumberChar x = true) (h : Stops test rest) :
    Stops test rest' := by
  intro x hx
  rw [← Bool.not_eq_true]
  intro hx'
  have := h x (hr x hx (htest x hx'))
  simp [hx'] at this

theorem Mode.Skips.moved_trans {m : Mode} (h : m.Skips c d) (hf : Steady f c.position)
    (hd : rest <:+ d.rest) (hend : rest.length < d.rest.length ∨ Stops (· != '\n') rest')
    (k : m.Skips (d.moved f rest rest') e) :
    m.Skips (c.moved f rest rest') e ∧ ∃ cs, Scanned c cs d ∧
      Scanned (c.moved f rest rest') (cs.map (Comment.moved f)) (d.moved f rest rest') := by
  have key : Steady f c.position → rest <:+ c.rest ∧ d.rest.length ≤ c.rest.length ∧
      m.Skips (c.moved f rest rest') e ∧ ∃ cs, Scanned c cs d ∧
        Scanned (c.moved f rest rest') (cs.map (Comment.moved f)) (d.moved f rest rest') := by
    refine h.induct (motive := fun c => Steady f c.position → rest <:+ c.rest ∧
      d.rest.length ≤ c.rest.length ∧ m.Skips (c.moved f rest rest') e ∧ ∃ cs, Scanned c cs d ∧
        Scanned (c.moved f rest rest') (cs.map (Comment.moved f)) (d.moved f rest rest'))
      (fun _ => ⟨hd, Nat.le_refl _, k, [], .refl, .refl⟩) ?_
    intro a b hab ih hf
    obtain ⟨x, w, -, hpass⟩ := piece_passes hab
    obtain ⟨hb, hle, ih, cs, hscan, hscan'⟩ := ih (hf.passes hpass)
    have hle' : d.rest.length ≤ a.rest.length := by
      have := hpass.length_eq
      omega
    refine ⟨hpass.suffix hb, hle', ?_⟩
    rcases result?_piece.1 hab with ⟨x, hx, hpass⟩ | ⟨hm, hpass⟩ | ⟨body, hn, hpass, hstop⟩
    · have hx' : ∀ y ∈ [x], Plain y := List.forall_mem_singleton.2 (plain_blank hx)
      have hmoved : (a.moved f rest rest').Passes [x] (b.moved f rest rest') := hpass.moved hf hb
      exact ⟨.step (result?_piece.2 (.inl ⟨x, hx, hmoved⟩)) ih, cs,
        (Scanned.word hx' hpass).trans hscan, (Scanned.word hx' hmoved).trans hscan'⟩
    · have hfold : ∀ y ∈ ['\\', '\n'], Plain y := forall_plain (by decide)
      have hmoved : (a.moved f rest rest').Passes ['\\', '\n'] (b.moved f rest rest') :=
        hpass.moved hf hb
      exact ⟨.step (result?_piece.2 (.inr (.inl ⟨hm, hmoved⟩))) ih, cs,
        (Scanned.word hfold hpass).trans hscan, (Scanned.word hfold hmoved).trans hscan'⟩
    · have hmoved : (a.moved f rest rest').Passes ('#' :: body) (b.moved f rest rest') :=
        hpass.moved hf hb
      have hstop' := hstop.moved (f := f) hb (hend.imp (fun h => by omega) fun h _ => h)
      exact ⟨.step (result?_piece.2 (.inr (.inr ⟨body, hn, hmoved, hstop'⟩))) ih, _,
        (Scanned.comment hn hpass hstop).trans hscan,
        (Scanned.comment hn hmoved hstop').trans hscan'⟩
  exact (key hf).2.2

/-- A cursor in the text and the same one in the text that has been moved, both with the same
comments before them. -/
structure Moves (f : Position → Position) (rest rest' : List Char) (a a' c c' : Cursor) : Prop where
  steady : Steady f c.position
  eq : c' = c.moved f rest rest'
  scanned : ∃ cs, Scanned a cs c ∧ Scanned a' (cs.map (Comment.moved f)) c'

theorem Moves.refl (hf : Steady f c.position) :
    Moves f rest rest' c (c.moved f rest rest') c (c.moved f rest rest') :=
  ⟨hf, rfl, [], .refl, .refl⟩

theorem carries_moved (hr : Resembles rest rest') (a a' : Cursor) :
    Carries f (Moves f rest rest' a a') fun d => rest <:+ d.rest where
  position r := r.eq ▸ rfl
  back h hd := h.suffix hd
  word := by
    rintro c _ d w ⟨hf, rfl, cs, hc, hc'⟩ hw h hd
    have hmoved : (c.moved f rest rest').Passes w (d.moved f rest rest') := h.moved hf hd
    refine ⟨_, hmoved, hf.passes h, rfl, cs, ?_, ?_⟩
    · simpa using hc.trans (.word hw.1 h)
    · simpa using hc'.trans (.word hw.1 hmoved)
  string := by
    rintro c _ d v ⟨hf, rfl, cs, hc, hc'⟩ h hd
    obtain ⟨q, w, hq, hw, hpass⟩ := result?_string.1 h
    have hmoved : result? string (c.moved f rest rest') = some (v, d.moved f rest rest') :=
      result?_string.2 ⟨q, w, hq, hw, hpass.moved hf hd⟩
    refine ⟨_, hmoved, hf.passes hpass, rfl, cs, ?_, ?_⟩
    · simpa using hc.trans (.string h)
    · simpa using hc'.trans (.string hmoved)
  gap := by
    rintro m c _ d ⟨hf, rfl, cs, hc, hc'⟩ h hd
    obtain ⟨_, hpass⟩ := h.passes
    obtain ⟨x, w, e, -, hbar, he⟩ := id hd
    have hsuffix := hbar.suffix he
    have hlt : rest.length < d.rest.length := Nat.lt_of_le_of_lt he.length_le hbar.length_lt
    have hstop : Stops m.opens (d.moved f rest rest').rest := (hd.stops m).moved hsuffix (.inl hlt)
    obtain ⟨hskip, cs', hscan, hscan'⟩ := h.moved_trans hf hsuffix (.inl hlt) (.of_stops hstop)
    refine ⟨_, hskip, hf.passes hpass, rfl, cs ++ cs', hc.trans hscan, ?_⟩
    rw [List.map_append]
    exact hc'.trans hscan'
  stops := by
    rintro c _ test ⟨-, rfl, -⟩ hc htest h
    exact h.moved hc (.inr (hr.stops htest))

namespace Grammar

/-- An expression is read at any place, whatever stands behind it, as long as its last word does not
go on. -/
theorem Reads.moved (hr : Resembles rest rest') {m : Mode} {e : Expr} (h : Reads m e c d)
    (hf : Steady f c.position) (hd : rest <:+ d.rest) :
    Reads m (e.moved f) (c.moved f rest rest') (d.moved f rest rest') := by
  obtain ⟨_, h', -, rfl, -⟩ := (carries_moved hr _ _).reads (.refl hf) h hd
  exact h'

theorem load_moved (hr : Resembles rest rest') {e : Expr} (h : result? load c = some (e, d))
    (hf : Steady f c.position) (hd : rest <:+ d.rest) :
    result? load (c.moved f rest rest') = some (e.moved f, d.moved f rest rest') := by
  obtain ⟨_, h', -, rfl, -⟩ := (carries_moved hr _ _).load (.refl hf) h hd
  exact h'

end Grammar
end Moved
end BuildScript
