import BuildScript.Proofs.Parse.Word

/-!
Gaps. Between the words of a line and between the words inside of brackets different things may
stand, so each statement about gaps is made for both ways of reading. A gap is skipped as a whole:
the cursor behind it stands at no further piece of one.
-/
namespace BuildScript
open BuildScript.Parser Lexeme

/-- Whether the end of a line means something, or is white space like any other. -/
inductive Mode where
  | line | free
deriving DecidableEq

namespace Mode

def gap : Mode → Parser Unit
  | line => Lexeme.lineGap
  | free => Lexeme.gap

def blank : Mode → Char → Bool
  | line => fun c => c == ' ' || c == '\t' || c == '\r'
  | free => isBlank

def piece : Mode → Parser Unit
  | line => skip (charWhere line.blank) <|> skip (do let _ ← char '\\'; char '\n') <|> skip comment
  | free => skip (charWhere free.blank) <|> skip comment

theorem gap_eq (m : Mode) : m.gap = skip (many m.piece) := by
  cases m <;> rfl

def opens (m : Mode) (x : Char) : Bool :=
  m.blank x || x == '#' || (m == line && x == '\\')

def Skips (m : Mode) (c d : Cursor) : Prop :=
  result? m.gap c = some ((), d)

end Mode

namespace Lexeme

theorem result?_skip {α : Type} {p : Parser α} {c d : Cursor} :
    result? (skip p) c = some ((), d) ↔ ∃ a, result? p c = some (a, d) := by
  unfold skip
  rw [result?_bind, Option.bind_eq_some_iff]
  constructor
  · rintro ⟨⟨a, e⟩, ha, h⟩
    cases h
    exact ⟨a, ha⟩
  · rintro ⟨a, ha⟩
    exact ⟨(a, d), ha, rfl⟩

theorem result?_comment {c d : Cursor} {text : List Char} :
    result? comment c = some (text, d) ↔
      ∃ body, text = '#' :: body ∧ '\n' ∉ body ∧ c.Passes text d ∧
        Stops (· != '\n') d.rest := by
  unfold comment
  rw [result?_bind, Option.bind_eq_some_iff]
  constructor
  · rintro ⟨⟨x, c₁⟩, hx, h⟩
    obtain ⟨rfl, hhash⟩ := result?_char_eq_some.1 hx
    rw [result?_bind, Option.bind_eq_some_iff] at h
    obtain ⟨⟨body, c₂⟩, hbody, h⟩ := h
    cases h
    obtain ⟨hall, hpass, hstop⟩ := result?_many_charWhere.1 hbody
    refine ⟨body, rfl, ?_, hhash.trans hpass, hstop⟩
    intro hn
    simpa using hall _ hn
  · rintro ⟨body, rfl, hn, hpass, hstop⟩
    obtain ⟨p, rest, rfl, rfl⟩ := hpass.split
    refine ⟨('#', ⟨p.next '#', body ++ rest⟩), result?_char_cons _ _ _, ?_⟩
    have hbody : result? (many (charWhere (· != '\n'))) ⟨p.next '#', body ++ rest⟩ =
        some (body, ⟨(p.next '#').after body, rest⟩) := by
      refine result?_many_charWhere.2 ⟨?_, ⟨rfl, rfl⟩, hstop⟩
      intro x hx
      rw [bne_iff_ne]
      rintro rfl
      exact hn hx
    rw [result?_bind, hbody]
    rfl

end Lexeme

namespace Mode
variable {m : Mode} {c d e : Cursor}

theorem result?_blank : result? (skip (charWhere m.blank)) c = some ((), d) ↔
    ∃ x, m.blank x = true ∧ c.Passes [x] d := by
  simp only [result?_skip, result?_charWhere_eq_some]

theorem result?_blank_eq_none (h : ∀ x, c.rest.head? = some x → m.blank x = false) :
    result? (skip (charWhere m.blank)) c = none := by
  unfold skip
  rw [result?_bind, result?_charWhere_eq_none.2 h]
  rfl

theorem result?_folded : result? (skip (do let _ ← char '\\'; char '\n')) c = some ((), d) ↔
    c.Passes ['\\', '\n'] d := by
  rw [result?_skip]
  simp only [result?_bind, Option.bind_eq_some_iff]
  constructor
  · rintro ⟨y, ⟨x, c₁⟩, hx, hy⟩
    exact (result?_char_eq_some.1 hx).2.trans (result?_char_eq_some.1 hy).2
  · intro hpass
    obtain ⟨p, rest, rfl, rfl⟩ := hpass.split
    exact ⟨'\n', ('\\', ⟨p.next '\\', '\n' :: rest⟩), result?_char_cons _ _ _,
      result?_char_cons _ _ _⟩

theorem result?_skip_comment : result? (skip comment) c = some ((), d) ↔
    ∃ body, '\n' ∉ body ∧ c.Passes ('#' :: body) d ∧ Stops (· != '\n') d.rest := by
  rw [result?_skip]
  constructor
  · rintro ⟨text, h⟩
    obtain ⟨body, rfl, h⟩ := result?_comment.1 h
    exact ⟨body, h⟩
  · rintro ⟨body, h⟩
    exact ⟨_, result?_comment.2 ⟨body, rfl, h⟩⟩

/-- A piece is a blank, a line end with a backslash before it where lines matter, or a comment up to
the end of its line. -/
theorem result?_piece : result? m.piece c = some ((), d) ↔
    (∃ x, m.blank x = true ∧ c.Passes [x] d) ∨ (m = line ∧ c.Passes ['\\', '\n'] d) ∨
      ∃ body, '\n' ∉ body ∧ c.Passes ('#' :: body) d ∧ Stops (· != '\n') d.rest := by
  -- The three kinds of pieces differ in their first character, so the order of trial is no matter.
  have apart (h : (∃ x, m.blank x = true ∧ c.Passes [x] d) ∨ (m = line ∧ c.Passes ['\\', '\n'] d) ∨
      ∃ body, '\n' ∉ body ∧ c.Passes ('#' :: body) d ∧ Stops (· != '\n') d.rest) :
      (∀ x, c.rest.head? = some x → m.blank x = false) ∨
        ∃ x, m.blank x = true ∧ c.Passes [x] d := by
    rcases h with h | ⟨-, h⟩ | ⟨body, -, h, -⟩
    · exact .inr h
    all_goals
      left
      intro x hx
      rw [h.1] at hx
      cases hx
      cases m <;> decide
  cases m with
  | free =>
    unfold piece
    rw [result?_orElse, Option.or_eq_some_iff, result?_blank, result?_skip_comment]
    simp only [reduceCtorEq, false_and, false_or]
    constructor
    · rintro (h | ⟨-, h⟩)
      · exact .inl h
      · exact .inr h
    · intro h
      rcases apart (h.imp id .inr) with hb | hb
      · rcases h with h | h
        · exact .inl h
        · exact .inr ⟨result?_blank_eq_none hb, h⟩
      · exact .inl hb
  | line =>
    unfold piece
    rw [result?_orElse, result?_orElse, Option.or_eq_some_iff, Option.or_eq_some_iff,
      result?_blank, result?_folded, result?_skip_comment]
    simp only [true_and]
    constructor
    · rintro (h | ⟨-, h | ⟨-, h⟩⟩)
      · exact .inl h
      · exact .inr (.inl h)
      · exact .inr (.inr h)
    · intro h
      rcases apart (h.imp id fun h => h.imp (And.intro rfl) id) with hb | hb
      · rcases h with h | h | h
        · exact .inl h
        · exact .inr ⟨result?_blank_eq_none hb, .inl h⟩
        · refine .inr ⟨result?_blank_eq_none hb, .inr ⟨?_, h⟩⟩
          obtain ⟨body, -, hpass, -⟩ := h
          unfold skip
          rw [result?_bind, result?_bind, result?_char_of_head]
          · rfl
          · simp [hpass.1]
      · exact .inl hb

theorem piece_passes (h : result? m.piece c = some ((), d)) :
    ∃ x w, m.opens x = true ∧ c.Passes (x :: w) d := by
  rcases result?_piece.1 h with ⟨x, hx, hpass⟩ | ⟨rfl, hpass⟩ | ⟨body, -, hpass, -⟩
  · exact ⟨x, [], by simp [opens, hx], hpass⟩
  · exact ⟨'\\', ['\n'], by decide, hpass⟩
  · exact ⟨'#', body, by simp [opens], hpass⟩

theorem consumes_piece (m : Mode) : Consumes m.piece := by
  intro c u d h
  obtain ⟨x, w, -, hpass⟩ := piece_passes h
  exact hpass.length_lt

theorem skips_iff : m.Skips c d ↔ ∃ us, Run m.piece c us d := by
  unfold Skips
  rw [gap_eq, result?_skip]
  simp only [result?_many_eq_some (consumes_piece m)]

theorem exists_skips (m : Mode) (c : Cursor) : ∃ d, m.Skips c d := by
  suffices ∀ n (c : Cursor), c.rest.length ≤ n → ∃ us d, Run m.piece c us d by
    obtain ⟨us, d, h⟩ := this _ c (Nat.le_refl _)
    exact ⟨d, skips_iff.2 ⟨us, h⟩⟩
  intro n
  induction n with
  | zero =>
    intro c hn
    refine ⟨[], c, .stop ?_⟩
    cases hc : result? m.piece c with
    | none => rfl
    | some r =>
      have := consumes_piece m c r.1 r.2 hc
      omega
  | succ n ih =>
    intro c hn
    cases hc : result? m.piece c with
    | none => exact ⟨[], c, .stop hc⟩
    | some r =>
      have hlt := consumes_piece m c r.1 r.2 hc
      obtain ⟨us, d, h⟩ := ih r.2 (by omega)
      exact ⟨r.1 :: us, d, .step hc h⟩

namespace Skips

theorem unique (h : m.Skips c d) (k : m.Skips c e) : d = e := by
  have := h.symm.trans k
  simpa using this

theorem step (h : result? m.piece c = some ((), d)) (k : m.Skips d e) : m.Skips c e := by
  obtain ⟨us, k⟩ := skips_iff.1 k
  exact skips_iff.2 ⟨() :: us, .step h k⟩

theorem induct {motive : Cursor → Prop} (h : m.Skips c d) (stop : motive d)
    (step : ∀ a b, result? m.piece a = some ((), b) → motive b → motive a) : motive c := by
  rw [skips_iff] at h
  obtain ⟨us, h⟩ := h
  induction h with
  | stop _ => exact stop
  | step hab _ ih => exact step _ _ hab (ih stop)

theorem settled (h : m.Skips c d) : result? m.piece d = none := by
  rw [skips_iff] at h
  obtain ⟨us, h⟩ := h
  induction h with
  | stop h => exact h
  | step _ _ ih => exact ih

theorem passes (h : m.Skips c d) : ∃ w, c.Passes w d := by
  refine h.induct (motive := fun c => ∃ w, c.Passes w d) ⟨[], .refl d⟩ ?_
  intro a b hab ⟨w, hw⟩
  obtain ⟨x, v, -, hv⟩ := piece_passes hab
  exact ⟨_, hv.trans hw⟩

theorem length_le (h : m.Skips c d) : d.rest.length ≤ c.rest.length := by
  obtain ⟨w, hw⟩ := h.passes
  rw [hw.length_eq]
  exact Nat.le_add_left _ _

theorem of_settled (h : result? m.piece c = none) : m.Skips c c :=
  skips_iff.2 ⟨[], .stop h⟩

theorem of_stops (h : Stops m.opens c.rest) : m.Skips c c := by
  refine of_settled (result?_of_stops h fun _ d hd => ?_)
  obtain ⟨x, w, hx, hpass⟩ := piece_passes hd
  exact ⟨x, w, d, hx, hpass⟩

theorem eq_or_opens (h : m.Skips c d) :
    c = d ∨ ∃ x rest, c.rest = x :: rest ∧ m.opens x = true := by
  refine h.induct (motive := fun c => c = d ∨ ∃ x rest, c.rest = x :: rest ∧ m.opens x = true)
    (.inl rfl) ?_
  intro a b hab _
  obtain ⟨x, w, hx, hpass⟩ := piece_passes hab
  exact .inr ⟨x, w ++ b.rest, hpass.1, hx⟩

theorem blanks {p : Position} {w rest : List Char} (hw : ∀ x ∈ w, m.blank x = true)
    (h : m.Skips ⟨p.after w, rest⟩ d) : m.Skips ⟨p, w ++ rest⟩ d := by
  induction w generalizing p with
  | nil => exact h
  | cons x w ih =>
    obtain ⟨hx, hw⟩ := List.forall_mem_cons.1 hw
    exact step (result?_piece.2 (.inl ⟨x, hx, rfl, rfl⟩)) (ih hw h)

theorem comment {p : Position} {body rest : List Char} (hn : '\n' ∉ body)
    (hs : Stops (· != '\n') rest) (h : m.Skips ⟨p.after ('#' :: body), rest⟩ d) :
    m.Skips ⟨p, '#' :: body ++ rest⟩ d :=
  step (result?_piece.2 (.inr (.inr ⟨body, hn, ⟨rfl, rfl⟩, hs⟩))) h

end Skips
end Mode
end BuildScript
