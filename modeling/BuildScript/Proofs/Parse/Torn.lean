import BuildScript.Proofs.Parse.Failing
import BuildScript.Proofs.Parse.Quoted
import BuildScript.Proofs.Parse.Symbol

/-!
Where the reading of a token breaks off. Nothing of the token was read, or something that the token
can begin with: then there is a text that completes it.
-/
namespace BuildScript
open BuildScript.Parser Lexeme

def IsComment (w : List Char) : Prop := ∃ body, w = '#' :: body ∧ '\n' ∉ body

namespace Parser
variable {α : Type} {c : Cursor} {q : Position} {r : Nat}

theorem Tells.skip {p : Parser α} (h : Tells (skip p) c q r) : Tells p c q r :=
  h.bind.elim id fun ⟨_, _, _, h⟩ => absurd h (Tells.not_pure _)

theorem Tells.char {x : Char} (h : Tells (char x) c q r) :
    Stops (· == x) c.rest ∧ q = c.position ∧ r = c.position.offset :=
  h.satisfy

theorem Steps.satisfy {test : Char → Bool} {expected : List Expectation} {xs : List Char}
    {d : Cursor} (h : Steps (satisfy test expected) c xs d) :
    c.Passes xs d ∧ ∀ x ∈ xs, test x = true := by
  induction h with
  | refl => exact ⟨.refl _, nofun⟩
  | @step c d e x xs h _ ih =>
    obtain ⟨hx, hpass⟩ := result?_satisfy_eq_some.1 h
    exact ⟨hpass.trans ih.1, List.forall_mem_cons.2 ⟨hx, ih.2⟩⟩

theorem Tells.many_satisfy {test : Char → Bool} {expected : List Expectation}
    (h : Tells (Parser.many (Parser.satisfy test expected)) c q r) :
    ∃ xs d, c.Passes xs d ∧ (∀ x ∈ xs, test x = true) ∧ Stops test d.rest ∧ q = d.position ∧
      r = d.position.offset := by
  obtain ⟨xs, d, hsteps, h⟩ := h.many
  obtain ⟨hpass, hxs⟩ := hsteps.satisfy
  exact ⟨xs, d, hpass, hxs, h.satisfy⟩

end Parser

namespace Mode
variable {m : Mode}

inductive Row (m : Mode) : List Char → Prop
  | nil : Row m []
  | blank {x : Char} {w : List Char} (hx : m.blank x = true) (h : Row m w) : Row m (x :: w)
  | fold {w : List Char} (hm : m = line) (h : Row m w) : Row m ('\\' :: '\n' :: w)
  | comment {y w : List Char} (hm : m = free) (hy : IsComment y) (h : Row m w) :
    Row m (y ++ '\n' :: w)

namespace Row
variable {v w : List Char}

theorem append (hv : Row m v) (hw : Row m w) : Row m (v ++ w) := by
  induction hv with
  | nil => exact hw
  | blank hx _ ih => exact .blank hx ih
  | fold hm _ ih => exact .fold hm ih
  | comment hm hy _ ih =>
    rw [List.append_assoc]
    exact .comment hm hy ih

end Row

def Drops (m : Mode) (y : List Char) : Prop := y = [] ∨ m = line ∧ IsComment y

/-- A gap can begin with `v`, without its last comment if lines matter. No word goes on with what
completes the gap. -/
def Begun (m : Mode) (v : List Char) : Prop :=
  ∃ g y t, v = g ++ y ∧ m.Drops y ∧ Row m (g ++ t) ∧ ∃ x ∈ t.head?, isNumberChar x = false

theorem begun_of_row {g y : List Char} (hg : Row m g) (hy : y = [] ∨ IsComment y) :
    m.Begun (g ++ y) := by
  cases m with
  | line =>
    refine ⟨g, y, [' '], rfl, hy.imp_right fun hy => ⟨rfl, hy⟩, hg.append ?_, ' ', rfl, by decide⟩
    exact .blank (by decide) .nil
  | free =>
    refine ⟨g ++ y, [], ['\n'], (List.append_nil _).symm, .inl rfl, ?_, '\n', rfl, by decide⟩
    rw [List.append_assoc]
    refine hg.append ?_
    rcases hy with rfl | hy
    · exact .blank (by decide) .nil
    · exact .comment rfl hy .nil

/-- Pieces in a row, and perhaps a comment that goes on to the end of its line. -/
theorem row_of_steps {c d : Cursor} {us : List Unit} (h : Steps m.piece c us d) :
    ∃ g y, c.Passes (g ++ y) d ∧ Row m g ∧ (y = [] ∨ IsComment y ∧ Stops (· != '\n') d.rest) := by
  induction h with
  | @refl c => exact ⟨[], [], .refl c, .nil, .inl rfl⟩
  | @step c e d _ _ h _ ih =>
    obtain ⟨g, y, hpass, hg, hy⟩ := ih
    rcases result?_piece.1 h with ⟨x, hx, hc⟩ | ⟨hm, hc⟩ | ⟨body, hn, hc, hstop⟩
    · exact ⟨x :: g, y, hc.trans hpass, .blank hx hg, hy⟩
    · exact ⟨'\\' :: '\n' :: g, y, hc.trans hpass, .fold hm hg, hy⟩
    -- Behind a comment the line ends, which is a piece only where lines do not matter.
    rw [hpass.1] at hstop
    have hcomment : IsComment ('#' :: body) := ⟨body, rfl, hn⟩
    cases hg with
    | nil =>
      rcases hy with rfl | ⟨⟨_, rfl, -⟩, -⟩
      · refine ⟨[], '#' :: body, ?_, .nil, .inr ⟨hcomment, hstop⟩⟩
        simpa using hc.trans hpass
      · exact absurd (stops_cons.1 hstop) (by decide)
    | @blank x w hx hg =>
      obtain rfl : x = '\n' := by simpa using stops_cons.1 hstop
      have hm : m = free := by
        cases m with
        | line => exact absurd hx (by decide)
        | free => rfl
      refine ⟨'#' :: body ++ '\n' :: w, y, ?_, .comment hm hcomment hg, hy⟩
      rw [List.append_assoc]
      exact hc.trans hpass
    | fold hm hg => exact absurd (stops_cons.1 hstop) (by decide)
    | comment hm hy' hg =>
      obtain ⟨_, rfl, -⟩ := hy'
      exact absurd (stops_cons.1 hstop) (by decide)

theorem tells_piece {c : Cursor} {q : Position} {r : Nat} (h : Tells m.piece c q r) :
    r = q.offset ∧ ∃ v b, c.Passes v b ∧ q = b.position ∧
      (v = [] ∨ m = line ∧ v = ['\\'] ∨ IsComment v ∧ result? m.piece c = some ((), b)) := by
  have blanks {test : Char → Bool} (h : Tells (skip (charWhere test)) c q r) :
      r = q.offset ∧ ∃ v b, c.Passes v b ∧ q = b.position ∧
        (v = [] ∨ m = line ∧ v = ['\\'] ∨
          IsComment v ∧ result? m.piece c = some ((), b)) := by
    obtain ⟨-, rfl, rfl⟩ := h.skip.satisfy
    exact ⟨rfl, [], c, .refl c, rfl, .inl rfl⟩
  have comments (h : Tells (skip comment) c q r) :
      r = q.offset ∧ ∃ v b, c.Passes v b ∧ q = b.position ∧
        (v = [] ∨ m = line ∧ v = ['\\'] ∨
          IsComment v ∧ result? m.piece c = some ((), b)) := by
    rcases h.skip.bind with h | ⟨x, d, hx, h⟩
    · obtain ⟨-, rfl, rfl⟩ := h.char
      exact ⟨rfl, [], c, .refl c, rfl, .inl rfl⟩
    obtain ⟨rfl, hhash⟩ := result?_char_eq_some.1 hx
    rcases Tells.bind h with h | ⟨_, _, _, h⟩
    · obtain ⟨body, b, hpass, hbody, hstop, rfl, rfl⟩ := h.many_satisfy
      have hn : '\n' ∉ body := fun hn => by simpa using hbody _ hn
      exact ⟨rfl, _, b, hhash.trans hpass, rfl, .inr (.inr ⟨⟨body, rfl, hn⟩,
        result?_piece.2 (.inr (.inr ⟨body, hn, hhash.trans hpass, hstop⟩))⟩)⟩
    · exact absurd h (Tells.not_pure _)
  cases m with
  | free =>
    rcases h.orElse with ⟨h, -⟩ | ⟨-, h⟩
    · exact blanks h
    · exact comments h
  | line =>
    rcases h.orElse with ⟨h, -⟩ | ⟨-, h⟩
    · exact blanks h
    rcases h.orElse with ⟨h, -⟩ | ⟨-, h⟩
    · rcases h.skip.bind with h | ⟨x, d, hx, h⟩
      · obtain ⟨-, rfl, rfl⟩ := h.char
        exact ⟨rfl, [], c, .refl c, rfl, .inl rfl⟩
      · obtain ⟨-, rfl, rfl⟩ := h.char
        exact ⟨rfl, ['\\'], d, (result?_char_eq_some.1 hx).2, rfl, .inr (.inl ⟨rfl, rfl⟩)⟩
    · exact comments h

theorem tells_gap {c : Cursor} {q : Position} {r : Nat} (h : Tells m.gap c q r) :
    r = q.offset ∧ ∃ v b, c.Passes v b ∧ q = b.position ∧ m.Begun v := by
  rw [gap_eq] at h
  obtain ⟨us, d, hsteps, h⟩ := h.skip.many
  obtain ⟨g, y, hpass, hg, hy⟩ := row_of_steps hsteps
  obtain ⟨hr, v, b, hv, hq, hkind⟩ := tells_piece h
  refine ⟨hr, _, b, hpass.trans hv, hq, ?_⟩
  rcases hkind with rfl | ⟨hm, rfl⟩ | ⟨hcomment, -⟩
  · rw [List.append_nil]
    exact begun_of_row hg (hy.imp_right And.left)
  -- A comment reaches to the end of its line, so no piece of a line stands behind it.
  · rcases hy with rfl | ⟨-, hstop⟩
    · rw [List.append_nil]
      refine ⟨g ++ ['\\'], [], ['\n'], (List.append_nil _).symm, .inl rfl, ?_, '\n', rfl, by decide⟩
      rw [List.append_assoc]
      exact hg.append (.fold hm .nil)
    · rw [hv.1] at hstop
      exact absurd (stops_cons.1 hstop) (by decide)
  · rcases hy with rfl | ⟨-, hstop⟩
    · rw [List.append_nil]
      exact begun_of_row hg (.inr hcomment)
    · obtain ⟨body, rfl, -⟩ := hcomment
      rw [hv.1] at hstop
      exact absurd (stops_cons.1 hstop) (by decide)

end Mode

/-- No name goes on from the last character of `w` into what follows. -/
def Edges (w rest : List Char) : Prop :=
  ∀ x ∈ w.getLast?, isNameChar x = true → Stops isNameChar rest

namespace Lexeme
variable {c : Cursor} {q : Position} {r : Nat}

theorem tells_run {first others : Char → Bool} (h : Tells (do
      let x ← charWhere first
      let xs ← many (charWhere others)
      pure (String.ofList (x :: xs))) c q r) :
    r = q.offset ∧ ((q = c.position ∧ Stops first c.rest) ∨ ∃ t d, result? (do
      let x ← charWhere first
      let xs ← many (charWhere others)
      pure (String.ofList (x :: xs))) c = some (t, d) ∧ q = d.position) := by
  rcases h.bind with h | ⟨x, d, hx, h⟩
  · obtain ⟨hstop, rfl, rfl⟩ := h.satisfy
    exact ⟨rfl, .inl ⟨rfl, hstop⟩⟩
  rcases h.bind with h | ⟨_, _, _, h⟩
  · obtain ⟨xs, e, hpass, hxs, hstop, rfl, rfl⟩ := h.many_satisfy
    refine ⟨rfl, .inr ⟨String.ofList (x :: xs), e, ?_, rfl⟩⟩
    rw [result?_bind, hx, Option.bind_some, result?_bind,
      result?_many_charWhere.2 ⟨hxs, hpass, hstop⟩]
    rfl
  · exact absurd h (Tells.not_pure _)

theorem tells_number (h : Tells number c q r) :
    r = q.offset ∧ (q = c.position ∨ ∃ t d, result? number c = some (t, d) ∧ q = d.position) := by
  obtain ⟨hr, hq⟩ := tells_run h.about
  refine ⟨hr, hq.imp And.left fun ⟨t, d, hd, hq⟩ => ⟨t, d, ?_, hq⟩⟩
  rw [number, result?_about]
  exact hd

/-- A word that is refused is refused at its beginning, but only once it has been read in full. -/
theorem tells_checked {β : Type} {check : String → Except Reason β}
    (h : Tells (filterMap word check) c q r) :
    (q = c.position ∧ result? (filterMap word check) c = none ∧
      (r = c.position.offset ∨ ∃ w d, result? word c = some (w, d) ∧ r = d.position.offset)) ∨
    ∃ a d, result? (filterMap word check) c = some (a, d) ∧ q = d.position ∧
      r = d.position.offset := by
  rcases h.filterMap with ⟨h, hok⟩ | ⟨w, d, reason, hw, hcheck, rfl, rfl⟩
  · obtain ⟨rfl, ⟨rfl, hstop⟩ | ⟨w, d, hw, rfl⟩⟩ := tells_run h
    · refine .inl ⟨rfl, ?_, .inl rfl⟩
      rw [result?_filterMap, result?_word_of_stops hstop]
      rfl
    · obtain ⟨b, hb⟩ := hok w d hw
      refine .inr ⟨b, d, ?_, rfl, rfl⟩
      rw [result?_filterMap, show result? word c = some (w, d) from hw, Option.bind_some, hb]
      rfl
  · refine .inl ⟨rfl, ?_, .inr ⟨w, d, hw, rfl⟩⟩
    rw [result?_filterMap, hw, Option.bind_some, hcheck]
    rfl

theorem Spells.append {x : Char} {v v' w w' : List Char} (h : Spells x w v)
    (h' : Spells x w' v') : Spells x (w ++ w') (v ++ v') := by
  induction h with
  | nil => exact h'
  | plain hq hb hn _ ih => exact .plain hq hb hn ih
  | escaped he _ ih => exact .escaped he ih

theorem spells_of_steps {x : Char} {d : Cursor} {v : List Char} (h : Steps
      (charWhere (fun c => c != x && c != '\\' && c != '\n') <|> escape) c v d) :
    ∃ w, Spells x w v ∧ c.Passes w d := by
  induction h with
  | @refl c => exact ⟨[], .nil, .refl c⟩
  | step h _ ih =>
    obtain ⟨w, hw, hpass⟩ := ih
    rcases result?_piece.1 h with ⟨hx, hb, hn, h⟩ | ⟨e, he, h⟩
    · exact ⟨_, .plain hx hb hn hw, h.trans hpass⟩
    · exact ⟨_, .escaped he hw, h.trans hpass⟩

theorem tells_escape (h : Tells escape c q r) :
    r = q.offset ∧ ∃ v b, c.Passes v b ∧ q = b.position ∧ (v = [] ∨ v = ['\\']) := by
  rcases h.bind with h | ⟨x, d, hx, h⟩
  · obtain ⟨-, rfl, rfl⟩ := h.char
    exact ⟨rfl, [], c, .refl c, rfl, .inl rfl⟩
  have hd : q = d.position ∧ r = d.position.offset := by
    rcases h.choice with ⟨p, hp, h, -⟩ | h
    · obtain ⟨e, -, rfl⟩ := List.mem_map.1 hp
      rcases h.bind with h | ⟨_, _, _, h⟩
      · exact h.char.2
      · exact absurd h (Tells.not_pure _)
    · exact h
  obtain ⟨rfl, rfl⟩ := hd
  exact ⟨rfl, ['\\'], d, (result?_char_eq_some.1 hx).2, rfl, .inr rfl⟩

theorem tells_quotedBy {x : Char} (hx : x = '"' ∨ x = '\'') (h : Tells (quotedBy x) c q r) :
    r = q.offset ∧ (q = c.position ∨ ∃ w b t, c.Passes (x :: w) b ∧ q = b.position ∧
      ∃ v, Spells x (w ++ t) v) := by
  rcases h.bind with h | ⟨y, d, hy, h⟩
  · obtain ⟨-, rfl, rfl⟩ := h.char
    exact ⟨rfl, .inl rfl⟩
  obtain ⟨rfl, hquote⟩ := result?_char_eq_some.1 hy
  -- Behind the opening quote stand pieces of the string, as far as they were read.
  have behind {v : List Char} {e : Cursor} {u : List Char} {b : Cursor}
      (hsteps : Steps (charWhere (fun c => c != y && c != '\\' && c != '\n') <|> escape) d v e)
      (hpass : e.Passes u b) (hu : u = [] ∨ u = ['\\']) :
      ∃ w b' t, c.Passes (y :: w) b' ∧ b.position = b'.position ∧ ∃ v, Spells y (w ++ t) v := by
    obtain ⟨w, hw, hpass'⟩ := spells_of_steps hsteps
    have hall : c.Passes (y :: (w ++ u)) b := hquote.trans (hpass'.trans hpass)
    rcases hu with rfl | rfl
    · exact ⟨_, b, [], hall, rfl, v, by simpa using hw⟩
    · refine ⟨_, b, ['n'], hall, rfl, v ++ ['\n'], ?_⟩
      rw [List.append_assoc]
      exact hw.append (.escaped (by decide) .nil)
  rcases Tells.bind h with h | ⟨v, e, hv, h⟩
  · obtain ⟨v, e, hsteps, h⟩ := h.many
    rcases h.orElse with ⟨h, -⟩ | ⟨-, h⟩
    · obtain ⟨-, rfl, rfl⟩ := h.satisfy
      exact ⟨rfl, .inr (behind hsteps (.refl e) (.inl rfl))⟩
    · obtain ⟨hr, u, b, hu, rfl, hkind⟩ := tells_escape h
      exact ⟨hr, .inr (behind hsteps hu hkind)⟩
  · rcases Tells.bind h with h | ⟨_, _, _, h⟩
    · obtain ⟨-, rfl, rfl⟩ := h.char
      refine ⟨rfl, .inr (behind (v := v) ?_ (.refl e) (.inl rfl))⟩
      exact ((result?_many_eq_some (consumes_piece y)).1 hv).steps
    · exact absurd h (Tells.not_pure _)

theorem tells_string (h : Tells string c q r) :
    r = q.offset ∧ (q = c.position ∨ ∃ v t b, v ≠ [] ∧ c.Passes v b ∧ q = b.position ∧
      ∀ p rest, ∃ s d, result? string ⟨p, v ++ (t ++ rest)⟩ = some (s, d) ∧ d.rest = rest) := by
  have quoted {x : Char} (hx : x = '"' ∨ x = '\'') (h : Tells (quotedBy x) c q r) :
      r = q.offset ∧ (q = c.position ∨ ∃ v t b, v ≠ [] ∧ c.Passes v b ∧ q = b.position ∧
        ∀ p rest, ∃ s d, result? string ⟨p, v ++ (t ++ rest)⟩ = some (s, d) ∧ d.rest = rest) := by
    obtain ⟨hr, hq⟩ := tells_quotedBy hx h
    refine ⟨hr, hq.imp_right fun ⟨w, b, t, hpass, hq, v, hv⟩ => ?_⟩
    refine ⟨x :: w, t ++ [x], b, List.cons_ne_nil _ _, hpass, hq, fun p rest => ?_⟩
    refine ⟨String.ofList v, ⟨p.after (x :: (w ++ t) ++ [x]), rest⟩, ?_, rfl⟩
    refine result?_string.2 ⟨x, w ++ t, hx, by rwa [String.toList_ofList], ?_, rfl⟩
    simp
  rcases h.about.map.orElse with ⟨h, -⟩ | ⟨-, h⟩
  · exact quoted (.inl rfl) h
  · exact quoted (.inr rfl) h

theorem tells_chars {w : List Char} (h : Tells (chars w) c q r) :
    r = q.offset ∧ ∃ u v b, w = u ++ v ∧ v ≠ [] ∧ c.Passes u b ∧ q = b.position := by
  induction w generalizing c with
  | nil => exact absurd h (Tells.not_pure _)
  | cons x w ih =>
    rcases Tells.bind h with h | ⟨y, d, hy, h⟩
    · obtain ⟨-, rfl, rfl⟩ := h.char
      exact ⟨rfl, [], x :: w, c, rfl, List.cons_ne_nil _ _, .refl c, rfl⟩
    · obtain ⟨hr, u, v, b, rfl, hv, hpass, hq⟩ := ih h
      exact ⟨hr, x :: u, v, b, rfl, hv, (result?_char_eq_some.1 hy).2.trans hpass, hq⟩

theorem edges_nil (rest : List Char) : Edges [] rest := nofun

theorem tells_keyword {k : String} (hk : isWord k = true) (h : Tells (keyword k) c q r) :
    (q = c.position ∧ result? (keyword k) c = none ∧
      (r = c.position.offset ∨ ∃ w d, result? word c = some (w, d) ∧ r = d.position.offset)) ∨
    ∃ d, c.Passes k.toList d ∧ Stops isNameChar d.rest ∧ q = d.position ∧
      r = d.position.offset := by
  refine (tells_checked h).imp_right fun ⟨_, d, hread, hq⟩ => ?_
  obtain ⟨hpass, hstop⟩ := (result?_keyword hk).1 hread
  exact ⟨d, hpass, hstop, hq⟩

theorem tells_symbol {op : BinaryOp} (h : Tells (symbol op) c q r) :
    ∃ v b, c.Passes v b ∧ q = b.position ∧
      (v = [] ∨ ∃ t, op.Spelled (v ++ t) ∧ (op.word?.isSome = true → Edges v t)) ∧
      (r = b.position.offset ∨
        Edges v b.rest ∧ ∃ w d, result? word b = some (w, d) ∧ r = d.position.offset) := by
  have words {k : String} {t : List Char} (hk : isWord k = true) (hop : op.Spelled (k.toList ++ t))
      (ht : Stops isNameChar t) (h : Tells (keyword k) c q r) :
      ∃ v b, c.Passes v b ∧ q = b.position ∧
        (v = [] ∨ ∃ t, op.Spelled (v ++ t) ∧ (op.word?.isSome = true → Edges v t)) ∧
        (r = b.position.offset ∨
          Edges v b.rest ∧ ∃ w d, result? word b = some (w, d) ∧ r = d.position.offset) := by
    rcases tells_keyword hk h with ⟨rfl, -, hr⟩ | ⟨d, hpass, -, rfl, rfl⟩
    · exact ⟨[], c, .refl c, rfl, .inl rfl, hr.imp_right fun h => ⟨edges_nil _, h⟩⟩
    · exact ⟨_, d, hpass, rfl, .inr ⟨t, hop, fun _ _ _ _ => ht⟩, .inl rfl⟩
  cases op
  case and | or | mem => exact words (t := []) (by decide) (.plain (by decide)) (stops_nil _) h
  case notMem =>
    have hspelled {w : List Char} (hne : w ≠ []) (hw : ∀ x ∈ w, x = ' ' ∨ x = '\t') :
        BinaryOp.Spelled .notMem ("not".toList ++ w ++ "in".toList) := by
      rw [List.append_assoc]
      exact .notMem hne hw
    have hblanks {w : List Char} (hne : w ≠ []) (hw : ∀ x ∈ w, x = ' ' ∨ x = '\t')
        (rest : List Char) : Edges ("not".toList ++ w) rest := by
      intro x hx hname
      rw [List.getLast?_append_of_ne_nil _ hne] at hx
      rcases hw x (List.mem_of_getLast? hx) with rfl | rfl <;> exact absurd hname (by decide)
    rcases Tells.bind h with h | ⟨⟨⟩, d, hnot, h⟩
    · refine words (t := ' ' :: "in".toList) (by decide) ?_ (stops_cons.2 (by decide)) h
      simpa using hspelled (w := [' ']) (by simp) (by simp)
    obtain ⟨hnot, -⟩ := (result?_keyword (by decide)).1 hnot
    rcases Tells.bind h with h | ⟨w, e, hw, h⟩
    · rcases Tells.bind h with h | ⟨x, e, hx, h⟩
      · obtain ⟨-, rfl, rfl⟩ := h.satisfy
        exact ⟨_, d, hnot, rfl, .inr ⟨' ' :: "in".toList,
          hspelled (w := [' ']) (by simp) (by simp),
          fun _ _ _ _ => stops_cons.2 (by decide)⟩, .inl rfl⟩
      rcases Tells.bind h with h | ⟨_, _, _, h⟩
      · obtain ⟨xs, b, hpass, hxs, -, rfl, rfl⟩ := h.many_satisfy
        obtain ⟨hx, hall⟩ := Steps.satisfy (.step hx .refl)
        have hblank : ∀ y ∈ [x] ++ xs, y = ' ' ∨ y = '\t' := by
          intro y hy
          rcases List.mem_append.1 hy with hy | hy
          · simpa using hall y hy
          · simpa using hxs y hy
        exact ⟨_, b, hnot.trans (hx.trans hpass), rfl, .inr ⟨"in".toList,
          hspelled (by simp) hblank, fun _ => hblanks (by simp) hblank _⟩, .inl rfl⟩
      · exact absurd h (Tells.not_pure _)
    obtain ⟨hne, hblank, hpass, -⟩ := result?_blanks.1 hw
    rcases tells_keyword (by decide) h with ⟨rfl, -, hr⟩ | ⟨d, hin, -, rfl, rfl⟩
    · exact ⟨_, e, hnot.trans hpass, rfl,
        .inr ⟨_, hspelled hne hblank, fun _ => hblanks hne hblank _⟩,
        hr.imp_right fun h => ⟨hblanks hne hblank _, h⟩⟩
    · refine ⟨_, d, (hnot.trans hpass).trans hin, rfl, .inr ⟨[], ?_, fun _ _ _ _ => stops_nil _⟩,
        .inl rfl⟩
      rw [List.append_nil]
      exact hspelled hne hblank
  all_goals
    obtain ⟨rfl, u, v, b, hsplit, -, hpass, rfl⟩ := tells_chars h
    exact ⟨u, b, hpass, rfl, .inr ⟨v, hsplit ▸ .plain (by decide), nofun⟩, .inl rfl⟩

end Lexeme
end BuildScript
