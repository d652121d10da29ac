import BuildScript.Proofs.Parse.Statement
import BuildScript.Proofs.Parse.Token
import BuildScript.Proofs.Parse.Torn

/-!
Every failure lies in the text: at a place where nothing was read, or at a whole word that could not
stand there. Parsers go from the end of one token to the end of another one, so no word is read from
its middle on (`tracks_statements`).
-/
namespace BuildScript
open BuildScript.Parser Lexeme Grammar

theorem Edges.append {v w rest rest' : List Char} (hv : Edges v rest) (hrest : rest = w ++ rest')
    (hw : Edges w rest') : Edges (v ++ w) rest' := by
  cases w with
  | nil =>
    rw [List.append_nil, show rest' = rest from hrest.symm]
    exact hv
  | cons x w =>
    intro y hy
    rw [List.getLast?_append_of_ne_nil _ (List.cons_ne_nil _ _)] at hy
    exact hw y hy

theorem edges_of_stops {rest : List Char} (h : Stops isNameChar rest) (w : List Char) :
    Edges w rest :=
  fun _ _ _ => h

theorem edges_concat {x : Char} (hx : isNameChar x = false) (w rest : List Char) :
    Edges (w ++ [x]) rest := by
  intro y hy hname
  rw [List.getLast?_append_of_ne_nil _ (List.cons_ne_nil _ _)] at hy
  obtain rfl : x = y := by simpa using hy
  simp [hx] at hname

namespace Parser
variable {α β : Type}

def Lies (c : Cursor) (q : Position) (r : Nat) : Prop :=
  ∃ v b, c.Passes v b ∧ q = b.position ∧
    (r = b.position.offset ∨
      Edges v b.rest ∧ ∃ w d, result? word b = some (w, d) ∧ r = d.position.offset)

theorem Lies.here {c : Cursor} {q : Position} {r : Nat}
    (h : q = c.position ∧ r = c.position.offset) : Lies c q r :=
  ⟨[], c, .refl c, h.1, .inl h.2⟩

theorem Lies.behind {c d : Cursor} {q : Position} {r : Nat} {w : List Char} (h : c.Passes w d)
    (hw : Edges w d.rest) (hd : Lies d q r) : Lies c q r := by
  obtain ⟨v, b, hv, hq, hr⟩ := hd
  exact ⟨w ++ v, b, h.trans hv, hq, hr.imp_right fun hr => ⟨hw.append hv.1 hr.1, hr.2⟩⟩

theorem Lies.le {c : Cursor} {q : Position} {r : Nat} (h : Lies c q r) :
    c.position.offset ≤ q.offset ∧ q.offset ≤ r := by
  obtain ⟨v, b, hv, rfl, hr⟩ := h
  refine ⟨by rw [hv.offset_eq]; omega, ?_⟩
  rcases hr with rfl | ⟨-, w, d, hw, rfl⟩
  · exact Nat.le_refl _
  · obtain ⟨u, hu⟩ := forward_word _ _ _ hw
    rw [hu.offset_eq]
    omega

/-- A parser that goes from the end of a token to the end of a token, and whose failures lie in the
text. -/
structure Tracks (p : Parser α) : Prop where
  edges {c d : Cursor} {a : α} (h : result? p c = some (a, d)) : ∃ w, c.Passes w d ∧ Edges w d.rest
  lies {c : Cursor} {q : Position} {r : Nat} (h : Tells p c q r) : Lies c q r

namespace Tracks
variable {p : Parser α} {p' : Parser β} {f : α → Parser β}

theorem forward (h : Tracks p) : Forward p := by
  intro c a d hp
  obtain ⟨w, hw, -⟩ := h.edges hp
  exact ⟨w, hw⟩

theorem pure (a : α) : Tracks (Pure.pure a : Parser α) where
  edges h := by
    cases h
    exact ⟨[], .refl _, edges_nil _⟩
  lies h := absurd h (Tells.not_pure a)

theorem bind (hp : Tracks p) (hf : ∀ a, Tracks (f a)) : Tracks (p >>= f) where
  edges h := by
    rw [result?_bind] at h
    obtain ⟨⟨a, e⟩, ha, hb⟩ := Option.bind_eq_some_iff.1 h
    obtain ⟨v, hv, hve⟩ := hp.edges ha
    obtain ⟨w, hw, hwe⟩ := (hf a).edges hb
    exact ⟨v ++ w, hv.trans hw, hve.append hw.1 hwe⟩
  lies h := by
    rcases h.bind with h | ⟨a, d, ha, h⟩
    · exact hp.lies h
    · obtain ⟨w, hw, hwe⟩ := hp.edges ha
      exact ((hf a).lies h).behind hw hwe

theorem map (hp : Tracks p) (g : α → β) : Tracks (g <$> p) :=
  hp.bind fun a => .pure (g a)

theorem seqLeft (hp : Tracks p) (hp' : Tracks p') : Tracks (p <* p') :=
  hp.bind fun a => hp'.bind fun _ => .pure a

theorem seqRight (hp : Tracks p) (hp' : Tracks p') : Tracks (p *> p') :=
  hp.bind fun _ => hp'

theorem skip (hp : Tracks p) : Tracks (skip p) :=
  hp.bind fun _ => .pure _

theorem fail : Tracks (Parser.fail : Parser α) where
  edges h := by cases h
  lies h := .here h.fail

theorem char {x : Char} (hx : isNameChar x = false) : Tracks (Parser.char x) where
  edges h := ⟨[x], (result?_char_eq_some.1 h).2, edges_concat hx [] _⟩
  lies h := .here h.char.2

theorem endOfInput : Tracks Parser.endOfInput where
  edges h := by
    rw [result?_endOfInput] at h
    split at h
    · cases h
      exact ⟨[], .refl _, edges_nil _⟩
    · cases h
  lies h := .here h.endOfInput.2

theorem orElse {p p' : Parser α} (hp : Tracks p) (hp' : Tracks p') : Tracks (p <|> p') where
  edges h := by
    rw [result?_orElse] at h
    rcases Option.or_eq_some_iff.1 h with h | ⟨-, h⟩
    · exact hp.edges h
    · exact hp'.edges h
  lies h := h.orElse.elim (hp.lies ·.1) (hp'.lies ·.2)

theorem choice {ps : List (Parser α)} (h : ∀ p ∈ ps, Tracks p) : Tracks (Parser.choice ps) where
  edges hc := by
    rw [result?_choice] at hc
    obtain ⟨p, hp, hpc⟩ := List.exists_of_findSome?_eq_some hc
    exact (h p hp).edges hpc
  lies ht := by
    rcases ht.choice with ⟨p, hp, ht, -⟩ | ht
    · exact (h p hp).lies ht
    · exact .here ht

theorem steps (hp : Tracks p) {c d : Cursor} {as : List α} (h : Steps p c as d) :
    ∃ w, c.Passes w d ∧ Edges w d.rest := by
  induction h with
  | refl => exact ⟨[], .refl _, edges_nil _⟩
  | step h _ ih =>
    obtain ⟨v, hv, hve⟩ := hp.edges h
    obtain ⟨w, hw, hwe⟩ := ih
    exact ⟨v ++ w, hv.trans hw, hve.append hw.1 hwe⟩

theorem many (hp : Tracks p) (hc : Consumes p) : Tracks (Parser.many p) where
  edges h := hp.steps ((result?_many_eq_some hc).1 h).steps
  lies h := by
    obtain ⟨as, d, hsteps, h⟩ := h.many
    obtain ⟨w, hw, hwe⟩ := hp.steps hsteps
    exact (hp.lies h).behind hw hwe

theorem optional (hp : Tracks p) : Tracks (Parser.optional p) where
  edges {c d a} h := by
    rw [result?_optional] at h
    cases hc : result? p c with
    | none =>
      rw [hc] at h
      cases h
      exact ⟨[], .refl _, edges_nil _⟩
    | some s =>
      rw [hc] at h
      cases h
      exact hp.edges hc
  lies h := hp.lies h.optional

theorem spanned (hp : Tracks p) : Tracks (Parser.spanned p) where
  edges h := by
    rw [result?_spanned] at h
    obtain ⟨s, hs, h⟩ := Option.map_eq_some_iff.1 h
    cases h
    exact hp.edges hs
  lies h := hp.lies h.spanned

theorem about (hp : Tracks p) (name : String) : Tracks (Parser.about name p) where
  edges h := by
    rw [result?_about] at h
    exact hp.edges h
  lies h := hp.lies h.about

theorem checked (check : String → Except Reason β) : Tracks (filterMap word check) where
  edges h := by
    rw [result?_filterMap] at h
    obtain ⟨s, hs, h⟩ := Option.bind_eq_some_iff.1 h
    obtain ⟨_, -, h⟩ := Option.map_eq_some_iff.1 h
    cases h
    obtain ⟨-, hpass, hstop⟩ := result?_word.1 hs
    exact ⟨_, hpass, edges_of_stops hstop _⟩
  lies {c q r} h := by
    rcases tells_checked h with ⟨hq, -, hr⟩ | ⟨_, d, hread, rfl, rfl⟩
    · exact ⟨[], c, .refl c, hq, hr.imp_right fun h => ⟨edges_nil _, h⟩⟩
    · obtain ⟨w, hw⟩ := (forward_word.filterMap check) _ _ _ hread
      exact ⟨w, d, hw, rfl, .inl rfl⟩

end Tracks
end Parser

namespace Mode
variable {m : Mode}

theorem not_isNameChar_of_blank {x : Char} (h : m.blank x = true) : isNameChar x = false := by
  have hopens : Mode.free.opens x = true := by
    cases m with
    | free => simp only [opens, h, Bool.true_or]
    | line =>
      simp only [blank, Bool.or_eq_true, beq_iff_eq] at h
      rcases h with (rfl | rfl) | rfl <;> decide
  have hnumber := not_isNumberChar_of_opens hopens
  rw [← Bool.not_eq_true] at hnumber ⊢
  exact fun h => hnumber (isNumberChar_of_nameChar h)

theorem Row.edges {w : List Char} (h : Row m w) (rest : List Char) : Edges w rest := by
  have cons (x : Char) {w : List Char} (hx : isNameChar x = false) (hw : Edges w rest) :
      Edges (x :: w) rest :=
    Edges.append (v := [x]) (edges_concat hx [] (w ++ rest)) rfl hw
  induction h with
  | nil => exact edges_nil rest
  | blank hx _ ih => exact cons _ (not_isNameChar_of_blank hx) ih
  | fold _ _ ih => exact cons _ (by decide) (cons _ (by decide) ih)
  | @comment y w _ _ _ ih =>
    have hline := cons '\n' (by decide) ih
    intro x hx
    rw [List.getLast?_append_of_ne_nil _ (List.cons_ne_nil _ _)] at hx
    exact hline x hx

theorem tracks_gap (m : Mode) : Tracks m.gap where
  edges {c d _} h := by
    obtain ⟨us, hrun⟩ := skips_iff.1 (show m.Skips c d from h)
    obtain ⟨g, y, hpass, hg, hy⟩ := row_of_steps hrun.steps
    refine ⟨_, hpass, (hg.edges (y ++ d.rest)).append rfl ?_⟩
    rcases hy with rfl | ⟨-, hstop⟩
    · exact edges_nil _
    · refine edges_of_stops (fun x hx => ?_) y
      obtain rfl : x = '\n' := by simpa using hstop x hx
      decide
  lies h := by
    obtain ⟨rfl, v, b, hv, rfl, -⟩ := tells_gap h
    exact ⟨v, b, hv, rfl, .inl rfl⟩

end Mode

namespace Lexeme

theorem tracks_number : Tracks number where
  edges h := by
    obtain ⟨-, hpass, hstop⟩ := result?_number.1 h
    exact ⟨_, hpass, edges_of_stops (hstop.mono fun _ => isNumberChar_of_nameChar) _⟩
  lies {c q r} h := by
    obtain ⟨rfl, rfl | ⟨t, d, hread, rfl⟩⟩ := tells_number h
    · exact .here ⟨rfl, rfl⟩
    · exact ⟨_, d, (result?_number.1 hread).2.1, rfl, .inl rfl⟩

theorem tracks_string : Tracks string where
  edges h := by
    obtain ⟨x, w, hx, -, hpass⟩ := result?_string.1 h
    exact ⟨_, hpass, edges_concat (by rcases hx with rfl | rfl <;> decide) _ _⟩
  lies h := by
    obtain ⟨rfl, rfl | ⟨v, t, b, -, hpass, rfl, -⟩⟩ := tells_string h
    · exact .here ⟨rfl, rfl⟩
    · exact ⟨v, b, hpass, rfl, .inl rfl⟩

theorem tracks_name : Tracks name :=
  (Tracks.checked _).about _

theorem tracks_keyword (k : String) : Tracks (keyword k) :=
  .checked _

theorem tracks_symbol (op : BinaryOp) : Tracks (symbol op) where
  edges h := by
    obtain ⟨w, hw, hpass, hstop⟩ := readsSymbol_iff.1 h
    refine ⟨w, hpass, ?_⟩
    cases hword : op.word?.isSome with
    | true => exact edges_of_stops (hstop hword) w
    | false =>
      cases hw with
      | notMem => cases hword
      | plain =>
        intro x hx hname
        have table : ∀ op ∈ BinaryOp.all, op.word?.isSome = false →
            op.symbol.toList.getLast?.any isNameChar = false := by
          decide
        have := table op (BinaryOp.mem_all op) hword
        rw [Option.mem_def.1 hx] at this
        simp [hname] at this
  lies h := by
    obtain ⟨v, b, hpass, hq, -, hr⟩ := tells_symbol h
    exact ⟨v, b, hpass, hq, hr⟩

theorem tracks_operator (m : Mode) (level : Precedence) : Tracks (operator m.gap level) := by
  unfold operator
  refine Tracks.seqLeft ?_ (Mode.tracks_gap m)
  induction BinaryOp.longestFirst level with
  | nil => exact .fail
  | cons op ops ih => exact ((tracks_symbol op).bind fun _ => .pure _).orElse ih

end Lexeme

namespace Grammar

theorem tracks_opening {x : Char} (hx : isNameChar x = false) : Tracks (opening x) :=
  (Tracks.char hx).seqRight (Mode.tracks_gap .free)

theorem tracks_comma : Tracks comma := tracks_opening (by decide)

section Levels
variable {m : Mode} {p n : Parser Expr}

theorem tracks_step (hp : Tracks p) (level : Precedence) : Tracks (step m p level) :=
  (tracks_operator m level).bind fun _ => hp.bind fun _ => .pure _

theorem tracks_leftChain (hp : Tracks p) (level : Precedence) :
    Tracks (leftChain m.gap p level) :=
  hp.bind fun _ => ((tracks_step hp level).many (consumes_step hp.forward level)).bind fun _ =>
    .pure _

theorem tracks_single (hp : Tracks p) (level : Precedence) : Tracks (single m.gap p level) :=
  hp.bind fun _ => (tracks_step hp level).optional.bind fun _ => .pure _

theorem tracks_signs {level : Precedence} {sign : Parser UnaryOp} (hs : SignsOf level sign)
    (ht : Tracks sign) (hp : Tracks p) : Tracks (signs m.gap sign p) :=
  ((ht.spanned.seqLeft (Mode.tracks_gap m)).many (consumes_signed hs)).bind fun _ =>
    hp.bind fun _ => .pure _

theorem tracks_sign : Tracks sign := by
  refine .choice fun p hp => ?_
  simp only [List.mem_cons, List.not_mem_nil, or_false] at hp
  rcases hp with rfl | rfl | rfl <;> exact (Tracks.char (by decide)).seqRight (.pure _)

theorem tracks_items (hn : Tracks n) : Tracks (items n) := by
  refine Tracks.bind (Tracks.optional (hn.bind fun _ => Tracks.bind ?_ fun _ =>
    tracks_comma.optional.bind fun _ => .pure _)) fun _ => .pure _
  exact (tracks_comma.bind fun _ => hn).many (consumes_item hn.forward)

theorem tracks_enclosed {α : Type} {q : Parser α} (hq : Tracks q) {x y : Char}
    (hx : isNameChar x = false) (hy : isNameChar y = false) :
    Tracks (opening x *> q <* char y) :=
  ((tracks_opening hx).seqRight hq).seqLeft (.char hy)

theorem tracks_leaf : Tracks leaf := by
  refine .choice fun p hp => ?_
  simp only [List.mem_cons, List.not_mem_nil, or_false] at hp
  rcases hp with rfl | rfl | rfl
  · exact tracks_number.map _
  · exact tracks_string.map _
  · exact tracks_name.map _

theorem tracks_atom (hn : Tracks n) : Tracks (atom m.gap n) := by
  refine Tracks.bind (Tracks.spanned (.choice fun p hp => ?_)) fun _ =>
    (Mode.tracks_gap m).bind fun _ => .pure _
  simp only [List.mem_cons, List.not_mem_nil, or_false] at hp
  rcases hp with rfl | rfl | rfl
  · exact tracks_leaf
  · exact (tracks_enclosed hn (by decide) (by decide)).map _
  · exact (tracks_enclosed (tracks_items hn) (by decide) (by decide)).map _

theorem tracks_suffix (hn : Tracks n) : Tracks (suffix m n) := by
  refine Tracks.seqLeft (Tracks.spanned (.orElse ?_ ?_)) (Mode.tracks_gap m)
  · exact (tracks_enclosed (tracks_items hn) (by decide) (by decide)).map _
  · exact (Tracks.char (by decide)).bind fun _ => (Mode.tracks_gap m).bind fun _ =>
      tracks_name.map _

theorem tracks_operand (hn : Tracks n) : Tracks (operand m.gap n) :=
  (tracks_atom hn).bind fun _ =>
    ((tracks_suffix hn).many (consumes_suffix hn.forward)).bind fun _ => .pure _

theorem tracks_arithmetic (hn : Tracks n) : Tracks (arithmetic m.gap n) :=
  arithmetic_induct (motive := fun _ p => Tracks p)
    (tracks_signs signsOf_sign tracks_sign (tracks_operand hn))
    fun level _ _ hp => tracks_leftChain hp level

theorem tracks_negation (hn : Tracks n) : Tracks (negation m.gap n) :=
  tracks_signs signsOf_negation ((tracks_keyword "not").seqRight (.pure _))
    (tracks_single (tracks_arithmetic hn) .compare)

theorem tracks_expression (hn : Tracks n) : Tracks (expression m.gap n) :=
  tracks_single (tracks_leftChain (tracks_leftChain (tracks_negation hn) .and) .or) .assign

theorem tracks_nested (depth : Nat) : Tracks (nested depth) := by
  induction depth with
  | zero => exact .fail
  | succ depth ih => exact tracks_expression (m := .free) ih

end Levels

theorem tracks_binding : Tracks binding :=
  (tracks_name.spanned.bind fun _ => (Mode.tracks_gap .free).bind fun _ =>
    (Tracks.char (by decide)).bind fun _ => (Mode.tracks_gap .free).bind fun _ =>
      tracks_string.spanned.bind fun _ => .pure _).orElse
    (tracks_string.spanned.bind fun _ => .pure _)

theorem tracks_bindingItem : Tracks (comma *> binding <* gap) :=
  (tracks_comma.seqRight tracks_binding).seqLeft (Mode.tracks_gap .free)

theorem tracks_load : Tracks load := by
  refine Tracks.about (Tracks.bind (Tracks.spanned ?_) fun _ => .pure _) _
  exact (tracks_keyword _).bind fun _ => (Mode.tracks_gap .free).bind fun _ =>
    (Tracks.char (by decide)).bind fun _ => (Mode.tracks_gap .free).bind fun _ =>
      tracks_string.spanned.bind fun _ => (Mode.tracks_gap .free).bind fun _ =>
        (tracks_bindingItem.many consumes_bindings).bind fun _ =>
          tracks_comma.optional.bind fun _ => (Tracks.char (by decide)).bind fun _ => .pure _

theorem tracks_lineEnd : Tracks lineEnd :=
  ((Tracks.char (by decide)).skip.orElse .endOfInput).about _

theorem tracks_statement (depth : Nat) : Tracks (statement depth) :=
  (tracks_load.seqLeft (Mode.tracks_gap .line)).orElse
    (tracks_expression (m := .line) (tracks_nested depth))

theorem tracks_line (depth : Nat) : Tracks (line depth) :=
  ((tracks_statement depth).seqLeft tracks_lineEnd).seqLeft (Mode.tracks_gap .free)

theorem tracks_statements (depth : Nat) : Tracks (statements depth) :=
  ((Mode.tracks_gap .free).seqRight ((tracks_line depth).many (consumes_line depth))).seqLeft
    .endOfInput

end Grammar
end BuildScript
