import BuildScript.Proofs.Parse.Comments
import BuildScript.Proofs.Parse.Reading

/-!
Looking for comments keeps step with the grammar. Both take the same text apart: wherever an
expression, a word of one or a gap between two words begins or ends, the search for comments comes
by (`Reads.scanned`), so a word holds no comment, and the comments of a text stand one behind the
other on lines of their own (`Scanned.pairwise`).
-/
namespace BuildScript
open BuildScript.Parser Lexeme

namespace Grammar

theorem plain_numberChar {x : Char} (h : isNumberChar x = true) : Plain x := by
  refine ⟨?_, ?_, ?_⟩ <;> (rintro rfl; exact absurd h (by decide))

theorem plain_blank {x : Char} {m : Mode} (h : m.blank x = true) : Plain x := by
  refine ⟨?_, ?_, ?_⟩ <;> (rintro rfl; revert h; cases m <;> decide)

theorem plain_number {t : String} (h : isNumber t = true) : ∀ x ∈ t.toList, Plain x := by
  obtain ⟨d, ds, ht, hd, hds⟩ := isNumber_iff.1 h
  rw [ht]
  exact List.forall_mem_cons.2 ⟨plain_numberChar (isNumberChar_of_digit hd),
    fun x hx => plain_numberChar (hds x hx)⟩

theorem plain_word {w : String} (h : isWord w = true) : ∀ x ∈ w.toList, Plain x := by
  obtain ⟨c, cs, hw, hc, hcs⟩ := isWord_iff.1 h
  rw [hw]
  exact List.forall_mem_cons.2
    ⟨plain_numberChar (isNumberChar_of_nameChar (isNameChar_of_start hc)),
      fun x hx => plain_numberChar (isNumberChar_of_nameChar (hcs x hx))⟩

theorem plain_symbol {op : BinaryOp} {w : List Char} (h : op.Spelled w) :
    ∀ x ∈ w, Plain x := by
  cases h with
  | plain _ => exact forall_plain (by cases op <;> decide)
  | notMem _ hw =>
    refine List.forall_mem_append.2 ⟨forall_plain (by decide), List.forall_mem_append.2
      ⟨fun x hx => ?_, forall_plain (by decide)⟩⟩
    rcases hw x hx with rfl | rfl <;> decide

/-- The search for comments leads from `c` to `d`, and the comments on the way are those of the
list. -/
inductive Scanned : Cursor → List Comment → Cursor → Prop
  | refl {c : Cursor} : Scanned c [] c
  | step {c d e : Cursor} {found : Option Comment} {comments : List Comment}
    (h : result? commentOrOther c = some (found, d)) (rest : Scanned d comments e) :
    Scanned c (found.toList ++ comments) e

theorem result?_commentOrOther {c d : Cursor} {found : Option Comment}
    (h : result? commentOrOther c = some (found, d)) :
    (∃ body, '\n' ∉ body ∧ c.Passes ('#' :: body) d ∧ Stops (· != '\n') d.rest ∧
      found = some ⟨c.span d, String.ofList (trimEnd ('#' :: body))⟩) ∨
    found = none ∧ ((∃ v, result? string c = some (v, d)) ∨ ∃ x, c.Passes [x] d) := by
  cases found with
  | some cm =>
    obtain ⟨text, hc, rfl⟩ := result?_commentOrOther_some.1 h
    obtain ⟨body, rfl, hn, hpass, hstop⟩ := result?_comment.1 hc
    exact .inl ⟨body, hn, hpass, hstop, rfl⟩
  | none =>
    refine .inr ⟨rfl, ?_⟩
    unfold commentOrOther at h
    rw [result?_orElse, Option.or_eq_some_iff] at h
    rcases h with h | ⟨-, h⟩
    · rw [result?_bind, Option.bind_eq_some_iff] at h
      obtain ⟨_, -, heq⟩ := h
      cases heq
    · rw [result?_bind, result?_orElse, Option.bind_eq_some_iff] at h
      obtain ⟨⟨⟨⟩, d'⟩, h, heq⟩ := h
      cases heq
      rw [Option.or_eq_some_iff, result?_skip, result?_skip] at h
      rcases h with h | ⟨-, x, h⟩
      · exact .inl h
      · exact .inr ⟨x, (result?_charWhere_eq_some.1 h).2⟩

namespace Scanned
variable {c d e : Cursor} {as bs : List Comment}

theorem trans (h : Scanned c as d) (k : Scanned d bs e) : Scanned c (as ++ bs) e := by
  induction h with
  | refl => exact k
  | step h _ ih =>
    rw [List.append_assoc]
    exact .step h (ih k)

theorem of_run {out : List (Option Comment)} (h : Run commentOrOther c out d) :
    Scanned c (out.filterMap id) d := by
  induction h with
  | stop _ => exact .refl
  | @step _ _ _ found out h _ ih =>
    have hcons : (found :: out).filterMap id = found.toList ++ out.filterMap id := by
      cases found <;> rfl
    rw [hcons]
    exact .step h ih

theorem scans (h : Scanned c as d) (k : Scans d bs e) : Scans c (as ++ bs) e := by
  induction h with
  | refl => exact k
  | @step _ _ _ found _ h _ ih =>
    obtain ⟨out, hrun, heq⟩ := ih k
    refine ⟨found :: out, .step h hrun, ?_⟩
    rw [List.append_assoc, ← heq]
    cases found <;> rfl

theorem other (h : result? commentOrOther c = some (none, d)) (k : Scanned d as e) :
    Scanned c as e :=
  .step h k

theorem string {v : String} (h : result? Lexeme.string c = some (v, d)) : Scanned c [] d := by
  refine .other ?_ .refl
  obtain ⟨q, w, hq, -, hpass⟩ := result?_string.1 h
  rw [result?_commentOrOther_none, h]
  · rfl
  · rw [hpass.1]
    rcases hq with rfl | rfl <;> simp

theorem comment {body : List Char} (hn : '\n' ∉ body) (h : c.Passes ('#' :: body) d)
    (hs : Stops (· != '\n') d.rest) :
    Scanned c [⟨c.span d, String.ofList (trimEnd ('#' :: body))⟩] d :=
  .step (result?_commentOrOther_some.2 ⟨_, result?_comment.2 ⟨body, rfl, hn, h, hs⟩, rfl⟩) .refl

theorem word {w : List Char} (hw : ∀ x ∈ w, Plain x) (h : c.Passes w d) : Scanned c [] d := by
  induction w generalizing c with
  | nil =>
    obtain ⟨p, rest, rfl, rfl⟩ := h.split
    exact .refl
  | cons x w ih =>
    obtain ⟨hx, hw⟩ := List.forall_mem_cons.1 hw
    obtain ⟨b, hfirst, h⟩ := h.append (v := [x])
    refine .other ?_ (ih hw h)
    obtain ⟨p, rest, rfl, rfl⟩ := hfirst.split
    rw [result?_commentOrOther_none (by simpa using hx.1), result?_string_of_stops,
      List.singleton_append, result?_charWhere_cons]
    · rfl
    · exact stops_cons.2 (by simp [hx.2])

theorem gap {m : Mode} (h : m.Skips c d) : ∃ cs, Scanned c cs d := by
  refine h.induct (motive := fun c => ∃ cs, Scanned c cs d) ⟨[], .refl⟩ ?_
  rintro a b hab ⟨cs, hb⟩
  rcases Mode.result?_piece.1 hab with ⟨x, hx, hpass⟩ | ⟨-, hpass⟩ | ⟨body, hn, hpass, hstop⟩
  · exact ⟨_, (word (List.forall_mem_singleton.2 (plain_blank hx)) hpass).trans hb⟩
  · exact ⟨_, (word (forall_plain (by decide)) hpass).trans hb⟩
  · exact ⟨_, (comment hn hpass hstop).trans hb⟩

theorem passes (h : Scanned c as d) : ∃ w, c.Passes w d := by
  induction h with
  | refl => exact ⟨[], .refl _⟩
  | step h _ ih =>
    obtain ⟨w, hw⟩ := ih
    rcases result?_commentOrOther h with ⟨body, -, hpass, -⟩ | ⟨-, ⟨v, h⟩ | ⟨x, hpass⟩⟩
    · exact ⟨_, hpass.trans hw⟩
    · obtain ⟨q, w', -, -, hpass⟩ := result?_string.1 h
      exact ⟨_, hpass.trans hw⟩
    · exact ⟨_, hpass.trans hw⟩

theorem mem (h : Scanned c as d) : ∀ cm ∈ as, ∃ a b u body v, c.Passes u a ∧
    a.Passes ('#' :: body) b ∧ b.Passes v d ∧ '\n' ∉ body ∧ cm.span = a.span b := by
  induction h with
  | refl => simp
  | @step c d e found comments h rest ih =>
    obtain ⟨v, hv⟩ := rest.passes
    obtain ⟨w, hw⟩ := (Scanned.step h .refl).passes
    refine List.forall_mem_append.2 ⟨?_, fun cm hcm => ?_⟩
    · rcases result?_commentOrOther h with ⟨body, hn, hpass, -, rfl⟩ | ⟨rfl, -⟩
      · exact List.forall_mem_singleton.2 ⟨c, d, [], body, v, .refl c, hpass, hv, hn, rfl⟩
      · simp
    · obtain ⟨a, b, u, body, v, hu, hbody, hv, hn, hspan⟩ := ih cm hcm
      exact ⟨a, b, w ++ u, body, v, hw.trans hu, hbody, hv, hn, hspan⟩

theorem line_lt (h : Scanned c as d) (hc : Stops (· != '\n') c.rest) :
    ∀ cm ∈ as, c.position.line < cm.span.start.line := by
  cases h with
  | refl => simp
  | @step _ d _ found comments h rest =>
    have hnot {x : Char} {w : List Char} (hx : x ≠ '\n') (hpass : c.Passes (x :: w) d) : False := by
      exact hpass.not_stops (by simp [hx]) hc
    rcases result?_commentOrOther h with ⟨body, -, hpass, -⟩ | ⟨rfl, ⟨v, h⟩ | ⟨x, hpass⟩⟩
    · exact (hnot (by decide) hpass).elim
    · obtain ⟨q, w, hq, -, hpass⟩ := result?_string.1 h
      exact (hnot (by rcases hq with rfl | rfl <;> decide) hpass).elim
    · intro cm hcm
      obtain ⟨a, b, u, _, _, hu, -, -, -, hspan⟩ := rest.mem cm hcm
      have hx : x = '\n' := by
        by_contra hx
        exact hnot hx hpass
      have hline : d.position.line = c.position.line + 1 := by
        rw [hpass.2, hx]
        rfl
      have hle := hu.line_le
      rw [hspan]
      show c.position.line < a.position.line
      omega

/-- The comments stand one behind the other, each on a line of its own. -/
theorem pairwise (h : Scanned c as d) : as.Pairwise fun a b =>
    a.span.stop.offset ≤ b.span.start.offset ∧ a.span.start.line < b.span.start.line := by
  induction h with
  | refl => exact .nil
  | @step c d e found comments h rest ih =>
    rcases result?_commentOrOther h with ⟨body, hn, hpass, hstop, rfl⟩ | ⟨rfl, -⟩
    · refine List.pairwise_cons.2 ⟨fun cm hcm => ⟨?_, ?_⟩, ih⟩
      · obtain ⟨a, b, u, _, _, hu, -, -, -, hspan⟩ := rest.mem cm hcm
        rw [hspan]
        exact hu.offset_eq ▸ Nat.le_add_right _ _
      · exact Nat.lt_of_le_of_lt hpass.line_le (rest.line_lt hstop cm hcm)
    · exact ih

end Scanned

theorem plain_sign (op : UnaryOp) : ∀ x ∈ op.symbol.toList, Plain x :=
  forall_plain (by cases op <;> decide)

theorem Opens.scanned {x : Char} (hx : Plain x) {c d : Cursor} (h : Opens x c d) :
    ∃ cs, Scanned c cs d := by
  obtain ⟨e, hpass, hskip⟩ := h
  obtain ⟨cs, hcs⟩ := Scanned.gap hskip
  exact ⟨_, (Scanned.word (List.forall_mem_singleton.2 hx) hpass).trans hcs⟩

theorem Scanned.number {t : String} {c d : Cursor} (h : result? Lexeme.number c = some (t, d)) :
    Scanned c [] d :=
  .word (plain_number (result?_number.1 h).1) (result?_number.1 h).2.1

theorem Scanned.name {n : String} {c d : Cursor} (h : result? Lexeme.name c = some (n, d)) :
    Scanned c [] d :=
  .word (plain_word (isName_iff.1 (result?_name.1 h).1).1) (result?_name.1 h).2.1

theorem Scanned.symbol {op : BinaryOp} {c d : Cursor} (h : ReadsSymbol op c d) :
    Scanned c [] d := by
  obtain ⟨w, hw, hpass, -⟩ := readsSymbol_iff.1 h
  exact .word (plain_symbol hw) hpass

theorem Scanned.sign {op : UnaryOp} {c d : Cursor} (h : ReadsSign op c d) : Scanned c [] d :=
  .word (plain_sign op) h.1

theorem Scanned.char {x : Char} (hx : Plain x) {c d : Cursor} (h : c.Passes [x] d) :
    Scanned c [] d :=
  .word (List.forall_mem_singleton.2 hx) h

mutual
/-- The search for comments comes by wherever an expression begins or ends. -/
theorem Reads.scanned {m : Mode} {e : Expr} {c d : Cursor} (h : Reads m e c d) :
    ∃ cs, Scanned c cs d := by
  match h with
  | .literal h => exact ⟨[], .number h⟩
  | .string h => exact ⟨[], .string h⟩
  | .ident h => exact ⟨[], .name h⟩
  | .paren ho hx hg hc =>
    obtain ⟨_, ho⟩ := ho.scanned (by decide)
    obtain ⟨_, hx⟩ := hx.scanned
    obtain ⟨_, hg⟩ := Scanned.gap hg
    exact ⟨_, ((ho.trans hx).trans hg).trans (.char (by decide) hc)⟩
  | .list ho hx hc =>
    obtain ⟨_, ho⟩ := ho.scanned (by decide)
    obtain ⟨_, hx⟩ := hx.scanned
    exact ⟨_, (ho.trans hx).trans (.char (by decide) hc)⟩
  | .call hf hg ho hx hc =>
    obtain ⟨_, hf⟩ := hf.scanned
    obtain ⟨_, hg⟩ := Scanned.gap hg
    obtain ⟨_, ho⟩ := ho.scanned (by decide)
    obtain ⟨_, hx⟩ := hx.scanned
    exact ⟨_, (((hf.trans hg).trans ho).trans hx).trans (.char (by decide) hc)⟩
  | .dot hx hg hd hg' hn =>
    obtain ⟨_, hx⟩ := hx.scanned
    obtain ⟨_, hg⟩ := Scanned.gap hg
    obtain ⟨_, hg'⟩ := Scanned.gap hg'
    exact ⟨_, (((hx.trans hg).trans (.char (by decide) hd)).trans hg').trans (.name hn)⟩
  | .unary hs hg hx =>
    obtain ⟨_, hg⟩ := Scanned.gap hg
    obtain ⟨_, hx⟩ := hx.scanned
    exact ⟨_, ((Scanned.sign hs).trans hg).trans hx⟩
  | .binary hl hg hs hg' hr =>
    obtain ⟨_, hl⟩ := hl.scanned
    obtain ⟨_, hg⟩ := Scanned.gap hg
    obtain ⟨_, hg'⟩ := Scanned.gap hg'
    obtain ⟨_, hr⟩ := hr.scanned
    exact ⟨_, (((hl.trans hg).trans (.symbol hs)).trans hg').trans hr⟩

theorem ReadsItems.scanned {xs : List Expr} {c d : Cursor} (h : ReadsItems xs c d) :
    ∃ cs, Scanned c cs d := by
  match h with
  | .nil => exact ⟨[], .refl⟩
  | .last hx hg =>
    obtain ⟨_, hx⟩ := hx.scanned
    obtain ⟨_, hg⟩ := Scanned.gap hg
    exact ⟨_, hx.trans hg⟩
  | .comma hx hg hc =>
    obtain ⟨_, hx⟩ := hx.scanned
    obtain ⟨_, hg⟩ := Scanned.gap hg
    obtain ⟨_, hc⟩ := hc.scanned (by decide)
    exact ⟨_, (hx.trans hg).trans hc⟩
  | .cons hx hg hc h =>
    obtain ⟨_, hx⟩ := hx.scanned
    obtain ⟨_, hg⟩ := Scanned.gap hg
    obtain ⟨_, hc⟩ := hc.scanned (by decide)
    obtain ⟨_, h⟩ := h.scanned
    exact ⟨_, ((hx.trans hg).trans hc).trans h⟩
end

end Grammar
end BuildScript
