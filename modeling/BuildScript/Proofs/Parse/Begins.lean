import BuildScript.Proofs.Parse.Statement
import BuildScript.Proofs.Parse.Torn

/-!
What the parsers begin with. Where the next character is none of those, a parser fails without
having read anything; so of several alternatives that begin differently at most one reads on. Where
a word stands, an expression takes it or is refused for it (`Grammar.stays_expression`).
-/
namespace BuildScript
open BuildScript.Parser Lexeme Grammar

namespace Parser
variable {α β : Type} {p : Parser α} {f : α → Parser β} {c : Cursor} {test test' : Char → Bool}

def Shy (p : Parser α) (c : Cursor) : Prop :=
  result? p c = none ∧ ∀ {q r}, Tells p c q r → q = c.position ∧ r = c.position.offset

structure Begins (test : Char → Bool) (p : Parser α) : Prop where
  shy {c : Cursor} (h : Stops test c.rest) : Shy p c

namespace Shy

theorem bind (h : Shy p c) : Shy (p >>= f) c := by
  refine ⟨by rw [result?_bind, h.1, Option.bind_none], fun ht => ?_⟩
  rcases ht.bind with ht | ⟨a, d, ha, -⟩
  · exact h.2 ht
  · rw [h.1] at ha
    cases ha

theorem orElse {p' : Parser α} (h : Shy p c) (h' : Shy p' c) : Shy (p <|> p') c := by
  refine ⟨by rw [result?_orElse, h.1, h'.1, Option.or_none], fun ht => ?_⟩
  rcases ht.orElse with ⟨ht, -⟩ | ⟨-, ht⟩
  · exact h.2 ht
  · exact h'.2 ht

theorem choice {ps : List (Parser α)} (h : ∀ p ∈ ps, Shy p c) : Shy (Parser.choice ps) c := by
  refine ⟨?_, fun ht => ?_⟩
  · rw [result?_choice, List.findSome?_eq_none_iff]
    exact fun p hp => (h p hp).1
  · rcases ht.choice with ⟨p, hp, ht, -⟩ | ht
    · exact (h p hp).2 ht
    · exact ht

theorem spanned (h : Shy p c) : Shy (Parser.spanned p) c := by
  refine ⟨by rw [result?_spanned, h.1, Option.map_none], fun ht => h.2 ht.spanned⟩

theorem about (h : Shy p c) (name : String) : Shy (Parser.about name p) c :=
  ⟨by rw [result?_about, h.1], fun ht => h.2 ht.about⟩

theorem many_bind {f : List α → Parser β} (h : Shy p c) (hf : Shy (f []) c) :
    Shy (Parser.many p >>= f) c := by
  obtain ⟨e, he⟩ := exists_failure h.1
  have hmany := result?_of_success (many_failure he)
  refine ⟨by rw [result?_bind, hmany, Option.bind_some, hf.1], fun ht => ?_⟩
  rcases ht.bind with ht | ⟨as, d, has, ht⟩
  · obtain ⟨as, d, hsteps, ht⟩ := ht.many
    cases hsteps with
    | refl => exact h.2 ht
    | step hstep _ =>
      rw [h.1] at hstep
      cases hstep
  · cases hmany.symm.trans has
    exact hf.2 ht

end Shy

namespace Begins

theorem mono (h : Begins test p) (ht : ∀ x, test x = true → test' x = true) : Begins test' p :=
  ⟨fun hc => h.shy (hc.mono ht)⟩

theorem bind (h : Begins test p) : Begins test (p >>= f) := ⟨fun hc => (h.shy hc).bind⟩

theorem map (h : Begins test p) (g : α → β) : Begins test (g <$> p) := h.bind

theorem seqLeft {p' : Parser β} (h : Begins test p) : Begins test (p <* p') := h.bind

theorem seqRight {p' : Parser β} (h : Begins test p) : Begins test (p *> p') := h.bind

theorem skip (h : Begins test p) : Begins test (skip p) := h.bind

theorem spanned (h : Begins test p) : Begins test (Parser.spanned p) :=
  ⟨fun hc => (h.shy hc).spanned⟩

theorem about (h : Begins test p) (name : String) : Begins test (Parser.about name p) :=
  ⟨fun hc => (h.shy hc).about name⟩

theorem orElse {p' : Parser α} (h : Begins test p) (h' : Begins test p') : Begins test (p <|> p') :=
  ⟨fun hc => (h.shy hc).orElse (h'.shy hc)⟩

theorem choice {ps : List (Parser α)} (h : ∀ p ∈ ps, Begins test p) :
    Begins test (Parser.choice ps) :=
  ⟨fun hc => .choice fun p hp => (h p hp).shy hc⟩

theorem satisfy (test : Char → Bool) (expected : List Expectation) :
    Begins test (Parser.satisfy test expected) := by
  exact ⟨fun hc => ⟨result?_satisfy_eq_none.2 hc, fun ht => ht.satisfy.2⟩⟩

theorem char (x : Char) : Begins (· == x) (Parser.char x) := satisfy _ _

theorem apart {p' : Parser β} (h : Begins test p) (h' : Begins test' p')
    (hne : ∀ x, test x = true → test' x = false) (c : Cursor) : Shy p c ∨ Shy p' c := by
  by_cases hc : Stops test c.rest
  · exact .inl (h.shy hc)
  · right
    refine h'.shy fun x hx => ?_
    by_contra hx'
    refine hc fun y hy => ?_
    obtain rfl := Option.mem_unique hx hy
    by_contra hy'
    exact hx' (hne x (by simpa using hy'))

end Begins
end Parser

namespace Lexeme

theorem word_head {c d : Cursor} {w : String} (h : result? word c = some (w, d)) :
    ∀ x ∈ c.rest.head?, isNameStart x = true := by
  obtain ⟨hw, hpass, -⟩ := result?_word.1 h
  obtain ⟨y, ys, hy, hstart, -⟩ := isWord_iff.1 hw
  intro x hx
  rw [hpass.1, hy] at hx
  obtain rfl : y = x := by simpa using hx
  exact hstart

theorem begins_word : Begins isNameStart word := Begins.bind (.satisfy _ _)

theorem begins_checked {β : Type} (check : String → Except Reason β) :
    Begins isNameStart (filterMap word check) := by
  refine ⟨fun {c} hc => ?_⟩
  have hnone := (begins_word.shy hc).1
  refine ⟨by rw [result?_filterMap, hnone, Option.bind_none], fun ht => ?_⟩
  rcases ht.filterMap with ⟨ht, -⟩ | ⟨a, d, reason, ha, -⟩
  · exact (begins_word.shy hc).2 ht
  · rw [hnone] at ha
    cases ha

theorem begins_name : Begins isNameStart name := (begins_checked _).about _

theorem begins_keyword (k : String) : Begins isNameStart (keyword k) := begins_checked _

theorem begins_number : Begins Char.isDigit number := Begins.about (.bind (.satisfy _ _)) _

theorem begins_quotedBy (x : Char) : Begins (· == x) (quotedBy x) := .bind (.char x)

theorem begins_string : Begins (fun x => x == '"' || x == '\'') string :=
  (((begins_quotedBy '"').mono (by simp)).orElse ((begins_quotedBy '\'').mono (by simp))
    |>.map _).about _

theorem begins_comment : Begins (· == '#') comment := .bind (.char _)

theorem begins_chars {w : List Char} (hw : w ≠ []) :
    Begins (fun x => w.head? == some x) (chars w) := by
  cases w with
  | nil => exact absurd rfl hw
  | cons x w => exact (Begins.char x).bind.mono fun y hy => by simp [eq_of_beq hy]

theorem symbol_of_symbolic {op : BinaryOp} (h : op.word? = none) :
    symbol op = chars op.symbol.toList := by
  cases op <;> first | rfl | cases h

theorem begins_symbol_of_symbolic {op : BinaryOp} (h : op.word? = none) :
    Begins (fun x => op.symbol.toList.head? == some x) (symbol op) :=
  symbol_of_symbolic h ▸ begins_chars (by cases op <;> decide)

theorem begins_symbol_of_word {op : BinaryOp} (h : op.word?.isSome = true) :
    Begins isNameStart (symbol op) := by
  cases op with
  | and | or | mem => exact begins_keyword _
  | notMem => exact .bind (begins_keyword _)
  | _ => cases h

end Lexeme

namespace Grammar

theorem begins_opening (x : Char) : Begins (· == x) (opening x) := .bind (.char x)

theorem begins_comma : Begins (· == ',') comma := begins_opening ','

section Levels
variable {m : Mode} {p n : Parser Expr}

theorem begins_enclosed {α : Type} {q : Parser α} (x y : Char) :
    Begins (· == x) (opening x *> q <* char y) :=
  (begins_opening x).seqRight.seqLeft

theorem begins_parenthesized : Begins (· == '(') (parenthesized n) := (begins_enclosed _ _).map _

theorem begins_bracketed : Begins (· == '[') (bracketed n) := (begins_enclosed _ _).map _

theorem begins_callSuffix : Begins (· == '(') (callSuffix n) := (begins_enclosed _ _).map _

theorem begins_dotSuffix : Begins (· == '.') (dotSuffix m.gap) := .bind (.char _)

theorem begins_suffix : Begins (fun x => x == '(' || x == '.') (suffix m n) :=
  ((begins_callSuffix.mono (by simp)).orElse (begins_dotSuffix.mono (by simp))).spanned.seqLeft

def beginsLeaf (x : Char) : Bool := x.isDigit || isNameStart x || x == '"' || x == '\''

theorem begins_leaf : Begins beginsLeaf leaf := by
  refine .choice fun p hp => ?_
  simp only [List.mem_cons, List.not_mem_nil, or_false] at hp
  rcases hp with rfl | rfl | rfl
  · exact (begins_number.map _).mono fun x hx => by simp [beginsLeaf, hx]
  · exact (begins_string.map _).mono fun x hx => by
      rcases (by simpa using hx : x = '"' ∨ x = '\'') with rfl | rfl <;> decide
  · exact (begins_name.map _).mono fun x hx => by simp [beginsLeaf, hx]

theorem begins_atom : Begins beginsOperand (atom m.gap n) := by
  refine .bind (.spanned (.choice fun p hp => ?_))
  simp only [List.mem_cons, List.not_mem_nil, or_false] at hp
  rcases hp with rfl | rfl | rfl
  · refine begins_leaf.mono fun x hx => ?_
    simp only [beginsLeaf, Bool.or_eq_true] at hx
    simp only [beginsOperand, Bool.or_eq_true]
    tauto
  · exact begins_parenthesized.mono fun x hx => by
      obtain rfl : x = '(' := by simpa using hx
      decide
  · exact begins_bracketed.mono fun x hx => by
      obtain rfl : x = '[' := by simpa using hx
      decide

theorem begins_operand : Begins beginsOperand (operand m.gap n) := begins_atom.bind

theorem begins_leftChain (hp : Begins beginsOperand p) (level : Precedence) :
    Begins beginsOperand (leftChain m.gap p level) := hp.bind

theorem begins_single (hp : Begins beginsOperand p) (level : Precedence) :
    Begins beginsOperand (single m.gap p level) := hp.bind

theorem begins_signs {sign : Parser UnaryOp} (hs : Begins beginsOperand sign)
    (hp : Begins beginsOperand p) : Begins beginsOperand (signs m.gap sign p) :=
  ⟨fun hc => .many_bind (hs.spanned.seqLeft.shy hc) (hp.bind.shy hc)⟩

theorem begins_sign : Begins beginsOperand sign := by
  refine .choice fun p hp => ?_
  simp only [List.mem_cons, List.not_mem_nil, or_false] at hp
  rcases hp with rfl | rfl | rfl
  all_goals
    refine (Begins.char _).seqRight.mono fun x hx => ?_
    rw [eq_of_beq hx]
    decide

theorem begins_negationSign : Begins beginsOperand (keyword "not" *> pure UnaryOp.not) :=
  (begins_keyword "not").seqRight.mono fun x hx => by simp [beginsOperand, hx]

theorem begins_arithmetic : Begins beginsOperand (arithmetic m.gap n) :=
  arithmetic_induct (motive := fun _ p => Begins beginsOperand p)
    (begins_signs begins_sign begins_operand) fun level _ _ hp => begins_leftChain hp level

theorem begins_expression : Begins beginsOperand (expression m.gap n) :=
  begins_single (begins_leftChain (begins_leftChain (begins_signs begins_negationSign
    (begins_single begins_arithmetic .compare)) .and) .or) .assign

theorem begins_nested (depth : Nat) : Begins beginsOperand (nested depth) := by
  cases depth with
  | zero => exact ⟨fun _ => ⟨rfl, Tells.fail⟩⟩
  | succ depth => exact ⟨(begins_expression (m := .free) (n := nested depth)).shy⟩

end Levels

theorem begins_binding : Begins (fun x => isNameStart x || x == '"' || x == '\'') binding :=
  (Begins.mono (.bind begins_name.spanned) (by simp +contextual)).orElse
    (Begins.mono (.bind begins_string.spanned) (by simp +contextual))

theorem begins_bindingItem : Begins (· == ',') (comma *> binding <* gap) :=
  begins_comma.seqRight.seqLeft

end Grammar

namespace Parser
variable {α β : Type} {p : Parser α} {f : α → Parser β} {c : Cursor}

def Stays (p : Parser α) (c : Cursor) : Prop :=
  result? p c = none → ∀ {q r}, Tells p c q r → q = c.position

namespace Stays

theorem of_shy (h : Shy p c) : Stays p c := fun _ _ _ ht => (h.2 ht).1

theorem bind (hp : Stays p c) (hf : ∀ a d, result? (f a) d ≠ none) : Stays (p >>= f) c := by
  intro hnone q r ht
  have hpnone : result? p c = none := by
    cases hr : result? p c with
    | none => rfl
    | some s =>
      rw [result?_bind, hr] at hnone
      exact absurd hnone (hf s.1 s.2)
  rcases ht.bind with ht | ⟨a, d, hr, -⟩
  · exact hp hpnone ht
  · rw [hpnone] at hr
    cases hr

theorem map (hp : Stays p c) (g : α → β) : Stays (g <$> p) c :=
  hp.bind fun _ _ h => by cases h

theorem spanned (hp : Stays p c) : Stays (Parser.spanned p) c := by
  intro hnone q r ht
  rw [result?_spanned, Option.map_eq_none_iff] at hnone
  exact hp hnone ht.spanned

theorem about (hp : Stays p c) (name : String) : Stays (Parser.about name p) c := by
  intro hnone q r ht
  rw [result?_about] at hnone
  exact hp hnone ht.about

theorem choice {ps : List (Parser α)} (h : ∀ p ∈ ps, Stays p c) :
    Stays (Parser.choice ps) c := by
  intro hnone q r ht
  rcases ht.choice with ⟨p, hp, ht, hr⟩ | ht
  · exact h p hp (hr.elim id fun hr => hr.trans hnone) ht
  · exact ht.1

theorem checked (check : String → Except Reason β) : Stays (filterMap word check) c := by
  intro hnone q r ht
  rcases tells_checked ht with ⟨hq, -⟩ | ⟨a, d, hread, -⟩
  · exact hq
  · cases hnone.symm.trans hread

theorem many_bind {s : Parser β} {g : List β → Parser α} (hnone : result? s c = none)
    (hs : Stays s c) (hg : Stays (g []) c) : Stays (Parser.many s >>= g) c := by
  obtain ⟨e, he⟩ := exists_failure hnone
  have hmany := result?_of_success (many_failure he)
  intro hall q r ht
  rw [result?_bind, hmany] at hall
  rcases ht.bind with ht | ⟨as, d, has, ht⟩
  · obtain ⟨as, d, hsteps, ht⟩ := ht.many
    cases hsteps with
    | refl => exact hs hnone ht
    | step hstep _ =>
      rw [hnone] at hstep
      cases hstep
  · cases hmany.symm.trans has
    exact hg hall ht

end Stays
end Parser

namespace Grammar
variable {m : Mode} {p n : Parser Expr} {c d : Cursor} {w : String}

theorem result?_gap_ne_none (m : Mode) (c : Cursor) : result? m.gap c ≠ none := by
  obtain ⟨d, hd⟩ := Mode.exists_skips m c
  rw [show result? m.gap c = some ((), d) from hd]
  exact Option.some_ne_none _

theorem result?_many_ne_none {α : Type} (p : Parser α) (c : Cursor) :
    result? (many p) c ≠ none :=
  Option.some_ne_none _

theorem result?_map_ne_none {α β : Type} {p : Parser α} {c : Cursor} (h : result? p c ≠ none)
    (g : α → β) : result? (p >>= fun a => pure (g a)) c ≠ none := by
  intro hnone
  cases hp : result? p c with
  | none => exact h hp
  | some s =>
    rw [result?_bind, hp] at hnone
    cases hnone

theorem stays_leftChain (hp : Stays p c) (level : Precedence) :
    Stays (leftChain m.gap p level) c :=
  hp.bind fun _ d => result?_map_ne_none (result?_many_ne_none _ d) _

theorem stays_single (hp : Stays p c) (level : Precedence) : Stays (single m.gap p level) c :=
  hp.bind fun _ d => result?_map_ne_none (by rw [result?_optional]; exact Option.some_ne_none _) _

section Words
variable (hword : ∀ x ∈ c.rest.head?, isNameStart x = true)
include hword

theorem shy_of_word {α : Type} {p : Parser α} {test : Char → Bool} (hp : Begins test p)
    (hne : ∀ x, test x = true → isNameStart x = false) : Shy p c := by
  refine hp.shy fun x hx => ?_
  by_contra htest
  have := hne x (by simpa using htest)
  rw [hword x hx] at this
  cases this

theorem stays_leaf : Stays leaf c := by
  refine .choice fun p hp => ?_
  simp only [List.mem_cons, List.not_mem_nil, or_false] at hp
  rcases hp with rfl | rfl | rfl
  · exact .of_shy (shy_of_word hword (begins_number.map _) fun _ => not_isNameStart_of_digit)
  · refine .of_shy (shy_of_word hword (begins_string.map _) fun x hx => ?_)
    rcases (by simpa using hx : x = '"' ∨ x = '\'') with rfl | rfl <;> decide
  · exact ((Stays.checked _).about _).map _

theorem stays_atom : Stays (atom m.gap n) c := by
  refine Stays.bind (Stays.spanned (.choice fun p hp => ?_)) fun _ d =>
    result?_map_ne_none (result?_gap_ne_none m d) _
  simp only [List.mem_cons, List.not_mem_nil, or_false] at hp
  rcases hp with rfl | rfl | rfl
  · exact stays_leaf hword
  · exact .of_shy (shy_of_word hword begins_parenthesized fun x hx => by
      rw [eq_of_beq hx]
      decide)
  · exact .of_shy (shy_of_word hword begins_bracketed fun x hx => by
      rw [eq_of_beq hx]
      decide)

theorem stays_operand : Stays (operand m.gap n) c :=
  (stays_atom hword).bind fun _ d => result?_map_ne_none (result?_many_ne_none _ d) _

theorem shy_sign : Shy sign c := by
  refine .choice fun p hp => ?_
  simp only [List.mem_cons, List.not_mem_nil, or_false] at hp
  rcases hp with rfl | rfl | rfl
  all_goals
    refine shy_of_word hword (Begins.char _).seqRight fun x hx => ?_
    rw [eq_of_beq hx]
    decide

theorem stays_arithmetic : Stays (arithmetic m.gap n) c := by
  have hshy : Shy (spanned sign <* m.gap) c := (shy_sign hword).spanned.bind
  refine arithmetic_induct (motive := fun _ p => Stays p c) ?_
    fun level _ _ hp => stays_leftChain hp level
  exact Stays.many_bind hshy.1 (.of_shy hshy) ((stays_operand hword).map _)

end Words

/-- Where a word other than `not` stands, an expression that fails is refused for that word. -/
theorem stays_expression (hw : result? word c = some (w, d)) (hne : w ≠ "not") :
    Stays (expression m.gap n) c := by
  have hword := word_head hw
  have hnone : result? (keyword "not") c = none := result?_keyword_of_word hw hne
  have hsign : result? (spanned (keyword "not" *> pure UnaryOp.not) <* m.gap) c = none := by
    rw [result?_seqLeft, result?_spanned, result?_seqRight, hnone]
    rfl
  refine stays_single (stays_leftChain (stays_leftChain ?_ .and) .or) .assign
  refine Stays.many_bind hsign (Stays.bind (.spanned (.bind (.checked _) fun _ _ h => ?_))
    fun _ d => result?_map_ne_none (result?_gap_ne_none m d) _) ?_
  · cases h
  · exact (stays_single (stays_arithmetic hword) .compare).map _

end Grammar
end BuildScript
