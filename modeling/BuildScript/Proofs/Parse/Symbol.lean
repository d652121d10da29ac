import BuildScript.Proofs.Parse.Gap

/-!
Operators in a text. Symbols overlap, so which operator is read at a place depends on what follows:
behind a whole operator stands a gap or an operand, and neither begins with a character that could
go on with a symbol. Main statements: an operator is found on its own level (`ReadsSymbol.first`),
and on any other level at most a part of it (`ReadsSymbol.first_of_other`).
-/
namespace BuildScript
open BuildScript.Parser Lexeme

def lengthens (x : Char) : Bool :=
  x == '=' || x == '<' || x == '>' || x == '/'

def beginsOperand (x : Char) : Bool :=
  x.isDigit || isNameStart x || x == '"' || x == '\'' || x == '(' || x == '[' ||
    x == '-' || x == '+' || x == '~'

theorem not_beginsOperand_of_lengthens {x : Char} (h : lengthens x = true) :
    beginsOperand x = false := by
  simp only [lengthens, Bool.or_eq_true, beq_iff_eq] at h
  rcases h with ((rfl | rfl) | rfl) | rfl <;> decide

theorem not_opens_of_lengthens {x : Char} (h : lengthens x = true) (m : Mode) :
    m.opens x = false := by
  simp only [lengthens, Bool.or_eq_true, beq_iff_eq] at h
  rcases h with ((rfl | rfl) | rfl) | rfl <;> cases m <;> decide

theorem not_opens_of_beginsOperand {x : Char} (h : beginsOperand x = true) (m : Mode) :
    m.opens x = false := by
  have hrange {a b : Char} (hb : b.toNat < 128) (hx : a ≤ x ∧ x ≤ b) : x.toNat < 128 :=
    Nat.lt_of_le_of_lt (UInt32.le_iff_toNat_le.1 hx.2) hb
  have hascii : x.toNat < 128 := by
    simp only [beginsOperand, isNameStart, Char.isAlpha, Char.isUpper, Char.isLower, Char.isDigit,
      Bool.or_eq_true, Bool.and_eq_true, decide_eq_true_eq, beq_iff_eq] at h
    rcases h with (((((((h | ((h | h) | rfl)) | rfl) | rfl) | rfl) | rfl) | rfl) | rfl) | rfl
    · exact hrange (a := '0') (b := '9') (by decide) h
    · exact hrange (a := 'A') (b := 'Z') (by decide) h
    · exact hrange (a := 'a') (b := 'z') (by decide) h
    all_goals decide
  have table : ∀ n < 128, beginsOperand (Char.ofNat n) = true →
      Mode.line.opens (Char.ofNat n) = false ∧ Mode.free.opens (Char.ofNat n) = false := by
    decide
  have hx := table x.toNat hascii
  rw [Char.ofNat_toNat] at hx
  cases m
  · exact (hx h).1
  · exact (hx h).2

namespace BinaryOp

def word? : BinaryOp → Option String
  | and => some "and"
  | or => some "or"
  | mem => some "in"
  | notMem => some "not"
  | _ => none

theorem word?_inj {s t : BinaryOp} {w : String} (hs : s.word? = some w) (ht : t.word? = some w) :
    s = t := by
  have table : ∀ s ∈ all, ∀ t ∈ all, s.word? ≠ none → s.word? = t.word? → s = t := by
    decide
  exact table s (mem_all s) t (mem_all t) (by simp [hs]) (hs.trans ht.symm)

theorem lengthens_of_isPrefix {s t : BinaryOp} (hs : s.word? = none) (ht : t.word? = none)
    (hne : s ≠ t) {x : Char} {rest : List Char}
    (h : t.symbol.toList = s.symbol.toList ++ x :: rest) : lengthens x = true := by
  have table : ∀ s ∈ all, ∀ t ∈ all, s.word? = none → t.word? = none → s ≠ t →
      s.symbol.toList.isPrefixOf t.symbol.toList = true →
      (t.symbol.toList.drop s.symbol.toList.length).head?.any lengthens = true := by
    decide
  have hp : s.symbol.toList.isPrefixOf t.symbol.toList = true := by
    rw [List.isPrefixOf_iff_prefix, h]
    exact List.prefix_append _ _
  have := table s (mem_all s) t (mem_all t) hs ht hne hp
  rw [h, List.drop_left] at this
  simpa using this

theorem eq_of_symbol_toList {s t : BinaryOp} (h : s.symbol.toList = t.symbol.toList) : s = t := by
  have hs := ofSymbol?_symbol s
  rw [String.toList_inj.1 h, ofSymbol?_symbol t] at hs
  exact (Option.some.inj hs).symm

/-- Longer symbols come first. -/
theorem longestFirst_pairwise (p : Precedence) :
    (longestFirst p).Pairwise fun a b => b.symbol.length ≤ a.symbol.length := by
  cases p <;> decide

end BinaryOp

namespace Parser

theorem result?_chars {w : List Char} {c d : Cursor} :
    result? (chars w) c = some ((), d) ↔ c.Passes w d := by
  induction w generalizing c with
  | nil =>
    rw [chars, result?_pure]
    constructor
    · intro h
      cases h
      exact .refl _
    · rintro ⟨h₁, h₂⟩
      cases c
      cases d
      simp_all
  | cons x w ih =>
    rw [chars, result?_bind, Option.bind_eq_some_iff]
    constructor
    · rintro ⟨⟨y, c₁⟩, hx, h⟩
      obtain ⟨rfl, hx'⟩ := result?_char_eq_some.1 hx
      exact hx'.trans (ih.1 h)
    · intro hpass
      obtain ⟨p, rest, rfl, rfl⟩ := hpass.split
      exact ⟨(x, ⟨p.next x, w ++ rest⟩), result?_char_cons _ _ _, ih.2 ⟨rfl, rfl⟩⟩

end Parser

namespace Lexeme

def ReadsSymbol (op : BinaryOp) (c d : Cursor) : Prop :=
  result? (symbol op) c = some ((), d)

theorem readsSymbol_of_symbolic {op : BinaryOp} (h : op.word? = none) {c d : Cursor} :
    ReadsSymbol op c d ↔ c.Passes op.symbol.toList d := by
  have heq : symbol op = chars op.symbol.toList := by
    cases op <;> first | rfl | cases h
  unfold ReadsSymbol
  rw [heq, result?_chars]

theorem ReadsSymbol.word {op : BinaryOp} {w : String} (hw : op.word? = some w) {c d : Cursor}
    (h : ReadsSymbol op c d) : ∃ e, result? Lexeme.word c = some (w, e) := by
  have found {k : String} {e : Cursor} (hk : isWord k = true)
      (h : result? (keyword k) c = some ((), e)) : ∃ e, result? Lexeme.word c = some (k, e) :=
    ⟨e, result?_word.2 ⟨hk, (result?_keyword hk).1 h⟩⟩
  cases op <;> simp only [BinaryOp.word?, Option.some.injEq, reduceCtorEq] at hw <;> subst hw
  case notMem =>
    unfold ReadsSymbol symbol at h
    rw [result?_bind, Option.bind_eq_some_iff] at h
    obtain ⟨⟨⟨⟩, e⟩, h, -⟩ := h
    exact found (by decide) h
  all_goals exact found (by decide) h

theorem forward_word : Forward word := by
  intro c w d h
  exact ⟨_, (result?_word.1 h).2.1⟩

theorem consumes_word : Consumes word := by
  intro c w d h
  obtain ⟨hw, hpass, -⟩ := result?_word.1 h
  obtain ⟨x, xs, hx, -, -⟩ := isWord_iff.1 hw
  rw [hx] at hpass
  exact hpass.length_lt

theorem forward_symbol (op : BinaryOp) : Forward (symbol op) := by
  have hk (k : String) : Forward (keyword k) := forward_word.filterMap _
  cases op
  case and | or | mem => exact hk _
  case notMem =>
    exact (hk _).bind fun _ =>
      (((Forward.satisfy _ _).bind fun _ => ((Forward.satisfy _ _).many).bind fun _ =>
        .pure _)).bind fun _ => hk _
  all_goals
    intro c u d h
    exact ⟨_, result?_chars.1 h⟩

theorem consumes_symbol (op : BinaryOp) : Consumes (symbol op) := by
  intro c u d h
  cases hw : op.word? with
  | none =>
    have hlen : op.symbol.toList ≠ [] := by
      cases op <;> decide
    have := ((readsSymbol_of_symbolic hw).1 h).length_eq
    have := List.length_pos_iff.2 hlen
    omega
  | some w =>
    have hk (k : String) : Consumes (keyword k) := consumes_word.filterMap _
    have hf (k : String) : Forward (keyword k) := forward_word.filterMap _
    cases op <;> simp only [BinaryOp.word?, Option.some.injEq, reduceCtorEq] at hw
    case notMem =>
      exact ((hk "not").bind fun _ => Forward.bind
        ((Forward.satisfy _ _).bind fun _ => ((Forward.satisfy _ _).many).bind fun _ =>
          .pure _) fun _ => hf _) c u d h
    all_goals exact hk _ c u d h

/-- An operator as it is written is read, if no letter follows that would go on with a word. -/
theorem readsSymbol_symbol (op : BinaryOp) (p : Position) {rest : List Char}
    (h : Stops isNameChar rest) :
    ReadsSymbol op ⟨p, op.symbol.toList ++ rest⟩ ⟨p.after op.symbol.toList, rest⟩ := by
  have words {k : String} (hk : isWord k = true) (q : Position) {rest : List Char}
      (h : Stops isNameChar rest) :
      result? (keyword k) ⟨q, k.toList ++ rest⟩ = some ((), ⟨q.after k.toList, rest⟩) :=
    (result?_keyword hk).2 ⟨⟨rfl, rfl⟩, h⟩
  cases op with
  | and => exact words (by decide) p h
  | or => exact words (by decide) p h
  | mem => exact words (by decide) p h
  | notMem =>
    have hblank : Consumes (oneOf [' ', '\t']) := .satisfy _ _
    have hspace : result? (many₁ (oneOf [' ', '\t']))
        ⟨p.after "not".toList, ' ' :: "in".toList ++ rest⟩ =
          some ([' '], ⟨(p.after "not".toList).next ' ', "in".toList ++ rest⟩) := by
      unfold many₁
      rw [result?_bind, show result? (oneOf [' ', '\t'])
        ⟨p.after "not".toList, ' ' :: "in".toList ++ rest⟩ =
          some (' ', ⟨(p.after "not".toList).next ' ', "in".toList ++ rest⟩) from rfl,
        Option.bind_some, result?_bind, result?_many_of_none hblank rfl]
      rfl
    unfold ReadsSymbol symbol
    rw [result?_bind]
    change ((result? (keyword "not") ⟨p, "not".toList ++ ' ' :: "in".toList ++ rest⟩).bind _) = _
    rw [List.append_assoc, words (by decide) p (by rw [List.cons_append, stops_cons]; decide),
      Option.bind_some, result?_bind, hspace, Option.bind_some, words (by decide) _ h]
    rfl
  | _ => exact (readsSymbol_of_symbolic rfl).2 ⟨rfl, rfl⟩

theorem not_isNameChar_of_symbolic {op : BinaryOp} (h : op.word? = none) :
    ∀ x ∈ op.symbol.toList, isNameChar x = false := by
  have table : ∀ op ∈ BinaryOp.all, op.word? = none → op.symbol.toList.any isNameChar = false := by
    decide
  simpa using table op (BinaryOp.mem_all op) h

theorem ReadsSymbol.word?_ne_none {s t : BinaryOp} {c d e : Cursor} {w : String}
    (hs : s.word? = some w) (h : ReadsSymbol s c d) (ht : ReadsSymbol t c e) : t.word? ≠ none := by
  intro hsym
  obtain ⟨_, hw⟩ := h.word hs
  obtain ⟨hword, hpass, -⟩ := result?_word.1 hw
  obtain ⟨x, xs, hx, hstart, -⟩ := isWord_iff.1 hword
  have heq := hpass.1.symm.trans ((readsSymbol_of_symbolic hsym).1 ht).1
  rw [hx] at heq
  cases hy : t.symbol.toList with
  | nil => cases t <;> exact absurd hy (by decide)
  | cons y ys =>
    rw [hy] at heq
    obtain ⟨rfl, -⟩ := List.cons.inj heq
    have := not_isNameChar_of_symbolic hsym x (hy ▸ .head _)
    rw [isNameChar_of_start hstart] at this
    cases this

theorem ReadsSymbol.shorter {s t : BinaryOp} {c d e : Cursor} (hs : s.word? = none)
    (ht : t.word? = none) (h : ReadsSymbol s c d) (he : ReadsSymbol t c e)
    (hd : Stops lengthens d.rest) (hne : s ≠ t) :
    t.symbol.toList.length < s.symbol.toList.length ∧ ¬ Stops lengthens e.rest := by
  have hsp := (readsSymbol_of_symbolic hs).1 h
  have htp := (readsSymbol_of_symbolic ht).1 he
  rcases List.append_eq_append_iff.1 (hsp.1.symm.trans htp.1) with
    ⟨u, hu, hrest⟩ | ⟨u, hu, hrest⟩
  · cases u with
    | nil =>
      rw [List.append_nil] at hu
      exact absurd (BinaryOp.eq_of_symbol_toList hu).symm hne
    | cons x u =>
      have hx := BinaryOp.lengthens_of_isPrefix hs ht hne hu
      rw [hrest, List.cons_append, stops_cons] at hd
      simp [hx] at hd
  · cases u with
    | nil =>
      rw [List.append_nil] at hu
      exact absurd (BinaryOp.eq_of_symbol_toList hu) hne
    | cons x u =>
      have hx := BinaryOp.lengthens_of_isPrefix ht hs hne.symm hu
      refine ⟨by rw [hu, List.length_append, List.length_cons]; omega, ?_⟩
      rw [hrest, List.cons_append, stops_cons]
      simp [hx]

/-- Where an operator stands, any other one fails, or is read as a part of it. -/
theorem ReadsSymbol.other {s t : BinaryOp} {c d : Cursor} (h : ReadsSymbol s c d)
    (hd : Stops lengthens d.rest) (hne : s ≠ t) :
    result? (symbol t) c = none ∨
      (t.symbol.toList.length < s.symbol.toList.length ∧
        ∃ e, ReadsSymbol t c e ∧ ¬ Stops lengthens e.rest) := by
  by_cases htc : ∃ e, ReadsSymbol t c e
  case neg =>
    left
    exact result?_eq_none fun _ e he => htc ⟨e, he⟩
  obtain ⟨e, he⟩ := htc
  cases hs : s.word? with
  | some w =>
    cases ht : t.word? with
    | some w' =>
      obtain ⟨c₁, h₁⟩ := h.word hs
      obtain ⟨c₂, h₂⟩ := he.word ht
      have := h₁.symm.trans h₂
      simp only [Option.some.injEq, Prod.mk.injEq] at this
      exact absurd (BinaryOp.word?_inj hs (this.1 ▸ ht)) hne
    | none => exact absurd ht (h.word?_ne_none hs he)
  | none =>
    cases ht : t.word? with
    | some w' => exact absurd hs (he.word?_ne_none ht h)
    | none =>
      obtain ⟨hlt, hstop⟩ := h.shorter hs ht he hd hne
      exact .inr ⟨hlt, e, he, hstop⟩

def firstSymbol? (ops : List BinaryOp) (c : Cursor) : Option (BinaryOp × Cursor) :=
  ops.findSome? fun op => (result? (symbol op) c).map fun r => (op, r.2)

theorem result?_operator (gap : Parser Unit) (level : Precedence) (c : Cursor) :
    result? (operator gap level) c =
      (firstSymbol? (BinaryOp.longestFirst level) c).bind fun r =>
        (result? gap r.2).map fun s => (r.1, s.2) := by
  unfold operator firstSymbol?
  rw [result?_seqLeft]
  congr 1
  induction BinaryOp.longestFirst level with
  | nil => rfl
  | cons op ops ih =>
    rw [List.foldr_cons, result?_orElse, ih, List.findSome?_cons, result?_bind]
    cases result? (symbol op) c <;> rfl

theorem firstSymbol?_eq_some {ops : List BinaryOp} {c d : Cursor} {op : BinaryOp}
    (h : firstSymbol? ops c = some (op, d)) : op ∈ ops ∧ ReadsSymbol op c d := by
  obtain ⟨t, ht, h⟩ := List.exists_of_findSome?_eq_some h
  obtain ⟨⟨⟨⟩, e⟩, he, h⟩ := Option.map_eq_some_iff.1 h
  cases h
  exact ⟨ht, he⟩

theorem ReadsSymbol.first {op : BinaryOp} {c d : Cursor} (h : ReadsSymbol op c d)
    (hd : Stops lengthens d.rest) :
    firstSymbol? (BinaryOp.longestFirst op.precedence) c = some (op, d) := by
  obtain ⟨longer, others, hsplit⟩ :=
    List.append_of_mem (BinaryOp.mem_longestFirst.2 (rfl : op.precedence = op.precedence))
  have hsorted := BinaryOp.longestFirst_pairwise op.precedence
  rw [hsplit, List.pairwise_append] at hsorted
  unfold firstSymbol?
  rw [hsplit, List.findSome?_append]
  have hnone : longer.findSome? (fun t => (result? (symbol t) c).map fun r => (t, r.2)) = none ∨
      longer.findSome? (fun t => (result? (symbol t) c).map fun r => (t, r.2)) = some (op, d) := by
    rw [Classical.or_iff_not_imp_left]
    intro hsome
    obtain ⟨⟨t, e⟩, ht⟩ := Option.ne_none_iff_exists'.1 hsome
    obtain ⟨hmem, hte⟩ := firstSymbol?_eq_some ht
    by_cases hne : op = t
    · subst hne
      have heq : e = d := by simpa using hte.symm.trans h
      rw [ht, heq]
    · have hlen := hsorted.2.2 t hmem op (List.mem_cons_self ..)
      rcases h.other hd hne with hf | ⟨hlt, -⟩
      · rw [ReadsSymbol, hf] at hte
        cases hte
      · rw [String.length_toList, String.length_toList] at hlt
        omega
  rcases hnone with hnone | hsome
  · have hop : result? (symbol op) c = some ((), d) := h
    rw [hnone, Option.none_or, List.findSome?_cons, hop]
    rfl
  · rw [hsome]
    rfl

/-- On a level that the operator is not of, nothing is found, or a part of it. -/
theorem ReadsSymbol.first_of_other {op : BinaryOp} {c d : Cursor} (h : ReadsSymbol op c d)
    (hd : Stops lengthens d.rest) {level : Precedence} (hl : op.precedence ≠ level) :
    firstSymbol? (BinaryOp.longestFirst level) c = none ∨
      ∃ t e, firstSymbol? (BinaryOp.longestFirst level) c = some (t, e) ∧
        ¬ Stops lengthens e.rest := by
  rw [Classical.or_iff_not_imp_left]
  intro hsome
  obtain ⟨⟨t, e⟩, ht⟩ := Option.ne_none_iff_exists'.1 hsome
  obtain ⟨hmem, hte⟩ := firstSymbol?_eq_some ht
  have hne : op ≠ t := by
    rintro rfl
    exact hl (BinaryOp.mem_longestFirst.1 hmem)
  refine ⟨t, e, ht, ?_⟩
  rcases h.other hd hne with hf | ⟨-, e', he', hstop⟩
  · rw [ReadsSymbol, hf] at hte
    cases hte
  · have heq : e' = e := by simpa using he'.symm.trans hte
    exact heq ▸ hstop

end Lexeme

theorem symbol_of_word {op : BinaryOp} (h : op.word?.isSome = true) (hne : op ≠ .notMem) :
    symbol op = keyword op.symbol ∧ isWord op.symbol = true := by
  cases op with
  | or | and | mem => exact ⟨rfl, by decide⟩
  | notMem => exact absurd rfl hne
  | _ => cases h

theorem Parser.result?_many₁ {α : Type} {p : Parser α} (hp : Consumes p) {as : List α}
    {c d : Cursor} : result? (many₁ p) c = some (as, d) ↔
      as ≠ [] ∧ result? (many p) c = some (as, d) := by
  have key : result? (many₁ p) c = (result? p c).bind fun r =>
      (result? (many p) r.2).map fun s => (r.1 :: s.1, s.2) := by
    unfold many₁
    rw [result?_bind]
    refine Option.bind_congr fun r _ => ?_
    rw [result?_bind, Option.map_eq_bind]
    rfl
  rw [key, result?_many hp]
  cases result? p c with
  | none =>
    simp only [Option.bind_none, reduceCtorEq, Option.some.injEq, Prod.mk.injEq, false_iff]
    rintro ⟨hne, rfl, -⟩
    exact hne rfl
  | some r =>
    simp only [Option.bind_some, Option.map_eq_some_iff, Prod.mk.injEq]
    constructor
    · rintro ⟨s, hs, rfl, hd⟩
      exact ⟨List.cons_ne_nil _ _, s, hs, rfl, hd⟩
    · exact And.right

theorem result?_blanks {w : List Char} {c d : Cursor} :
    result? (many₁ (oneOf [' ', '\t'])) c = some (w, d) ↔
      w ≠ [] ∧ (∀ x ∈ w, x = ' ' ∨ x = '\t') ∧ c.Passes w d ∧
        Stops [' ', '\t'].contains d.rest := by
  have hblank (x : Char) : [' ', '\t'].contains x = true ↔ x = ' ' ∨ x = '\t' := by simp
  have hone : Consumes (oneOf [' ', '\t']) := .satisfy _ _
  simp only [← hblank]
  rw [result?_many₁ hone]
  exact and_congr_right fun _ => result?_many_satisfy

/-- How an operator is written: there may be several blanks between two words. -/
inductive BinaryOp.Spelled : BinaryOp → List Char → Prop
  | plain {op : BinaryOp} (h : op ≠ .notMem) : Spelled op op.symbol.toList
  | notMem {w : List Char} (hne : w ≠ []) (hw : ∀ x ∈ w, x = ' ' ∨ x = '\t') :
    Spelled .notMem ("not".toList ++ (w ++ "in".toList))

theorem readsSymbol_notMem_iff {c d : Cursor} : ReadsSymbol .notMem c d ↔ ∃ w, w ≠ [] ∧
    (∀ x ∈ w, x = ' ' ∨ x = '\t') ∧ c.Passes ("not".toList ++ (w ++ "in".toList)) d ∧
      Stops isNameChar d.rest := by
  unfold ReadsSymbol symbol
  simp only [result?_bind, Option.bind_eq_some_iff]
  constructor
  · rintro ⟨⟨⟨⟩, c₁⟩, hnot, ⟨w, c₂⟩, hw, hin⟩
    obtain ⟨hne, hw, hblanks, -⟩ := result?_blanks.1 hw
    obtain ⟨hin, hstop⟩ := (result?_keyword (by decide)).1 hin
    obtain ⟨hnot, -⟩ := (result?_keyword (by decide)).1 hnot
    exact ⟨w, hne, hw, hnot.trans (hblanks.trans hin), hstop⟩
  · rintro ⟨w, hne, hw, hpass, hstop⟩
    obtain ⟨c₁, hnot, hpass⟩ := hpass.append
    obtain ⟨c₂, hblanks, hin⟩ := hpass.append
    have hbehind : Stops isNameChar c₁.rest := by
      rw [hblanks.1]
      cases w with
      | nil => exact absurd rfl hne
      | cons x w =>
        refine stops_cons.2 ?_
        rcases hw x (.head _) with rfl | rfl <;> decide
    refine ⟨((), c₁), (result?_keyword (by decide)).2 ⟨hnot, hbehind⟩, (w, c₂),
      result?_blanks.2 ⟨hne, hw, hblanks, ?_⟩, (result?_keyword (by decide)).2 ⟨hin, hstop⟩⟩
    rw [hin.1]
    exact stops_cons.2 (by decide)

/-- An operator stands wherever it is written, if no letter follows that would go on with it. -/
theorem readsSymbol_iff {op : BinaryOp} {c d : Cursor} : ReadsSymbol op c d ↔
    ∃ w, op.Spelled w ∧ c.Passes w d ∧ (op.word?.isSome = true → Stops isNameChar d.rest) := by
  have plain (hop : op ≠ .notMem) : (∃ w, op.Spelled w ∧ c.Passes w d ∧
      (op.word?.isSome = true → Stops isNameChar d.rest)) ↔
        c.Passes op.symbol.toList d ∧ (op.word?.isSome = true → Stops isNameChar d.rest) := by
    constructor
    · rintro ⟨_, ⟨⟩, h⟩
      · exact h
      · exact absurd rfl hop
    · exact fun h => ⟨_, .plain hop, h⟩
  by_cases hop : op = .notMem
  · subst hop
    rw [readsSymbol_notMem_iff]
    constructor
    · rintro ⟨w, hne, hw, hpass, hstop⟩
      exact ⟨_, .notMem hne hw, hpass, fun _ => hstop⟩
    · rintro ⟨_, ⟨⟩, hpass, hstop⟩
      · exact absurd rfl ‹_ ≠ BinaryOp.notMem›
      · exact ⟨_, ‹_›, ‹_›, hpass, hstop rfl⟩
  · rw [plain hop]
    cases hword : op.word?.isSome with
    | true =>
      obtain ⟨hsymbol, hkeyword⟩ := symbol_of_word hword hop
      unfold ReadsSymbol
      rw [hsymbol, result?_keyword hkeyword]
      simp
    | false =>
      rw [readsSymbol_of_symbolic (Option.not_isSome_iff_eq_none.1 (by simp [hword]))]
      simp

end BuildScript
