import BuildScript.Proofs.Parse.ForkLevels

/-!
Expressions, load statements and whole sources in two texts that begin alike. A source whose failure
shows nothing of what differs fails with any other text behind (`Fork.statements_none`).
-/
namespace BuildScript
open BuildScript.Parser Lexeme Grammar

namespace Fork
variable {F : Fork} {α β : Type} {B : Cursor → Prop} {c c' d : Cursor} {n : Nat}

section Operands
variable {m : Mode} {p p' : Parser Expr} {rank : Nat}

theorem follows_name : F.Follows n B name name :=
  (Follows.checked _).about _

theorem follows_string : F.Follows n B string string :=
  .of_plain plain_string tight_string tracks_string

theorem not_isNameStart_of_quote (x : Char) (h : (x == '"' || x == '\'') = true) :
    isNameStart x = false := by
  rcases (by simpa using h : x = '"' ∨ x = '\'') with rfl | rfl <;> decide

theorem follows_leaf : F.Follows n B leaf leaf := by
  refine .choice ?_ ?_
  · exact .cons ((Follows.of_plain plain_number tight_number tracks_number).map _) <|
      .cons (follows_string.map _) <| .cons (follows_name.map _) .nil
  · have hnumber := begins_number.map (Shape.literal (α := Expr))
    have hstring := begins_string.map (Shape.string (α := Expr))
    have hname := begins_name.map (Shape.ident (α := Expr))
    simp only [List.pairwise_cons, List.mem_cons, List.not_mem_nil, or_false, forall_eq_or_imp,
      forall_eq, false_implies, implies_true, List.Pairwise.nil, and_true]
    refine ⟨⟨hnumber.apart hstring fun x hx => ?_, hnumber.apart hname fun _ =>
      not_isNameStart_of_digit⟩, hstring.apart hname not_isNameStart_of_quote⟩
    rw [Bool.or_eq_false_iff, beq_eq_false_iff_ne, beq_eq_false_iff_ne]
    constructor <;> (rintro rfl; cases hx)

theorem follows_atom (hp : F.Follows n (F.Exit 0) p p') (fp : Forward p')
    (bp : Begins beginsOperand p) :
    F.Follows (n + 1) Never (atom m.gap p) (atom m.gap p') := by
  have hchoice : F.Follows (n + 1) Never (choice [leaf, parenthesized p, bracketed p])
      (choice [leaf, parenthesized p', bracketed p']) := by
    refine .choice ?_ ?_
    · refine .cons follows_leaf <| .cons (.map ?_ _) <| .cons (.map ?_ _) .nil
      · exact follows_enclosed (by decide) (by decide) (hp.mono fun _ h => h.1)
      · exact follows_enclosed (by decide) (by decide) (follows_items hp fp bp)
    · have hleaf {q : Parser (Shape Expr)} {y : Char} (hq : Begins (· == y) q)
          (hy : beginsLeaf y = false) (c : Cursor) : Shy leaf c ∨ Shy q c :=
        (hq.apart begins_leaf (fun x hx => by rwa [eq_of_beq hx]) c).symm
      simp only [List.pairwise_cons, List.mem_cons, List.not_mem_nil, or_false, forall_eq_or_imp,
        forall_eq, false_implies, implies_true, List.Pairwise.nil, and_true]
      refine ⟨⟨hleaf begins_parenthesized (by decide), hleaf begins_bracketed (by decide)⟩,
        begins_parenthesized.apart begins_bracketed fun x hx => ?_⟩
      rw [eq_of_beq hx]
      decide
  exact hchoice.spanned.next fun _ => (follows_gap m).done _

theorem follows_suffix (hp : F.Follows n (F.Exit 0) p p') (fp : Forward p')
    (bp : Begins beginsOperand p) :
    F.Follows (n + 1) Never (suffix m p) (suffix m p') := by
  have hcall : F.Follows (n + 1) Never (callSuffix p) (callSuffix p') :=
    (follows_enclosed (by decide) (by decide) (follows_items hp fp bp)).map _
  have hdot : F.Follows (n + 1) Never (dotSuffix m.gap) (dotSuffix m.gap) :=
    (follows_char (by decide)).next fun _ => (follows_gap m).next fun _ => follows_name.map _
  have happart : ∀ c, Shy (callSuffix p) c ∨ Shy (dotSuffix m.gap) c :=
    begins_callSuffix.apart begins_dotSuffix fun x hx => by
      rw [eq_of_beq hx]
      decide
  exact (hcall.orElse hdot happart).spanned.next fun _ => (follows_gap m).done _

theorem begins_symbols (ops : List BinaryOp) :
    Begins (fun x => x != '(' && x != '.') (symbols ops) := by
  induction ops with
  | nil => exact ⟨fun _ => ⟨rfl, Tells.fail⟩⟩
  | cons op ops ih =>
    suffices h : Begins (fun x => x != '(' && x != '.') (symbol op) from .orElse h.bind ih
    cases hop : op.word? with
    | none =>
      have table : ∀ op ∈ BinaryOp.all,
          (op.symbol.toList.head?.any fun x => x == '(' || x == '.') = false := by
        decide
      refine (begins_symbol_of_symbolic hop).mono fun x hx => ?_
      simpa [eq_of_beq hx] using table op (BinaryOp.mem_all op)
    | some w =>
      refine (begins_symbol_of_word (by rw [hop]; rfl)).mono fun x hx => ?_
      by_contra hx'
      have : x = '(' ∨ x = '.' := by
        by_contra h
        exact hx' (by simpa using not_or.1 h)
      rcases this with rfl | rfl <;> exact absurd hx (by decide)

theorem exit_of_suffix (hc : F.Edge c) {q : Position} {r : Nat} (ht : Tells (suffix m p) c q r)
    (hshown : F.Shown q r) : F.Exit rank c := by
  have hlt := hc.lt
  have hplace := hshown.le
  obtain ⟨x, hx, hsuffix⟩ : ∃ x ∈ c.rest.head?, x = '(' ∨ x = '.' := by
    by_contra hnone
    have hstop : Stops (fun x => x == '(' || x == '.') c.rest := by
      intro x hx
      by_contra h
      exact hnone ⟨x, hx, by simpa [or_iff_not_imp_left] using h⟩
    have := ((begins_suffix.shy hstop).2 ht).2
    omega
  have hshy (ops : List BinaryOp) : Shy (symbols ops) c := by
    refine (begins_symbols ops).shy fun y hy => ?_
    obtain rfl := Option.mem_unique hx hy
    rcases hsuffix with rfl | rfl <;> decide
  refine ⟨fun y hy => ?_, fun level _ => ⟨fun q ht => ?_, fun op d hop => ?_⟩⟩
  · obtain rfl := Option.mem_unique hx hy
    rcases hsuffix with rfl | rfl <;> decide
  · have := ((hshy _).2 ht).2
    omega
  · rw [← result?_symbols, (hshy _).1] at hop
    cases hop

structure Both (F : Fork) (n rank : Nat) (p p' : Parser Expr) : Prop where
  follows : F.Follows n (F.Exit rank) p p'
  tracks' : Tracks p'
  begins : Begins beginsOperand p

namespace Both

theorem mono {rank' : Nat} (h : Both F n rank p p') (hr : rank' ≤ rank) : Both F n rank' p p' :=
  ⟨h.follows.mono fun _ h => h.mono hr, h.tracks', h.begins⟩

theorem leftChain (level : Precedence) (h : Both F n (level.rank + 1) p p') :
    Both F n level.rank (leftChain m.gap p level) (Grammar.leftChain m.gap p' level) where
  follows := follows_leftChain h.follows h.tracks'.forward h.begins
  tracks' := tracks_leftChain h.tracks' level
  begins := begins_leftChain h.begins level

theorem single (level : Precedence) (h : Both F n (level.rank + 1) p p') :
    Both F n level.rank (single m.gap p level) (Grammar.single m.gap p' level) where
  follows := follows_single h.follows h.begins
  tracks' := tracks_single h.tracks' level
  begins := begins_single h.begins level

theorem signs {sign : Parser UnaryOp} {level : Precedence} (hs : SignsOf level sign)
    (hsign : F.Follows n Never sign sign) (bsign : Begins beginsOperand sign)
    (hstop : F.word = true → ∀ {c q r}, F.Edge c → result? sign c = none → Tells sign c q r →
      ¬ F.Shown q r) (h : Both F n rank p p') :
    Both F n rank (signs m.gap sign p) (Grammar.signs m.gap sign p') where
  follows := follows_signs hs hsign hstop h.follows
  tracks' := tracks_signs hs hsign.tracks h.tracks'
  begins := begins_signs bsign h.begins

theorem operand (h : Both F n 0 p p') :
    Both F (n + 1) rank (operand m.gap p) (Grammar.operand m.gap p') where
  follows := by
    have hsuffixes : F.Follows (n + 1) (F.Exit rank) (many (suffix m p)) (many (suffix m p')) :=
      (follows_suffix h.follows h.tracks'.forward h.begins).many (consumes_suffix h.follows.tracks.forward)
        (consumes_suffix h.tracks'.forward) (fun _ _ _ h => h.elim)
        fun _ _ _ _ hc _ ht hshown => exit_of_suffix hc ht hshown
    exact (follows_atom h.follows h.tracks'.forward h.begins).next fun _ => hsuffixes.done _
  tracks' := tracks_operand h.tracks'
  begins := begins_operand

theorem arithmetic (h : Both F n 0 p p') :
    Both F (n + 1) Precedence.bitOr.rank (arithmetic m.gap p) (Grammar.arithmetic m.gap p') := by
  have hoperand : Both F (n + 1) Precedence.unary.rank (Grammar.operand m.gap p)
      (Grammar.operand m.gap p') := h.operand
  have hunary := hoperand.signs (m := m) signsOf_sign follows_sign begins_sign
    fun _ c q r hc _ ht hshown => by
      have := tells_sign ht
      have := hc.lt
      have := hshown.le
      omega
  have hmultiply := hunary.leftChain (m := m) .multiply
  have hadd := hmultiply.leftChain (m := m) .add
  have hshift := hadd.leftChain (m := m) .shift
  have hbitAnd := hshift.leftChain (m := m) .bitAnd
  have hbitXor := hbitAnd.leftChain (m := m) .bitXor
  exact hbitXor.leftChain (m := m) .bitOr

theorem negation (h : Both F n 0 p p') :
    Both F (n + 1) Precedence.not.rank (negation m.gap p) (Grammar.negation m.gap p') := by
  have hcomparison := (h.arithmetic (m := m)).single (m := m) .compare
  have hsigned := hcomparison.signs (m := m) signsOf_negation follows_negationSign
    begins_negationSign fun hw _ _ _ hc hnone ht => negationSign_not_shown hw hc hnone ht
  exact hsigned.mono (by decide)

theorem expression (h : Both F n 0 p p') :
    Both F (n + 1) 0 (expression m.gap p) (Grammar.expression m.gap p') := by
  have hand := (h.negation (m := m)).leftChain (m := m) .and
  have hor := hand.leftChain (m := m) .or
  exact hor.single (m := m) .assign

end Both

/-- What stands in brackets, with bounds on the nesting that are large enough up to the place where
the texts part. -/
theorem both_nested (n : Nat) {depth depth' : Nat} (h : n ≤ depth) (h' : n ≤ depth') :
    Both F n 0 (nested depth) (nested depth') := by
  induction n generalizing depth depth' with
  | zero => exact ⟨⟨tracks_nested depth, fun _ hm hn => absurd hm.lt (Nat.not_lt.2 hn)⟩,
      tracks_nested depth', begins_nested depth⟩
  | succ n ih =>
    cases depth with
    | zero => exact absurd h (Nat.not_succ_le_zero n)
    | succ depth =>
      cases depth' with
      | zero => exact absurd h' (Nat.not_succ_le_zero n)
      | succ depth' =>
        exact (ih (Nat.le_of_succ_le_succ h) (Nat.le_of_succ_le_succ h')).expression (m := .free)

end Operands

theorem follows_binding : F.Follows n B binding binding := by
  have hgap : F.Follows n Never gap gap := follows_gap .free
  refine Follows.orElse ?_ (follows_string.spanned.done _) ?_
  · exact follows_name.spanned.next fun _ => hgap.next fun _ =>
      (follows_char (by decide)).next fun _ => hgap.next fun _ => follows_string.spanned.done _
  · exact fun c => (Begins.apart (.bind begins_string.spanned) (.bind begins_name.spanned)
      not_isNameStart_of_quote c).symm

theorem follows_bindings :
    F.Follows n (Trailing F) (many (comma *> binding <* gap)) (many (comma *> binding <* gap)) := by
  have hitem : F.Follows n Unclosed (comma *> binding <* gap) (comma *> binding <* gap) :=
    ((follows_opening (by decide)).next fun _ => follows_binding).next
      fun _ => (follows_gap .free).done _
  refine follows_others hitem consumes_bindings consumes_bindings
    begins_bindingItem fun hw {c d q r} hc ht hshown hr hd => ?_
  have hopen (h : ¬ Shy binding d) : Unclosed d := by
    refine unclosed_of_not_shy begins_binding (fun x hx => ?_) h
    simp only [closes, Bool.or_eq_true, beq_iff_eq] at hx
    rcases hx with ((rfl | rfl) | rfl) | rfl <;> decide
  obtain ⟨c', hm⟩ := hc.meets
  rcases ht.seqLeft with ht | ⟨a, e, ha, -⟩
  · rcases ht.seqRight with ht | ⟨_, _, hr', ht⟩
    · exact absurd hd (Nat.not_lt.2 (tight_opening ',' hw hm hr ht hshown))
    · cases hr.symm.trans hr'
      exact hopen (not_shy_of_shown hd ht hshown)
  · refine hopen fun hshy => ?_
    rw [result?_seqRight, hr, Option.bind_some, hshy.1] at ha
    cases ha

theorem follows_load : F.Follows n Never load load := by
  have hgap : F.Follows n Never gap gap := follows_gap .free
  refine Follows.about (Follows.done (Follows.spanned ?_) fun found => nodeAt found.1 found.2) _
  refine Follows.next (.checked _) fun _ => hgap.next fun _ => (follows_char (by decide)).next
    fun _ => hgap.next fun _ => follows_string.spanned.next fun origin => hgap.next fun _ =>
      follows_bindings.bind (fun bindings => follows_lastComma.bind
        (fun _ => (follows_char (by decide)).done fun _ =>
          Shape.load (nodeAt (.string origin.1) origin.2) bindings)
        fun _ _ d hd h => quiet_of_shy (h.shy (by decide)).bind hd.lt) fun _ bindings d hd h => ?_
  refine h.quiet.bind (fun _ hd h => quiet_of_shy (h.shy (by decide)).bind hd) fun _ => ?_
  exact (Onward.satisfy _ _).bind fun _ => (Tracks.pure _).onward

theorem word_le_of_reads {p : Parser α} (tp : Tracks p) {a : α} {e : Cursor} {w : String}
    (hw : result? Lexeme.word c = some (w, e)) (hr : result? p c = some (a, d))
    (hlt : c.position.offset < d.position.offset) : e.position.offset ≤ d.position.offset := by
  obtain ⟨hword, hpass, -⟩ := result?_word.1 hw
  obtain ⟨v, hv, hedge⟩ := tp.edges hr
  rw [hv.offset_eq] at hlt ⊢
  rw [hpass.offset_eq]
  by_contra hle
  obtain ⟨u, hu, hrest⟩ : ∃ u, w.toList = v ++ u ∧ d.rest = u ++ e.rest := by
    rcases List.append_eq_append_iff.1 (hv.1.symm.trans hpass.1) with ⟨u, hu, h⟩ | ⟨u, hu, h⟩
    · exact ⟨u, hu, h⟩
    · rw [hu, List.length_append] at hle
      omega
  have hname := isNameChar_of_mem hword
  cases u with
  | nil =>
    rw [hu, List.append_nil] at hle
    omega
  | cons y u =>
    have hv : v ≠ [] := by
      rintro rfl
      simp at hlt
    have hlast := List.getLast?_eq_some_getLast hv
    have := hedge _ hlast (hname _ (by rw [hu]; exact List.mem_append_left _ (List.getLast_mem hv)))
    rw [hrest, List.cons_append, stops_cons, hname y (by rw [hu]; simp)] at this
    cases this

theorem tells_load {q : Position} {r : Nat} (h : Tells load c q r)
    (hr : r ≠ c.position.offset) : ∃ w d, result? Lexeme.word c = some (w, d) ∧
      (w = "load" ∨ r = d.position.offset) := by
  have hkeyword {d : Cursor} (hd : result? (keyword "load") c = some ((), d)) :
      result? Lexeme.word c = some ("load", d) :=
    result?_word.2 ⟨by decide, (result?_keyword (k := "load") (by decide)).1 hd⟩
  rcases h.about.bind with h | ⟨_, _, _, h⟩
  · rcases Tells.bind h.spanned with h | ⟨⟨⟩, d, hd, -⟩
    · rcases tells_checked h with ⟨-, -, h | ⟨w, d, hw, h⟩⟩ | ⟨⟨⟩, d, hd, -, h⟩
      · exact absurd h hr
      · exact ⟨w, d, hw, .inr h⟩
      · exact ⟨"load", d, hkeyword hd, .inl rfl⟩
    · exact ⟨"load", d, hkeyword hd, .inl rfl⟩
  · exact absurd h (Tells.not_pure _)

theorem follows_statement {depth depth' : Nat} (h : n ≤ depth) (h' : n ≤ depth') :
    F.Follows (n + 1) Unclosed (statement depth) (statement depth') where
  tracks := tracks_statement depth
  alike {c c'} hc hm hn := by
    have hload : F.Follows (n + 1) Unclosed (load <* lineGap) (load <* lineGap) :=
      follows_load.next fun _ => (follows_gap .line).done _
    have hexpression : F.Follows (n + 1) Unclosed (expression lineGap (nested depth))
        (expression lineGap (nested depth')) :=
      ((both_nested n h h').expression (m := .line)).follows.mono fun _ h => h.1
    have hlt := hc.lt
    -- What the load statement tells of if it fails: a word at the cursor.
    have failed {e : Failure} (he : (load <* lineGap) c = .failure e) (hplace : F.place ≤ e.reach) :
        ∃ w d, result? Lexeme.word c = some (w, d) ∧
          (w = "load" ∨ e.reach = d.position.offset) := by
      refine tells_load (q := e.span.start) ?_ (by omega)
      rcases Tells.seqLeft (tells_of_failure he) with ht | ⟨a, d, ha, ht⟩
      · exact ht
      · have hnone := result?_of_failure he
        obtain ⟨d', hd'⟩ := Mode.exists_skips .line d
        rw [result?_seqLeft, ha, Option.bind_some, show result? lineGap d = some ((), d') from hd']
          at hnone
        cases hnone
    refine (hload.alike hc hm hn).orElse (hexpression.alike hc hm hn) (fun {e} he hshown => ?_)
      fun {e e'} he he' hshown => ?_
    · obtain ⟨w, d, hw, hr⟩ := failed he hshown.le
      rcases (expression lineGap (nested depth)).reply_cases c with ⟨e', he', -⟩ |
        ⟨a, d', met, hd', hread⟩
      · exact .inr ⟨e', he'⟩
      left
      rw [hd']
      obtain ⟨d₀, hreads, hg, -⟩ := sound_expression (m := .line) (sound_nested depth) _ _ _ hread
      rcases hr with rfl | hr
      · rcases hreads.first_word hw with h | h
        · exact absurd h (by decide)
        · exact absurd (by decide) h
      · refine .inl (Nat.le_trans hshown.le (hr ▸ word_le_of_reads
          (tracks_expression (m := .line) (tracks_nested depth)) hw hread ?_))
        obtain ⟨x, v, -, hv⟩ := hreads.passes
        obtain ⟨v', hv'⟩ := hg.passes
        rw [(hv.trans hv').offset_eq]
        simp
    · by_contra hnot
      obtain ⟨hnotshown, hle⟩ := not_or.1 hnot
      have hplace := hshown.le
      obtain ⟨w, d, hw, hr⟩ := failed he (by omega)
      have hword : F.word = true := by
        by_contra hword
        exact hnotshown (shown_of_not_word (by simpa using hword) (by omega))
      have hreach : e.reach = F.place := by
        by_contra hne
        exact hnotshown (.inl (by omega))
      have hne : w ≠ "not" := by
        rintro rfl
        rcases hr with hr | hr
        · exact absurd hr (by decide)
        · exact hc.unlike hword (result?_word.1 hw).2.1 (hr.symm.trans hreach) (by decide)
      have hq := stays_expression (m := .line) (n := nested depth) hw hne (result?_of_failure he')
        (tells_of_failure he')
      rcases hshown with hlt' | ⟨-, heq⟩
      · omega
      · have := heq hword
        rw [hq] at this
        omega

theorem tells_lineEnd {q : Position} {r : Nat} (h : Tells lineEnd c q r) :
    r = c.position.offset := by
  rcases h.about.orElse with ⟨h, -⟩ | ⟨-, h⟩
  · exact h.skip.satisfy.2.2
  · exact h.endOfInput.2.2

theorem shy_endOfInput (hc : F.Edge c) : Shy endOfInput c := by
  obtain ⟨c', hm⟩ := hc.meets
  obtain ⟨u, hu, hrest, -⟩ := hm.rest
  refine ⟨?_, fun ht => ht.endOfInput.2⟩
  rw [result?_endOfInput, if_neg]
  rw [hrest]
  simp [hu]

theorem follows_line {depth depth' : Nat} (h : n ≤ depth) (h' : n ≤ depth') :
    F.Follows (n + 1) Never (line depth) (line depth') := by
  have hend : F.Follows (n + 1) Never lineEnd lineEnd := by
    refine .of_plain plain_lineEnd (fun _ c c' d a q r hm _ ht hshown => ?_) tracks_lineEnd
    have := tells_lineEnd ht
    have := hm.lt
    have := hshown.le
    omega
  refine Follows.next (Follows.bind (follows_statement h h') (fun _ => hend.done _)
    fun _ e d hd hunclosed => ?_) fun _ => (follows_gap .free).done _
  have hshy : Shy lineEnd d := by
    refine Shy.about (((Begins.char '\n').skip.shy ?_).orElse (shy_endOfInput hd)) _
    exact hunclosed.mono fun z hz => by rw [eq_of_beq hz]; decide
  exact quiet_of_shy hshy.bind hd.lt

theorem follows_statements {depth depth' : Nat} (h : n ≤ depth) (h' : n ≤ depth') :
    F.Follows (n + 1) Never (statements depth) (statements depth') := by
  have hlines : F.Follows (n + 1) (fun _ => True) (many (line depth)) (many (line depth')) :=
    (follows_line h h').many (consumes_line depth) (consumes_line depth') (fun _ _ _ h => h.elim)
      fun _ _ _ _ _ _ _ _ => trivial
  have hend : F.Follows (n + 1) Never endOfInput endOfInput := by
    refine .of_plain .endOfInput (fun _ c c' d a q r hm _ ht hshown => ?_) .endOfInput
    have := ht.endOfInput.2.2
    have := hm.lt
    have := hshown.le
    omega
  exact Follows.bind (Follows.next (follows_gap .free) fun _ => hlines) (fun _ => hend.done _)
    fun _ _ d hd _ => quiet_of_shy (shy_endOfInput hd).bind hd.lt

/-- A source that fails, and whose failure shows nothing of what differs, fails with any other text
behind as well. -/
theorem statements_none {depth depth' : Nat} (hb : F.before ≠ []) (h : F.place ≤ depth + 1)
    (h' : F.place ≤ depth' + 1) {e : Failure}
    (he : statements depth (Cursor.ofText (F.before ++ F.left)) = .failure e)
    (hshown : ¬ F.Shown e.span.start e.reach) :
    result? (statements depth') (Cursor.ofText (F.before ++ F.right)) = none := by
  have hpos : 0 < F.place := List.length_pos_iff.2 hb
  have hedge : F.Edge (Cursor.ofText (F.before ++ F.left)) :=
    .intro (v := []) rfl hb (edges_nil _)
  have hmeets : F.Meets (Cursor.ofText (F.before ++ F.left))
      (Cursor.ofText (F.before ++ F.right)) := .intro (v := []) rfl hb
  have hfollows : F.Follows (F.place - 1 + 1) Never (statements depth) (statements depth') :=
    follows_statements (by omega) (by omega)
  have halike := hfollows.alike hedge hmeets (by
    change F.place ≤ 0 + (F.place - 1 + 1)
    omega)
  rw [he] at halike
  have hagrees := halike.resolve_left hshown
  rcases (statements depth').reply_cases (Cursor.ofText (F.before ++ F.right)) with
    ⟨_, -, hnone⟩ | ⟨_, _, _, hs, -⟩
  · exact hnone
  · rw [hs] at hagrees
    exact hagrees.elim

end Fork
end BuildScript
