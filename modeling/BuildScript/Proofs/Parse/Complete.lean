import BuildScript.Proofs.Parse.Sound

/-!
Completeness of the grammar: where an expression stands in the text, grouped as it has to be, the
parser of its level takes it, and no more and no less (`complete_expression`). Each level needs to
know that what follows the expression does not go on with it.
-/
namespace BuildScript

namespace Lexeme

def closes (x : Char) : Bool := x == ')' || x == ']' || x == ',' || x == '\n'

theorem ReadsSymbol.head {op : BinaryOp} {c d : Cursor} (h : ReadsSymbol op c d) :
    c.rest.head? = op.symbol.toList.head? := by
  cases hw : op.word? with
  | none =>
    rw [((readsSymbol_of_symbolic hw).1 h).1]
    cases op <;> rfl
  | some w =>
    obtain ⟨e, he⟩ := h.word hw
    rw [(result?_word.1 he).2.1.1]
    cases op <;> simp only [BinaryOp.word?, Option.some.injEq, reduceCtorEq] at hw <;>
      subst hw <;> rfl

theorem symbol_head (op : BinaryOp) : ∀ x ∈ op.symbol.toList.head?,
    closes x = false ∧ (x == '(' || x == '.') = false := by
  intro x hx
  cases op <;> cases hx <;> decide

theorem result?_number_of_stops {c : Cursor} (h : Stops Char.isDigit c.rest) :
    Parser.result? number c = none := by
  refine Parser.result?_of_stops h fun t d ht => ?_
  obtain ⟨hn, hpass, -⟩ := result?_number.1 ht
  obtain ⟨x, xs, hx, hdigit, -⟩ := isNumber_iff.1 hn
  exact ⟨x, xs, d, hdigit, hx ▸ hpass⟩

theorem result?_name_of_stops {c : Cursor} (h : Stops isNameStart c.rest) :
    Parser.result? name c = none := by
  refine Parser.result?_of_stops h fun t d ht => ?_
  obtain ⟨hn, hpass, -⟩ := result?_name.1 ht
  obtain ⟨x, xs, hx, hstart, -⟩ := isWord_iff.1 (isName_iff.1 hn).1
  exact ⟨x, xs, d, hstart, hx ▸ hpass⟩

end Lexeme

namespace Grammar
open BuildScript.Parser Lexeme

def Ends (rank : Nat) (c : Cursor) : Prop :=
  Stops (fun x => x == '(' || x == '.') c.rest ∧
    ∀ level : Precedence, rank ≤ level.rank → ∀ op d,
      firstSymbol? (BinaryOp.longestFirst level) c = some (op, d) → ¬ Stops lengthens d.rest

namespace Ends

theorem mono {rank rank' : Nat} {c : Cursor} (h : Ends rank c) (hr : rank ≤ rank') :
    Ends rank' c :=
  ⟨h.1, fun level hl => h.2 level (Nat.le_trans hr hl)⟩

theorem of_closes {c : Cursor} (h : ∀ x ∈ c.rest.head?, closes x = true) : Ends 0 c := by
  refine ⟨?_, ?_⟩
  · intro x hx
    have := h x hx
    simp only [closes, Bool.or_eq_true, beq_iff_eq] at this
    rcases this with ((rfl | rfl) | rfl) | rfl <;> decide
  · intro level _ op d hop
    obtain ⟨x, hx⟩ : ∃ x, op.symbol.toList.head? = some x := by
      cases op <;> exact ⟨_, rfl⟩
    have hhead := (firstSymbol?_eq_some hop).2.head
    have hclosed := (symbol_head op x hx).1
    rw [h x (hhead.trans hx)] at hclosed
    cases hclosed

theorem of_symbol {op : BinaryOp} {c d : Cursor} (h : ReadsSymbol op c d)
    (hd : Stops lengthens d.rest) : Ends (op.precedence.rank + 1) c := by
  refine ⟨?_, ?_⟩
  · intro x hx
    exact (symbol_head op x (h.head ▸ hx)).2
  · intro level hl t e ht
    have hne : op.precedence ≠ level := by
      rintro rfl
      omega
    rcases h.first_of_other hd hne with hn | ⟨t', e', ht', he'⟩
    · rw [hn] at ht
      cases ht
    · rw [ht'] at ht
      cases ht
      exact he'

end Ends

theorem Reads.stops_lengthens {m : Mode} {e : Expr} {c c₁ d : Cursor} (hg : m.Skips c c₁)
    (hr : Reads m e c₁ d) : Stops lengthens c.rest := by
  obtain ⟨x, w, hx, hw⟩ := hr.passes
  rcases hg.eq_or_opens with rfl | ⟨y, rest, hy, ho⟩
  · rw [hw.1, List.cons_append, stops_cons, ← Bool.not_eq_true]
    intro hl
    simp [not_beginsOperand_of_lengthens hl] at hx
  · rw [hy, stops_cons, ← Bool.not_eq_true]
    intro hl
    simp [not_opens_of_lengthens hl] at ho

theorem Reads.right_le {m : Mode} {l : Expr} {op : BinaryOp} {c c₁ c₂ c₃ c₄ : Cursor}
    (hl : Reads m l c c₁) (hg : m.Skips c₁ c₂) (hs : ReadsSymbol op c₂ c₃)
    (hg' : m.Skips c₃ c₄) : c₄.rest.length ≤ c.rest.length := by
  obtain ⟨_, w, -, hw⟩ := hl.passes
  obtain ⟨_, hg⟩ := hg.passes
  obtain ⟨_, hs⟩ := forward_symbol _ _ _ _ hs
  obtain ⟨_, hg'⟩ := hg'.passes
  have := (((hw.trans hg).trans hs).trans hg').length_eq
  omega

def Complete (m : Mode) (bound rank : Nat) (p : Parser Expr) : Prop :=
  ∀ e c d d', Reads m e c d → e.Grouped → rank ≤ e.precedence.rank → m.Skips d d' → Ends rank d' →
    c.rest.length ≤ bound → result? p c = some (e, d')

section Steps
variable {m : Mode} {p : Parser Expr} {level : Precedence} {bound : Nat}

theorem step_none {rank : Nat} (hs : Sound m rank p) {c : Cursor} (h : Ends level.rank c) :
    result? (step m p level) c = none := by
  unfold step
  rw [result?_bind, result?_operator]
  cases hop : firstSymbol? (BinaryOp.longestFirst level) c with
  | none => rfl
  | some r =>
    obtain ⟨op, d⟩ := r
    have hlong := h.2 level (Nat.le_refl _) op d hop
    unfold Stops at hlong
    simp only [Classical.not_forall, Bool.not_eq_false] at hlong
    obtain ⟨x, hx, hl⟩ := hlong
    have hskip : result? m.gap d = some ((), d) :=
      Mode.Skips.of_stops fun y hy => by
        obtain rfl := Option.mem_unique hx hy
        exact not_opens_of_lengthens hl m
    have hnone : result? p d = none := hs.none_of_stops fun y hy => by
      obtain rfl := Option.mem_unique hx hy
      exact not_beginsOperand_of_lengthens hl
    rw [Option.bind_some, hskip, Option.map_some, Option.bind_some, result?_bind, hnone]
    rfl

theorem step_complete {op : BinaryOp} {r : Expr} {c c₁ c₂ d : Cursor}
    (hs : ReadsSymbol op c c₁) (hg : m.Skips c₁ c₂) (hl : Stops lengthens c₁.rest)
    (hr : result? p c₂ = some (r, d)) :
    result? (step m p op.precedence) c = some ((op, r), d) := by
  unfold step
  rw [result?_bind, result?_operator, hs.first hl, Option.bind_some,
    show result? m.gap c₁ = some ((), c₂) from hg, Option.map_some, Option.bind_some, result?_bind,
    hr]
  rfl

theorem chain_spine (hp : Complete m bound (level.rank + 1) p)
    (hunary : ∀ op : UnaryOp, op.precedence ≠ level) (hprimary : level ≠ .primary) {e : Expr}
    {c d d' : Cursor} (h : Reads m e c d) (hgrouped : e.Grouped)
    (hrank : level.rank ≤ e.precedence.rank) (hg : m.Skips d d') (hend : Ends (level.rank + 1) d')
    (hb : c.rest.length ≤ bound) :
    ∃ first c₁ others, result? p c = some (first, c₁) ∧
      e = others.foldl (fun l r => joined l r.1 r.2) first ∧
      ∀ tail c₂, Run (step m p level) d' tail c₂ →
        Run (step m p level) c₁ (others ++ tail) c₂ := by
  induction e using Expr.induct generalizing c d d' with
  | step e ih =>
    by_cases hlt : level.rank < e.precedence.rank
    · exact ⟨e, d', [], hp e c d d' h hgrouped hlt hg hend hb, rfl, fun _ _ hrun => hrun⟩
    have hlevel : e.precedence = level := Precedence.rank_inj.1 (by omega)
    cases h with
    | @binary _ op l r c c₁ c₂ c₃ c₄ d hl hg₁ hs hg₂ hr =>
      obtain rfl : op.precedence = level := hlevel
      obtain ⟨⟨hlrank, -⟩, hrrank, hlg, hrg⟩ := Expr.grouped_binary.1 hgrouped
      have hstop := Reads.stops_lengthens hg₂ hr
      have hb' := Nat.le_trans (hl.right_le hg₁ hs hg₂) hb
      obtain ⟨first, c₅, others, hfirst, rfl, hrun⟩ :=
        ih l (by simp [Expr.children, Shape.children]) hl hlg hlrank hg₁
          (.of_symbol hs hstop) hb
      have hstep := step_complete hs hg₂ hstop (hp r c₄ d d' hr hrg hrrank hg hend hb')
      refine ⟨first, c₅, others ++ [(op, r)], hfirst, ?_, ?_⟩
      · rw [List.foldl_append]
        exact (hl.joined_eq hg₁ hs hg₂ hr).symm
      · intro tail c₆ htail
        rw [List.append_assoc]
        exact hrun _ _ (.step hstep htail)
    | @unary _ op => exact absurd hlevel (hunary op)
    | _ => exact absurd hlevel.symm hprimary

theorem complete_leftChain (level : Precedence) (hs : Sound m (level.rank + 1) p)
    (hp : Complete m bound (level.rank + 1) p) (hunary : ∀ op : UnaryOp, op.precedence ≠ level)
    (hprimary : level ≠ .primary) : Complete m bound level.rank (leftChain m.gap p level) := by
  intro e c d d' h hgrouped hrank hg hend hb
  obtain ⟨first, c₁, others, hfirst, rfl, hrun⟩ :=
    chain_spine hp hunary hprimary h hgrouped hrank hg (hend.mono (Nat.le_succ _)) hb
  have hall := hrun [] d' (.stop (step_none hs hend))
  rw [List.append_nil] at hall
  rw [result?_leftChain, hfirst, Option.bind_some,
    (result?_many_eq_some (consumes_step hs.forward level)).2 hall]
  rfl

theorem complete_single (level : Precedence) (hs : Sound m (level.rank + 1) p)
    (hp : Complete m bound (level.rank + 1) p) (hunary : ∀ op : UnaryOp, op.precedence ≠ level)
    (hprimary : level ≠ .primary)
    (hassoc : ∀ op : BinaryOp, op.precedence = level → op.assoc = .none) :
    Complete m bound level.rank (single m.gap p level) := by
  intro e c d d' h hgrouped hrank hg hend hb
  rw [result?_single]
  by_cases hlt : level.rank < e.precedence.rank
  · rw [hp e c d d' h hgrouped hlt hg (hend.mono (Nat.le_succ _)) hb, Option.map_some,
      step_none hs hend]
    rfl
  have hlevel : e.precedence = level := Precedence.rank_inj.1 (by omega)
  cases h with
  | @binary _ op l r c c₁ c₂ c₃ c₄ d hl hg₁ hs' hg₂ hr =>
    obtain rfl : op.precedence = level := hlevel
    obtain ⟨⟨-, hlrank⟩, hrrank, hlg, hrg⟩ := Expr.grouped_binary.1 hgrouped
    have hstop := Reads.stops_lengthens hg₂ hr
    have hb' := Nat.le_trans (hl.right_le hg₁ hs' hg₂) hb
    have hleft := hp l c c₁ c₂ hl hlg (hlrank (hassoc op rfl)) hg₁ (.of_symbol hs' hstop) hb
    have hright := hp r c₄ d d' hr hrg hrrank hg (hend.mono (Nat.le_succ _)) hb'
    rw [hleft, Option.map_some, step_complete hs' hg₂ hstop hright]
    exact congrArg some (Prod.ext (hl.joined_eq hg₁ hs' hg₂ hr) rfl)
  | @unary _ op => exact absurd hlevel (hunary op)
  | _ => exact absurd hlevel.symm hprimary

end Steps

/-- Where an expression stands, no sign stands that binds looser than the expression. -/
theorem Reads.not_sign {m : Mode} {e : Expr} {c d d' : Cursor} {op : UnaryOp}
    (h : Reads m e c d) (hgrouped : e.Grouped)
    (hrank : op.precedence.rank < e.precedence.rank) : ¬ ReadsSign op c d' := by
  rintro ⟨hsign, hword⟩
  have hhead : c.rest.head? = op.symbol.toList.head? := by
    rw [hsign.1]
    cases op <;> rfl
  match h with
  | .literal h =>
    obtain ⟨hn, hpass, -⟩ := result?_number.1 h
    obtain ⟨x, xs, hx, hd, -⟩ := isNumber_iff.1 hn
    rw [hpass.1, hx] at hhead
    cases op <;> cases hhead <;> exact absurd hd (by decide)
  | .string h =>
    obtain ⟨q, w, hq, -, hpass⟩ := result?_string.1 h
    rw [hpass.1] at hhead
    cases op <;> cases hhead <;> exact absurd hq (by decide)
  | .ident h =>
    obtain ⟨hn, hpass⟩ := result?_name.1 h
    obtain ⟨hw, hk⟩ := isName_iff.1 hn
    obtain ⟨x, xs, hx, hs, -⟩ := isWord_iff.1 hw
    cases op with
    | not =>
      have hnot : result? word c = some ("not", d') :=
        result?_word.2 ⟨by decide, hsign, hword rfl⟩
      cases (result?_word.2 ⟨hw, hpass⟩).symm.trans hnot
      exact hk (by decide)
    | _ =>
      rw [hpass.1.1, hx] at hhead
      cases hhead
      exact absurd hs (by decide)
  | .paren ho hx hg hc =>
    obtain ⟨w, hw⟩ := ho.passes
    rw [hw.1] at hhead
    cases op <;> cases hhead
  | .list ho hx hc =>
    obtain ⟨w, hw⟩ := ho.passes
    rw [hw.1] at hhead
    cases op <;> cases hhead
  | .call hf hg ho hx hc =>
    obtain ⟨hprimary, hfg, -⟩ := Expr.grouped_call.1 hgrouped
    exact hf.not_sign hfg (hprimary ▸ hrank) ⟨hsign, hword⟩
  | .dot hx hg hd hg' hn =>
    obtain ⟨hprimary, hxg⟩ := Expr.grouped_dot.1 hgrouped
    exact hx.not_sign hxg (hprimary ▸ hrank) ⟨hsign, hword⟩
  | @Reads.unary _ op' _ _ _ _ _ hs hg hx =>
    have hhead' : c.rest.head? = op'.symbol.toList.head? := by
      rw [hs.1.1]
      cases op' <;> rfl
    have hrank : op.precedence.rank < op'.precedence.rank := hrank
    rw [hhead] at hhead'
    cases op <;> cases op' <;> first | exact absurd hrank (by decide) | cases hhead'
  | @Reads.binary _ op' _ _ _ _ _ _ _ _ hl hg hs hg' hr =>
    obtain ⟨⟨hlrank, -⟩, -, hlg, -⟩ := Expr.grouped_binary.1 hgrouped
    exact hl.not_sign hlg (Nat.lt_of_lt_of_le hrank hlrank) ⟨hsign, hword⟩

section Signs
variable {m : Mode} {p : Parser Expr} {level : Precedence} {sign : Parser UnaryOp} {bound : Nat}

theorem signs_spine (hs : SignsOf level sign) (hp : Complete m bound (level.rank + 1) p)
    (hbinary : ∀ op : BinaryOp, op.precedence ≠ level) (hprimary : level ≠ .primary) {e : Expr}
    {c d d' : Cursor} (h : Reads m e c d) (hgrouped : e.Grouped)
    (hrank : level.rank ≤ e.precedence.rank) (hg : m.Skips d d') (hend : Ends level.rank d')
    (hb : c.rest.length ≤ bound) :
    ∃ found c₁ x, Run (spanned sign <* m.gap) c found c₁ ∧ result? p c₁ = some (x, d') ∧
      e = found.foldr (fun s x => signed s.1 s.2 x) x := by
  induction e using Expr.induct generalizing c with
  | step e ih =>
    by_cases hlt : level.rank < e.precedence.rank
    · refine ⟨[], c, e, .stop (result?_eq_none ?_),
        hp e c d d' h hgrouped hlt hg (hend.mono (Nat.le_succ _)) hb, rfl⟩
      rintro ⟨op, s⟩ c₁ hsign
      obtain ⟨rfl, c₂, hread, -⟩ := (result?_signed hs).1 hsign
      exact h.not_sign hgrouped hlt hread
    have hlevel : e.precedence = level := Precedence.rank_inj.1 (by omega)
    cases h with
    | @unary _ op x c c₁ c₂ d hsign hg₁ hx =>
      obtain rfl : op.precedence = level := hlevel
      obtain ⟨hxrank, hxg⟩ := Expr.grouped_unary.1 hgrouped
      have hb' : c₂.rest.length ≤ bound := by
        obtain ⟨_, hg₁⟩ := hg₁.passes
        have := (hsign.1.trans hg₁).length_eq
        omega
      obtain ⟨found, c₃, y, hrun, hy, rfl⟩ :=
        ih x (by simp [Expr.children, Shape.children]) hx hxg hxrank hb'
      refine ⟨(op, c.span c₁) :: found, c₃, y, .step ?_ hrun, hy, ?_⟩
      · exact (result?_signed hs).2 ⟨rfl, c₁, hsign, rfl, hg₁⟩
      · exact (Reads.signed_eq hsign hg₁ hx).symm
    | @binary _ op => exact absurd hlevel (hbinary op)
    | _ => exact absurd hlevel.symm hprimary

theorem complete_signs (hs : SignsOf level sign) (hp : Complete m bound (level.rank + 1) p)
    (hbinary : ∀ op : BinaryOp, op.precedence ≠ level) (hprimary : level ≠ .primary) :
    Complete m bound level.rank (signs m.gap sign p) := by
  intro e c d d' h hgrouped hrank hg hend hb
  obtain ⟨found, c₁, x, hrun, hx, rfl⟩ :=
    signs_spine hs hp hbinary hprimary h hgrouped hrank hg hend hb
  rw [result?_signs, (result?_many_eq_some (consumes_signed hs)).2 hrun, Option.bind_some, hx]
  rfl

end Signs
section Operands
variable {m : Mode} {n : Parser Expr} {bound : Nat}

def Closes (c : Cursor) : Prop := ∃ x rest, c.rest = x :: rest ∧ (x = ')' ∨ x = ']')

theorem Closes.of_passes {x : Char} {c d : Cursor} (h : c.Passes [x] d) (hx : x = ')' ∨ x = ']') :
    Closes c :=
  ⟨x, d.rest, h.1, hx⟩

theorem Closes.stops {c : Cursor} (h : Closes c) : Stops beginsOperand c.rest := by
  obtain ⟨x, rest, hx, rfl | rfl⟩ := h <;> rw [hx, stops_cons] <;> decide

theorem Closes.ends {c : Cursor} (h : Closes c) : Ends 0 c := by
  obtain ⟨x, rest, hx, hclose⟩ := h
  refine .of_closes fun y hy => ?_
  rw [hx] at hy
  cases hy
  rcases hclose with rfl | rfl <;> decide

theorem Opens.ends {c d : Cursor} (h : Opens ',' c d) : Ends 0 c := by
  obtain ⟨w, hw⟩ := h.passes
  refine .of_closes fun y hy => ?_
  rw [hw.1] at hy
  cases hy
  decide

theorem result?_comma_none {c : Cursor} (h : c.rest.head? ≠ some ',') :
    result? comma c = none := by
  unfold comma opening
  rw [result?_bind, result?_char_of_head h]
  rfl

theorem Closes.comma_none {c : Cursor} (h : Closes c) : result? comma c = none := by
  obtain ⟨x, rest, hx, hclose⟩ := h
  refine result?_comma_none ?_
  rw [hx, List.head?_cons]
  rcases hclose with rfl | rfl <;> decide

/-- The items behind the first one are read with their commas; one more comma may be left. -/
theorem items_spine (hs : Sound .free 0 n) (hn : Complete .free bound 0 n) {x : Expr}
    {xs : List Expr} {c d : Cursor} (h : ReadsItems (x :: xs) c d)
    (hall : ∀ y ∈ x :: xs, y.Grouped) (hd : Closes d) (hb : c.rest.length ≤ bound) :
    ∃ c₁ c₂, result? n c = some (x, c₁) ∧ Run (do let _ ← comma; n) c₁ xs c₂ ∧
      ((result? comma c₂).map Prod.snd).getD c₂ = d := by
  obtain ⟨hxg, hxs⟩ := List.forall_mem_cons.1 hall
  match h with
  | @ReadsItems.last _ _ c₀ _ hx hg =>
    refine ⟨d, d, hn x c c₀ d hx hxg (Nat.zero_le _) hg hd.ends hb, .stop ?_, ?_⟩
    · rw [result?_bind, hd.comma_none]
      rfl
    · rw [hd.comma_none]
      rfl
  | @ReadsItems.comma _ _ c₀ c₁ _ hx hg hc =>
    have hopen := result?_opening.2 hc
    refine ⟨c₁, c₁, hn x c c₀ c₁ hx hxg (Nat.zero_le _) hg hc.ends hb, .stop ?_, ?_⟩
    · rw [result?_bind, show result? comma c₁ = some ((), d) from hopen, Option.bind_some,
        hs.none_of_stops hd.stops]
    · rw [show result? comma c₁ = some ((), d) from hopen]
      rfl
  | @ReadsItems.cons _ _ _ _ c₀ c₁ c₂ _ hx hg hc hrest =>
    have hopen := result?_opening.2 hc
    have hb' : c₂.rest.length ≤ bound := by
      obtain ⟨_, _, -, hx⟩ := hx.passes
      obtain ⟨_, hg⟩ := hg.passes
      obtain ⟨_, hc⟩ := hc.passes
      have := ((hx.trans hg).trans hc).length_eq
      omega
    obtain ⟨c₃, c₄, hy, hrun, hend⟩ := items_spine hs hn hrest hxs hd hb'
    refine ⟨c₁, c₄, hn x c c₀ c₁ hx hxg (Nat.zero_le _) hg hc.ends hb, .step ?_ hrun, hend⟩
    rw [result?_bind, show result? comma c₁ = some ((), c₂) from hopen]
    exact hy

theorem items_complete (hs : Sound .free 0 n) (hn : Complete .free bound 0 n) {xs : List Expr}
    {c d : Cursor} (h : ReadsItems xs c d) (hall : ∀ x ∈ xs, x.Grouped) (hd : Closes d)
    (hb : c.rest.length ≤ bound) : result? (items n) c = some (xs, d) := by
  rw [result?_items]
  cases xs with
  | nil =>
    cases h
    rw [hs.none_of_stops hd.stops]
  | cons x xs =>
    obtain ⟨c₁, c₂, hx, hrun, hend⟩ := items_spine hs hn h hall hd hb
    rw [hx]
    dsimp only
    rw [(result?_many_eq_some (consumes_item hs.forward)).2 hrun]
    dsimp only
    rw [hend]

theorem result?_leaf (c : Cursor) : result? leaf c =
    ((result? number c).map fun r => (Shape.literal r.1, r.2)).or
      (((result? string c).map fun r => (Shape.string r.1, r.2)).or
        ((result? name c).map fun r => (Shape.ident r.1, r.2))) := by
  unfold leaf
  simp only [result?_choice, List.findSome?_cons, List.findSome?_nil, result?_map]
  cases result? number c <;> cases result? string c <;> cases result? name c <;> rfl

theorem leaf_complete {c d : Cursor} : (∀ {t}, result? number c = some (t, d) →
      result? leaf c = some (.literal t, d)) ∧
    (∀ {v}, result? string c = some (v, d) → result? leaf c = some (.string v, d)) ∧
    ∀ {y}, result? name c = some (y, d) → result? leaf c = some (.ident y, d) := by
  refine ⟨?_, ?_, ?_⟩
  · intro t ht
    rw [result?_leaf, ht]
    rfl
  · intro v hv
    obtain ⟨q, w, hq, -, hpass⟩ := result?_string.1 hv
    have hnumber : result? number c = none := by
      apply result?_number_of_stops
      rw [hpass.1, List.append_assoc, List.cons_append, stops_cons]
      rcases hq with rfl | rfl <;> decide
    rw [result?_leaf, hnumber, hv]
    rfl
  · intro y hy
    obtain ⟨hn, hpass⟩ := result?_name.1 hy
    obtain ⟨x, xs, hx, hs, -⟩ := isWord_iff.1 (isName_iff.1 hn).1
    have hnumber : result? number c = none := by
      apply result?_number_of_stops
      rw [hpass.1.1, hx, List.cons_append, stops_cons, ← Bool.not_eq_true]
      intro hd
      simp [not_isNameStart_of_digit hd] at hs
    have hstring : result? string c = none := by
      apply result?_string_of_stops
      rw [hpass.1.1, hx, List.cons_append, stops_cons, ← Bool.not_eq_true]
      simp only [Bool.or_eq_true, beq_iff_eq]
      rintro (rfl | rfl) <;> exact absurd hs (by decide)
    rw [result?_leaf, hnumber, hstring, hy]
    rfl

theorem leaf_none {c d : Cursor} {x : Char} (h : Opens x c d) (hx : x = '(' ∨ x = '[') :
    result? leaf c = none := by
  obtain ⟨w, hw⟩ := h.passes
  have hstops {test : Char → Bool} (hround : test '(' = false) (hsquare : test '[' = false) :
      Stops test c.rest := by
    rw [hw.1, List.cons_append, stops_cons]
    rcases hx with rfl | rfl
    · exact hround
    · exact hsquare
  rw [result?_leaf, result?_number_of_stops (hstops (by decide) (by decide)),
    result?_string_of_stops (hstops (by decide) (by decide)),
    result?_name_of_stops (hstops (by decide) (by decide))]
  rfl

theorem parenthesized_none {c d : Cursor} (h : Opens '[' c d) :
    result? (parenthesized n) c = none := by
  obtain ⟨w, hw⟩ := h.passes
  refine result?_eq_none fun x d' hx => ?_
  unfold parenthesized at hx
  rw [result?_map, Option.map_eq_some_iff] at hx
  obtain ⟨⟨y, d''⟩, hy, -⟩ := hx
  obtain ⟨c₁, c₂, ho, -⟩ := result?_enclosed.1 hy
  obtain ⟨w', hw'⟩ := ho.passes
  exact absurd (hw.head_eq hw') (by decide)

theorem atom_complete {shape : Shape Expr} {c d d' : Cursor}
    (h : result? (choice [leaf, parenthesized n, bracketed n]) c = some (shape, d))
    (hg : m.Skips d d') :
    result? (atom m.gap n) c = some (⟨some (c.span d), shape⟩, d') := by
  unfold atom
  rw [result?_bind, result?_spanned, h, Option.map_some, Option.bind_some, result?_bind,
    show result? m.gap d = some ((), d') from hg]
  rfl

theorem leaf_first {shape : Shape Expr} {c d : Cursor} (h : result? leaf c = some (shape, d)) :
    result? (choice [leaf, parenthesized n, bracketed n]) c = some (shape, d) := by
  rw [result?_choice, List.findSome?_cons, h]

theorem parenthesized_first (hn : Complete .free bound 0 n) {x : Expr} {c c₁ c₂ c₃ d : Cursor}
    (ho : Opens '(' c c₁) (hx : Reads .free x c₁ c₂) (hg : Mode.free.Skips c₂ c₃)
    (hc : c₃.Passes [')'] d) (hgrouped : x.Grouped) (hb : c.rest.length ≤ bound + 1) :
    result? (choice [leaf, parenthesized n, bracketed n]) c = some (.paren x, d) := by
  have hinner := hn x c₁ c₂ c₃ hx hgrouped (Nat.zero_le _) hg (Closes.of_passes hc (.inl rfl)).ends
    (Nat.le_of_lt_succ (Nat.lt_of_lt_of_le ho.length_lt hb))
  rw [result?_choice, List.findSome?_cons, leaf_none ho (.inl rfl), List.findSome?_cons]
  unfold parenthesized
  rw [result?_map, result?_enclosed.2 ⟨c₁, c₃, ho, hinner, hc⟩]
  rfl

theorem bracketed_first (hs : Sound .free 0 n) (hn : Complete .free bound 0 n) {xs : List Expr}
    {c c₁ c₂ d : Cursor} (ho : Opens '[' c c₁) (hxs : ReadsItems xs c₁ c₂)
    (hc : c₂.Passes [']'] d) (hgrouped : ∀ x ∈ xs, x.Grouped) (hb : c.rest.length ≤ bound + 1) :
    result? (choice [leaf, parenthesized n, bracketed n]) c = some (.list xs, d) := by
  have hitems := items_complete hs hn hxs hgrouped (.of_passes hc (.inr rfl))
    (Nat.le_of_lt_succ (Nat.lt_of_lt_of_le ho.length_lt hb))
  rw [result?_choice, List.findSome?_cons, leaf_none ho (.inr rfl), List.findSome?_cons,
    parenthesized_none ho, List.findSome?_cons]
  unfold bracketed
  rw [result?_map, result?_enclosed.2 ⟨c₁, c₂, ho, hitems, hc⟩]
  rfl

theorem callSuffix_complete (hs : Sound .free 0 n) (hn : Complete .free bound 0 n)
    {xs : List Expr} {c c₁ c₂ d d' : Cursor} (ho : Opens '(' c c₁) (hxs : ReadsItems xs c₁ c₂)
    (hc : c₂.Passes [')'] d) (hgrouped : ∀ x ∈ xs, x.Grouped) (hg : m.Skips d d')
    (hb : c.rest.length ≤ bound + 1) :
    result? (suffix m n) c = some ((.call xs, c.span d), d') := by
  have hitems := items_complete hs hn hxs hgrouped (.of_passes hc (.inl rfl))
    (Nat.le_of_lt_succ (Nat.lt_of_lt_of_le ho.length_lt hb))
  exact result?_suffix.2
    ⟨d, rfl, hg, .inl (result?_callSuffix.2 ⟨xs, c₁, c₂, rfl, ho, hitems, hc⟩)⟩

theorem dotSuffix_complete {y : String} {c c₁ c₂ d d' : Cursor} (hd : c.Passes ['.'] c₁)
    (hg : m.Skips c₁ c₂) (hy : result? name c₂ = some (y, d)) (hg' : m.Skips d d') :
    result? (suffix m n) c = some ((.dot y, c.span d), d') := by
  have hcall : result? (callSuffix n) c = none := by
    refine result?_eq_none fun s e hs => ?_
    obtain ⟨xs, c₃, c₄, -, ho, -⟩ := result?_callSuffix.1 hs
    obtain ⟨w, hw⟩ := ho.passes
    exact absurd (hd.head_eq hw) (by decide)
  exact result?_suffix.2
    ⟨d, rfl, hg', .inr ⟨hcall, result?_dotSuffix.2 ⟨y, c₁, c₂, rfl, hd, hg, hy⟩⟩⟩

/-- An operand is what is taken first at `c`, a leaf or a bracket, with the suffixes that are taken
from there on up to `d`. -/
def HasSpine (m : Mode) (n : Parser Expr) (e : Expr) (c d : Cursor) : Prop :=
  ∃ first c₁ suffixes, result? (atom m.gap n) c = some (first, c₁) ∧
    e = suffixes.foldl suffixed first ∧
    ∀ tail c₂, Run (suffix m n) d tail c₂ → Run (suffix m n) c₁ (suffixes ++ tail) c₂

theorem HasSpine.start {shape : Shape Expr} {c d d' : Cursor}
    (h : result? (choice [leaf, parenthesized n, bracketed n]) c = some (shape, d))
    (hg : m.Skips d d') : HasSpine m n ⟨some (c.span d), shape⟩ c d' :=
  ⟨_, d', [], atom_complete h hg, rfl, fun _ _ hrun => hrun⟩

theorem HasSpine.step {e : Expr} {c d d' : Cursor} {s : Suffix × Span} (h : HasSpine m n e c d)
    (hs : result? (suffix m n) d = some (s, d')) : HasSpine m n (suffixed e s) c d' := by
  obtain ⟨first, c₁, suffixes, hfirst, rfl, hrun⟩ := h
  refine ⟨first, c₁, suffixes ++ [s], hfirst, ?_, fun tail c₂ htail => ?_⟩
  · rw [List.foldl_append]
    rfl
  · rw [List.append_assoc]
    exact hrun _ _ (.step hs htail)

theorem operand_spine (hs : Sound .free 0 n) (hn : Complete .free bound 0 n) {e : Expr}
    {c d d' : Cursor} (h : Reads m e c d) (hgrouped : e.Grouped)
    (hprimary : e.precedence = .primary) (hg : m.Skips d d') (hb : c.rest.length ≤ bound + 1) :
    HasSpine m n e c d' := by
  induction e using Expr.induct generalizing c d d' with
  | step e ih =>
    cases h with
    | literal h => exact .start (leaf_first (leaf_complete.1 h)) hg
    | string h => exact .start (leaf_first (leaf_complete.2.1 h)) hg
    | ident h => exact .start (leaf_first (leaf_complete.2.2 h)) hg
    | paren ho hx hg' hc =>
      exact .start (parenthesized_first hn ho hx hg' hc (Expr.grouped_paren.1 hgrouped) hb) hg
    | list ho hxs hc =>
      exact .start (bracketed_first hs hn ho hxs hc (Expr.grouped_list.1 hgrouped) hb) hg
    | @call _ f xs c c₁ c₂ c₃ c₄ d hf hg' ho hxs hc =>
      obtain ⟨hfp, hfg, hxg⟩ := Expr.grouped_call.1 hgrouped
      have hb' : c₂.rest.length ≤ bound + 1 := by
        obtain ⟨_, _, -, hpass⟩ := hf.passes
        exact Nat.le_trans hg'.length_le (Nat.le_trans (Nat.le_of_lt hpass.length_lt) hb)
      have hspine := ih f (by simp [Expr.children, Shape.children]) hf hfg hfp hg' hb
      have hstep := hspine.step (callSuffix_complete hs hn ho hxs hc hxg hg hb')
      rwa [hf.suffixed_eq] at hstep
    | @dot _ x y c c₁ c₂ c₃ c₄ d hx hg' hd hg'' hy =>
      obtain ⟨hxp, hxg⟩ := Expr.grouped_dot.1 hgrouped
      have hspine := ih x (by simp [Expr.children, Shape.children]) hx hxg hxp hg' hb
      have hstep := hspine.step (dotSuffix_complete hd hg'' hy hg)
      rwa [hx.suffixed_eq] at hstep
    | @unary _ op => cases op <;> cases hprimary
    | @binary _ op => cases op <;> cases hprimary

theorem suffix_none {rank : Nat} {c : Cursor} (h : Ends rank c) :
    result? (suffix m n) c = none := by
  refine result?_eq_none fun s d hs => ?_
  obtain ⟨e, -, -, hs | ⟨-, hs⟩⟩ := result?_suffix.1 hs
  · obtain ⟨xs, c₁, c₂, -, ho, -⟩ := result?_callSuffix.1 hs
    obtain ⟨w, hw⟩ := ho.passes
    have := h.1 '(' (by rw [hw.1]; rfl)
    exact absurd this (by decide)
  · obtain ⟨y, c₁, c₂, -, hd, -⟩ := result?_dotSuffix.1 hs
    have := h.1 '.' (by rw [hd.1]; rfl)
    exact absurd this (by decide)

theorem complete_operand (hs : Sound .free 0 n) (hn : Complete .free bound 0 n) :
    Complete m (bound + 1) Precedence.primary.rank (operand m.gap n) := by
  intro e c d d' h hgrouped hrank hg hend hb
  have hprimary : e.precedence = .primary := by
    revert hrank
    cases e.precedence <;> decide
  obtain ⟨first, c₁, suffixes, hfirst, rfl, hrun⟩ :=
    operand_spine hs hn h hgrouped hprimary hg hb
  have hall := hrun [] d' (.stop (suffix_none hend))
  rw [List.append_nil] at hall
  rw [result?_operand, hfirst, Option.bind_some,
    (result?_many_eq_some (consumes_suffix hs.forward)).2 hall]
  rfl

end Operands

section Levels
variable {m : Mode} {n : Parser Expr} {bound : Nat}

theorem complete_arithmetic (hs : Sound .free 0 n) (hn : Complete .free bound 0 n) :
    Complete m (bound + 1) Precedence.bitOr.rank (arithmetic m.gap n) := by
  have hsound := sound_signs signsOf_sign (sound_operand (m := m) hs)
  have hcomplete := complete_signs signsOf_sign (complete_operand (m := m) hs hn)
    (by intro op; cases op <;> decide) (by decide)
  refine (arithmetic_induct
    (motive := fun rank p => Sound m rank p ∧ Complete m (bound + 1) rank p)
    ⟨hsound, hcomplete⟩ ?_).2
  rintro level hl p ⟨hs, hc⟩
  refine ⟨sound_leftChain level hs ?_, complete_leftChain level hs hc ?_ ?_⟩
  · rintro op rfl
    exact assoc_of_mem_arithmeticLevels hl
  · rintro op rfl
    cases op <;> exact absurd hl (by decide)
  · rintro rfl
    exact absurd hl (by decide)

theorem complete_negation (hs : Sound .free 0 n) (hn : Complete .free bound 0 n) :
    Complete m (bound + 1) Precedence.not.rank (negation m.gap n) := by
  have hcompare := complete_single .compare (sound_arithmetic (m := m) hs)
    (complete_arithmetic hs hn) (by intro op; cases op <;> decide) (by decide)
    (by intro op h; cases op <;> first | rfl | cases h)
  exact complete_signs signsOf_negation hcompare (by intro op; cases op <;> decide) (by decide)

theorem complete_expression (hs : Sound .free 0 n) (hn : Complete .free bound 0 n) :
    Complete m (bound + 1) 0 (expression m.gap n) := by
  have hassoc {level : Precedence} (hl : level = .and ∨ level = .or) (op : BinaryOp)
      (h : op.precedence = level) : op.assoc = .left := by
    subst h
    cases op <;> first | rfl | exact absurd hl (by decide)
  have snegation := sound_negation (m := m) hs
  have sand := sound_leftChain .and snegation (hassoc (by decide))
  have sor := sound_leftChain .or sand (hassoc (by decide))
  have cand := complete_leftChain .and snegation (complete_negation (m := m) hs hn)
    (by intro op; cases op <;> decide) (by decide)
  have cor := complete_leftChain .or sand cand (by intro op; cases op <;> decide)
    (by decide)
  exact complete_single .assign sor cor (by intro op; cases op <;> decide) (by decide)
    (by intro op h; cases op <;> first | rfl | cases h)

theorem complete_nested (depth : Nat) : Complete .free depth 0 (nested depth) := by
  induction depth with
  | zero =>
    intro e c d d' h _ _ _ _ hb
    obtain ⟨_, w, -, hw⟩ := h.passes
    exact absurd hw.length_lt (by omega)
  | succ depth ih => exact complete_expression (m := .free) (sound_nested depth) ih

end Levels
end Grammar
end BuildScript
