import BuildScript.Proofs.Expr.Spans
import BuildScript.Proofs.Parse.Statement
import BuildScript.Proofs.Parse.Token

/-!
Every way to write an expression down. A tree that needs no further parentheses is read back from
its tokens, whatever gaps lie between them, whatever quotes its strings have, and with or without a
comma behind the last item of a bracket (`Expr.parse_written`).
-/
namespace BuildScript
open BuildScript.Parser Lexeme Grammar

mutual
/-- The tokens of a tree, in a row. -/
inductive HasTokens : Expr → List Token → Prop
  | literal {s : Option Span} {t : String} : HasTokens ⟨s, .literal t⟩ [.number t]
  | string {s : Option Span} {v : String} : HasTokens ⟨s, .string v⟩ [.string v]
  | ident {s : Option Span} {n : String} : HasTokens ⟨s, .ident n⟩ [.name n]
  | binary {s : Option Span} {op : BinaryOp} {l r : Expr} {ts us : List Token}
    (hl : HasTokens l ts) (hr : HasTokens r us) :
    HasTokens ⟨s, .binary op l r⟩ (ts ++ .operator op :: us)
  | unary {s : Option Span} {op : UnaryOp} {x : Expr} {ts : List Token} (hx : HasTokens x ts) :
    HasTokens ⟨s, .unary op x⟩ (.sign op :: ts)
  | paren {s : Option Span} {x : Expr} {ts : List Token} (hx : HasTokens x ts) :
    HasTokens ⟨s, .paren x⟩ (.opening .round :: (ts ++ [.closing .round]))
  | list {s : Option Span} {xs : List Expr} {ts : List Token} (hxs : ItemTokens xs ts) :
    HasTokens ⟨s, .list xs⟩ (.opening .square :: (ts ++ [.closing .square]))
  | call {s : Option Span} {f : Expr} {xs : List Expr} {ts us : List Token} (hf : HasTokens f ts)
    (hxs : ItemTokens xs us) :
    HasTokens ⟨s, .call f xs⟩ (ts ++ .opening .round :: (us ++ [.closing .round]))
  | dot {s : Option Span} {x : Expr} {n : String} {ts : List Token} (hx : HasTokens x ts) :
    HasTokens ⟨s, .dot x n⟩ (ts ++ [.dot, .name n])

/-- The tokens of the items in a bracket; behind the last one there may be a comma. -/
inductive ItemTokens : List Expr → List Token → Prop
  | nil : ItemTokens [] []
  | last {x : Expr} {ts : List Token} (hx : HasTokens x ts) : ItemTokens [x] ts
  | comma {x : Expr} {ts : List Token} (hx : HasTokens x ts) : ItemTokens [x] (ts ++ [.comma])
  | cons {x y : Expr} {ys : List Expr} {ts us : List Token} (hx : HasTokens x ts)
    (h : ItemTokens (y :: ys) us) : ItemTokens (x :: y :: ys) (ts ++ .comma :: us)
end

mutual
theorem HasTokens.valid {e : Expr} {ts : List Token} (h : HasTokens e ts) (he : e.Lexical) :
    ∀ t ∈ ts, t.Valid := by
  have ⟨hnode, hbelow⟩ := Expr.every_iff.1 he
  match h with
  | .literal => exact List.forall_mem_singleton.2 hnode
  | .string => exact List.forall_mem_singleton.2 trivial
  | .ident => exact List.forall_mem_singleton.2 hnode
  | .binary hl hr =>
    have hl := hl.valid (hbelow _ (.head _))
    have hr := hr.valid (hbelow _ (.tail _ (.head _)))
    exact List.forall_mem_append.2 ⟨hl, List.forall_mem_cons.2 ⟨trivial, hr⟩⟩
  | .unary hx => exact List.forall_mem_cons.2 ⟨trivial, hx.valid (hbelow _ (.head _))⟩
  | .paren hx =>
    have hx := hx.valid (hbelow _ (.head _))
    exact List.forall_mem_cons.2 ⟨trivial, List.forall_mem_append.2
      ⟨hx, List.forall_mem_singleton.2 trivial⟩⟩
  | .list hxs =>
    have hxs := hxs.valid hbelow
    exact List.forall_mem_cons.2 ⟨trivial, List.forall_mem_append.2
      ⟨hxs, List.forall_mem_singleton.2 trivial⟩⟩
  | .call hf hxs =>
    have hf := hf.valid (hbelow _ (.head _))
    have hxs := hxs.valid fun x hx => hbelow x (.tail _ hx)
    exact List.forall_mem_append.2 ⟨hf, List.forall_mem_cons.2 ⟨trivial,
      List.forall_mem_append.2 ⟨hxs, List.forall_mem_singleton.2 trivial⟩⟩⟩
  | .dot hx =>
    have hx := hx.valid (hbelow _ (.head _))
    exact List.forall_mem_append.2 ⟨hx, List.forall_mem_cons.2 ⟨trivial,
      List.forall_mem_singleton.2 hnode⟩⟩

theorem ItemTokens.valid {xs : List Expr} {ts : List Token} (h : ItemTokens xs ts)
    (hxs : ∀ x ∈ xs, x.Lexical) : ∀ t ∈ ts, t.Valid := by
  match h with
  | .nil => simp
  | .last hx => exact hx.valid (hxs _ (.head _))
  | .comma hx =>
    exact List.forall_mem_append.2
      ⟨hx.valid (hxs _ (.head _)), List.forall_mem_singleton.2 trivial⟩
  | .cons hx h =>
    have hx := hx.valid (hxs _ (.head _))
    have h := h.valid fun y hy => hxs y (.tail _ hy)
    exact List.forall_mem_append.2 ⟨hx, List.forall_mem_cons.2 ⟨trivial, h⟩⟩
end

theorem Expr.eraseSpans_congr {s t : Option Span} {x y : Shape Expr}
    (h : x.map eraseSpans = y.map eraseSpans) : eraseSpans ⟨s, x⟩ = eraseSpans ⟨t, y⟩ := by
  rw [eraseSpans_eq, eraseSpans_eq ⟨t, y⟩, h]

mutual
theorem HasTokens.reads {e : Expr} {ts us : List Token} (h : HasTokens e ts) {c : Cursor}
    (ha : Ahead (ts ++ us) c) : ∃ e' d d', Reads .free e' c d ∧ Mode.free.Skips d d' ∧
      Ahead us d' ∧ e'.eraseSpans = e.eraseSpans := by
  match h with
  | .literal =>
    obtain ⟨d, d', hread, hskip, ha⟩ := ha.number
    exact ⟨_, d, d', .literal hread, hskip, ha, rfl⟩
  | .string =>
    obtain ⟨d, d', hread, hskip, ha⟩ := ha.string
    exact ⟨_, d, d', .string hread, hskip, ha, rfl⟩
  | .ident =>
    obtain ⟨d, d', hread, hskip, ha⟩ := ha.name
    exact ⟨_, d, d', .ident hread, hskip, ha, rfl⟩
  | .binary hl hr =>
    rw [List.append_assoc, List.cons_append] at ha
    obtain ⟨l, c₁, c₂, hl, hskip, ha, hleft⟩ := hl.reads ha
    obtain ⟨c₃, c₄, hop, hskip', ha⟩ := ha.operator
    obtain ⟨r, d, d', hr, hend, ha, hright⟩ := hr.reads ha
    refine ⟨_, d, d', .binary hl hskip hop hskip' hr, hend, ha, Expr.eraseSpans_congr ?_⟩
    rw [Shape.map, Shape.map, hleft, hright]
  | .unary hx =>
    obtain ⟨c₁, c₂, hop, hskip, ha⟩ := ha.sign
    obtain ⟨x, d, d', hx, hend, ha, hsame⟩ := hx.reads ha
    exact ⟨_, d, d', .unary hop hskip hx, hend, ha,
      Expr.eraseSpans_congr (congrArg (Shape.unary _) hsame)⟩
  | .paren hx =>
    rw [List.cons_append, List.append_assoc] at ha
    obtain ⟨c₁, hopen, ha⟩ := ha.opening
    obtain ⟨x, c₂, c₃, hx, hskip, ha, hsame⟩ := hx.reads ha
    obtain ⟨d, d', hclose, hend, ha⟩ := ha.closing
    exact ⟨_, d, d', .paren hopen hx hskip hclose, hend, ha,
      Expr.eraseSpans_congr (congrArg Shape.paren hsame)⟩
  | .list hxs =>
    rw [List.cons_append, List.append_assoc] at ha
    obtain ⟨c₁, hopen, ha⟩ := ha.opening
    obtain ⟨xs, c₂, hxs, ha, hsame⟩ := hxs.reads ha
    obtain ⟨d, d', hclose, hend, ha⟩ := ha.closing
    exact ⟨_, d, d', .list hopen hxs hclose, hend, ha,
      Expr.eraseSpans_congr (congrArg Shape.list hsame)⟩
  | .call hf hxs =>
    rw [List.append_assoc, List.cons_append, List.append_assoc] at ha
    obtain ⟨f, c₁, c₂, hf, hskip, ha, hcallee⟩ := hf.reads ha
    obtain ⟨c₃, hopen, ha⟩ := ha.opening
    obtain ⟨xs, c₄, hxs, ha, hargs⟩ := hxs.reads ha
    obtain ⟨d, d', hclose, hend, ha⟩ := ha.closing
    refine ⟨_, d, d', .call hf hskip hopen hxs hclose, hend, ha, Expr.eraseSpans_congr ?_⟩
    rw [Shape.map, Shape.map, hcallee, hargs]
  | .dot hx =>
    rw [List.append_assoc] at ha
    obtain ⟨x, c₁, c₂, hx, hskip, ha, hsame⟩ := hx.reads ha
    obtain ⟨c₃, c₄, hdot, hskip', ha⟩ := ha.dot
    obtain ⟨d, d', hname, hend, ha⟩ := ha.name
    exact ⟨_, d, d', .dot hx hskip hdot hskip' hname, hend, ha,
      Expr.eraseSpans_congr (congrArg (Shape.dot · _) hsame)⟩

theorem ItemTokens.reads {xs : List Expr} {ts us : List Token} (h : ItemTokens xs ts) {c : Cursor}
    (ha : Ahead (ts ++ us) c) : ∃ xs' d, ReadsItems xs' c d ∧ Ahead us d ∧
      xs'.map Expr.eraseSpans = xs.map Expr.eraseSpans := by
  match h with
  | .nil => exact ⟨[], c, .nil, ha, rfl⟩
  | .last hx =>
    obtain ⟨x, d, d', hx, hskip, ha, hsame⟩ := hx.reads ha
    exact ⟨[x], d', .last hx hskip, ha, congrArg (fun y => [y]) hsame⟩
  | .comma hx =>
    rw [List.append_assoc] at ha
    obtain ⟨x, c₁, c₂, hx, hskip, ha, hsame⟩ := hx.reads ha
    obtain ⟨d, hcomma, ha⟩ := ha.comma
    exact ⟨[x], d, .comma hx hskip hcomma, ha, congrArg (fun y => [y]) hsame⟩
  | .cons hx h =>
    rw [List.append_assoc, List.cons_append] at ha
    obtain ⟨x, c₁, c₂, hx, hskip, ha, hfirst⟩ := hx.reads ha
    obtain ⟨c₃, hcomma, ha⟩ := ha.comma
    obtain ⟨ys, d, hys, ha, hothers⟩ := h.reads ha
    cases ys with
    | nil => cases hothers
    | cons y ys =>
      refine ⟨x :: y :: ys, d, .cons hx hskip hcomma hys, ha, ?_⟩
      rw [List.map_cons, hfirst, hothers]
      rfl
end

theorem Ahead.rest_eq_nil {c : Cursor} (h : Ahead [] c) : c.rest = [] := by
  have hw := h.written
  generalize c.rest = text at hw
  cases hw
  rfl

/-- Every text that has the tokens of a tree is accepted, and it is read as this tree. -/
theorem Expr.parse_written {e : Expr} (hl : e.Lexical) (hg : e.Grouped) {ts : List Token}
    (ht : HasTokens e ts) {lead text : List Char} (hlead : Pads lead) (hw : Written ts text) :
    ∃ e', Expr.parse (String.ofList (lead ++ text)) = .ok e' ∧ e'.eraseSpans = e.eraseSpans := by
  have ha : Ahead ts ⟨(Cursor.ofText (lead ++ text)).position.after lead, text⟩ :=
    ⟨hw, ht.valid hl⟩
  have hskip : Mode.free.Skips (.ofText (lead ++ text)) _ := hlead.skips ha.no_gap
  rw [← List.append_nil ts] at ha
  obtain ⟨e', d, d', hread, hend, hrest, hsame⟩ := ht.reads ha
  have hgrouped : e'.Grouped := by
    rw [← grouped_eraseSpans_iff, hsame, grouped_eraseSpans_iff]
    exact hg
  refine ⟨e', Expr.parse_eq_ok.2 ⟨hgrouped, _, d, d', ?_, hread, hend, hrest.rest_eq_nil⟩, hsame⟩
  rwa [String.toList_ofList]

theorem Expr.parse_written_notMem : ∃ e', Expr.parse " a not\t in['x',#c\n]" = .ok e' ∧
    e'.eraseSpans = binary .notMem (ident "a") (list [string "x"]) := by
  have htokens : HasTokens (binary .notMem (ident "a") (list [string "x"]))
      [.name "a", .operator .notMem, .opening .square, .string "x", .comma, .closing .square] :=
    .binary .ident (.list (.comma .string))
  have hspace : Pads [' '] := .blank (by decide) .nil
  have hcomment : Pads "#c\n".toList := @Pads.comment ['c'] [] (by decide) .nil
  have hstring : Token.Spelled (.string "x") "'x'".toList :=
    @Token.Spelled.string "x" '\'' ['x'] (.inr rfl)
      (.plain (by decide) (by decide) (by decide) .nil)
  have hbracket : Written [.opening .square, .string "x", .comma, .closing .square]
      "['x',#c\n]".toList :=
    .cons (.opening .square) .nil (by simp [Token.runsInto, Token.isWord]) <|
    .cons hstring .nil (by simp [Token.runsInto, Token.isWord]) <|
    .cons .comma hcomment (by simp) <|
    .cons (.closing .square) .nil (by simp) .nil
  have hwritten : Written
      [.name "a", .operator .notMem, .opening .square, .string "x", .comma, .closing .square]
      "a not\t in['x',#c\n]".toList :=
    .cons (.name "a") hspace (by simp) <|
    .cons (@Token.Spelled.notMem ['\t', ' '] (by simp) (by simp)) .nil
      (by simp [Token.runsInto, Token.isWord]) hbracket
  have hgrouped : Grouped (binary .notMem (ident "a") (list [string "x"])) :=
    grouped_binary.2 ⟨by decide, by decide, grouped_leaf rfl,
      grouped_list.2 (List.forall_mem_singleton.2 (grouped_leaf rfl))⟩
  have htext : String.ofList ([' '] ++ "a not\t in['x',#c\n]".toList) =
      " a not\t in['x',#c\n]" := by
    decide
  rw [← htext]
  exact parse_written (by decide) hgrouped htokens hspace hwritten

end BuildScript
