import BuildScript.Proofs.Parse.Nodes
import BuildScript.Proofs.Parse.Statement

/-!
Where the nodes of a source stand. Lines and columns are those of the offsets, each node reaches
over its children, which follow one another, statements have lines of their own, and comments keep
out of words (`wellPlaced_of_parse`).
-/
namespace BuildScript
open BuildScript.Parser Lexeme Grammar

def placeAt (text : List Char) (offset : Nat) : Position where
  line := 1 + (text.take offset).count '\n'
  column := 1 + ((text.take offset).reverse.takeWhile (· != '\n')).length
  offset := offset

theorem start_after (v : List Char) : Position.start.after v =
    ⟨1 + v.count '\n', 1 + (v.reverse.takeWhile (· != '\n')).length, v.length⟩ := by
  induction v using List.reverseRecOn with
  | nil => rfl
  | append_singleton v x ih =>
    rw [Position.after_append, ih, Position.after_cons, Position.after_nil, Position.next]
    by_cases hx : x = '\n'
    · simp [hx, List.count_append, Nat.add_assoc]
    · simp [hx, List.count_append, Nat.add_comm]

theorem start_after_eq_placeAt {text v w : List Char} (h : text = v ++ w) :
    Position.start.after v = placeAt text v.length := by
  rw [start_after, placeAt, h, List.take_left]

theorem placeAt_line_le_length (text : List Char) (i : Nat) :
    (placeAt text i).line ≤ text.length + 1 := by
  have hcount := (List.take_sublist i text).count_le '\n'
  have hlength : text.count '\n' ≤ text.length := List.count_le_length
  show 1 + (text.take i).count '\n' ≤ _
  omega

theorem placeAt_column_le_length (text : List Char) (i : Nat) :
    (placeAt text i).column ≤ text.length + 1 := by
  have hline := (List.takeWhile_sublist (· != '\n') (l := (text.take i).reverse)).length_le
  rw [List.length_reverse, List.length_take] at hline
  show 1 + _ ≤ _
  omega

/-- A stretch of the text that is not empty, with the lines and columns that its offsets have. -/
structure Span.LiesIn (text : List Char) (s : Span) : Prop where
  start_eq : s.start = placeAt text s.start.offset
  stop_eq : s.stop = placeAt text s.stop.offset
  nonempty : s.start.offset < s.stop.offset
  bounded : s.stop.offset ≤ text.length

theorem Cursor.span_liesIn {text v w : List Char} {c d : Cursor} {x : Char}
    (hv : (Cursor.ofText text).Passes v c) (hw : c.Passes (x :: w) d) :
    (c.span d).LiesIn text := by
  have hvw := hv.trans hw
  have hstart : c.position = placeAt text v.length := by
    rw [hv.2]
    exact start_after_eq_placeAt hv.1
  have hstop : d.position = placeAt text (v ++ x :: w).length := by
    rw [hvw.2]
    exact start_after_eq_placeAt hvw.1
  refine ⟨?_, ?_, ?_, ?_⟩
  · exact hstart.trans (congrArg (placeAt text) (congrArg Position.offset hstart).symm)
  · exact hstop.trans (congrArg (placeAt text) (congrArg Position.offset hstop).symm)
  · have := hw.offset_eq
    rw [List.length_cons] at this
    show c.position.offset < d.position.offset
    omega
  · show d.position.offset ≤ text.length
    rw [hstop]
    have := hvw.length_eq
    show (v ++ x :: w).length ≤ text.length
    show _ ≤ (Cursor.ofText text).rest.length
    omega

namespace Shape

def isWord {α : Type} : Shape α → Bool
  | literal _ | string _ | ident _ => true
  | _ => false

/-- The child slots in order; the two names of a binding count as one. -/
def groups {α : Type} : Shape α → List (List α)
  | load m bs => [m] :: bs.map fun b => [b.source, b.target]
  | s => s.children.map fun c => [c]

theorem flatten_groups {α : Type} (s : Shape α) : s.groups.flatten = s.children := by
  have hself (xs : List α) : (xs.map fun c => [c]).flatten = xs := by
    induction xs with
    | nil => rfl
    | cons x xs ih => exact congrArg (x :: ·) ih
  cases s with
  | load m bs => simp [groups, children, List.flatMap]
  | _ => exact hself _

end Shape

namespace Expr

def Before (a b : Expr) : Prop :=
  ∃ s t, a.span = some s ∧ b.span = some t ∧ s.stop.offset ≤ t.start.offset

def Inside (s : Span) (e : Expr) : Prop :=
  ∃ t, e.span = some t ∧ s.start.offset ≤ t.start.offset ∧ t.stop.offset ≤ s.stop.offset

/-- The children follow one another. The two names of a binding are one node that stands for both,
or the name over here comes first. -/
structure InOrder (e : Expr) : Prop where
  groups : e.shape.groups.Pairwise fun as bs => ∀ a ∈ as, ∀ b ∈ bs, a.Before b
  bindings : ∀ m bs, e.shape = .load m bs →
    ∀ b ∈ bs, b.source = b.target ∨ b.target.Before b.source

/-- The node has a place in the text, and its children have theirs in it, one after the other. -/
structure Fits (text : List Char) (e : Expr) : Prop where
  span : ∃ s, e.span = some s ∧ s.LiesIn text ∧ ∀ c ∈ e.children, c.Inside s
  written : e.isSynthesized = false
  inOrder : e.InOrder

end Expr

/-- The nodes stand on lines of their own, one after the other; the first one begins on `line` or
later. -/
inductive InLines : Nat → List Expr → Prop
  | nil {line : Nat} : InLines line []
  | cons {line : Nat} {e : Expr} {s : Span} {es : List Expr} (hspan : e.span = some s)
    (hstart : line ≤ s.start.line) (hstop : s.start.line ≤ s.stop.line)
    (rest : InLines (s.stop.line + 1) es) : InLines line (e :: es)

namespace InLines
variable {line : Nat} {es : List Expr}

theorem mono {line' : Nat} (h : InLines line es) (hle : line' ≤ line) : InLines line' es := by
  cases h with
  | nil => exact .nil
  | cons hspan hstart hstop rest => exact .cons hspan (Nat.le_trans hle hstart) hstop rest

theorem line_le (h : InLines line es) :
    ∀ e ∈ es, ∃ s, e.span = some s ∧ line ≤ s.start.line ∧ s.start.line ≤ s.stop.line := by
  induction h with
  | nil => simp
  | cons hspan hstart hstop _ ih =>
    refine List.forall_mem_cons.2 ⟨⟨_, hspan, hstart, hstop⟩, fun e he => ?_⟩
    obtain ⟨s, hs, hle, hstop'⟩ := ih e he
    exact ⟨s, hs, by omega, hstop'⟩

theorem pairwise (h : InLines line es) : es.Pairwise fun a b =>
    ∃ s t, a.span = some s ∧ b.span = some t ∧ s.stop.line < t.start.line := by
  induction h with
  | nil => exact .nil
  | cons hspan _ _ rest ih =>
    refine List.pairwise_cons.2 ⟨fun b hb => ?_, ih⟩
    obtain ⟨t, ht, hle, -⟩ := rest.line_le b hb
    exact ⟨_, t, hspan, ht, hle⟩

end InLines

/-- All of the script has its place in the text: the nodes of every statement, the statements on
lines of their own, and the comments, none of which meets another one or a word. -/
structure Script.WellPlaced (text : List Char) (s : Script) : Prop where
  nodes : ∀ e ∈ s.statements, e.Every (Expr.Fits text)
  lines : s.statements.Pairwise fun a b =>
    ∃ s t, a.span = some s ∧ b.span = some t ∧ s.stop.line < t.start.line
  comments : ∀ c ∈ s.comments, c.span.LiesIn text
  increasing : s.comments.Pairwise fun a b => a.span.stop.offset ≤ b.span.start.offset
  apart : ∀ c ∈ s.comments, ∀ e ∈ s.statements, e.Every fun n => n.shape.isWord = true →
    ∃ t, n.span = some t ∧
      (c.span.stop.offset ≤ t.start.offset ∨ t.stop.offset ≤ c.span.start.offset)


namespace Grammar

structure Occupies (n : Expr) (c d : Cursor) : Prop where
  span_eq : n.span = some (c.span d)
  passes : ∃ x w, c.Passes (x :: w) d
  scanned : ∃ cs, Scanned c cs d ∧ (n.shape.isWord = true → cs = [])
  children : ∀ k ∈ n.children, k.Inside (c.span d)
  inOrder : n.InOrder

theorem Occupies.inside {n : Expr} {a b c d : Cursor} {v w : List Char} (h : n.span = some (a.span b))
    (hc : c.Passes v a) (hd : b.Passes w d) : n.Inside (c.span d) := by
  have hstart := hc.offset_eq
  have hstop := hd.offset_eq
  refine ⟨_, h, ?_, ?_⟩
  · show c.position.offset ≤ a.position.offset
    omega
  · show b.position.offset ≤ d.position.offset
    omega

theorem before_of_passes {a b : Expr} {c c' d d' : Cursor} {w : List Char}
    (ha : a.span = some (c.span c')) (hb : b.span = some (d.span d')) (h : c'.Passes w d) :
    a.Before b := by
  refine ⟨_, _, ha, hb, ?_⟩
  show c'.position.offset ≤ d.position.offset
  have := h.offset_eq
  omega

theorem inOrder_of_pairwise {e : Expr} (hload : ∀ m bs, e.shape ≠ .load m bs)
    (h : e.children.Pairwise Expr.Before) : e.InOrder where
  groups := by
    have hgroups : e.shape.groups = e.children.map fun c => [c] := by
      unfold Shape.groups Expr.children
      split
      next m bs hshape => exact absurd hshape (hload m bs)
      · rfl
    rw [hgroups, List.pairwise_map]
    refine h.imp fun hab a ha b hb => ?_
    rwa [List.mem_singleton.1 ha, List.mem_singleton.1 hb]
  bindings m bs hshape := absurd hshape (hload m bs)

theorem Reads.before {m : Mode} {a b : Expr} {c c' d d' : Cursor} {w : List Char}
    (h : Reads m a c c') (hpass : c'.Passes w d) (hb : Between d d' b) : a.Before b := by
  obtain ⟨_, e, e', v, _, hread, hv, -⟩ := hb
  exact before_of_passes h.span_eq hread.span_eq (hpass.trans hv)

theorem ReadsItems.between {xs : List Expr} {c d : Cursor} (h : ReadsItems xs c d) :
    ∀ x ∈ xs, Between c d x :=
  fun x hx => (Expr.every_iff.1 (h.nodes x hx)).1

theorem ReadsItems.pairwise {xs : List Expr} {c d : Cursor} (h : ReadsItems xs c d) :
    xs.Pairwise Expr.Before := by
  match xs, h with
  | [], .nil => exact .nil
  | [_], .last _ _ | [_], .comma _ _ _ => exact List.pairwise_singleton _ _
  | _ :: _ :: _, .cons hx hg hc hr =>
    obtain ⟨_, hg⟩ := hg.passes
    obtain ⟨_, hc⟩ := hc.passes
    exact List.pairwise_cons.2
      ⟨fun y hy => hx.before (hg.trans hc) (hr.between y hy), hr.pairwise⟩

theorem Reads.inOrder {m : Mode} {n : Expr} {c d : Cursor} (h : Reads m n c d) : n.InOrder := by
  have hload : ∀ m bs, n.shape ≠ .load m bs := by
    intro m bs
    cases h <;> exact nofun
  apply inOrder_of_pairwise hload
  cases h with
  | literal _ | string _ | ident _ => exact .nil
  | paren _ _ _ _ | dot _ _ _ _ _ | unary _ _ _ => exact List.pairwise_singleton _ _
  | list _ hx _ => exact hx.pairwise
  | call hf hg ho hx _ =>
    obtain ⟨_, hg⟩ := hg.passes
    obtain ⟨_, ho⟩ := ho.passes
    exact List.pairwise_cons.2
      ⟨fun x hmem => hf.before (hg.trans ho) (hx.between x hmem), hx.pairwise⟩
  | binary hl hg hs hg' hr =>
    obtain ⟨_, hg⟩ := hg.passes
    obtain ⟨_, hs⟩ := forward_symbol _ _ _ _ hs
    obtain ⟨_, hg'⟩ := hg'.passes
    exact List.pairwise_pair.2 (hl.before ((hg.trans hs).trans hg') hr.self_within.between)

theorem Reads.occupies {m : Mode} {n : Expr} {c d : Cursor} (h : Reads m n c d) :
    Occupies n c d where
  span_eq := h.span_eq
  passes := by
    obtain ⟨x, w, -, hpass⟩ := h.passes
    exact ⟨x, w, hpass⟩
  scanned := by
    obtain ⟨cs, hcs⟩ := h.scanned
    cases h with
    | literal h => exact ⟨[], .number h, fun _ => rfl⟩
    | string h => exact ⟨[], .string h, fun _ => rfl⟩
    | ident h => exact ⟨[], .name h, fun _ => rfl⟩
    | _ => exact ⟨cs, hcs, nofun⟩
  children k hk := by
    obtain ⟨_, a, b, v, w, hread, hv, hw⟩ :=
      (Expr.every_iff.1 ((Expr.every_iff.1 h.nodes).2 k hk)).1
    exact Occupies.inside hread.span_eq hv hw
  inOrder := h.inOrder

def Stands (c d : Cursor) (n : Expr) : Prop :=
  ∃ a b as bs, Scanned c as a ∧ Occupies n a b ∧ Scanned b bs d

theorem Within.stands {n : Expr} {c d : Cursor} (h : Within c d n) : Stands c d n := by
  obtain ⟨_, a, b, as, bs, hc, hread, hd⟩ := h
  exact ⟨a, b, as, bs, hc, hread.occupies, hd⟩

theorem Occupies.stands {n : Expr} {c d : Cursor} (h : Occupies n c d) : Stands c d n :=
  ⟨c, d, [], [], .refl, h, .refl⟩

theorem Stands.mono {n : Expr} {c c' d' d : Cursor} {as bs : List Comment} (h : Stands c' d' n)
    (hc : Scanned c as c') (hd : Scanned d' bs d) : Stands c d n := by
  obtain ⟨a, b, _, _, ha, hn, hb⟩ := h
  exact ⟨a, b, _, _, hc.trans ha, hn, hb.trans hd⟩

theorem Stands.inside {n : Expr} {c d : Cursor} (h : Stands c d n) : n.Inside (c.span d) := by
  obtain ⟨a, b, _, _, hc, hn, hd⟩ := h
  obtain ⟨_, hv⟩ := hc.passes
  obtain ⟨_, hw⟩ := hd.passes
  exact Occupies.inside hn.span_eq hv hw

theorem Stands.before {a b : Expr} {c d c' d' : Cursor} {w : List Char} (ha : Stands c d a)
    (hpass : d.Passes w c') (hb : Stands c' d' b) : a.Before b := by
  obtain ⟨_, e, _, _, -, ha, he⟩ := ha
  obtain ⟨e', _, _, _, he', hb, -⟩ := hb
  obtain ⟨_, hu⟩ := he.passes
  obtain ⟨_, hv⟩ := he'.passes
  exact before_of_passes ha.span_eq hb.span_eq ((hu.trans hpass).trans hv)

theorem occupies_string {v : String} {c d : Cursor} (h : result? Lexeme.string c = some (v, d)) :
    Occupies (nodeAt (.string v) (c.span d)) c d ∧ Occupies (nodeAt (.ident v) (c.span d)) c d := by
  have hstring : Occupies (nodeAt (.string v) (c.span d)) c d := (Reads.string (m := .free) h).occupies
  exact ⟨hstring, rfl, hstring.passes, ⟨[], .string h, fun _ => rfl⟩, nofun,
    inOrder_of_pairwise nofun .nil⟩

theorem binding_stands {b : Binding Expr} {c d : Cursor} (h : result? binding c = some (b, d)) :
    (∃ cs, Scanned c cs d) ∧ (∀ k ∈ [b.source, b.target], Stands c d k ∧ k.children = []) ∧
      (b.source = b.target ∨ b.target.Before b.source) := by
  rcases result?_binding.1 h with ⟨target, source, c₁, c₂, c₃, c₄, hn, hg, heq, hg', hs, rfl⟩ |
    ⟨both, hs, rfl⟩
  · obtain ⟨_, hg⟩ := Scanned.gap hg
    obtain ⟨_, hg'⟩ := Scanned.gap hg'
    have hbetween := (hg.trans (.char (by decide) heq)).trans hg'
    have htarget : Occupies (nodeAt (.ident target) (c.span c₁)) c c₁ :=
      (Reads.ident (m := .free) hn).occupies
    have hsource := (occupies_string hs).2
    obtain ⟨_, hw⟩ := hbetween.passes
    refine ⟨⟨_, ((Scanned.name hn).trans hbetween).trans (.string hs)⟩, ?_,
      .inr (before_of_passes htarget.span_eq hsource.span_eq hw)⟩
    simp only [List.forall_mem_cons, List.not_mem_nil, false_imp_iff, implies_true, and_true]
    exact ⟨⟨hsource.stands.mono ((Scanned.name hn).trans hbetween) .refl, rfl⟩,
      htarget.stands.mono .refl (hbetween.trans (.string hs)), rfl⟩
  · have hboth := (occupies_string hs).2.stands
    refine ⟨⟨_, .string hs⟩, ?_, .inl rfl⟩
    simp only [List.forall_mem_cons, List.not_mem_nil, false_imp_iff, implies_true, and_true]
    exact ⟨⟨hboth, rfl⟩, hboth, rfl⟩

theorem bindings_stand {bs : List (Binding Expr)} {c d : Cursor} (h : ReadsBindings bs c d) :
    (∃ cs, Scanned c cs d) ∧
      (∀ b ∈ bs, (∀ k ∈ [b.source, b.target], Stands c d k ∧ k.children = []) ∧
        (b.source = b.target ∨ b.target.Before b.source)) ∧
      (bs.map fun b => [b.source, b.target]).Pairwise
        fun as bs => ∀ a ∈ as, ∀ b ∈ bs, a.Before b := by
  induction h with
  | nil => exact ⟨⟨[], .refl⟩, by simp, .nil⟩
  | comma h => exact ⟨h.scanned (by decide), by simp, .nil⟩
  | cons hc hb hg _ ih =>
    obtain ⟨⟨_, hrest⟩, hall, hpairs⟩ := ih
    obtain ⟨⟨_, hscan⟩, hnames, horder⟩ := binding_stands hb
    obtain ⟨_, hc⟩ := hc.scanned (by decide)
    obtain ⟨_, hg⟩ := Scanned.gap hg
    refine ⟨⟨_, ((hc.trans hscan).trans hg).trans hrest⟩, List.forall_mem_cons.2 ⟨⟨?_, horder⟩, ?_⟩,
      List.pairwise_cons.2 ⟨?_, hpairs⟩⟩
    · exact fun k hk => (hnames k hk).imp_left fun h => h.mono hc (hg.trans hrest)
    · intro b' hb'
      exact (hall b' hb').imp_left fun h k hk =>
        (h k hk).imp_left fun h => h.mono ((hc.trans hscan).trans hg) .refl
    · intro names hnames' a ha k hk
      obtain ⟨b', hb', rfl⟩ := List.mem_map.1 hnames'
      obtain ⟨_, hw⟩ := hg.passes
      exact (hnames a ha).1.before hw ((hall b' hb').1 k hk).1

theorem load_stands {e : Expr} {c d : Cursor} (h : result? load c = some (e, d)) :
    Occupies e c d ∧ ∀ k ∈ e.children, Stands c d k ∧ k.children = [] := by
  obtain ⟨origin, os, bindings, hreads, rfl⟩ := result?_load.1 h
  obtain ⟨w, hpasses⟩ := hreads.passes
  obtain ⟨c₁, c₂, c₃, c₄, c₅, c₆, hload, -, hg, ho, hm, rfl, hg', hb, hy⟩ := readsLoad_iff.1 hreads
  obtain ⟨_, hg⟩ := Scanned.gap hg
  obtain ⟨_, ho⟩ := ho.scanned (by decide)
  obtain ⟨_, hg'⟩ := Scanned.gap hg'
  obtain ⟨⟨_, hscan⟩, hall, hpairs⟩ := bindings_stand hb
  have hbefore := ((Scanned.word (forall_plain (by decide)) hload).trans hg).trans ho
  have hclose := Scanned.char (by decide) hy
  have horigin := (occupies_string hm).1.stands
  have hchildren : ∀ k ∈ nodeAt (.string origin) (c₃.span c₄) ::
      bindings.flatMap fun b => [b.source, b.target], Stands c d k ∧ k.children = [] := by
    refine List.forall_mem_cons.2 ⟨⟨horigin.mono hbefore (hg'.trans (hscan.trans hclose)), rfl⟩, ?_⟩
    intro k hk
    obtain ⟨b, hb, hk⟩ := List.mem_flatMap.1 hk
    exact ((hall b hb).1 k hk).imp_left fun h =>
      h.mono ((hbefore.trans (.string hm)).trans hg') hclose
  refine ⟨⟨rfl, ⟨'l', w, hpasses⟩, ?_, fun k hk => (hchildren k hk).1.inside, ?_, ?_⟩, hchildren⟩
  · exact ⟨_, (((hbefore.trans (.string hm)).trans hg').trans hscan).trans hclose, nofun⟩
  · refine List.pairwise_cons.2 ⟨?_, hpairs⟩
    intro names hnames a ha k hk
    obtain ⟨b, hb, rfl⟩ := List.mem_map.1 hnames
    obtain ⟨_, hw⟩ := hg'.passes
    obtain rfl := List.mem_singleton.1 ha
    exact horigin.before hw ((hall b hb).1 k hk).1
  · rintro m bs ⟨⟩ b hb
    exact (hall b hb).2

theorem ReadsStatement.stands {e : Expr} {c d : Cursor} (h : ReadsStatement e c d) :
    e.Every (Stands c d) := by
  rcases h with h | ⟨h, -⟩
  · obtain ⟨hself, hchildren⟩ := load_stands h
    refine Expr.every_iff.2 ⟨hself.stands, fun k hk => Expr.every_iff.2 ⟨(hchildren k hk).1, ?_⟩⟩
    rw [(hchildren k hk).2]
    exact nofun
  · exact fun n hn => (h.within n hn).stands

theorem ReadsStatement.scanned {e : Expr} {c d : Cursor} (h : ReadsStatement e c d) :
    ∃ cs, Scanned c cs d := by
  rcases h with h | ⟨h, -⟩
  · obtain ⟨cs, hcs, -⟩ := (load_stands h).1.scanned
    exact ⟨cs, hcs⟩
  · exact h.scanned

theorem ReadsStatement.span_eq {e : Expr} {c d : Cursor} (h : ReadsStatement e c d) :
    e.span = some (c.span d) := by
  rcases h with h | ⟨h, -⟩
  · exact (load_stands h).1.span_eq
  · exact h.span_eq

theorem EndsLine.scanned {c d : Cursor} (h : EndsLine c d) : Scanned c [] d := by
  rcases h with h | ⟨-, rfl⟩
  · exact .char (by decide) h
  · exact .refl

theorem EndsLine.line_lt {c d : Cursor} (h : EndsLine c d) (hd : d.rest ≠ []) :
    c.position.line < d.position.line := by
  rcases h with h | ⟨hr, rfl⟩
  · rw [h.2]
    exact Nat.lt_succ_self _
  · exact absurd hr hd

theorem ReadsLines.scanned {es : List Expr} {c d : Cursor} (h : ReadsLines es c d) :
    ∃ cs, Scanned c cs d := by
  induction h with
  | nil _ => exact ⟨[], .refl⟩
  | cons he hg hend hg' _ ih =>
    obtain ⟨_, he⟩ := he.scanned
    obtain ⟨_, hg⟩ := Scanned.gap hg
    obtain ⟨_, hg'⟩ := Scanned.gap hg'
    obtain ⟨_, hrest⟩ := ih
    exact ⟨_, (((he.trans hg).trans hend.scanned).trans hg').trans hrest⟩

theorem ReadsLines.within {es : List Expr} {c d : Cursor} (h : ReadsLines es c d) :
    ∀ e ∈ es, ∃ a b as bs, Scanned c as a ∧ ReadsStatement e a b ∧ Scanned b bs d := by
  induction h with
  | nil _ => simp
  | cons he hg hend hg' hrest ih =>
    obtain ⟨_, hscan⟩ := he.scanned
    obtain ⟨_, hg⟩ := Scanned.gap hg
    obtain ⟨_, hg'⟩ := Scanned.gap hg'
    obtain ⟨_, hrest⟩ := hrest.scanned
    have hline := (hg.trans hend.scanned).trans hg'
    refine List.forall_mem_cons.2 ⟨⟨_, _, _, _, .refl, he, hline.trans hrest⟩, fun e he => ?_⟩
    obtain ⟨a, b, _, _, ha, hread, hb⟩ := ih e he
    exact ⟨a, b, _, _, (hscan.trans hline).trans ha, hread, hb⟩

theorem ReadsLines.stands {es : List Expr} {c d : Cursor} (h : ReadsLines es c d) :
    ∀ e ∈ es, e.Every (Stands c d) := by
  intro e he n hn
  obtain ⟨a, b, _, _, ha, hread, hb⟩ := h.within e he
  exact (hread.stands n hn).mono ha hb

theorem ReadsLines.rest_ne_nil {e : Expr} {es : List Expr} {c d : Cursor}
    (h : ReadsLines (e :: es) c d) : c.rest ≠ [] := by
  cases h with
  | cons he _ _ _ _ =>
    obtain ⟨x, w, -, hw⟩ := he.passes
    rw [hw.1]
    exact List.cons_ne_nil _ _

theorem ReadsLines.inLines {es : List Expr} {c d : Cursor} (h : ReadsLines es c d) :
    InLines c.position.line es := by
  induction h with
  | nil _ => exact .nil
  | @cons e es c c₁ c₂ c₃ c₄ d he hg hend hg' hrest ih =>
    obtain ⟨_, _, -, hpass⟩ := he.passes
    refine .cons he.span_eq (Nat.le_refl _) hpass.line_le ?_
    cases hes : es with
    | nil => exact .nil
    | cons e' es' =>
      subst hes
      obtain ⟨_, hg⟩ := hg.passes
      obtain ⟨_, hg'⟩ := hg'.passes
      have hne : c₃.rest ≠ [] := by
        rw [hg'.1]
        simp [hrest.rest_ne_nil]
      refine ih.mono (Nat.succ_le_of_lt ?_)
      exact Nat.lt_of_le_of_lt hg.line_le (Nat.lt_of_lt_of_le (hend.line_lt hne) hg'.line_le)

theorem Stands.fits {n : Expr} {text : List Char} {d : Cursor} (h : Stands (.ofText text) d n) :
    n.Fits text := by
  obtain ⟨a, b, _, _, hc, hn, -⟩ := h
  obtain ⟨_, hv⟩ := hc.passes
  obtain ⟨x, w, hw⟩ := hn.passes
  have hlies := Cursor.span_liesIn hv hw
  refine ⟨⟨_, hn.span_eq, hlies, hn.children⟩, ?_, hn.inOrder⟩
  have hline : (a.span b).isEmpty = false := by
    unfold Span.isEmpty
    rw [hlies.start_eq]
    simp [placeAt]
  simp [Expr.isSynthesized, Expr.layoutSpan?, hn.span_eq, hline]

end Grammar

theorem Grammar.Scanned.commentsOf_eq {text : List Char} {cs : List Comment} {d : Cursor}
    (h : Scanned (.ofText text) cs d) (hd : d.rest = []) : Script.commentsOf text = cs := by
  have hstop : Scans d [] d := by
    obtain ⟨p, rest⟩ := d
    obtain rfl : rest = [] := hd
    exact .stop
  have := Script.commentsOf_eq (h.scans hstop)
  rwa [List.append_nil] at this

/-- No comment meets what is passed over without one. -/
theorem Grammar.Scanned.apart {text : List Char} {as bs : List Comment} {a b d : Cursor}
    (ha : Scanned (.ofText text) as a) (hab : Scanned a [] b) (hb : Scanned b bs d)
    (hd : d.rest = []) : ∀ c ∈ Script.commentsOf text,
      c.span.stop.offset ≤ a.position.offset ∨ b.position.offset ≤ c.span.start.offset := by
  rw [((ha.trans hab).trans hb).commentsOf_eq hd, List.append_nil]
  intro c hmem
  rcases List.mem_append.1 hmem with hmem | hmem
  · left
    obtain ⟨_, c', _, _, v, -, -, hv, -, hspan⟩ := ha.mem c hmem
    rw [hspan]
    exact hv.offset_eq ▸ Nat.le_add_right _ _
  · right
    obtain ⟨a', _, u, _, _, hu, -, -, -, hspan⟩ := hb.mem c hmem
    rw [hspan]
    exact hu.offset_eq ▸ Nat.le_add_right _ _

namespace Script
variable {source : String} {s : Script}

theorem fits_of_parse (h : parse source = .ok s) :
    ∀ e ∈ s.statements, e.Every (Expr.Fits source.toList) := by
  obtain ⟨-, -, c, d, hskip, hread⟩ := parse_eq_ok.1 h
  obtain ⟨_, hskip⟩ := Scanned.gap hskip
  exact fun e he n hn => ((hread.stands e he n hn).mono hskip .refl).fits

theorem comments_lieIn (h : parse source = .ok s) :
    ∀ c ∈ s.comments, c.span.LiesIn source.toList := by
  obtain ⟨-, hcomments, c, d, hskip, hread⟩ := parse_eq_ok.1 h
  obtain ⟨_, hskip⟩ := Scanned.gap hskip
  obtain ⟨_, hscan⟩ := hread.scanned
  have hwhole := hskip.trans hscan
  rw [hcomments, hwhole.commentsOf_eq hread.rest_eq_nil]
  intro c hc
  obtain ⟨a, b, u, body, v, hu, hbody, -, -, hspan⟩ := hwhole.mem c hc
  rw [hspan]
  exact Cursor.span_liesIn hu hbody

end Script

/-- What is read from a text has its place in it. -/
theorem wellPlaced_of_parse (source : String) :
    (∀ s, Script.parse source = .ok s → s.WellPlaced source.toList) ∧
      ∀ e, Expr.parse source = .ok e → e.Every (Expr.Fits source.toList) := by
  refine ⟨fun s h => ?_, fun e h => ?_⟩
  · obtain ⟨-, hcomments, c, d, hskip, hread⟩ := Script.parse_eq_ok.1 h
    obtain ⟨_, hskip⟩ := Scanned.gap hskip
    obtain ⟨_, hscan⟩ := hread.scanned
    have hwhole := hskip.trans hscan
    have hall := hwhole.commentsOf_eq hread.rest_eq_nil
    have hstands : ∀ e ∈ s.statements, e.Every (Stands (.ofText source.toList) d) :=
      fun e he n hn => (hread.stands e he n hn).mono hskip .refl
    refine ⟨fun e he n hn => (hstands e he n hn).fits, hread.inLines.pairwise, ?_, ?_, ?_⟩
    · rw [hcomments, hall]
      intro c hc
      obtain ⟨a, b, u, body, v, hu, hbody, -, -, hspan⟩ := hwhole.mem c hc
      rw [hspan]
      exact Cursor.span_liesIn hu hbody
    · rw [hcomments, hall]
      exact hwhole.pairwise.imp And.left
    · intro c hc e he n hn hword
      obtain ⟨a, b, _, _, ha, hself, hb⟩ := hstands e he n hn
      obtain ⟨_, hab, hnone⟩ := hself.scanned
      rw [hnone hword] at hab
      exact ⟨_, hself.span_eq, ha.apart hab hb hread.rest_eq_nil c (hcomments ▸ hc)⟩
  · obtain ⟨-, c, d, d', hskip, hread, hskip', -⟩ := Expr.parse_eq_ok.1 h
    obtain ⟨_, hskip⟩ := Scanned.gap hskip
    obtain ⟨_, hskip'⟩ := Scanned.gap hskip'
    exact fun n hn => ((hread.within n hn).stands.mono hskip hskip').fits

def twoItems : Expr :=
  ⟨some ⟨⟨1, 1, 0⟩, ⟨2, 5, 12⟩⟩, .list [⟨some ⟨⟨1, 2, 1⟩, ⟨1, 3, 2⟩⟩, .ident "a"⟩,
    ⟨some ⟨⟨2, 2, 9⟩, ⟨2, 4, 11⟩⟩, .literal "10"⟩]⟩

theorem wellPlaced_of_parse_twoItems :
    Script.parse "[a, # b\n 10]" =
        .ok ⟨none, [twoItems], [⟨⟨⟨1, 5, 4⟩, ⟨1, 8, 7⟩⟩, "# b"⟩]⟩ ∧
      Expr.parse "[a, # b\n 10]" = .ok twoItems ∧
      Script.WellPlaced "[a, # b\n 10]".toList
        ⟨none, [twoItems], [⟨⟨⟨1, 5, 4⟩, ⟨1, 8, 7⟩⟩, "# b"⟩]⟩ ∧
      twoItems.Every (Expr.Fits "[a, # b\n 10]".toList) := by
  have hscript : Script.parse "[a, # b\n 10]" =
      .ok ⟨none, [twoItems], [⟨⟨⟨1, 5, 4⟩, ⟨1, 8, 7⟩⟩, "# b"⟩]⟩ := by cbv
  have hexpr : Expr.parse "[a, # b\n 10]" = .ok twoItems := by cbv
  obtain ⟨hs, he⟩ := wellPlaced_of_parse "[a, # b\n 10]"
  exact ⟨hscript, hexpr, hs _ hscript, he _ hexpr⟩

end BuildScript
