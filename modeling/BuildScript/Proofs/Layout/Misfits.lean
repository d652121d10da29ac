import BuildScript.Layout.Block
import BuildScript.Proofs.Expr.Counted
import BuildScript.Proofs.Expr.Positions

/-!
What cannot be printed. Of all nodes only the children of load statements can be of a wrong kind, and
the error that laying out stops with is that of the first one that a walk comes by
(`render_eq_error_iff`).
-/
namespace BuildScript

namespace Expr

def Misfilled (n : Expr) : Prop :=
  ∃ m bs, n.shape = .load m bs ∧
    (m.string? = none ∨ ∃ b ∈ bs, b.source.ident? = none ∨ b.target.ident? = none)

/-- Why `x` cannot stand in a slot of a load statement, if it cannot. The origin has to be a string,
and both names of each binding have to be identifiers. -/
def slotError? (i : Nat) (x : Expr) : Option LayoutError :=
  if i = 0 then if x.string?.isSome then none else some ⟨x.kind, "load module", x.span⟩
  else if x.ident?.isSome then none
  else some ⟨x.kind, if i % 2 = 1 then "load source name" else "load binding name", x.span⟩

def misfit? (parent : Expr) (i : Nat) (x : Expr) : Option LayoutError :=
  match parent.shape with
  | .load _ _ => slotError? i x
  | _ => none

/-- Why the node at a path cannot stand there, if it cannot. -/
def misfitAt? (root : Expr) (path : Path) : Option LayoutError := do
  let visit ← root.visit? path
  let parent ← visit.ancestors.getLast?
  let i ← path.getLast?
  misfit? parent i visit.node

def misfits (e : Expr) : List LayoutError := e.positions.filterMap e.misfitAt?

theorem misfitAt?_nil (e : Expr) : e.misfitAt? [] = none := rfl

theorem misfitAt?_singleton {e c : Expr} {i : Nat} (h : e.child? i = some c) :
    e.misfitAt? [i] = misfit? e i c := by
  unfold misfitAt?
  rw [visit?_cons, h]
  rfl

theorem misfitAt?_cons {e c : Expr} {i : Nat} (h : e.child? i = some c) (j : Nat) (path : Path) :
    e.misfitAt? (i :: j :: path) = c.misfitAt? (j :: path) := by
  unfold misfitAt?
  rw [visit?_cons, h]
  show ((c.visit? (j :: path)).map _).bind _ = (c.visit? (j :: path)).bind _
  rw [Option.bind_map, List.getLast?_cons_cons]
  refine Option.bind_congr fun v hv => ?_
  rw [visit?_cons, Option.bind_eq_some_iff] at hv
  obtain ⟨_, -, hv⟩ := hv
  obtain ⟨_, -, rfl⟩ := Option.map_eq_some_iff.1 hv
  simp only [Function.comp_def, List.getLast?_cons_cons]

def misfitsIn (e : Expr) (i : Nat) (c : Expr) : List LayoutError :=
  (misfit? e i c).toList ++ c.misfits

theorem filterMap_positionsIn {e c : Expr} {i : Nat} (h : e.child? i = some c) :
    ((e.positionsIn i).map (i :: ·)).filterMap e.misfitAt? = e.misfitsIn i c := by
  rw [positionsIn_eq h, misfitsIn, misfits, positions_eq, List.map_cons, List.filterMap_cons,
    List.filterMap_cons, misfitAt?_singleton h, misfitAt?_nil, List.filterMap_map]
  -- Behind the place of the child itself, the places are below it.
  have hbelow : ((List.range c.childCount).flatMap fun j => (c.positionsIn j).map (j :: ·)).filterMap
      (e.misfitAt? ∘ (i :: ·)) =
        ((List.range c.childCount).flatMap fun j => (c.positionsIn j).map (j :: ·)).filterMap
          c.misfitAt? := by
    refine List.filterMap_congr fun path hpath => ?_
    obtain ⟨j, -, hpath⟩ := List.mem_flatMap.1 hpath
    obtain ⟨rest, -, rfl⟩ := List.mem_map.1 hpath
    exact misfitAt?_cons h j rest
  rw [hbelow]
  cases misfit? e i c <;> rfl

theorem misfits_eq (e : Expr) : e.misfits = (e.children.mapIdx e.misfitsIn).flatten := by
  have hslots : e.children.mapIdx e.misfitsIn = (List.range e.childCount).map fun i =>
      ((e.positionsIn i).map (i :: ·)).filterMap e.misfitAt? := by
    rw [childCount, Shape.childCount_eq]
    apply List.ext_getElem
    · simp [children]
    · intro i hi _
      rw [List.length_mapIdx] at hi
      have hchild : e.child? i = some e.children[i] := by
        rw [child?, Shape.child?_eq]
        exact List.getElem?_eq_getElem hi
      simp only [List.getElem_mapIdx, List.getElem_map, List.getElem_range,
        filterMap_positionsIn hchild]
  rw [hslots, misfits, positions_eq, List.filterMap_cons, misfitAt?_nil, List.filterMap_flatMap,
    List.flatMap_def]

theorem misfits_of_not_load {e : Expr} (h : ∀ m bs, e.shape ≠ .load m bs) :
    e.misfits = e.children.flatMap misfits := by
  have hnone : e.misfitsIn = fun _ c => c.misfits := by
    funext i c
    unfold misfitsIn misfit?
    split
    next m bs hshape => exact absurd hshape (h m bs)
    · rfl
  rw [misfits_eq, hnone, Shape.mapIdx_const, List.flatMap_def]

theorem misfits_of_leaf {e : Expr} (h : e.children = []) : e.misfits = [] := by
  rw [misfits_eq, h]
  rfl

section Load
variable {s : Option Span} {m : Expr} {bs : List (Binding Expr)}

theorem misfitsIn_eq_nil {i : Nat} {c : Expr} (h : slotError? i c = none) :
    misfitsIn ⟨s, .load m bs⟩ i c = [] := by
  have hleaf : c.children = [] := by
    unfold slotError? at h
    split at h
    · obtain ⟨v, hv⟩ : ∃ v, c.string? = some v := by simpa [Option.isSome_iff_exists] using h
      rw [children, string?_eq_some.1 hv]
      rfl
    · obtain ⟨n, hn⟩ : ∃ n, c.ident? = some n := by simpa [Option.isSome_iff_exists] using h
      rw [children, ident?_eq_some.1 hn]
      rfl
  rw [misfitsIn, misfits_of_leaf hleaf, List.append_nil]
  show (slotError? i c).toList = []
  rw [h]
  rfl

theorem misfitsIn_eq_cons {i : Nat} {c : Expr} {err : LayoutError}
    (h : slotError? i c = some err) : misfitsIn ⟨s, .load m bs⟩ i c = err :: c.misfits := by
  show (slotError? i c).toList ++ c.misfits = _
  rw [h]
  rfl

theorem misfits_load : misfits ⟨s, .load m bs⟩ = misfitsIn ⟨s, .load m bs⟩ 0 m ++
    bs.flatMap fun b =>
      misfitsIn ⟨s, .load m bs⟩ 1 b.source ++ misfitsIn ⟨s, .load m bs⟩ 2 b.target := by
  have hpairs (f : Nat → Expr → List LayoutError) (hf : ∀ i x, f (i + 2) x = f i x)
      (bs : List (Binding Expr)) : ((bs.flatMap fun b => [b.source, b.target]).mapIdx f).flatten =
        bs.flatMap fun b => f 0 b.source ++ f 1 b.target := by
    induction bs with
    | nil => rfl
    | cons b bs ih =>
      have hshift : (fun i => f (i + 1 + 1)) = f := funext₂ hf
      simp only [List.flatMap_cons, List.cons_append, List.nil_append, List.mapIdx_cons, hshift,
        List.flatten_cons, ih, List.append_assoc]
  rw [misfits_eq]
  show ((m :: bs.flatMap fun b => [b.source, b.target]).mapIdx _).flatten = _
  rw [List.mapIdx_cons, List.flatten_cons, hpairs (fun i => misfitsIn ⟨s, .load m bs⟩ (i + 1))]
  intro i x
  have hparity : (i + 2 + 1) % 2 = (i + 1) % 2 := by omega
  show (slotError? (i + 2 + 1) x).toList ++ x.misfits = (slotError? (i + 1) x).toList ++ x.misfits
  simp only [slotError?, hparity, Nat.add_eq_zero_iff, Nat.one_ne_zero, and_false, if_false]

theorem not_misfilled_load : ¬Misfilled ⟨s, .load m bs⟩ ↔
    slotError? 0 m = none ∧
      ∀ b ∈ bs, slotError? 1 b.source = none ∧ slotError? 2 b.target = none := by
  have hload : Misfilled ⟨s, .load m bs⟩ ↔
      m.string? = none ∨ ∃ b ∈ bs, b.source.ident? = none ∨ b.target.ident? = none := by
    simp [Misfilled]
  rw [hload]
  simp [slotError?, Option.isSome_iff_ne_none]

theorem misfits_load_eq_nil : misfits ⟨s, .load m bs⟩ = [] ↔
    ¬Misfilled ⟨s, .load m bs⟩ ∧ ∀ c ∈ children ⟨s, .load m bs⟩, c.misfits = [] := by
  have hslot (i : Nat) (c : Expr) : misfitsIn ⟨s, .load m bs⟩ i c = [] ↔
      slotError? i c = none ∧ c.misfits = [] := by
    show (slotError? i c).toList ++ c.misfits = [] ↔ _
    rw [List.append_eq_nil_iff, Option.toList_eq_nil_iff]
  have hbelow : (∀ c ∈ children ⟨s, .load m bs⟩, c.misfits = []) ↔
      m.misfits = [] ∧ ∀ b ∈ bs, b.source.misfits = [] ∧ b.target.misfits = [] := by
    show (∀ c ∈ m :: bs.flatMap fun b => [b.source, b.target], c.misfits = []) ↔ _
    rw [List.forall_mem_cons, List.forall_mem_flatMap]
    simp only [List.forall_mem_cons, List.not_mem_nil, false_implies, implies_true, and_true]
  rw [misfits_load, List.append_eq_nil_iff, List.flatMap_eq_nil_iff, not_misfilled_load, hbelow]
  simp only [List.append_eq_nil_iff, hslot]
  constructor
  · rintro ⟨hm, hbs⟩
    exact ⟨⟨hm.1, fun b hb => ⟨(hbs b hb).1.1, (hbs b hb).2.1⟩⟩, hm.2,
      fun b hb => ⟨(hbs b hb).1.2, (hbs b hb).2.2⟩⟩
  · rintro ⟨⟨hm, hbs⟩, hm', hbs'⟩
    exact ⟨⟨hm, hm'⟩, fun b hb => ⟨⟨(hbs b hb).1, (hbs' b hb).1⟩, (hbs b hb).2, (hbs' b hb).2⟩⟩


end Load

/-- There are errors in a tree exactly if some load statement in it is misfilled. -/
theorem misfits_eq_nil (e : Expr) : e.misfits = [] ↔ e.Every fun n => ¬n.Misfilled := by
  induction e using induct with
  | step e ih =>
    rw [every_iff, ← forall₂_congr ih]
    by_cases hload : ∃ m bs, e.shape = .load m bs
    · obtain ⟨m, bs, hshape⟩ := hload
      obtain ⟨s, shape⟩ := e
      obtain rfl : shape = .load m bs := hshape
      exact misfits_load_eq_nil
    · have hfilled : ¬e.Misfilled := fun ⟨m, bs, hshape, _⟩ => hload ⟨m, bs, hshape⟩
      rw [misfits_of_not_load fun m bs hshape => hload ⟨m, bs, hshape⟩, List.flatMap_eq_nil_iff]
      exact (and_iff_right hfilled).symm

theorem misfits_ne_nil (e : Expr) : e.misfits ≠ [] ↔ ∃ v ∈ e.walk, v.node.Misfilled := by
  have hnodes : (∃ v ∈ e.walk, v.node.Misfilled) ↔ ∃ n ∈ e.preorder, n.Misfilled := by
    rw [← map_node_walkBelow [] e, walk]
    simp
  rw [hnodes, ne_eq, misfits_eq_nil, Every]
  simp only [not_forall, not_not, exists_prop]

theorem head?_misfits (e : Expr) : e.misfits.head? = e.positions.findSome? e.misfitAt? :=
  List.head?_filterMap

end Expr

/-- The computation fails with the first of the errors; it succeeds if there is none. -/
def Fails {α : Type} (p : Except LayoutError α) (errors : List LayoutError) : Prop :=
  ∀ err, p = .error err ↔ errors.head? = some err

namespace Fails
variable {α β : Type}

theorem ok (x : α) : Fails (.ok x) [] := by simp [Fails]

theorem error (err : LayoutError) (others : List LayoutError) :
    Fails (α := α) (.error err) (err :: others) := by
  simp [Fails]

theorem bind {p : Except LayoutError α} {f : α → Except LayoutError β}
    {errors others : List LayoutError} (hp : Fails p errors) (hf : ∀ x, Fails (f x) others) :
    Fails (p >>= f) (errors ++ others) := by
  intro err
  rw [List.head?_append]
  cases p with
  | error e =>
    rw [(hp e).1 rfl]
    exact ⟨fun h => congrArg some (Except.error.inj h), fun h => congrArg _ (Option.some.inj h)⟩
  | ok x =>
    have hnone : errors.head? = none := by
      rw [Option.eq_none_iff_forall_ne_some]
      intro e he
      cases (hp e).2 he
    rw [hnone]
    exact hf x err

theorem map {p : Except LayoutError α} {errors : List LayoutError} (hp : Fails p errors)
    (f : α → β) : Fails (p.map f) errors := by
  have := hp.bind fun x => ok (f x)
  rwa [List.append_nil] at this

theorem mapM {f : α → Except LayoutError β} {errors : α → List LayoutError} {xs : List α}
    (h : ∀ x ∈ xs, Fails (f x) (errors x)) : Fails (xs.mapM f) (xs.flatMap errors) := by
  induction xs with
  | nil => exact ok []
  | cons x xs ih =>
    obtain ⟨hx, hxs⟩ := List.forall_mem_cons.1 h
    rw [List.mapM_cons, List.flatMap_cons]
    exact hx.bind fun y => (ih hxs).map fun ys => y :: ys

theorem exists_error {p : Except LayoutError α} {errors : List LayoutError} (h : Fails p errors) :
    (∃ err, p = .error err) ↔ errors ≠ [] := by
  rw [← List.isSome_head?, Option.isSome_iff_exists]
  exact exists_congr h

end Fails

namespace Layout

theorem fails_ofBinding {s : Option Span} {m : Expr} {bs : List (Binding Expr)} (b : Binding Expr) :
    Fails (ofBinding b) (Expr.misfitsIn ⟨s, .load m bs⟩ 1 b.source ++
      Expr.misfitsIn ⟨s, .load m bs⟩ 2 b.target) := by
  unfold ofBinding
  cases hs : b.source.ident? with
  | none =>
    have herror : Expr.slotError? 1 b.source =
        some ⟨b.source.kind, "load source name", b.source.span⟩ := by
      simp [Expr.slotError?, hs]
    rw [Expr.misfitsIn_eq_cons herror]
    exact .error _ _
  | some source =>
    rw [Expr.misfitsIn_eq_nil (i := 1) (by simp [Expr.slotError?, hs])]
    cases ht : b.target.ident? with
    | none =>
      have herror : Expr.slotError? 2 b.target =
          some ⟨b.target.kind, "load binding name", b.target.span⟩ := by
        simp [Expr.slotError?, ht]
      rw [Expr.misfitsIn_eq_cons herror]
      exact .error _ _
    | some target =>
      rw [Expr.misfitsIn_eq_nil (i := 2) (by simp [Expr.slotError?, ht])]
      exact .ok _

theorem fails_ofLoad (s : Option Span) (m : Expr) (bs : List (Binding Expr)) (multiline : Bool) :
    Fails (ofLoad m bs multiline) (Expr.misfits ⟨s, .load m bs⟩) := by
  rw [Expr.misfits_load]
  unfold ofLoad
  cases hm : m.string? with
  | none =>
    have herror : Expr.slotError? 0 m = some ⟨m.kind, "load module", m.span⟩ := by
      simp [Expr.slotError?, hm]
    rw [Expr.misfitsIn_eq_cons herror]
    exact .error _ _
  | some value =>
    rw [Expr.misfitsIn_eq_nil (i := 0) (by simp [Expr.slotError?, hm])]
    exact (Fails.mapM fun b _ => fails_ofBinding b).map _

/-- Laying out a tree stops at the first node that cannot stand where it does. -/
theorem fails_ofExpr (e : Expr) : Fails (ofExpr e) e.misfits := by
  induction e using Expr.induct with
  | step e ih =>
    obtain ⟨s, shape⟩ := e
    cases shape with
    | literal t => exact .ok _
    | string v => exact .ok _
    | ident n => exact .ok _
    | binary op l r =>
      have hl := ih l (by simp [Expr.children, Shape.children])
      have hr := ih r (by simp [Expr.children, Shape.children])
      rw [ofExpr, Expr.misfits_of_not_load (by simp)]
      show Fails _ (l.misfits ++ (r.misfits ++ []))
      exact hl.bind fun _ => hr.bind fun _ => .ok _
    | unary op x =>
      have hx := ih x (by simp [Expr.children, Shape.children])
      rw [ofExpr, Expr.misfits_of_not_load (by simp)]
      exact hx.bind fun _ => .ok _
    | paren x =>
      have hx := ih x (by simp [Expr.children, Shape.children])
      rw [ofExpr, Expr.misfits_of_not_load (by simp)]
      exact hx.bind fun _ => .ok _
    | list xs =>
      rw [ofExpr, ofExprs_eq, Expr.misfits_of_not_load (by simp)]
      exact (Fails.mapM ih).map _
    | call f xs =>
      obtain ⟨hf, hxs⟩ := List.forall_mem_cons.1 ih
      rw [ofExpr, ofExprs_eq, Expr.misfits_of_not_load (by simp)]
      exact hf.bind fun _ => (Fails.mapM hxs).map _
    | dot x n =>
      have hx := ih x (by simp [Expr.children, Shape.children])
      rw [ofExpr, Expr.misfits_of_not_load (by simp)]
      exact hx.bind fun _ => .ok _
    | load m bs =>
      rw [ofExpr]
      exact fails_ofLoad s m bs _

end Layout

/-- Printing fails exactly if a load statement anywhere is filled with a node of a wrong kind, and
then with the error of the first such node that a walk comes by: `misfitAt?` gives the error of a
place, and the places are in the order of the walk. The same holds of the statements of a script,
one after the other. -/
theorem render_eq_error_iff (indent : Indentation) :
    (∀ e : Expr,
      ((∃ err, e.render indent = .error err) ↔ ∃ v ∈ e.walk, v.node.Misfilled) ∧
      (∀ err, e.render indent = .error err ↔ e.positions.findSome? e.misfitAt? = some err) ∧
      e.walk.map some = e.positions.map e.visit?) ∧
    ∀ s : Script,
      ((∃ err, s.render indent = .error err) ↔ ∃ v ∈ s.walk, v.node.Misfilled) ∧
      ∀ err, s.render indent = .error err ↔
        s.statements.findSome? (fun e => e.positions.findSome? e.misfitAt?) = some err := by
  constructor
  · intro e
    have hfails : Fails (e.render indent) e.misfits := (Layout.fails_ofExpr e).map _
    refine ⟨hfails.exists_error.trans e.misfits_ne_nil, fun err => ?_, e.walk_eq⟩
    rw [← e.head?_misfits]
    exact hfails err
  · intro s
    have hfails : Fails (s.render indent) (s.statements.flatMap Expr.misfits) :=
      ((Fails.mapM fun e _ => Layout.fails_ofExpr e).map _).map _
    refine ⟨hfails.exists_error.trans ?_, fun err => ?_⟩
    · simp only [ne_eq, List.flatMap_eq_nil_iff, not_forall, exists_prop, Script.walk,
        List.mem_flatMap]
      constructor
      · rintro ⟨e, he, hne⟩
        obtain ⟨v, hv, hmisfilled⟩ := e.misfits_ne_nil.1 hne
        exact ⟨v, ⟨e, he, hv⟩, hmisfilled⟩
      · rintro ⟨v, ⟨e, he, hv⟩, hmisfilled⟩
        exact ⟨e, he, e.misfits_ne_nil.2 ⟨v, hv, hmisfilled⟩⟩
    · simp only [← Expr.head?_misfits]
      rw [← List.head?_flatMap]
      exact hfails err

end BuildScript
