import BuildScript.Proofs.Expr.Counted
import BuildScript.Proofs.Expr.Positions
import BuildScript.Script

/-!
In which order a walk comes by the places of a tree. A visitor that is called with a stack of
ancestors sees what the list of visits says (`run_walkNode`). The paths of the visits increase, and
behind its children a node comes in the same places, each after all that hang below it
(`walk_inOrder`).
-/
namespace BuildScript
namespace Expr
variable {σ : Type}

def walkNode (visit : Expr → List Expr → StateM σ Unit) :
    Expr → StateT (List Expr) (StateM σ) Unit :=
  fold fun e below => do
    visit e (← get)
    modify (· ++ [e])
    forM below.children fun walk => walk
    modify List.dropLast

def walkVisiting (visit : Expr → List Expr → StateM σ Unit) (e : Expr) : StateM σ Unit :=
  (walkNode visit e).run' []

/-- Notes each node twice, before its children and behind them. -/
def notes : Expr → StateM (List Expr × List Expr) Unit :=
  fold fun e below => do
    modify fun (before, behind) => (before ++ [e], behind)
    forM below.children fun note => note
    modify fun (before, behind) => (before, behind ++ [e])

section Runs
variable (visit : Expr → List Expr → StateM σ Unit)

def callAll (visits : List Visit) : StateM σ Unit :=
  forM visits fun v => visit v.node v.ancestors

theorem callAll_append (a b : List Visit) :
    callAll visit (a ++ b) = callAll visit a >>= fun _ => callAll visit b :=
  List.forM_append

theorem walkNode_eq (e : Expr) : walkNode visit e = (do
    visit e (← get)
    modify (· ++ [e])
    forM e.children (walkNode visit)
    modify List.dropLast) := by
  unfold walkNode
  rw [fold_eq, Shape.children_map, List.forM_map]
  rfl

theorem run_walkNode (e : Expr) (above : List Expr) : (walkNode visit e).run above =
    (fun _ => ((), above)) <$> callAll visit (e.walkBelow above) := by
  induction e using induct generalizing above with
  | step e ih =>
    have hbelow (above : List Expr) (cs : List Expr) (hcs : ∀ c ∈ cs, c ∈ e.children) :
        (forM cs (walkNode visit)).run above =
          (fun _ => ((), above)) <$> callAll visit (cs.flatMap (walkBelow above)) := by
      induction cs with
      | nil => rfl
      | cons c cs hrest =>
        obtain ⟨hc, hcs⟩ := List.forall_mem_cons.1 hcs
        rw [List.flatMap_cons, callAll_append, List.forM_cons, StateT.run_bind, ih c hc]
        simp [hrest hcs]
    have hnode : callAll visit (e.walkBelow above) = visit e above >>= fun _ =>
        callAll visit (e.children.flatMap (walkBelow (above ++ [e]))) := by
      rw [walkBelow_eq, callAll, List.forM_cons]
      rfl
    rw [walkNode_eq, hnode]
    simp [hbelow (above ++ [e]) e.children fun _ hc => hc]

end Runs

theorem notes_eq (e : Expr) : notes e = (do
    modify fun (before, behind) => (before ++ [e], behind)
    forM e.children notes
    modify fun (before, behind) => (before, behind ++ [e])) := by
  unfold notes
  rw [fold_eq, Shape.children_map, List.forM_map]
  rfl

theorem run_notes (e : Expr) (before behind : List Expr) :
    (notes e).run (before, behind) = ((), before ++ e.preorder, behind ++ e.postorder) := by
  induction e using induct generalizing before behind with
  | step e ih =>
    have hbelow (cs : List Expr) (hcs : ∀ c ∈ cs, c ∈ e.children) (before behind : List Expr) :
        (forM cs notes).run (before, behind) =
          ((), before ++ cs.flatMap preorder, behind ++ cs.flatMap postorder) := by
      induction cs generalizing before behind with
      | nil => simp; rfl
      | cons c cs hrest =>
        obtain ⟨hc, hcs⟩ := List.forall_mem_cons.1 hcs
        rw [List.forM_cons, StateT.run_bind, ih c hc]
        show (forM cs notes).run (before ++ c.preorder, behind ++ c.postorder) = _
        rw [hrest hcs]
        simp
    rw [notes_eq, StateT.run_bind, StateT.run_modify, pure_bind, StateT.run_bind,
      hbelow e.children fun _ hc => hc, preorder_eq, postorder_eq,
      List.append_cons before e (e.children.flatMap preorder), ← List.append_assoc behind]
    rfl

theorem pairwise_positions (e : Expr) : e.positions.Pairwise (· < ·) := by
  induction e using induct with
  | step e ih =>
    rw [positions_eq, List.pairwise_cons, List.pairwise_flatMap]
    refine ⟨fun path hpath => ?_, fun i _ => ?_, List.pairwise_lt_range.imp fun {i j} hij => ?_⟩
    · simp only [List.mem_flatMap, List.mem_map] at hpath
      obtain ⟨i, -, rest, -, rfl⟩ := hpath
      exact List.nil_lt_cons i rest
    · cases hc : e.child? i with
      | none => simp [positionsIn, hc]
      | some c =>
        rw [positionsIn_eq hc, List.pairwise_map]
        exact (ih c (Shape.mem_children.2 ⟨i, hc⟩)).imp List.Lex.cons
    · simp only [List.forall_mem_map]
      exact fun p _ q _ => List.Lex.rel hij

def postPositions : Expr → List Path :=
  fold fun _ below =>
    ((List.range below.childCount).flatMap fun i =>
      ((below.child? i).getD []).map (i :: ·)) ++ [[]]

theorem postPositions_eq (e : Expr) : e.postPositions =
    ((List.range e.childCount).flatMap fun i =>
      (((e.child? i).map postPositions).getD []).map (i :: ·)) ++ [[]] := by
  have hcount (f : Expr → List Path) : (e.shape.map f).childCount = e.childCount := by
    rw [childCount, Shape.childCount_eq, Shape.childCount_eq, Shape.children_map, List.length_map]
  unfold postPositions
  rw [fold_eq, hcount]
  simp only [Shape.child?_map]
  rfl

theorem postPositions_perm (e : Expr) : e.postPositions.Perm e.positions := by
  induction e using induct with
  | step e ih =>
    rw [postPositions_eq, positions_eq]
    refine List.perm_append_comm.trans (.cons _ (List.Perm.flatMap_left _ fun i _ => ?_))
    cases hc : e.child? i with
    | none => simp [positionsIn, hc]
    | some c =>
      rw [positionsIn_eq hc]
      exact (ih c (Shape.mem_children.2 ⟨i, hc⟩)).map _

/-- No node comes before one that hangs below it. -/
theorem pairwise_postPositions (e : Expr) : e.postPositions.Pairwise fun p q => ¬p <+: q := by
  induction e using induct with
  | step e ih =>
    rw [postPositions_eq, List.pairwise_append, List.pairwise_flatMap]
    refine ⟨⟨fun i _ => ?_, List.pairwise_lt_range.imp fun {i j} hij => ?_⟩,
      List.pairwise_singleton _ _, fun path hpath q hq => ?_⟩
    · cases hc : e.child? i with
      | none => simp
      | some c =>
        rw [Option.map_some, Option.getD_some, List.pairwise_map]
        refine (ih c (Shape.mem_children.2 ⟨i, hc⟩)).imp fun hpq hprefix => hpq ?_
        exact (List.cons_prefix_cons.1 hprefix).2
    · simp only [List.forall_mem_map]
      exact fun p _ q _ hprefix => hij.ne (List.cons_prefix_cons.1 hprefix).1
    · simp only [List.mem_flatMap, List.mem_map] at hpath
      obtain ⟨i, -, rest, -, rfl⟩ := hpath
      obtain rfl := List.mem_singleton.1 hq
      simp

theorem postorder_eq_postPositions (e : Expr) :
    e.postorder.map some = e.postPositions.map e.at? := by
  induction e using induct with
  | step e ih =>
    rw [postorder_eq, postPositions_eq, List.map_append, List.map_append, List.map_flatMap,
      List.map_flatMap, flatMap_children]
    refine congrArg (· ++ [some e]) (List.flatMap_congr fun i _ => ?_)
    cases hc : e.child? i with
    | none => simp
    | some c =>
      rw [Option.map_some, Option.map_some, Option.getD_some, Option.getD_some,
        ih c (Shape.mem_children.2 ⟨i, hc⟩), List.map_map]
      refine List.map_congr_left fun path _ => ?_
      simp [at?_cons, hc]

/-- The visits go through a tree from place to place: one for each path that leads to a node, the
paths increasing, with the nodes at all shorter prefixes of the path for ancestors. -/
structure VisitsInOrder (e : Expr) (paths : List Path) (visits : List Visit) : Prop where
  increasing : paths.Pairwise (· < ·)
  complete : ∀ path, path ∈ paths ↔ (e.at? path).isSome
  shown : List.Forall₂ e.Shows paths visits

theorem visitsInOrder_walk (e : Expr) : e.VisitsInOrder e.positions e.walk where
  increasing := e.pairwise_positions
  complete _ := mem_positions
  shown := by
    have hsame : List.Forall₂ (· = ·) (e.positions.map e.visit?) (e.walk.map some) := by
      rw [walk_eq]
      exact List.forall₂_refl _
    rw [List.forall₂_map_left_iff, List.forall₂_map_right_iff] at hsame
    exact hsame.imp fun _ _ => shows_of_visit?

/-- The nodes stand at the same places, each behind all that hang below it. -/
structure ChildrenFirst (e : Expr) (paths : List Path) (nodes : List Expr) : Prop where
  same : paths.Perm e.positions
  below : paths.Pairwise fun p q => ¬p <+: q
  shown : nodes.map some = paths.map e.at?

end Expr

def Script.walkVisiting {σ : Type} (visit : Expr → List Expr → StateM σ Unit) (s : Script) :
    StateM σ Unit :=
  forM s.statements (Expr.walkVisiting visit)

namespace Expr
variable {σ : Type} (visit : Expr → List Expr → StateM σ Unit)

theorem walkVisiting_eq (e : Expr) : e.walkVisiting visit = callAll visit e.walk := by
  rw [walkVisiting, StateT.run'_eq, run_walkNode, walk]
  simp

theorem walkVisiting_script (s : Script) : s.walkVisiting visit = callAll visit s.walk := by
  rw [Script.walkVisiting, Script.walk]
  induction s.statements with
  | nil => rfl
  | cons e es ih => rw [List.forM_cons, List.flatMap_cons, callAll_append, ih, walkVisiting_eq]

/-- A walk calls its visitor once for each place of the tree, in the order of the paths, with the
nodes above that place. Notes that are taken before the children have the nodes in the same order,
and those that are taken behind them have the same places with each node behind all below it. The
statements of a script are walked one after the other, with no ancestors at first. -/
theorem walk_inOrder (e : Expr) (s : Script) :
    e.walkVisiting visit = callAll visit e.walk ∧ e.VisitsInOrder e.positions e.walk ∧
    (notes e).run ([], []) = ((), e.walk.map Visit.node, e.postorder) ∧
    e.ChildrenFirst e.postPositions e.postorder ∧
    s.walkVisiting visit = callAll visit (s.statements.flatMap (walkBelow [])) := by
  refine ⟨walkVisiting_eq visit e, visitsInOrder_walk e, ?_,
    ⟨e.postPositions_perm, e.pairwise_postPositions, e.postorder_eq_postPositions⟩,
    walkVisiting_script visit s⟩
  rw [run_notes, walk, map_node_walkBelow]
  rfl

example :
    (binary .mul (paren (binary .add (literal "1") (literal "2"))) (literal "3")).postPositions =
      [[0, 0, 0], [0, 0, 1], [0, 0], [0], [1], []] := by decide

end Expr
end BuildScript
