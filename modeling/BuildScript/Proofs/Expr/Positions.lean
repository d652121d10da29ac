import BuildScript.Expr.Walk
import BuildScript.Proofs.Expr.Place

/-!
The places of a tree as a list of paths: a parent before its children, siblings from left to right.
A path is in the list if a node stands there (`mem_positions`), and a walk visits the places in this
order (`walk_eq`).
-/
namespace BuildScript.Expr

def positions : Expr → List Path :=
  fold fun _ below =>
    [] :: (List.range below.childCount).flatMap fun i =>
      ((below.child? i).getD []).map (i :: ·)

def positionsIn (e : Expr) (i : Nat) : List Path :=
  ((e.child? i).map positions).getD []

theorem positions_eq (e : Expr) : e.positions =
    [] :: (List.range e.childCount).flatMap fun i => (e.positionsIn i).map (i :: ·) := by
  have hcount (f : Expr → List Path) : (e.shape.map f).childCount = e.childCount := by
    rw [childCount, Shape.childCount_eq, Shape.childCount_eq, Shape.children_map, List.length_map]
  unfold positions
  rw [fold_eq, hcount]
  simp only [Shape.child?_map]
  rfl

theorem positionsIn_eq {e c : Expr} {i : Nat} (h : e.child? i = some c) :
    e.positionsIn i = c.positions := by
  rw [positionsIn, h]
  rfl

theorem child?_isSome {e : Expr} {i : Nat} : (e.child? i).isSome ↔ i < e.childCount := by
  simp [child?, Shape.child?_eq, childCount, Shape.childCount_eq]

theorem flatMap_children {α : Type} (f : Expr → List α) (e : Expr) : e.children.flatMap f =
    (List.range e.childCount).flatMap fun i => ((e.child? i).map f).getD [] := by
  have hmap : e.children.map f =
      (List.range e.children.length).map fun i => (e.children[i]?.map f).getD [] := by
    apply List.ext_getElem
    · simp
    · intro i hi _
      rw [List.length_map] at hi
      simp [hi]
  rw [List.flatMap_def, List.flatMap_def, hmap, childCount, Shape.childCount_eq]
  simp only [child?, Shape.child?_eq]
  rfl

theorem mem_positions {e : Expr} {path : Path} : path ∈ e.positions ↔ (e.at? path).isSome := by
  induction path generalizing e with
  | nil => simp [positions_eq e]
  | cons i path ih =>
    have hslot : i :: path ∈ e.positions ↔ i < e.childCount ∧ path ∈ e.positionsIn i := by
      simp [positions_eq e]
    rw [hslot, ← child?_isSome, at?_cons]
    cases hc : e.child? i with
    | none => simp
    | some c => simp [positionsIn_eq hc, ih]

theorem nodup_positions (e : Expr) : e.positions.Nodup := by
  induction e using induct with
  | step e ih =>
    rw [positions_eq, List.nodup_cons]
    refine ⟨by simp, List.nodup_flatMap.2 ⟨fun i hi => ?_, ?_⟩⟩
    · refine List.Nodup.map (List.cons_injective) ?_
      cases hc : e.child? i with
      | none => simp [positionsIn, hc]
      | some c =>
        rw [positionsIn_eq hc]
        exact ih c (Shape.mem_children.2 ⟨i, hc⟩)
    · refine List.nodup_range.imp fun {i j} hij => ?_
      simp only [Function.onFun, List.disjoint_left, List.mem_map, not_exists, not_and]
      rintro _ ⟨p, -, rfl⟩ q -
      simp [Ne.symm hij]

theorem visit?_cons (e : Expr) (i : Nat) (path : Path) : e.visit? (i :: path) =
    (e.child? i).bind fun c => (c.visit? path).map fun v => ⟨v.node, e :: v.ancestors⟩ := by
  show ((e.child? i).bind fun c => (c.visit? path).bind _) = _
  simp only [Option.map_eq_bind]
  rfl

theorem walkBelow_eq_positions (above : List Expr) (e : Expr) : (e.walkBelow above).map some =
    e.positions.map fun path => (e.visit? path).map fun v => ⟨v.node, above ++ v.ancestors⟩ := by
  induction e using induct generalizing above with
  | step e ih =>
    have hnode : (e.visit? []).map (fun v => (⟨v.node, above ++ v.ancestors⟩ : Visit)) =
        some ⟨e, above⟩ := by
      simp [visit?]
    rw [walkBelow_eq, positions_eq, List.map_cons, List.map_cons, hnode, List.map_flatMap,
      List.map_flatMap, flatMap_children]
    refine congrArg _ (List.flatMap_congr fun i _ => ?_)
    cases hc : e.child? i with
    | none => simp [positionsIn, hc]
    | some c =>
      rw [positionsIn_eq hc, Option.map_some, Option.getD_some,
        ih c (Shape.mem_children.2 ⟨i, hc⟩), List.map_map]
      refine List.map_congr_left fun path _ => ?_
      simp [visit?_cons, hc, Function.comp_def]

theorem walk_eq (e : Expr) : e.walk.map some = e.positions.map e.visit? := by
  rw [walk, walkBelow_eq_positions]
  refine List.map_congr_left fun path _ => ?_
  cases e.visit? path <;> rfl

structure Shows (root : Expr) (path : Path) (v : Visit) : Prop where
  node : root.at? path = some v.node
  ancestors : path.inits.dropLast.map root.at? = v.ancestors.map some

theorem shows_of_visit? {root : Expr} {path : Path} {v : Visit} (h : root.visit? path = some v) :
    root.Shows path v where
  node := by rw [at?, h]; rfl
  ancestors := by
    induction path generalizing root v with
    | nil =>
      cases h
      rfl
    | cons i path ih =>
      rw [visit?_cons, Option.bind_eq_some_iff] at h
      obtain ⟨c, hc, h⟩ := h
      obtain ⟨v, hv, rfl⟩ := Option.map_eq_some_iff.1 h
      have hbelow (p : Path) : root.at? (i :: p) = c.at? p := by
        rw [at?_cons, hc]
        rfl
      have hne : path.inits.map (i :: ·) ≠ [] := by
        cases path <;> simp
      rw [List.inits_cons, List.dropLast_cons_of_ne_nil hne, ← List.map_dropLast, List.map_cons,
        List.map_map]
      simp only [Function.comp_def, hbelow, ih hv, at?_nil, List.map_cons]

theorem Shows.visit? {root : Expr} {path : Path} {v : Visit} (h : root.Shows path v) :
    root.visit? path = some v := by
  obtain ⟨w, hw, hnode⟩ := Option.map_eq_some_iff.1 h.node
  have habove : v.ancestors.map some = w.ancestors.map some :=
    h.ancestors.symm.trans (shows_of_visit? hw).ancestors
  rw [hw]
  exact congrArg some (congrArg₂ Visit.mk hnode
    (List.map_injective_iff.2 (Option.some_injective _) habove).symm)

end BuildScript.Expr
