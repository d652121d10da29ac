import BuildScript.Expr.Edit
import BuildScript.Proofs.Expr.Slot

/-!
Edits without paths. An edit addresses each place by its path from the root; `rewrite` goes down the
tree itself, and both come to the same (`editAt_eq`).
-/
namespace BuildScript.Expr
variable {σ ε : Type}

def offered (offer : Callback σ ε) (above : List Expr) (e : Expr) : EditM σ ε Expr :=
  (fun answer => answer.getD e) <$> ExceptT.adapt Halt.refused (offer e above)

def inSlot (go : (Expr → List Expr) → Expr → EditM σ ε Expr) (above : Expr → List Expr) (e : Expr)
    (i : Nat) : EditM σ ε Expr :=
  match e.shape.slot? i with
  | none => pure e
  | some slot =>
    (fun x => ⟨e.span, slot.put x⟩) <$>
      go (fun x => above ⟨e.span, slot.put x⟩ ++ [⟨e.span, slot.put x⟩]) slot.content

def rewrite (offer : Callback σ ε) : Nat → (Expr → List Expr) → Expr → EditM σ ε Expr
  | 0, _, _ => throw .spent
  | depth + 1, above, e => do
    let e ← offered offer (above e) e
    (List.range e.childCount).foldlM (inSlot (rewrite offer depth) above) e

/-- The place at `path` of the trees `fill x`, where `x` stands below `above x`. -/
structure IsPlace (path : Path) (fill : Expr → Expr) (above : Expr → List Expr) : Prop where
  visit : ∀ x, (fill x).visit? path = some ⟨x, above x⟩
  put : ∀ x y, (fill x).put? path y = some (fill y)

theorem isPlace_root : IsPlace [] id fun _ => [] where
  visit _ := rfl
  put _ _ := rfl

theorem visit?_append (e : Expr) (path : Path) (i : Nat) : e.visit? (path ++ [i]) =
    (e.visit? path).bind fun v => (v.node.child? i).map fun x => ⟨x, v.ancestors ++ [v.node]⟩ := by
  induction path generalizing e with
  | nil =>
    show (e.child? i).bind _ = (e.child? i).map _
    cases e.child? i <;> rfl
  | cons j path ih =>
    show (e.child? j).bind _ = ((e.child? j).bind _).bind _
    cases e.child? j with
    | none => rfl
    | some child =>
      show (child.visit? (path ++ [i])).bind _ = ((child.visit? path).bind _).bind _
      rw [ih]
      cases child.visit? path with
      | none => rfl
      | some v => cases h : v.node.child? i <;> simp [h]

theorem put?_append (e : Expr) (path : Path) (i : Nat) (y : Expr) : e.put? (path ++ [i]) y =
    (e.visit? path).bind fun v => (v.node.shape.slot? i).bind fun slot =>
      e.put? path ⟨v.node.span, slot.put y⟩ := by
  induction path generalizing e with
  | nil =>
    show (e.shape.slot? i).bind _ = (e.shape.slot? i).bind _
    cases e.shape.slot? i <;> rfl
  | cons j path ih =>
    show (e.shape.slot? j).bind _ = ((e.child? j).bind _).bind _
    have hslot := Shape.slot?_eq e.shape j
    cases hchild : e.child? j with
    | none =>
      rw [show e.shape.child? j = none from hchild] at hslot
      rw [hslot]
      rfl
    | some child =>
      rw [show e.shape.child? j = some child from hchild] at hslot
      rw [hslot]
      show (child.put? (path ++ [i]) y).bind _ = ((child.visit? path).bind _).bind _
      rw [ih]
      cases child.visit? path with
      | none => rfl
      | some v =>
        cases hv : v.node.shape.slot? i with
        | none => simp [hv]
        | some slot => simp [hv, put?, hslot]

theorem IsPlace.inSlot {path : Path} {fill : Expr → Expr} {above : Expr → List Expr}
    (h : IsPlace path fill above) {e : Expr} {i : Nat} {slot : Slot Expr}
    (hslot : e.shape.slot? i = some slot) :
    IsPlace (path ++ [i]) (fun x => fill ⟨e.span, slot.put x⟩)
      fun x => above ⟨e.span, slot.put x⟩ ++ [⟨e.span, slot.put x⟩] := by
  rw [Shape.slot?_eq, Option.map_eq_some_iff] at hslot
  obtain ⟨c, hc, rfl⟩ := hslot
  constructor
  · intro x
    rw [visit?_append, h.visit]
    simp [child?, Shape.child?_mapIdx, hc]
  · intro x y
    have htwice : (e.shape.mapIdx fun j z => if j = i then x else z).mapIdx
        (fun j z => if j = i then y else z) = e.shape.mapIdx fun j z => if j = i then y else z := by
      rw [Shape.mapIdx_mapIdx]
      apply Shape.mapIdx_congr
      intro j z _
      split <;> rfl
    rw [put?_append, h.visit]
    simp [Shape.slot?_eq, Shape.child?_mapIdx, hc, htwice, h.put]

theorem childCount_put {e : Expr} {i : Nat} {slot : Slot Expr} (h : e.shape.slot? i = some slot)
    (x : Expr) : childCount ⟨e.span, slot.put x⟩ = e.childCount := by
  rw [Shape.slot?_eq, Option.map_eq_some_iff] at h
  obtain ⟨c, -, rfl⟩ := h
  exact Shape.childCount_mapIdx (fun j z => if j = i then x else z) e.shape

theorem put_content {e : Expr} {i : Nat} {slot : Slot Expr} (h : e.shape.slot? i = some slot) :
    slot.put slot.content = e.shape := by
  rw [Shape.slot?_eq, Option.map_eq_some_iff] at h
  obtain ⟨c, hc, rfl⟩ := h
  refine Shape.mapIdx_eq_self (f := fun j z => if j = i then c else z) fun j z hz => ?_
  split
  next hj =>
    subst hj
    exact Option.some.inj (hc.symm.trans hz)
  · rfl

theorem exists_slot {e : Expr} {i : Nat} (h : i < e.childCount) :
    ∃ slot, e.shape.slot? i = some slot := by
  have hlt : i < e.shape.children.length := Shape.childCount_eq e.shape ▸ h
  have hchild : e.shape.child? i = some e.shape.children[i] := by
    rw [Shape.child?_eq]
    exact List.getElem?_eq_getElem hlt
  exact ⟨_, by rw [Shape.slot?_eq, hchild]; rfl⟩

theorem offerAt_eq (offer : Callback σ ε) {path : Path} {fill : Expr → Expr}
    {above : Expr → List Expr} (h : IsPlace path fill above) (e : Expr) :
    offerAt offer path (fill e) =
      (fun x => (x.childCount, fill x)) <$> offered offer (above e) e := by
  unfold offerAt offered
  rw [h.visit]
  simp only [Functor.map_map]
  rw [← bind_pure_comp]
  apply bind_congr
  intro answer
  cases answer with
  | none => rfl
  | some replacement => simp [h.put]

/-- Going by paths comes to the same as going down the tree. -/
theorem editAt_eq (offer : Callback σ ε) (depth : Nat) {path : Path} {fill : Expr → Expr}
    {above : Expr → List Expr} (h : IsPlace path fill above) (e : Expr) :
    editAt offer depth path (fill e) = fill <$> rewrite offer depth above e := by
  induction depth generalizing path fill above e with
  | zero => rfl
  | succ depth ih =>
    have hslots (is : List Nat) (e : Expr) (his : ∀ i ∈ is, i < e.childCount) :
        is.foldlM (fun root i => editAt offer depth (path ++ [i]) root) (fill e) =
          fill <$> is.foldlM (inSlot (rewrite offer depth) above) e := by
      induction is generalizing e with
      | nil => simp
      | cons i is ihis =>
        obtain ⟨hi, his⟩ := List.forall_mem_cons.1 his
        obtain ⟨slot, hslot⟩ := exists_slot hi
        have hself : (⟨e.span, slot.put slot.content⟩ : Expr) = e := by
          rw [put_content hslot]
          cases e
          rfl
        have hstep := ih (h.inSlot hslot) slot.content
        rw [hself] at hstep
        have hrest (x : Expr) := ihis ⟨e.span, slot.put x⟩ fun j hj =>
          Nat.lt_of_lt_of_eq (his j hj) (childCount_put hslot x).symm
        rw [List.foldlM_cons, List.foldlM_cons, hstep, inSlot, hslot]
        simp only [bind_map_left, map_bind, hrest]
    rw [editAt_succ, offerAt_eq offer h, rewrite, bind_map_left, map_bind]
    exact bind_congr fun e => hslots _ e fun i hi => List.mem_range.1 hi

theorem edit_eq (offer : Callback σ ε) (depth : Nat) (e : Expr) :
    edit offer depth e = rewrite offer depth (fun _ => []) e :=
  (editAt_eq offer depth isPlace_root e).trans (id_map _)

end BuildScript.Expr
