import BuildScript.Expr.Edit
import BuildScript.Proofs.Expr.Strip

/-!
Trees with something else in one place. What is put somewhere passes on to the whole tree what it
has in common with what stood there (`every_put?`, `strip_put?`), and the place of a node in the
grouped tree follows from its place in the tree (`at?_groupedPath`).
-/
namespace BuildScript.Expr

def withChild (e : Expr) (i : Nat) (y : Expr) : Expr :=
  ⟨e.span, e.shape.mapIdx fun j z => if j = i then y else z⟩

theorem child?_withChild {e x : Expr} {i : Nat} (h : e.child? i = some x) (y : Expr) :
    (e.withChild i y).child? i = some y := by
  unfold child? at h
  rw [child?, withChild, Shape.child?_mapIdx, h, Option.map_some, if_pos rfl]

theorem childCount_withChild (e : Expr) (i : Nat) (y : Expr) :
    (e.withChild i y).childCount = e.childCount :=
  Shape.childCount_mapIdx (fun j z => if j = i then y else z) e.shape

theorem child?_withChild_of_ne {e : Expr} {i j : Nat} (h : j ≠ i) (y : Expr) :
    (e.withChild i y).child? j = e.child? j := by
  rw [child?, withChild, Shape.child?_mapIdx]
  simp [h, child?]

theorem withChild_self {e x : Expr} {i : Nat} (h : e.child? i = some x) : e.withChild i x = e := by
  have hself : (e.shape.mapIdx fun j z => if j = i then x else z) = e.shape := by
    apply Shape.mapIdx_eq_self
    intro j z hz
    split
    next hj =>
      subst hj
      exact Option.some.inj (h.symm.trans hz)
    · rfl
  rw [withChild, hself]
  cases e
  rfl

theorem wraps_withChild (e : Expr) (i : Nat) (y : Expr) (j : Nat) (x : Expr) :
    (e.withChild i y).shape.wraps j x = e.shape.wraps j x :=
  Shape.wraps_mapIdx (fun j z => if j = i then y else z) e.shape j x

section Paths
variable {e : Expr} {path rest : Path} {i : Nat}

@[simp] theorem at?_nil (e : Expr) : e.at? [] = some e := rfl

theorem at?_cons (e : Expr) (i : Nat) (path : Path) :
    e.at? (i :: path) = (e.child? i).bind fun c => c.at? path := by
  unfold at?
  show ((e.child? i).bind fun c => (c.visit? path).bind _).map _ = _
  cases e.child? i with
  | none => rfl
  | some c =>
    show ((c.visit? path).bind _).map _ = (c.visit? path).map _
    cases c.visit? path <;> rfl

theorem at?_append (e : Expr) (path rest : Path) :
    e.at? (path ++ rest) = (e.at? path).bind fun n => n.at? rest := by
  induction path generalizing e with
  | nil => rfl
  | cons i path ih =>
    rw [List.cons_append, at?_cons, at?_cons]
    cases e.child? i with
    | none => rfl
    | some c => exact ih c

theorem at?_singleton (e : Expr) (i : Nat) : e.at? [i] = e.child? i := by
  rw [at?_cons]
  cases e.child? i <;> rfl

theorem put?_cons_eq_some {y t : Expr} : e.put? (i :: path) y = some t ↔
    ∃ c c', e.child? i = some c ∧ c.put? path y = some c' ∧ t = e.withChild i c' := by
  show ((e.shape.slot? i).bind fun slot => (slot.content.put? path y).bind _) = _ ↔ _
  rw [Shape.slot?_eq]
  simp only [Option.bind_eq_some_iff, Option.map_eq_some_iff]
  constructor
  · rintro ⟨_, ⟨c, hc, rfl⟩, c', hput, h⟩
    exact ⟨c, c', hc, hput, (Option.some.inj h).symm⟩
  · rintro ⟨c, c', hc, hput, rfl⟩
    exact ⟨_, ⟨c, hc, rfl⟩, c', hput, rfl⟩

/-- Where a node stands, another one can be put. -/
theorem exists_put? {x : Expr} (h : e.at? path = some x) (y : Expr) :
    ∃ t, e.put? path y = some t := by
  induction path generalizing e with
  | nil => exact ⟨y, rfl⟩
  | cons i path ih =>
    rw [at?_cons, Option.bind_eq_some_iff] at h
    obtain ⟨c, hc, h⟩ := h
    obtain ⟨c', hput⟩ := ih h
    exact ⟨_, put?_cons_eq_some.2 ⟨c, c', hc, hput, rfl⟩⟩

theorem put?_self {x : Expr} (h : e.at? path = some x) : e.put? path x = some e := by
  induction path generalizing e with
  | nil => exact h.symm
  | cons i path ih =>
    rw [at?_cons, Option.bind_eq_some_iff] at h
    obtain ⟨c, hc, h⟩ := h
    exact put?_cons_eq_some.2 ⟨c, c, hc, ih h, (withChild_self hc).symm⟩

theorem at?_of_put?_append {n y t : Expr} (hn : e.at? path = some n)
    (h : e.put? (path ++ rest) y = some t) : ∃ n', n.put? rest y = some n' ∧
      t.at? path = some n' := by
  induction path generalizing e t with
  | nil =>
    cases hn
    exact ⟨t, h, rfl⟩
  | cons i path ih =>
    rw [at?_cons, Option.bind_eq_some_iff] at hn
    obtain ⟨c, hc, hn⟩ := hn
    obtain ⟨c₁, c', hc₁, hput, rfl⟩ := put?_cons_eq_some.1 h
    obtain rfl := Option.some.inj (hc.symm.trans hc₁)
    obtain ⟨n', hn', hat⟩ := ih hn hput
    refine ⟨n', hn', ?_⟩
    rw [at?_cons, child?_withChild hc, Option.bind_some, hat]

theorem Every.at? {test : Expr → Prop} {n : Expr} (h : e.Every test) (hn : e.at? path = some n) :
    n.Every test := by
  induction path generalizing e with
  | nil =>
    cases hn
    exact h
  | cons i path ih =>
    rw [at?_cons, Option.bind_eq_some_iff] at hn
    obtain ⟨c, hc, hn⟩ := hn
    exact ih ((every_iff.1 h).2 c (Shape.mem_children.2 ⟨i, hc⟩)) hn

theorem every_put? {test : Expr → Prop} (hnode : ∀ e i y, test e → test (withChild e i y))
    {y t : Expr} (h : e.Every test) (hy : y.Every test) (ht : e.put? path y = some t) :
    t.Every test := by
  induction path generalizing e t with
  | nil =>
    cases ht
    exact hy
  | cons i path ih =>
    obtain ⟨c, c', hc, hput, rfl⟩ := put?_cons_eq_some.1 ht
    obtain ⟨htest, hbelow⟩ := every_iff.1 h
    refine every_iff.2 ⟨hnode e i c' htest, fun d hd => ?_⟩
    obtain ⟨j, hj⟩ := Shape.mem_children.1 hd
    rw [withChild, Shape.child?_mapIdx, Option.map_eq_some_iff] at hj
    obtain ⟨z, hz, rfl⟩ := hj
    split
    · exact ih (hbelow c (Shape.mem_children.2 ⟨i, hc⟩)) hput
    · exact hbelow z (Shape.mem_children.2 ⟨j, hz⟩)

theorem Lexical.put? {y t : Expr} (h : e.Lexical) (hy : y.Lexical) (ht : e.put? path y = some t) :
    t.Lexical := by
  refine every_put? (fun e i y he => ?_) h hy ht
  unfold withChild
  cases hs : e.shape <;> simp_all [Shape.mapIdx, Shape.isLexical]

theorem strip_put? {x y t : Expr} (hx : e.at? path = some x) (hxy : y.strip = x.strip)
    (ht : e.put? path y = some t) : t.strip = e.strip := by
  induction path generalizing e t with
  | nil =>
    cases hx
    cases ht
    exact hxy
  | cons i path ih =>
    rw [at?_cons, Option.bind_eq_some_iff] at hx
    obtain ⟨c, hc, hx⟩ := hx
    obtain ⟨c₁, c', hc₁, hput, rfl⟩ := put?_cons_eq_some.1 ht
    obtain rfl := Option.some.inj (hc.symm.trans hc₁)
    have hstrip := ih hx hput
    have hbelow : (e.withChild i c').shape.map strip = e.shape.map strip := by
      rw [withChild, Shape.map_mapIdx, ← Shape.mapIdx_eq_map]
      apply Shape.mapIdx_congr
      intro j z hz
      split
      next hj =>
        subst hj
        rw [hstrip, Option.some.inj (hc.symm.trans hz)]
      · rfl
    have hparen : (e.withChild i c').shape.isParen = e.shape.isParen :=
      Shape.isParen_mapIdx (fun j z => if j = i then c' else z) e.shape
    rcases paren_or_strip e with ⟨s, z, rfl⟩ | ⟨he, hself⟩
    · exact Shape.paren.inj hbelow
    · rw [hself, strip_of_not_paren (hparen.trans he), hbelow]
      rfl

end Paths

/-- The place in the grouped tree of the node at a path. Each parenthesis that grouping puts is one
more step down. -/
def groupedPath : Expr → Path → Path
  | _, [] => []
  | e, i :: path =>
    match e.child? i with
    | none => i :: path
    | some x => i :: (if e.shape.wraps i x then [0] else []) ++ x.groupedPath path

theorem child?_grouped {e x : Expr} {i : Nat} (h : e.child? i = some x) :
    e.grouped.child? i = some (wrappedIf (e.shape.wraps i x) x.grouped) := by
  unfold child? at h
  rw [child?, grouped_eq, Shape.child?_mapIdx, h, Option.map_some]

theorem at?_groupedPath {e n : Expr} {path : Path} (h : e.at? path = some n) :
    e.grouped.at? (e.groupedPath path) = some n.grouped := by
  induction path generalizing e with
  | nil =>
    cases h
    rfl
  | cons i path ih =>
    rw [at?_cons, Option.bind_eq_some_iff] at h
    obtain ⟨x, hx, h⟩ := h
    rw [groupedPath, hx]
    show e.grouped.at? (i :: (_ ++ _)) = _
    rw [at?_cons, child?_grouped hx, Option.bind_some, at?_append]
    cases e.shape.wraps i x with
    | false => exact ih h
    | true => exact ih h

end BuildScript.Expr
