import BuildScript.Proofs.Expr.Counted
import BuildScript.Proofs.Expr.Rewrite

/-!
The edit that strips parentheses does what `strip` says, within the depth that it is given, and counts
the parentheses that it takes away (`Script.edit_stripCallback`).
-/
namespace BuildScript

namespace Expr

def Yields {α : Type} (p : EditM Nat Empty α) (x : α) (k : Nat) : Prop :=
  ∀ n, p.run.run n = (.ok x, n + k)

namespace Yields
variable {α β : Type} {p : EditM Nat Empty α} {x : α} {j k : Nat}

theorem pure (x : α) : Yields (Pure.pure x) x 0 := fun _ => rfl

theorem bind {f : α → EditM Nat Empty β} {y : β} (hp : Yields p x j) (hf : Yields (f x) y k) :
    Yields (p >>= f) y (j + k) := by
  intro n
  rw [ExceptT.run_bind, StateT.run_bind, hp n, ← Nat.add_assoc]
  exact hf (n + j)

theorem bind_pure (f : α → β) (hp : Yields p x k) :
    Yields (p >>= fun a => Pure.pure (f a)) (f x) k :=
  hp.bind (k := 0) (pure (f x))

theorem map (f : α → β) (hp : Yields p x k) : Yields (f <$> p) (f x) k :=
  bind_pure_comp f p ▸ hp.bind_pure f

end Yields

theorem ungrouped_paren (s : Option Span) (x : Expr) :
    ungrouped ⟨s, .paren x⟩ = (x.ungrouped.1 + 1, x.ungrouped.2) := rfl

theorem ungrouped_of_not_paren {e : Expr} (h : e.shape.isParen = false) : e.ungrouped = (0, e) := by
  obtain ⟨s, shape⟩ := e
  cases shape with
  | paren x => cases h
  | _ => rfl

structure Opened (e : Expr) (passed : Nat) (inner : Expr) : Prop where
  not_paren : inner.shape.isParen = false
  size_le : inner.size ≤ e.size
  strip_eq : inner.strip = e.strip
  occurrences_eq : e.occurrences .paren = passed + inner.occurrences .paren
  same : passed = 0 → inner = e

theorem opened_ungrouped (e : Expr) : Opened e e.ungrouped.1 e.ungrouped.2 := by
  induction e using induct with
  | step e ih =>
    rcases paren_or_strip e with ⟨s, x, rfl⟩ | ⟨he, -⟩
    · obtain ⟨hparen, hsize, hstrip, hcount, -⟩ := ih x (by simp [children, Shape.children])
      have hx : size ⟨s, .paren x⟩ = x.size + 1 := by
        rw [size_eq]
        rfl
      have hp : occurrences .paren ⟨s, .paren x⟩ = x.occurrences .paren + 1 :=
        occurrences_paren .paren s x
      rw [ungrouped_paren]
      exact ⟨hparen, by show x.ungrouped.2.size ≤ _; omega, hstrip,
        by show _ = x.ungrouped.1 + 1 + x.ungrouped.2.occurrences .paren; omega, by simp⟩
    · rw [ungrouped_of_not_paren he]
      exact ⟨he, Nat.le_refl _, rfl, (Nat.zero_add _).symm, fun _ => rfl⟩

theorem yields_offered (above : List Expr) (e : Expr) :
    Yields (offered stripCallback above e) e.ungrouped.2 e.ungrouped.1 := by
  intro n
  show (Except.ok (Option.getD (if e.ungrouped.1 = 0 then none else some e.ungrouped.2) e), _) = _
  by_cases h : e.ungrouped.1 = 0
  · rw [if_pos h, (opened_ungrouped e).same h]
    rfl
  · rw [if_neg h]
    rfl

theorem yields_slots (go : (Expr → List Expr) → Expr → EditM Nat Empty Expr) (g : Expr → Expr)
    (k : Expr → Nat) (above : Expr → List Expr) {is : List Nat} (hnodup : is.Nodup) {e : Expr}
    (hcount : ∀ i ∈ is, i < e.childCount)
    (h : ∀ i ∈ is, ∀ c, e.child? i = some c → ∀ above, Yields (go above c) (g c) (k c)) :
    Yields (is.foldlM (inSlot go above) e)
      ⟨e.span, e.shape.mapIdx fun j z => if j ∈ is then g z else z⟩
      (is.map fun i => (e.child? i).elim 0 k).sum := by
  induction is generalizing e with
  | nil =>
    have hself : (e.shape.mapIdx fun j z => if j ∈ ([] : List Nat) then g z else z) = e.shape :=
      Shape.mapIdx_eq_self fun _ _ _ => by simp
    rw [hself]
    cases e
    exact .pure _
  | cons i is ih =>
    obtain ⟨hnot, hnodup⟩ := List.nodup_cons.1 hnodup
    obtain ⟨hi, his⟩ := List.forall_mem_cons.1 h
    obtain ⟨hci, hcis⟩ := List.forall_mem_cons.1 hcount
    obtain ⟨slot, hslot⟩ := exists_slot hci
    have hstep : Yields (inSlot go above e i)
        ⟨e.span, e.shape.mapIdx fun j z => if j = i then g z else z⟩ ((e.child? i).elim 0 k) := by
      unfold inSlot
      rw [hslot]
      rw [Shape.slot?_eq, Option.map_eq_some_iff] at hslot
      obtain ⟨c, hc, rfl⟩ := hslot
      have hfill : (e.shape.mapIdx fun j z => if j = i then g z else z) =
          e.shape.mapIdx fun j z => if j = i then g c else z := by
        apply Shape.mapIdx_congr
        intro j z hz
        split
        next hj =>
          rw [hj, hc] at hz
          rw [Option.some.inj hz]
        · rfl
      rw [hfill, child?, hc]
      exact (hi c hc _).map _
    -- Behind the first slot the other ones are as they were.
    have hchild {j : Nat} (hj : j ∈ is) :
        (e.shape.mapIdx fun j z => if j = i then g z else z).child? j = e.child? j := by
      have hne : j ≠ i := fun hji => hnot (hji ▸ hj)
      rw [Shape.child?_mapIdx]
      simp only [if_neg hne, Option.map_id', child?]
    have hrest := ih hnodup (e := ⟨e.span, e.shape.mapIdx fun j z => if j = i then g z else z⟩)
      (fun j hj => Nat.lt_of_lt_of_eq (hcis j hj)
        (Shape.childCount_mapIdx (fun j z => if j = i then g z else z) e.shape).symm)
      (fun j hj c hc => his j hj c ((hchild hj).symm.trans hc))
    have hboth : ((e.shape.mapIdx fun j z => if j = i then g z else z).mapIdx
        fun j z => if j ∈ is then g z else z) =
          e.shape.mapIdx fun j z => if j ∈ i :: is then g z else z := by
      rw [Shape.mapIdx_mapIdx]
      apply Shape.mapIdx_congr
      intro j z _
      by_cases hji : j = i
      · simp [hji, hnot]
      · simp [hji]
    have hsum : (is.map fun j =>
        ((e.shape.mapIdx fun j z => if j = i then g z else z).child? j).elim 0 k) =
          is.map fun j => (e.child? j).elim 0 k :=
      List.map_congr_left fun j hj => by rw [hchild hj]
    rw [hboth] at hrest
    rw [List.foldlM_cons, List.map_cons, List.sum_cons, ← hsum]
    exact hstep.bind hrest

theorem size_le_sum {c : Expr} {xs : List Expr} (h : c ∈ xs) :
    c.size ≤ (xs.map size).foldr (· + ·) 0 := by
  induction xs with
  | nil => cases h
  | cons x xs ih =>
    rw [List.map_cons, List.foldr_cons]
    rcases List.mem_cons.1 h with rfl | h
    · exact Nat.le_add_right _ _
    · exact Nat.le_trans (ih h) (Nat.le_add_left _ _)

theorem size_lt_of_mem {c e : Expr} (h : c ∈ e.children) : c.size < e.size := by
  rw [size_eq e]
  exact Nat.lt_succ_of_le (size_le_sum h)

theorem map_range_child? (k : Expr → Nat) (e : Expr) :
    ((List.range e.childCount).map fun i => (e.child? i).elim 0 k) = e.children.map k := by
  rw [childCount, Shape.childCount_eq]
  apply List.ext_getElem
  · simp [children]
  · intro i hi hi'
    rw [List.length_map, children] at hi'
    simp only [List.getElem_map, List.getElem_range, child?, Shape.child?_eq, children,
      List.getElem?_eq_getElem hi', Option.elim_some]

theorem yields_rewrite {depth : Nat} {e : Expr} (h : e.size ≤ depth) (above : Expr → List Expr) :
    Yields (rewrite stripCallback depth above e) e.strip (e.occurrences .paren) := by
  induction depth generalizing e above with
  | zero =>
    rw [size_eq] at h
    omega
  | succ depth ih =>
    obtain ⟨hparen, hsize, hstrip, hcount, -⟩ := opened_ungrouped e
    rw [rewrite, hcount]
    refine (yields_offered _ e).bind ?_
    generalize e.ungrouped.2 = inner at hparen hsize hstrip ⊢
    have hslots := yields_slots (rewrite stripCallback depth) strip (occurrences .paren) above
      (List.nodup_range (n := inner.childCount)) (e := inner) (fun i hi => List.mem_range.1 hi)
      (fun i _ c hc above => by
        have := size_lt_of_mem (Shape.mem_children.2 ⟨i, hc⟩)
        exact ih (by omega) above)
    have hall : (inner.shape.mapIdx fun j z =>
        if j ∈ List.range inner.childCount then z.strip else z) = inner.shape.map strip := by
      rw [← Shape.mapIdx_eq_map]
      refine Shape.mapIdx_congr fun j z hz => if_pos (List.mem_range.2 ?_)
      rw [Shape.child?_eq] at hz
      exact Nat.lt_of_lt_of_eq (List.getElem?_eq_some_iff.1 hz).1 (Shape.childCount_eq _).symm
    rw [hall, ← strip_of_not_paren hparen, hstrip, map_range_child?,
      ← occurrences_of_not_paren hparen] at hslots
    exact hslots

end Expr

namespace Script

/-- The edit of a script strips each statement, counts the parentheses and touches nothing else. -/
theorem edit_stripCallback (s : Script) {depth : Nat} (h : ∀ e ∈ s.statements, e.size ≤ depth) :
    Expr.Yields (s.edit Expr.stripCallback depth)
      { s with statements := s.statements.map Expr.strip } (s.occurrences .paren) := by
  have hall (es : List Expr) (h : ∀ e ∈ es, e.size ≤ depth) :
      Expr.Yields (es.mapM (Expr.edit Expr.stripCallback depth)) (es.map Expr.strip)
        (es.map (Expr.occurrences .paren)).sum := by
    induction es with
    | nil => exact .pure []
    | cons e es ih =>
      obtain ⟨he, hes⟩ := List.forall_mem_cons.1 h
      rw [List.mapM_cons, Expr.edit_eq]
      exact (Expr.yields_rewrite he _).bind ((ih hes).bind_pure _)
  exact (hall s.statements h).bind_pure _

theorem stripped_eq_pair (s : Script) : s.stripped =
    ({ s with statements := s.statements.map Expr.strip }, s.occurrences .paren) := by
  unfold stripped
  rw [s.edit_stripCallback (fun e => Expr.size_le_sum) 0, Nat.zero_add]

theorem stripped_eq (s : Script) :
    s.stripped.1 = { s with statements := s.statements.map Expr.strip } := by
  rw [stripped_eq_pair]

/-- The edit that strips parentheses comes to an end, whatever was counted before. It leaves the
statements without their parentheses, and has then counted these; the count of the kinds agrees, and
that of the result differs from it in the parentheses only. Done again it changes nothing. -/
theorem edit_strips (s : Script) :
    let bare : Script := { s with statements := s.statements.map Expr.strip }
    (∃ enough, ∀ depth, enough ≤ depth → ∀ removed,
      (s.edit Expr.stripCallback depth).run.run removed =
        (.ok bare, removed + s.occurrences .paren) ∧
      (bare.edit Expr.stripCallback depth).run.run removed = (.ok bare, removed)) ∧
    s.stripped = (bare, s.occurrences .paren) ∧ bare.stripped = (bare, 0) ∧
    s.countKinds.count .paren = s.occurrences .paren ∧
    bare.countKinds.kinds = s.countKinds.kinds.filter fun k => k.1 != .paren := by
  intro bare
  have hcount (k : Kind) : bare.occurrences k = if k = .paren then 0 else s.occurrences k :=
    s.occurrences_strip k
  have hbare : { bare with statements := bare.statements.map Expr.strip } = bare := by
    simp only [bare, List.map_map, Function.comp_def, Expr.strip_strip]
  refine ⟨⟨((s.statements ++ bare.statements).map Expr.size).foldr (· + ·) 0,
    fun depth hdepth removed => ?_⟩, s.stripped_eq_pair, ?_, s.count_countKinds .paren,
    s.countKinds_strip⟩
  · have hsize (e : Expr) (he : e ∈ s.statements ++ bare.statements) : e.size ≤ depth :=
      Nat.le_trans (Expr.size_le_sum he) hdepth
    have hs := s.edit_stripCallback fun e he => hsize e (List.mem_append_left _ he)
    have hagain := bare.edit_stripCallback fun e he => hsize e (List.mem_append_right _ he)
    rw [hbare, hcount, if_pos rfl] at hagain
    exact ⟨hs removed, hagain removed⟩
  · rw [stripped_eq_pair, hbare, hcount, if_pos rfl]

end Script
end BuildScript
