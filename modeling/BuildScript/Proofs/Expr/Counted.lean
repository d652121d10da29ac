import BuildScript.Proofs.Expr.Strip

/-!
Nodes counted by their kinds. What is counted on a walk are the nodes of the trees
(`countKinds_kinds`), and stripping changes no count but that of the parentheses
(`occurrences_strip`).
-/
namespace BuildScript

theorem Shape.kind_map {α β : Type} (f : α → β) (s : Shape α) : (s.map f).kind = s.kind := by
  cases s <;> rfl

namespace Expr

def occurrences (k : Kind) (e : Expr) : Nat := e.preorder.countP fun n => n.kind == k

theorem occurrences_eq (k : Kind) (e : Expr) : e.occurrences k =
    (e.children.map (occurrences k)).sum + if e.kind = k then 1 else 0 := by
  unfold occurrences
  rw [preorder_eq, List.countP_cons, List.countP_flatMap]
  simp only [beq_iff_eq, Function.comp_def]

theorem kind_eq_paren_iff {e : Expr} : e.kind = .paren ↔ e.shape.isParen = true := by
  obtain ⟨s, shape⟩ := e
  cases shape <;> simp [kind, Shape.kind, Shape.isParen]

theorem occurrences_paren (k : Kind) (s : Option Span) (x : Expr) :
    occurrences k ⟨s, .paren x⟩ = x.occurrences k + if k = .paren then 1 else 0 := by
  rw [occurrences_eq]
  simp [children, Shape.children, kind, Shape.kind, eq_comm]

theorem occurrences_of_not_paren {e : Expr} (h : e.shape.isParen = false) :
    e.occurrences .paren = (e.children.map (occurrences .paren)).sum := by
  rw [occurrences_eq, if_neg (by simp [kind_eq_paren_iff, h]), Nat.add_zero]

theorem occurrences_strip (k : Kind) (e : Expr) :
    e.strip.occurrences k = if k = .paren then 0 else e.occurrences k := by
  induction e using induct with
  | step e ih =>
    rcases paren_or_strip e with ⟨s, x, rfl⟩ | ⟨he, hstrip⟩
    · rw [strip_paren, ih x (by simp [children, Shape.children]), occurrences_paren]
      split <;> rfl
    · have hkind : e.strip.kind = e.kind := by
        rw [hstrip]
        exact Shape.kind_map strip e.shape
      have hbelow : e.strip.children.map (occurrences k) =
          e.children.map fun c => if k = .paren then 0 else c.occurrences k := by
        rw [hstrip, children, Shape.children_map, List.map_map]
        exact List.map_congr_left ih
      rw [occurrences_eq, hkind, hbelow]
      by_cases hk : k = .paren
      · subst hk
        simp [kind_eq_paren_iff, he]
      · simp only [if_neg hk]
        exact (occurrences_eq k e).symm

theorem map_node_walkBelow (above : List Expr) (e : Expr) :
    (e.walkBelow above).map Visit.node = e.preorder := by
  induction e using induct generalizing above with
  | step e ih =>
    rw [walkBelow_eq, preorder_eq, List.map_cons, List.map_flatMap]
    exact congrArg (e :: ·) (List.flatMap_congr fun c hc => ih c hc _)

end Expr

/-- The count of a kind; a kind that does not occur is not listed. -/
def KindCount.count (c : KindCount) (k : Kind) : Nat := (c.kinds.lookup k).getD 0

namespace Script

def occurrences (k : Kind) (s : Script) : Nat := (s.statements.map (Expr.occurrences k)).sum

theorem occurrences_strip (s : Script) (k : Kind) :
    occurrences k { s with statements := s.statements.map Expr.strip } =
      if k = .paren then 0 else s.occurrences k := by
  unfold occurrences
  rw [List.map_map]
  simp only [Function.comp_def, Expr.occurrences_strip]
  split
  · simp
  · rfl

theorem countKinds_kinds (s : Script) : s.countKinds.kinds =
    (Kind.all.map fun k => (k, s.occurrences k)).filter (·.2 != 0) := by
  have hcount (k : Kind) : (s.walk.countP fun v => v.node.kind == k) = s.occurrences k := by
    unfold walk occurrences
    rw [List.countP_flatMap]
    refine congrArg List.sum (List.map_congr_left fun e _ => ?_)
    rw [Expr.occurrences, ← Expr.map_node_walkBelow [], List.countP_map]
    rfl
  simp only [countKinds, BuildScript.countKinds, hcount]

theorem count_countKinds (s : Script) (k : Kind) : s.countKinds.count k = s.occurrences k := by
  have hlookup (ks : List Kind) (f : Kind → Nat) :
      (((ks.map fun k => (k, f k)).filter (·.2 != 0)).lookup k).getD 0 =
        if k ∈ ks then f k else 0 := by
    induction ks with
    | nil => rfl
    | cons j ks ih =>
      rw [List.map_cons, List.filter_cons]
      by_cases hj : f j = 0
      · by_cases hjk : k = j
        · subst hjk
          simp [hj, ih]
        · simp [hj, ih, hjk]
      · by_cases hjk : k = j
        · subst hjk
          simp [hj]
        · simp [hj, ih, hjk, List.lookup_cons, beq_false_of_ne hjk]
  rw [KindCount.count, countKinds_kinds, hlookup, if_pos (by cases k <;> decide)]

theorem countKinds_strip (s : Script) :
    (countKinds { s with statements := s.statements.map Expr.strip }).kinds =
      s.countKinds.kinds.filter fun k => k.1 != .paren := by
  have hkept (k : Kind) : ((if k = .paren then 0 else s.occurrences k) != 0) =
      (k != .paren && s.occurrences k != 0) := by
    by_cases hk : k = .paren <;> simp [hk]
  simp only [countKinds_kinds, occurrences_strip, List.filter_map, List.filter_filter,
    Function.comp_def, hkept]
  refine List.map_congr_left fun k hk => ?_
  have hk : k ≠ .paren := by simpa using (Bool.and_eq_true_iff.1 (List.mem_filter.1 hk).2).1
  rw [if_neg hk]

end Script
end BuildScript
