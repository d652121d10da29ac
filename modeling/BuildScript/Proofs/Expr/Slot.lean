import BuildScript.Expr.Slot
import Mathlib

/-!
Slots by their index. A child is found at the index that it has in the list of children, whatever
the shape is, so a shape can be rebuilt slot by slot.
-/
namespace BuildScript.Shape
variable {α β γ : Type}

theorem mapIdx_const (f : α → β) (xs : List α) : xs.mapIdx (fun _ x => f x) = xs.map f := by
  apply List.ext_getElem?
  intro i
  rw [List.getElem?_mapIdx, List.getElem?_map]

/-- Of pairs written out one behind the other, the first parts have the even indices. -/
theorem getElem?_pairs (f g : Nat → α → β) (xs : List α) (i : Nat) :
    (xs.mapIdx fun j x => [f j x, g j x]).flatten[i]? =
      xs[i / 2]?.map fun x => if i % 2 = 0 then f (i / 2) x else g (i / 2) x := by
  induction xs generalizing f g i with
  | nil => simp
  | cons x xs ih =>
    rw [List.mapIdx_cons]
    rcases i with _ | _ | i
    · rfl
    · rfl
    · have hdiv : (i + 1 + 1) / 2 = i / 2 + 1 := by omega
      have hmod : (i + 1 + 1) % 2 = i % 2 := by omega
      rw [hdiv, hmod, List.getElem?_cons_succ]
      exact ih (fun j => f (j + 1)) (fun j => g (j + 1)) i

theorem child?_eq (s : Shape α) (i : Nat) : s.child? i = s.children[i]? := by
  cases s with
  | binary op l r => rcases i with _ | _ | i <;> rfl
  | unary op x => rcases i with _ | i <;> rfl
  | paren x => rcases i with _ | i <;> rfl
  | dot x n => rcases i with _ | i <;> rfl
  | call f xs => rcases i with _ | i <;> rfl
  | load m bs =>
    rcases i with _ | i
    · rfl
    · have hpairs := getElem?_pairs (fun _ => Binding.source) (fun _ => Binding.target) bs i
      rw [mapIdx_const fun b : Binding α => [b.source, b.target]] at hpairs
      exact hpairs.symm
  | _ => simp [child?, children]

theorem getElem?_slots (s : Shape α) (i : Nat) : s.slots[i]? = s.slot? i := by
  cases s with
  | binary op l r => rcases i with _ | _ | i <;> rfl
  | unary op x => rcases i with _ | i <;> rfl
  | paren x => rcases i with _ | i <;> rfl
  | dot x n => rcases i with _ | i <;> rfl
  | list xs =>
    rw [slots, List.getElem?_mapIdx]
    rfl
  | call f xs =>
    rcases i with _ | i
    · rfl
    · rw [slots, List.getElem?_cons_succ, List.getElem?_mapIdx]
      rfl
  | load m bs =>
    rcases i with _ | i
    · rfl
    · rw [slots, List.getElem?_cons_succ, getElem?_pairs]
      rfl
  | _ => simp [slot?, slots]

theorem mem_children {s : Shape α} {x : α} : x ∈ s.children ↔ ∃ i, s.child? i = some x := by
  simp only [List.mem_iff_getElem?, child?_eq]

theorem mapIdx_map (g : Nat → β → γ) (f : α → β) (s : Shape α) :
    (s.map f).mapIdx g = s.mapIdx fun i x => g i (f x) := by
  cases s <;> simp [map, mapIdx, List.mapIdx_eq_zipIdx_map, List.zipIdx_map, Function.comp_def]

theorem child?_mapIdx (f : Nat → α → β) (s : Shape α) (i : Nat) :
    (s.mapIdx f).child? i = (s.child? i).map (f i) := by
  cases s with
  | binary op l r => rcases i with _ | _ | i <;> rfl
  | unary op x => rcases i with _ | i <;> rfl
  | paren x => rcases i with _ | i <;> rfl
  | dot x n => rcases i with _ | i <;> rfl
  | list xs => simp [mapIdx, child?]
  | call f xs => rcases i with _ | i <;> simp [mapIdx, child?]
  | load m bs =>
    cases i with
    | zero => rfl
    | succ i =>
      simp only [mapIdx, child?, List.getElem?_mapIdx, Option.map_map]
      cases bs[i / 2]? with
      | none => rfl
      | some b =>
        simp only [Option.map_some, Function.comp_apply, Option.some.injEq]
        split
        · rw [show 2 * (i / 2) + 1 = i + 1 by omega]
        · rw [show 2 * (i / 2) + 2 = i + 1 by omega]
  | _ => rfl

theorem children_mapIdx (f : Nat → α → β) (s : Shape α) :
    (s.mapIdx f).children = s.children.mapIdx f := by
  apply List.ext_getElem?
  intro i
  rw [← child?_eq, child?_mapIdx, child?_eq, List.getElem?_mapIdx]

theorem map_mapIdx (g : β → γ) (f : Nat → α → β) (s : Shape α) :
    (s.mapIdx f).map g = s.mapIdx fun i x => g (f i x) := by
  cases s <;> simp [map, mapIdx, List.mapIdx_eq_zipIdx_map, Function.comp_def]

theorem mapIdx_congr {f g : Nat → α → β} {s : Shape α}
    (h : ∀ i x, s.child? i = some x → f i x = g i x) : s.mapIdx f = s.mapIdx g := by
  cases s with
  | binary op l r => simp only [mapIdx, h 0 l rfl, h 1 r rfl]
  | unary op x => simp only [mapIdx, h 0 x rfl]
  | paren x => simp only [mapIdx, h 0 x rfl]
  | dot x n => simp only [mapIdx, h 0 x rfl]
  | list xs =>
    simp only [mapIdx, list.injEq, List.mapIdx_eq_mapIdx_iff]
    exact fun i hi => h i _ (List.getElem?_eq_getElem hi)
  | call k xs =>
    simp only [mapIdx, h 0 k rfl, call.injEq, true_and, List.mapIdx_eq_mapIdx_iff]
    exact fun i hi => h (i + 1) _ (List.getElem?_eq_getElem hi)
  | load m bs =>
    simp only [mapIdx, h 0 m rfl, load.injEq, true_and, List.mapIdx_eq_mapIdx_iff]
    intro i hi
    have hs : f (2 * i + 1) bs[i].source = g (2 * i + 1) bs[i].source := h (2 * i + 1) _ (by
      rw [child?, show 2 * i / 2 = i by omega, show 2 * i % 2 = 0 by omega,
        List.getElem?_eq_getElem hi]
      rfl)
    have ht : f (2 * i + 2) bs[i].target = g (2 * i + 2) bs[i].target := h (2 * i + 2) _ (by
      rw [child?, show (2 * i + 1) / 2 = i by omega, show (2 * i + 1) % 2 = 1 by omega,
        List.getElem?_eq_getElem hi]
      rfl)
    rw [hs, ht]
  | _ => rfl

theorem mapIdx_eq_map (f : α → β) (s : Shape α) : s.mapIdx (fun _ x => f x) = s.map f := by
  cases s <;> simp only [mapIdx, map, ← mapIdx_const]

theorem mapIdx_eq_self {f : Nat → α → α} {s : Shape α}
    (h : ∀ i x, s.child? i = some x → f i x = x) : s.mapIdx f = s := by
  rw [mapIdx_congr h]
  cases s <;> simp [mapIdx, List.mapIdx_eq_zipIdx_map]

theorem mapIdx_mapIdx (g : Nat → β → γ) (f : Nat → α → β) (s : Shape α) :
    (s.mapIdx f).mapIdx g = s.mapIdx fun i x => g i (f i x) := by
  cases s <;> simp [mapIdx, List.mapIdx_mapIdx, Function.comp_def]

theorem childCount_mapIdx (f : Nat → α → β) (s : Shape α) :
    (s.mapIdx f).childCount = s.childCount := by
  cases s <;> simp [mapIdx, childCount]

theorem set_eq_mapIdx {xs : List α} {i : Nat} {f : α → α} {x y : α} (h : xs[i]? = some x)
    (hf : f x = y) : xs.set i y = xs.mapIdx fun j z => if j = i then f z else z := by
  apply List.ext_getElem?
  intro j
  rw [List.getElem?_set, List.getElem?_mapIdx]
  by_cases hj : j = i
  · rw [hj, if_pos rfl, if_pos (List.getElem?_eq_some_iff.1 h).1, h]
    simp [hf]
  · simp [hj, Ne.symm hj]

theorem slot?_eq (s : Shape α) (i : Nat) : s.slot? i =
    (s.child? i).map fun x => ⟨x, fun y => s.mapIdx fun j z => if j = i then y else z⟩ := by
  cases s with
  | binary op l r => rcases i with _ | _ | i <;> rfl
  | unary op x => rcases i with _ | i <;> rfl
  | paren x => rcases i with _ | i <;> rfl
  | dot x n => rcases i with _ | i <;> rfl
  | list xs =>
    simp only [slot?, child?, mapIdx]
    cases h : xs[i]? with
    | none => rfl
    | some x =>
      have hset (y : α) := set_eq_mapIdx (f := fun _ => y) h rfl
      simp only [Option.map_some, hset]
  | call f xs =>
    cases i with
    | zero => simp [slot?, child?, mapIdx, List.mapIdx_eq_zipIdx_map]
    | succ i =>
      simp only [slot?, child?, mapIdx]
      cases h : xs[i]? with
      | none => rfl
      | some x =>
        have hset (y : α) := set_eq_mapIdx (f := fun _ => y) h rfl
        simp [hset]
  | load m bs =>
    cases i with
    | zero => simp [slot?, child?, mapIdx, List.mapIdx_eq_zipIdx_map]
    | succ i =>
      simp only [slot?, child?, mapIdx, Option.map_map]
      cases h : bs[i / 2]? with
      | none => rfl
      | some b =>
        -- An even index here is that of a source, an odd one that of a target.
        have hsource (y : α) := set_eq_mapIdx (f := fun b => { b with source := y }) h rfl
        have htarget (y : α) := set_eq_mapIdx (f := fun b => { b with target := y }) h rfl
        simp only [Option.map_some, Function.comp_apply, Option.some.injEq]
        rcases Nat.mod_two_eq_zero_or_one i with hi | hi
        · simp only [hi, if_true, hsource, Slot.mk.injEq, true_and]
          funext y
          rw [if_neg (by omega)]
          refine congrArg (load m) (congrArg (List.mapIdx · bs) ?_)
          funext j b
          have h₁ : 2 * j + 1 = i + 1 ↔ j = i / 2 := by omega
          have h₂ : ¬2 * j + 2 = i + 1 := by omega
          simp only [h₁, h₂, if_false]
          split <;> rfl
        · simp only [hi, Nat.one_ne_zero, if_false, htarget, Slot.mk.injEq, true_and]
          funext y
          rw [if_neg (by omega)]
          refine congrArg (load m) (congrArg (List.mapIdx · bs) ?_)
          funext j b
          have h₁ : ¬2 * j + 1 = i + 1 := by omega
          have h₂ : 2 * j + 2 = i + 1 ↔ j = i / 2 := by omega
          simp only [h₁, h₂, if_false]
          split <;> rfl
  | _ => rfl

end BuildScript.Shape
