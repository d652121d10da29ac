import BuildScript.Json.Script
import Mathlib

/-!
JSON values up to the order of fields. Reading a record asks for its fields by name, so it finds the
same in every order (`Reordered.record?`), and the order does not show in the depth of a value
(`Reordered.depth_eq`). What is read back in every order from what was written is closed under
arrays and options (`Recovers`).
-/
namespace BuildScript.Json

def parts : Json → List Json
  | array items => items
  | object fields => fields.map Prod.snd
  | _ => []

theorem induct {P : Json → Prop} (step : ∀ v : Json, (∀ x ∈ v.parts, P x) → P v) (v : Json) : P v :=
  Json.rec (motive_1 := P) (motive_2 := fun items => ∀ x ∈ items, P x)
    (motive_3 := fun fields => ∀ x ∈ fields.map Prod.snd, P x) (motive_4 := fun field => P field.2)
    (step null nofun) (fun b => step (bool b) nofun) (fun n => step (integer n) nofun)
    (fun m e => step (decimal m e) nofun) (fun text => step (string text) nofun)
    (fun items ih => step (array items) ih) (fun fields ih => step (object fields) ih)
    nofun (fun _ _ hx hxs => List.forall_mem_cons.2 ⟨hx, hxs⟩)
    nofun (fun _ _ hf hfs => List.forall_mem_cons.2 ⟨hf, hfs⟩)
    (fun _ _ hx => hx)
    v

theorem depth_eq (v : Json) : v.depth = (v.parts.map depth).foldr max 0 + 1 := by
  have hall (items : List Json) : depthAll items = (items.map depth).foldr max 0 := by
    induction items with
    | nil => rfl
    | cons x xs ih => rw [depthAll, ih, List.map_cons, List.foldr_cons]
  have hfields (fields : List (String × Json)) :
      depthFields fields = ((fields.map Prod.snd).map depth).foldr max 0 := by
    induction fields with
    | nil => rfl
    | cons f fs ih => rw [depthFields, ih, List.map_cons, List.map_cons, List.foldr_cons]
  cases v with
  | array items => rw [depth, hall, parts]
  | object fields => rw [depth, hfields, parts]
  | _ => rfl

theorem depth_lt_of_mem {v x : Json} (h : x ∈ v.parts) : x.depth < v.depth := by
  rw [depth_eq v, Nat.lt_succ_iff]
  exact List.le_max_of_le (List.mem_map_of_mem h) (Nat.le_refl _)

/-- The second value is the first one with its fields in any order, on all levels. -/
inductive Reordered : Json → Json → Prop
  | null : Reordered null null
  | bool (b : Bool) : Reordered (bool b) (bool b)
  | integer (n : Int) : Reordered (integer n) (integer n)
  | decimal (m e : Int) : Reordered (decimal m e) (decimal m e)
  | string (text : String) : Reordered (string text) (string text)
  | array {xs ys : List Json} (items : List.Forall₂ Reordered xs ys) :
    Reordered (array xs) (array ys)
  | object {fields entries others : List (String × Json)}
    (names : fields.map Prod.fst = entries.map Prod.fst)
    (values : List.Forall₂ Reordered (fields.map Prod.snd) (entries.map Prod.snd))
    (order : entries.Perm others) : Reordered (object fields) (object others)

theorem lookup_of_mem {fields : List (String × Json)} (hnodup : (fields.map Prod.fst).Nodup)
    {name : String} {x : Json} (h : (name, x) ∈ fields) : fields.lookup name = some x := by
  induction fields with
  | nil => nomatch h
  | cons f fs ih =>
    rw [List.map_cons, List.nodup_cons] at hnodup
    rcases List.mem_cons.1 h with rfl | h
    · exact List.lookup_cons_self
    · have hname : name ≠ f.1 := by
        rintro rfl
        exact hnodup.1 (List.mem_map.2 ⟨_, h, rfl⟩)
      rw [List.lookup_cons, beq_false_of_ne hname]
      exact ih hnodup.2 h

theorem mapM_eq_some {α β : Type} {f : α → Option β} {xs : List α} {ys : List β}
    (h : List.Forall₂ (fun y x => f x = some y) ys xs) : xs.mapM f = some ys := by
  induction h with
  | nil => rfl
  | cons hx _ ih =>
    rw [List.mapM_cons, hx, ih]
    rfl

namespace Reordered
variable {v w : Json}

theorem refl (v : Json) : Reordered v v := by
  induction v using induct with
  | step v ih =>
    have hparts : List.Forall₂ Reordered v.parts v.parts := List.forall₂_same.2 ih
    cases v with
    | array items => exact .array hparts
    | object fields => exact .object rfl hparts (.refl _)
    | _ => constructor

theorem depth_eq (h : Reordered v w) : w.depth = v.depth := by
  induction v using induct generalizing w with
  | step v ih =>
    have hdepths {zs : List Json} (hzs : List.Forall₂ Reordered v.parts zs) :
        zs.map depth = v.parts.map depth := by
      rw [eq_comm, ← List.forall₂_eq_eq_eq, List.forall₂_map_left_iff, List.forall₂_map_right_iff]
      exact ((List.forall₂_and_left _ _).2 ⟨fun x hx w => ih x hx (w := w), hzs⟩).imp
        fun x z hz => (hz.1 z hz.2).symm
    rw [Json.depth_eq w, Json.depth_eq v]
    cases h with
    | array items => exact congrArg (fun ds => ds.foldr max 0 + 1) (hdepths items)
    | object names values order =>
      rw [← hdepths values]
      exact congrArg (· + 1) (((order.map Prod.snd).map depth).symm.foldr_eq 0)
    | _ => rfl

theorem record? {fields : List (String × Json)} (asked : List Field)
    (h : Reordered (.object fields) v) (hasked : fields.map Prod.fst = asked.map Field.name)
    (hnodup : (asked.map Field.name).Nodup) :
    ∃ values, List.Forall₂ Reordered (fields.map Prod.snd) values ∧
      v.fields? asked = some values ∧ v.record? asked = some values := by
  cases h with
  | @object _ entries others names values order =>
    rw [names] at hasked
    rw [← hasked, (order.map Prod.fst).nodup_iff] at hnodup
    have hlookup : ∀ e ∈ entries, others.lookup e.1 = some e.2 := fun e he =>
      lookup_of_mem hnodup (order.mem_iff.1 he)
    have hnames : List.Forall₂ (fun e f => e.1 = f.name) entries asked := by
      rwa [← List.forall₂_eq_eq_eq, List.forall₂_map_left_iff, List.forall₂_map_right_iff]
        at hasked
    have hread : (Json.object others).fields? asked = some (entries.map Prod.snd) := by
      refine mapM_eq_some (List.forall₂_map_left_iff.2 ?_)
      refine ((List.forall₂_and_left _ _).2 ⟨hlookup, hnames⟩).imp fun e f he => ?_
      rw [← he.2, he.1]
    exact ⟨entries.map Prod.snd, values, hread, hread⟩

theorem of_string {text : String} (h : Reordered (.string text) v) : v = .string text := by
  cases h
  rfl

/-- An object with one field has no other order. -/
theorem of_tagged {tag : String} {x : Json} (h : Reordered (.object [(tag, x)]) v) :
    ∃ content, v = .object [(tag, content)] ∧ Reordered x content := by
  cases h with
  | @object _ entries others names values order =>
    match entries, names, values with
    | [(_, content)], names, values =>
      obtain rfl := List.perm_singleton.1 order.symm
      cases names
      exact ⟨content, rfl, (List.forall₂_cons.1 values).1⟩

end Reordered

section Recovers
variable {α : Type} {write : α → Json} {read : Json → Option α}

def Recovers (write : α → Json) (read : Json → Option α) (a : α) : Prop :=
  ∀ v, Reordered (write a) v → read v = some a

theorem recovers_string (text : String) : Recovers string string? text := by
  intro v hv
  rw [hv.of_string]
  rfl

theorem recovers_natural {n : Nat} (h : n < 0x1_0000_0000_0000_0000) :
    Recovers ofNat natural? n := by
  intro v hv
  cases hv with
  | integer => simp [natural?, h]

theorem recovers_nullable (hnull : read null = none) {a : Option α}
    (h : ∀ x ∈ a, Recovers write read x) : Recovers (ofOption write) (nullable? read) a := by
  intro v hv
  cases a with
  | none =>
    cases hv
    rfl
  | some x =>
    have hread : read v = some x := h x rfl v hv
    cases v with
    | null => rw [hnull] at hread; cases hread
    | _ => simp [nullable?, hread]

theorem recovers_array {xs : List α} (h : ∀ x ∈ xs, Recovers write read x) {v : Json}
    (hv : Reordered (array (xs.map write)) v) :
    ∃ items, v = array items ∧ items.mapM read = some xs := by
  cases hv with
  | @array _ items hitems =>
    rw [List.forall₂_map_left_iff] at hitems
    refine ⟨items, rfl, mapM_eq_some ?_⟩
    exact ((List.forall₂_and_left _ _).2 ⟨h, hitems⟩).imp fun x y hxy => hxy.1 y hxy.2

end Recovers
end BuildScript.Json
