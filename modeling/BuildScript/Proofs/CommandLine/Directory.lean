import BuildScript.Directory
import Mathlib

/-!
Writing into a directory. A path leads where the names of the files say, and writing keeps those: it
changes what the one file holds that the path leads to, and nothing else.
-/
namespace BuildScript.Directory
variable {d : Directory} {path name : String} {content : List UInt8}

def refilled (d : Directory) (content : String × List UInt8 → List UInt8) : Directory :=
  ⟨d.files.map fun f => (f.1, content f)⟩

theorem enter_refilled (content : String × List UInt8 → List UInt8) (folder : List String)
    (step : String) : (d.refilled content).enter folder step = d.enter folder step := by
  unfold enter refilled
  dsimp only
  rw [List.find?_map, List.any_map]
  simp only [Function.comp_def]
  cases d.files.find? fun f => f.1.splitOn "/" == folder ++ [step] <;> rfl

theorem follow_refilled (content : String × List UInt8 → List UInt8) (place : Place)
    (steps : List String) : (d.refilled content).follow place steps = d.follow place steps := by
  induction steps generalizing place with
  | nil => cases place <;> rfl
  | cons step steps ih =>
    cases place with
    | file name => rfl
    | folder inside =>
      simp only [follow, enter_refilled, ih]

theorem resolve_refilled (content : String × List UInt8 → List UInt8) (path : String) :
    (d.refilled content).resolve path = d.resolve path := by
  unfold resolve
  simp only [follow_refilled]

theorem enter_cases {folder : List String} {step : String} {place : Place}
    (h : d.enter folder step = .ok place) :
    (∃ inside, place = .folder inside) ∨ ∃ f ∈ d.files, place = .file f.1 := by
  unfold enter at h
  dsimp only at h
  cases hfound : d.files.find? fun f => f.1.splitOn "/" == folder ++ [step] with
  | some f =>
    rw [hfound] at h
    cases h
    exact .inr ⟨f, List.mem_of_find?_eq_some hfound, rfl⟩
  | none =>
    rw [hfound] at h
    dsimp only at h
    split at h
    · cases h
      exact .inl ⟨_, rfl⟩
    · cases h

theorem mem_of_follow {inside : Option (List String)} {steps : List String}
    (h : d.follow (.folder inside) steps = .ok (.file name)) : name ∈ d.files.map Prod.fst := by
  induction steps generalizing inside with
  | nil => cases h
  | cons step steps ih =>
    unfold follow at h
    split at h
    · exact ih h
    split at h
    · exact ih h
    split at h
    · cases h
    cases inside with
    | none => cases h
    | some folder =>
      dsimp only at h
      cases hplace : d.enter folder step with
      | error cause =>
        rw [hplace] at h
        cases h
      | ok place =>
        rw [hplace] at h
        rcases enter_cases hplace with ⟨inside, rfl⟩ | ⟨f, hf, rfl⟩
        · exact ih h
        · -- Behind a file nothing may follow, so this is the file.
          cases steps with
          | nil =>
            cases h
            exact List.mem_map_of_mem hf
          | cons _ _ => cases h

theorem mem_of_resolve (h : d.resolve path = .ok name) : name ∈ d.files.map Prod.fst := by
  unfold resolve at h
  dsimp only at h
  split at h
  · cases h
  split at h
  · cases h
  split at h
  · cases h
  split at h
  · cases h
  · cases h
  next hfollow =>
    cases h
    exact mem_of_follow hfollow

theorem write_eq (h : d.resolve path = .ok name) : d.write path content =
    d.refilled fun f => if f.1 = name then content else f.2 := by
  unfold write
  rw [h]
  refine congrArg Directory.mk (List.map_congr_left fun f _ => ?_)
  by_cases hf : f.1 = name
  · simp [hf]
  · simp [hf]

theorem read_write (h : d.resolve path = .ok name) (content : List UInt8) :
    (d.write path content).read path = .ok content := by
  have hlookup : ∀ files : List (String × List UInt8), name ∈ files.map Prod.fst →
      (files.map fun f => (f.1, if f.1 = name then content else f.2)).lookup name =
        some content := by
    intro files hmem
    induction files with
    | nil => cases hmem
    | cons f files ih =>
      rw [List.map_cons, List.lookup_cons]
      by_cases hf : f.1 = name
      · simp [hf]
      · rw [List.map_cons, List.mem_cons] at hmem
        rw [beq_eq_false_iff_ne.2 (Ne.symm hf)]
        exact ih (hmem.resolve_left (Ne.symm hf))
  rw [write_eq h, read, resolve_refilled, h]
  exact congrArg (fun found => Except.ok (found.getD [])) (hlookup d.files (mem_of_resolve h))

theorem mem_write {f : String × List UInt8} (hf : d.resolve path ≠ .ok f.1) :
    f ∈ (d.write path content).files ↔ f ∈ d.files := by
  cases h : d.resolve path with
  | error cause =>
    unfold write
    rw [h]
  | ok name =>
    have hne : f.1 ≠ name := fun heq => hf (heq ▸ h)
    rw [write_eq h, refilled, List.mem_map]
    constructor
    · rintro ⟨g, hg, rfl⟩
      rw [if_neg hne]
      exact hg
    · intro hmem
      exact ⟨f, hmem, by rw [if_neg hne]⟩

end BuildScript.Directory
