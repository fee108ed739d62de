/-!
Lists without repeated keys, in which the first element of each key is kept.
-/

namespace DuckInfer

/-- The elements whose key was not seen before. -/
def distinctFrom {α : Type} (key : α → String) (seen : List String) : List α → List α
  | [] => []
  | x :: xs =>
    if seen.contains (key x) then distinctFrom key seen xs
    else x :: distinctFrom key (key x :: seen) xs

/-- The first element of each key. -/
def distinctOn {α : Type} (key : α → String) (xs : List α) : List α :=
  distinctFrom key [] xs

theorem mem_of_mem_distinctFrom {α : Type} {key : α → String} {x : α} {xs : List α} :
    ∀ {seen : List String}, x ∈ distinctFrom key seen xs → x ∈ xs ∧ key x ∉ seen := by
  induction xs with
  | nil => simp [distinctFrom]
  | cons y ys ih =>
    intro seen h
    unfold distinctFrom at h
    split at h
    · exact ⟨List.mem_cons_of_mem y (ih h).1, (ih h).2⟩
    · rcases List.mem_cons.mp h with rfl | h
      · exact ⟨List.mem_cons_self, by simp_all⟩
      · exact ⟨List.mem_cons_of_mem y (ih h).1, fun hs => (ih h).2 (List.mem_cons_of_mem _ hs)⟩

end DuckInfer
