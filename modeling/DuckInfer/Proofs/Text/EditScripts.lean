import DuckInfer.Text.EditDistance
import Mathlib.Order.Bounds.Basic
import Mathlib.Order.MinMax

/-!
The distance between two texts against the edits that lead from one to the other. Beside the rows
stands the recursion on the first characters of both texts, and beside that an edit anywhere in a
text. Main statement: the distance is the least number of edits.
-/

namespace DuckInfer.Text

/-! ### Edits -/

/-- One edit: a character is put in, taken out or replaced by another one. -/
inductive Edit : List Char → List Char → Prop where
  | insert (front : List Char) (c : Char) (back : List Char) :
      Edit (front ++ back) (front ++ c :: back)
  | delete (front : List Char) (c : Char) (back : List Char) :
      Edit (front ++ c :: back) (front ++ back)
  | replace (front : List Char) (c d : Char) (back : List Char) :
      Edit (front ++ c :: back) (front ++ d :: back)

/-- So many edits, one after the other, lead from a text to another. -/
inductive Edits : Nat → List Char → List Char → Prop where
  | none (s : List Char) : Edits 0 s s
  | step {n : Nat} {s t u : List Char} : Edit s t → Edits n t u → Edits (n + 1) s u

namespace Edit

variable {s t : List Char}

theorem cons (c : Char) (edit : Edit s t) : Edit (c :: s) (c :: t) := by
  cases edit with
  | insert front d back => exact .insert (c :: front) d back
  | delete front d back => exact .delete (c :: front) d back
  | replace front d e back => exact .replace (c :: front) d e back

theorem reverse (edit : Edit s t) : Edit s.reverse t.reverse := by
  cases edit with
  | insert front c back =>
    simpa using Edit.insert back.reverse c front.reverse
  | delete front c back =>
    simpa using Edit.delete back.reverse c front.reverse
  | replace front c d back =>
    simpa using Edit.replace back.reverse c d front.reverse

end Edit

namespace Edits

variable {n : Nat} {s t u : List Char}

theorem cons (c : Char) (edits : Edits n s t) : Edits n (c :: s) (c :: t) := by
  induction edits with
  | none s => exact .none (c :: s)
  | step edit _ ih => exact .step (edit.cons c) ih

theorem reverse (edits : Edits n s t) : Edits n s.reverse t.reverse := by
  induction edits with
  | none s => exact .none s.reverse
  | step edit _ ih => exact .step edit.reverse ih

theorem reverse_iff : Edits n s.reverse t.reverse ↔ Edits n s t := by
  refine ⟨fun edits => ?_, Edits.reverse⟩
  simpa using edits.reverse

/-- Every character of a text is put in. -/
theorem insertAll (t : List Char) : Edits t.length [] t := by
  induction t with
  | nil => exact .none []
  | cons c t ih => exact .step (.insert [] c []) (ih.cons c)

/-- Every character of a text is taken out. -/
theorem deleteAll (s : List Char) : Edits s.length s [] := by
  induction s with
  | nil => exact .none []
  | cons c s ih => exact .step (.delete [] c s) ih

end Edits

/-! ### The recursion on first characters -/

/-- The distance of two texts by their first characters: equal ones are passed over, and of
different ones the first is replaced or taken out, or the second is put in. -/
def distance : List Char → List Char → Nat
  | [], t => t.length
  | c :: s, [] => (c :: s).length
  | c :: s, d :: t =>
    if c = d then distance s t
    else 1 + min (min (distance s t) (distance s (d :: t))) (distance (c :: s) t)
termination_by s t => s.length + t.length

@[simp]
theorem distance_nil_left (t : List Char) : distance [] t = t.length := by
  rw [distance]

@[simp]
theorem distance_nil_right (s : List Char) : distance s [] = s.length := by
  cases s with
  | nil => rw [distance]
  | cons c s => rw [distance]

theorem distance_cons_self (c : Char) (s t : List Char) :
    distance (c :: s) (c :: t) = distance s t := by
  rw [distance, if_pos rfl]

theorem distance_cons_of_ne {c d : Char} (apart : c ≠ d) (s t : List Char) :
    distance (c :: s) (d :: t) =
      1 + min (min (distance s t) (distance s (d :: t))) (distance (c :: s) t) := by
  rw [distance, if_neg apart]

theorem distance_self (s : List Char) : distance s s = 0 := by
  induction s with
  | nil => exact distance_nil_left []
  | cons c s ih => rw [distance_cons_self, ih]

theorem distance_comm (s t : List Char) : distance s t = distance t s := by
  fun_induction distance s t with
  | case1 t => rw [distance_nil_right]
  | case2 c s => rw [distance_nil_left]
  | case3 s d t ih => rw [distance_cons_self, ih]
  | case4 c s d t apart replaced deleted inserted =>
    rw [distance_cons_of_ne (Ne.symm apart), replaced, deleted, inserted]
    omega

/-- One more character in front of the first text changes the distance by at most one. -/
theorem distance_cons_left (c : Char) (s t : List Char) :
    distance (c :: s) t ≤ distance s t + 1 ∧ distance s t ≤ distance (c :: s) t + 1 := by
  cases t with
  | nil => simp only [distance_nil_right, List.length_cons]; omega
  | cons d t =>
    have left := distance_cons_left c s t
    have right := distance_cons_left d t s
    rw [distance_comm (d :: t) s, distance_comm t s] at right
    by_cases same : c = d
    · subst same
      rw [distance_cons_self]
      exact ⟨right.2, right.1⟩
    · rw [distance_cons_of_ne same]
      omega
termination_by s.length + t.length

/-- Another first character changes the distance by at most one. -/
theorem distance_replace (c d : Char) (s u : List Char) :
    distance (c :: s) u ≤ distance (d :: s) u + 1 := by
  induction u with
  | nil => simp
  | cons e u ih =>
    have removed := (distance_cons_left e u s).2
    rw [distance_comm (e :: u) s, distance_comm u s] at removed
    have below := (distance_cons_left d s u).2
    by_cases same : c = e
    · subst same
      by_cases same' : d = c
      · subst same'
        omega
      · rw [distance_cons_self, distance_cons_of_ne same']
        omega
    · by_cases same' : d = e
      · subst same'
        rw [distance_cons_self, distance_cons_of_ne same]
        omega
      · rw [distance_cons_of_ne same, distance_cons_of_ne same']
        omega

/-- A common first character keeps texts as close to every other text as they are. -/
theorem distance_cons_mono {s t : List Char} (close : ∀ u, distance s u ≤ distance t u + 1)
    (c : Char) (u : List Char) : distance (c :: s) u ≤ distance (c :: t) u + 1 := by
  induction u with
  | nil => simpa using close []
  | cons d u ih =>
    by_cases same : c = d
    · subst same
      rw [distance_cons_self, distance_cons_self]
      exact close u
    · have replaced := close u
      have deleted := close (d :: u)
      rw [distance_cons_of_ne same, distance_cons_of_ne same]
      omega

/-! ### Edits against the recursion -/

/-- An edit changes the distance to every other text by at most one. -/
theorem Edit.distance_le {s t : List Char} (edit : Edit s t) (u : List Char) :
    distance s u ≤ distance t u + 1 := by
  cases edit with
  | insert front c back =>
    induction front generalizing u with
    | nil => exact (distance_cons_left c back u).2
    | cons d front ih => exact distance_cons_mono ih d u
  | delete front c back =>
    induction front generalizing u with
    | nil => exact (distance_cons_left c back u).1
    | cons d front ih => exact distance_cons_mono ih d u
  | replace front c d back =>
    induction front generalizing u with
    | nil => exact distance_replace c d back u
    | cons e front ih => exact distance_cons_mono ih e u

/-- Fewer edits than the distance do not lead to the other text. -/
theorem Edits.distance_le {n : Nat} {s t : List Char} (edits : Edits n s t) : distance s t ≤ n := by
  induction edits with
  | none s => rw [distance_self]
  | step edit _ ih => exact Nat.le_trans (edit.distance_le _) (Nat.succ_le_succ ih)

/-- As many edits as the distance lead to the other text. -/
theorem edits_distance (s t : List Char) : Edits (distance s t) s t := by
  fun_induction distance s t with
  | case1 t => exact .insertAll t
  | case2 c s => exact .deleteAll (c :: s)
  | case3 s d t ih => exact ih.cons d
  | case4 c s d t _ replaced deleted inserted =>
    rw [Nat.add_comm]
    -- one of the three ways has the least distance
    rcases min_choice (min (distance s t) (distance s (d :: t))) (distance (c :: s) t) with
      least | least
    · rw [least]
      rcases min_choice (distance s t) (distance s (d :: t)) with least | least
      · rw [least]
        exact .step (.replace [] c d s) (replaced.cons d)
      · rw [least]
        exact .step (.delete [] c s) deleted
    · rw [least]
      exact .step (.insert [] d (c :: s)) (inserted.cons d)

theorem isLeast_distance (s t : List Char) : IsLeast {n | Edits n s t} (distance s t) :=
  ⟨edits_distance s t, fun _ edits => edits.distance_le⟩

/-- Reading both texts from behind does not change their distance. -/
theorem distance_reverse (s t : List Char) : distance s.reverse t.reverse = distance s t := by
  have least : IsLeast {n | Edits n s.reverse t.reverse} (distance s t) := by
    simpa only [Edits.reverse_iff] using isLeast_distance s t
  exact (isLeast_distance _ _).unique least

theorem Edits.trans {n k : Nat} {s t u : List Char} (first : Edits n s t) (second : Edits k t u) :
    Edits (n + k) s u := by
  induction first with
  | none s => rwa [Nat.zero_add]
  | step edit _ ih =>
    rw [Nat.succ_add]
    exact .step edit (ih second)

theorem distance_triangle (s t u : List Char) : distance s u ≤ distance s t + distance t u :=
  ((edits_distance s t).trans (edits_distance t u)).distance_le

theorem distance_eq_zero {s t : List Char} : distance s t = 0 ↔ s = t := by
  constructor
  · intro none
    have edits := edits_distance s t
    rw [none] at edits
    cases edits
    rfl
  · rintro rfl
    exact distance_self s

/-- Characters are replaced one by one, and what is left of the longer text goes. -/
theorem distance_le_max (s t : List Char) : distance s t ≤ max s.length t.length := by
  fun_induction distance s t with
  | case1 t => exact le_max_right _ _
  | case2 c s => exact le_max_left _ _
  | case3 s d t ih => simp only [List.length_cons]; omega
  | case4 c s d t _ replaced _ _ => simp only [List.length_cons]; omega

/-! ### The rows -/

/-- Distances from a text to each beginning of another one, both read from behind: `front` is the
beginning read so far, and the list the characters to come. -/
def distancesFrom (s front : List Char) : List Char → List Nat
  | [] => [distance s front]
  | b :: bs => distance s front :: distancesFrom s (b :: front) bs

theorem distancesFrom_eq_cons (s front bs : List Char) :
    distancesFrom s front bs = distance s front :: (distancesFrom s front bs).tail := by
  cases bs <;> rfl

theorem getLast?_distancesFrom (s front bs : List Char) :
    (distancesFrom s front bs).getLast? = some (distance s (bs.reverse ++ front)) := by
  induction bs generalizing front with
  | nil => rfl
  | cons b bs ih =>
    rw [distancesFrom, distancesFrom_eq_cons, List.getLast?_cons_cons, ← distancesFrom_eq_cons, ih,
      List.reverse_cons, List.append_assoc]
    rfl

/-- Before any character is read, the distances are the lengths. -/
theorem distancesFrom_nil (front bs : List Char) :
    distancesFrom [] front bs = List.range' front.length (bs.length + 1) := by
  induction bs generalizing front with
  | nil => simp [distancesFrom]
  | cons b bs ih =>
    rw [distancesFrom, ih, distance_nil_left, List.length_cons, List.length_cons,
      ← List.range'_succ]

/-- The entries of the row above are replaced from left to right, each with the one above it, the
one before that, and the one that was replaced last. -/
theorem rowFrom_distances (c : Char) (s front bs : List Char) :
    rowFrom c (distance (c :: s) front) (distance s front) bs (distancesFrom s front bs).tail =
      (distancesFrom (c :: s) front bs).tail := by
  induction bs generalizing front with
  | nil => rfl
  | cons b bs ih =>
    have entry : (if c = b then distance s front else
        1 + min (min (distance s front) (distance s (b :: front))) (distance (c :: s) front)) =
          distance (c :: s) (b :: front) := by
      rw [distance]
    rw [distancesFrom, distancesFrom, List.tail_cons, List.tail_cons, distancesFrom_eq_cons s,
      distancesFrom_eq_cons (c :: s), rowFrom, entry, ih]

theorem nextRow_distances (c : Char) (s bs : List Char) :
    nextRow bs (distancesFrom s [] bs) c = distancesFrom (c :: s) [] bs := by
  rw [distancesFrom_eq_cons s, distancesFrom_eq_cons (c :: s), ← rowFrom_distances, nextRow]
  simp

theorem foldl_nextRow (s bs : List Char) (read : List Char) :
    s.foldl (nextRow bs) (distancesFrom read [] bs) = distancesFrom (s.reverse ++ read) [] bs := by
  induction s generalizing read with
  | nil => rfl
  | cons c s ih =>
    rw [List.foldl_cons, nextRow_distances, ih, List.reverse_cons, List.append_assoc]
    rfl

/-- The last entry of the last row is the distance by first characters. -/
theorem editDistance_eq (s t : List Char) : editDistance s t = distance s t := by
  have start : List.range (t.length + 1) = distancesFrom [] [] t := by
    rw [distancesFrom_nil, List.range_eq_range']
    rfl
  rw [editDistance, start, foldl_nextRow, getLast?_distancesFrom, List.append_nil, List.append_nil,
    Option.getD_some, distance_reverse]

end DuckInfer.Text

namespace DuckInfer

open Text

/-- The distance of two words is given by the recursion on their first characters, and it is the
least number of characters to put in, take out or replace, one after the other, on the way from one
to the other. So it is a metric, and no greater than the length of the longer word. -/
theorem isLeast_editDistance (a b c : String) :
    editDistance a b = distance a.toList b.toList ∧
      IsLeast {n | Edits n a.toList b.toList} (editDistance a b) ∧
      editDistance a b = editDistance b a ∧
      (editDistance a b = 0 ↔ a = b) ∧
      editDistance a b ≤ max a.length b.length ∧
      editDistance a c ≤ editDistance a b + editDistance b c := by
  have eq : ∀ x y : String, editDistance x y = distance x.toList y.toList :=
    fun x y => editDistance_eq x.toList y.toList
  simp only [eq]
  refine ⟨trivial, isLeast_distance _ _, distance_comm _ _, ?_, ?_, distance_triangle _ _ _⟩
  · rw [distance_eq_zero, String.toList_inj]
  · exact distance_le_max a.toList b.toList

end DuckInfer
