import Mathlib.Data.List.Range
import Mathlib.Logic.Function.Basic
import Mathlib.Tactic

/-!
# Ring buffers

A list that is stored in `n` cells, from the cell `tail` on and from the cell 0 on after
the last one.  The lemmas say what writes to the cells do to the list.
-/

namespace OsCourse.Ring

variable {α : Type} {cell : Nat → α} {n tail avail i j : Nat} {x : α}

/-- The cell of the element `i`. -/
def slot (n tail i : Nat) : Nat := if tail + i ≥ n then tail + i - n else tail + i

/-- The list. -/
def contents (cell : Nat → α) (n tail avail : Nat) : List α :=
  (List.range avail).map fun i => cell (slot n tail i)

theorem slot_zero (ht : tail < n) : slot n tail 0 = tail := by
  rw [slot, if_neg (by omega), Nat.add_zero]

theorem slot_lt (ht : tail < n) (hi : i ≤ n) : slot n tail i < n := by
  rw [slot]
  split <;> omega

theorem slot_injective (hi : i < n) (hj : j < n) (h : slot n tail i = slot n tail j) : i = j := by
  rw [slot, slot] at h
  split at h <;> split at h <;> omega

theorem slot_next (ht : tail < n) (hi : i + 1 ≤ n) :
    slot n (slot n tail 1) i = slot n tail (i + 1) := by
  rw [slot, slot, slot]
  split <;> split <;> split <;> omega

@[simp] theorem length_contents : (contents cell n tail avail).length = avail := by
  simp [contents]

theorem getElem?_contents (hi : i < avail) :
    (contents cell n tail avail)[i]? = some (cell (slot n tail i)) := by
  simp [contents, hi]

theorem contents_zero : contents cell n tail 0 = [] := rfl

theorem contents_push (ha : avail < n) :
    contents (Function.update cell (slot n tail avail) x) n tail (avail + 1) =
      contents cell n tail avail ++ [x] := by
  rw [contents, List.range_succ, List.map_append, List.map_singleton, Function.update_self,
    contents]
  congr 1
  apply List.map_congr_left
  intro i hi
  have hi := List.mem_range.mp hi
  refine Function.update_of_ne (fun h => ?_) _ _
  have := slot_injective (hi.trans ha) ha h
  omega

theorem contents_pop (ht : tail < n) (ha : avail + 1 ≤ n) :
    contents cell n tail (avail + 1) = cell tail :: contents cell n (slot n tail 1) avail := by
  rw [contents, List.range_succ_eq_map, List.map_cons, slot_zero ht, List.map_map, contents]
  congr 1
  apply List.map_congr_left
  intro i hi
  have hi := List.mem_range.mp hi
  exact congrArg cell (slot_next ht (by omega)).symm

theorem contents_update (hi : i < avail) (ha : avail ≤ n) :
    contents (Function.update cell (slot n tail i) x) n tail avail =
      (contents cell n tail avail).set i x := by
  apply List.ext_getElem?
  intro j
  by_cases hj : j < avail
  · rw [getElem?_contents hj, List.getElem?_set, length_contents, getElem?_contents hj]
    by_cases hij : i = j
    · subst hij
      rw [Function.update_self, if_pos rfl, if_pos hi]
    · rw [if_neg hij]
      refine congrArg some (Function.update_of_ne (fun h => hij ?_) _ _)
      exact (slot_injective (by omega) (by omega) h).symm
  · rw [List.getElem?_eq_none (by simpa using hj), List.getElem?_eq_none (by simpa using hj)]

end OsCourse.Ring
