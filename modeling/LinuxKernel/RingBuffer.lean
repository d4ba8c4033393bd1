import Mathlib.Data.List.Range
import Mathlib.Data.Nat.ModEq
import Mathlib.Logic.Function.Basic

/-!
# Ring buffers

A buffer of `size` cells is read from a place `start` on and around its end: the `i`-th cell seen
from there is at `(start + i) % size`. A copy around the end is made in two parts. Seen from its
start it changes the cells of the copied list and no others.
-/

namespace RingBuffer

variable {α : Type*}

/-- The list `src` written from `off` on. -/
def memcpy (buffer : ℕ → α) (off : ℕ) (src : List α) : ℕ → α :=
  fun i => if i < off then buffer i else (src[i - off]?).getD (buffer i)

def memread (buffer : ℕ → α) (off n : ℕ) : List α :=
  (List.range n).map fun i => buffer (off + i)

/-- The cells seen from `start`. -/
def view (buffer : ℕ → α) (size start : ℕ) : ℕ → α :=
  fun i => buffer ((start + i) % size)

section

variable {buffer : ℕ → α}

@[simp] lemma length_memread (off n : ℕ) : (memread buffer off n).length = n := by simp [memread]

lemma memread_add (off n m : ℕ) :
    memread buffer off (n + m) = memread buffer off n ++ memread buffer (off + n) m := by
  simp [memread, List.range_add, Function.comp_def, add_assoc]

variable {m n off : ℕ}

lemma memread_congr {buffer' : ℕ → α} {off' : ℕ}
    (h : ∀ i < n, buffer (off + i) = buffer' (off' + i)) :
    memread buffer off n = memread buffer' off' n :=
  List.map_congr_left fun i hi => h i (List.mem_range.mp hi)

lemma memread_eq {src : List α}
    (h : ∀ i, (hi : i < src.length) → buffer (off + i) = src[i]) :
    memread buffer off src.length = src := by
  refine List.ext_getElem (by simp) fun i hi hi' => ?_
  simpa [memread] using h i hi'

lemma take_memread (h : n ≤ m) :
    (memread buffer off m).take n = memread buffer off n := by
  obtain ⟨k, rfl⟩ := Nat.exists_eq_add_of_le h
  rw [memread_add, List.take_left' (length_memread off n)]

lemma drop_memread (h : n ≤ m) :
    (memread buffer off m).drop n = memread buffer (off + n) (m - n) := by
  obtain ⟨k, rfl⟩ := Nat.exists_eq_add_of_le h
  rw [memread_add, List.drop_left' (length_memread off n), Nat.add_sub_cancel_left]

end

section

variable {buffer : ℕ → α} {size start : ℕ}

lemma view_add (off i : ℕ) : view buffer size (start + off) i = view buffer size start (off + i) := by
  rw [view, view, add_assoc]

lemma view_mod (i : ℕ) : view buffer size (start % size) i = view buffer size start i := by
  rw [view, view, Nat.mod_add_mod]

lemma view_add_size (i : ℕ) : view buffer size start (i + size) = view buffer size start i := by
  rw [view, view, ← add_assoc, Nat.add_mod_right]

lemma memread_wrap {n : ℕ} (hstart : start < size) (hn : n ≤ size) :
    memread buffer start (min n (size - start)) ++ memread buffer 0 (n - min n (size - start))
      = memread (view buffer size start) 0 n := by
  rw [← Nat.add_sub_cancel' (Nat.min_le_left n (size - start)), memread_add, zero_add,
    Nat.add_sub_cancel' (Nat.min_le_left n (size - start))]
  congr 1
  · refine memread_congr fun i hi => ?_
    rw [view, zero_add, Nat.mod_eq_of_lt (by omega)]
  · refine memread_congr fun i hi => ?_
    rw [view, zero_add, show start + (min n (size - start) + i) = i + size by omega,
      Nat.add_mod_right, Nat.mod_eq_of_lt (by omega)]

variable {src : List α} {i : ℕ}

lemma view_memcpy_wrap (hstart : start < size) (hlen : src.length ≤ size)
    (hi : i < size) :
    view (memcpy (memcpy buffer start (src.take (min src.length (size - start)))) 0
      (src.drop (min src.length (size - start)))) size start i
      = (src[i]?).getD (view buffer size start i) := by
  simp only [view, memcpy, Nat.not_lt_zero, if_false, Nat.sub_zero, List.getElem?_drop]
  by_cases hend : start + i < size
  · rw [Nat.mod_eq_of_lt hend, if_neg (by omega), Nat.add_sub_cancel_left,
      List.getElem?_eq_none (by omega), Option.getD_none, List.getElem?_take]
    split
    · rfl
    · rw [List.getElem?_eq_none (show src.length ≤ i by omega)]
  · rw [show start + i = start + i - size + size by omega, Nat.add_mod_right,
      Nat.mod_eq_of_lt (show start + i - size < size by omega), if_pos (by omega)]
    by_cases hshort : src.length ≤ size - start
    · rw [List.getElem?_eq_none (by omega), List.getElem?_eq_none (by omega)]
    · rw [show min src.length (size - start) + (start + i - size) = i by omega]

lemma view_update {x : α} (hi : i < size) :
    view (Function.update buffer (start % size) x) size start i
      = ([x][i]?).getD (view buffer size start i) := by
  rw [view, view]
  rcases Nat.eq_zero_or_pos i with rfl | hpos
  · rw [add_zero, Function.update_self]
    rfl
  have hne : (start + i) % size ≠ start % size := by
    intro h
    have hdvd := (Nat.modEq_iff_dvd' (Nat.le_add_right start i)).mp h.symm
    rw [Nat.add_sub_cancel_left] at hdvd
    exact absurd (Nat.le_of_dvd hpos hdvd) (by omega)
  rw [Function.update_of_ne hne, List.getElem?_eq_none (show [x].length ≤ i from hpos)]
  rfl

/-- A write in two parts, seen from `off` cells before its start: when it does not come around to
the place of the view, the cells before it stay. -/
lemma view_write {buffer' : ℕ → α} {off : ℕ}
    (hw : ∀ j < size, view buffer' size (start + off) j
      = (src[j]?).getD (view buffer size (start + off) j))
    (hfit : off + src.length ≤ size) (hi : i < size) :
    view buffer' size start i = if i < off then view buffer size start i
        else (src[i - off]?).getD (view buffer size start i) := by
  by_cases h : i < off
  · have hj := hw (i + size - off) (by omega)
    rw [view_add, view_add, show off + (i + size - off) = i + size by omega, view_add_size,
      view_add_size, List.getElem?_eq_none (by omega)] at hj
    rw [if_pos h, hj]
    rfl
  · have hj := hw (i - off) (by omega)
    rw [view_add, view_add, show off + (i - off) = i by omega] at hj
    rw [if_neg h, hj]

end

end RingBuffer
