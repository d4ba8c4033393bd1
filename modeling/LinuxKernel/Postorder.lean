import Mathlib.Data.List.Basic

/-!
# Postorders

A list of vertices in the order a depth-first search leaves them, the last one first: every edge
from a vertex leads to one further on in the list. The rank of a vertex falls along every edge.
-/

namespace LinuxKernel

variable {α : Type*} {edge : α → α → Prop}

inductive Postorder (edge : α → α → Prop) : List α → Prop
  | nil : Postorder edge []
  | cons {b : α} {l : List α} : (∀ t, edge b t → t ∈ l) → Postorder edge l → Postorder edge (b :: l)

variable [DecidableEq α]

/-- The number of vertices behind a vertex. -/
def rank : List α → α → ℕ
  | [], _ => 0
  | _ :: l, x => if x ∈ l then rank l x else l.length

lemma rank_lt {x : α} : ∀ {l : List α}, x ∈ l → rank l x < l.length
  | b :: l, h => by
    rw [rank, List.length_cons]
    split_ifs with hl
    · have := rank_lt hl
      omega
    · omega

lemma Postorder.edge_lt {x t : α} {l : List α} (h : Postorder edge l) (hx : x ∈ l)
    (he : edge x t) :
    t ∈ l ∧ rank l t < rank l x := by
  induction h with
  | nil => cases hx
  | @cons b l hb _ ih =>
    by_cases hxl : x ∈ l
    · obtain ⟨h1, h2⟩ := ih hxl
      refine ⟨List.mem_cons_of_mem _ h1, ?_⟩
      rwa [rank, rank, if_pos h1, if_pos hxl]
    obtain rfl : x = b := (List.mem_cons.1 hx).resolve_right hxl
    have ht := hb t he
    refine ⟨List.mem_cons_of_mem _ ht, ?_⟩
    rw [rank, rank, if_pos ht, if_neg hxl]
    exact rank_lt ht

end LinuxKernel
