-- The total weight of the values in a finite map, and how it changes with
-- the map.
import Mathlib.Data.List.AList
import Mathlib.Algebra.BigOperators.Group.List.Basic

namespace Weigh

variable {K V M : Type} [AddCommGroup M] (w : V → M)

/-- The weight of a list of bindings. -/
def list (l : List (Sigma fun _ : K => V)) : M := (l.map fun x => w x.2).sum

/-- The weight of a map. -/
def total (es : AList fun _ : K => V) : M := list w es.entries

theorem list_cons (x : Sigma fun _ : K => V) (l : List (Sigma fun _ : K => V)) :
    list w (x :: l) = w x.2 + list w l := List.sum_cons

theorem list_append (l l' : List (Sigma fun _ : K => V)) :
    list w (l ++ l') = list w l + list w l' := by
  simp [list]

variable [DecidableEq K]

/-- The weight of the value under a key, if there is one. -/
def under (es : AList fun _ : K => V) (k : K) : M := (es.lookup k).elim 0 w

theorem under_of_lookup {es : AList fun _ : K => V} {k : K} {v : V} (h : es.lookup k = some v) :
    under w es k = w v := by
  rw [under, h]
  rfl

theorem under_of_none {es : AList fun _ : K => V} {k : K} (h : es.lookup k = none) :
    under w es k = 0 := by
  rw [under, h]
  rfl

theorem list_kerase (l : List (Sigma fun _ : K => V)) (k : K) :
    list w (l.kerase k) + (l.dlookup k).elim 0 w = list w l := by
  induction l with
  | nil => simp
  | cons x l ih =>
    obtain ⟨j, v⟩ := x
    by_cases hj : k = j
    · subst hj
      rw [show (⟨k, v⟩ :: l : List (Sigma fun _ : K => V)).kerase k = l from
          List.kerase_cons_eq rfl,
        List.dlookup_cons_eq, list_cons, Option.elim_some]
      exact add_comm _ _
    · rw [List.kerase_cons_ne hj, List.dlookup_cons_ne l ⟨j, v⟩ hj, list_cons, list_cons, ← ih]
      exact add_assoc _ _ _

theorem total_erase (es : AList fun _ : K => V) (k : K) :
    total w (es.erase k) = total w es - under w es k :=
  eq_sub_of_add_eq (list_kerase w es.entries k)

theorem total_insert (es : AList fun _ : K => V) (k : K) (v : V) :
    total w (es.insert k v) = total w es - under w es k + w v := by
  rw [← total_erase, total, AList.entries_insert, list_cons]
  exact add_comm _ _

end Weigh
