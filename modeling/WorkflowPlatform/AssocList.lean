import Mathlib.Data.List.Nodup

/-!
# Lists of keys and values

`lookup` finds the first entry of a key. Where keys are distinct it does not
depend on the order of the entries.
-/
namespace AssocList

variable {K V : Type*} [DecidableEq K] {l l' : List (K × V)}

theorem lookup_cons_ite (key k : K) (v : V) (rest : List (K × V)) :
    ((k, v) :: rest).lookup key = if key = k then some v else rest.lookup key := by
  by_cases hk : key = k
  · simp [hk]
  · have hne : (key == k) = false := by simp [hk]
    simp [List.lookup_cons, hne, hk]

theorem lookup_eq_none {key : K} (h : key ∉ l.map Prod.fst) : l.lookup key = none := by
  rw [List.lookup_eq_none_iff]
  intro p hmem
  simpa using fun heq => h (List.mem_map.mpr ⟨p, hmem, heq.symm⟩)

theorem lookup_isSome_iff {key : K} : (l.lookup key).isSome ↔ key ∈ l.map Prod.fst := by
  induction l with
  | nil => simp
  | cons p rest ih =>
      obtain ⟨k, w⟩ := p
      rw [lookup_cons_ite, List.map_cons, List.mem_cons]
      by_cases hk : key = k
      · simp [hk]
      · simp [hk, ih]

theorem lookup_eq_some_iff_mem (hnodup : (l.map Prod.fst).Nodup) {key : K} {v : V} :
    l.lookup key = some v ↔ (key, v) ∈ l := by
  induction l with
  | nil => simp
  | cons p rest ih =>
      obtain ⟨k, w⟩ := p
      obtain ⟨hfresh, hrest⟩ := List.nodup_cons.mp hnodup
      rw [lookup_cons_ite, List.mem_cons]
      by_cases hk : key = k
      · subst hk
        have habs : (key, v) ∉ rest := fun hmem =>
          hfresh (List.mem_map.mpr ⟨(key, v), hmem, rfl⟩)
        simp [habs, eq_comm]
      · simp [hk, ih hrest]

theorem lookup_eq_of_perm (h : l.Perm l') (hnodup : (l.map Prod.fst).Nodup) (key : K) :
    l.lookup key = l'.lookup key := by
  have hnodup' : (l'.map Prod.fst).Nodup := (h.map Prod.fst).nodup_iff.mp hnodup
  ext v
  rw [lookup_eq_some_iff_mem hnodup, lookup_eq_some_iff_mem hnodup', h.mem_iff]

end AssocList
