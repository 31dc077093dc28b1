import Mathlib.Algebra.BigOperators.Group.List.Basic
import Mathlib.Tactic.Ring

/-!
# The shortest prefix whose removal fits

Items with a weight are removed from the front of a list until what remains of a
total fits. Nothing is asked of the weights or of what fits, except that removing
everything does. A loop that counts in another way removes the same items exactly
if its count fits where the total does.
-/
namespace WorkflowPlatform.ShortestPrefix

variable {α : Type} {weight : α → ℤ} {fits : ℤ → Prop}

/-- Of the prefixes of a list whose removal makes the total fit, the first. -/
structure Shortest (weight : α → ℤ) (fits : ℤ → Prop) (items : List α) (total : ℤ)
    (front : List α) : Prop where
  isPrefix : front <+: items
  within : fits (total - (front.map weight).sum)
  least : ∀ other, other <+: items → fits (total - (other.map weight).sum) → front <+: other

theorem shortest_nil {items : List α} {total : ℤ} (h : fits total) :
    Shortest weight fits items total [] where
  isPrefix := List.nil_prefix
  within := by simpa using h
  least _ _ _ := List.nil_prefix

theorem Shortest.cons {a : α} {items front : List α} {total : ℤ} (h : ¬ fits total)
    (hrest : Shortest weight fits items (total - weight a) front) :
    Shortest weight fits (a :: items) total (a :: front) where
  isPrefix := (List.prefix_cons_inj a).mpr hrest.isPrefix
  within := by
    have hsum : total - ((a :: front).map weight).sum = total - weight a - (front.map weight).sum := by
      rw [List.map_cons, List.sum_cons]
      ring
    rw [hsum]
    exact hrest.within
  least other hother hfits := by
    cases other with
    | nil => exact absurd (by simpa using hfits) h
    | cons b other =>
        obtain ⟨rfl, htail⟩ := List.cons_prefix_cons.mp hother
        apply (List.prefix_cons_inj b).mpr
        apply hrest.least other htail
        have hsum : total - weight b - (other.map weight).sum =
            total - ((b :: other).map weight).sum := by
          rw [List.map_cons, List.sum_cons]
          ring
        rw [hsum]
        exact hfits

theorem Shortest.unique {items front front' : List α} {total : ℤ}
    (h : Shortest weight fits items total front) (h' : Shortest weight fits items total front') :
    front = front' := by
  apply (h.least front' h'.isPrefix h'.within).eq_of_length
  apply le_antisymm
  · exact (h.least front' h'.isPrefix h'.within).length_le
  · exact (h'.least front h.isPrefix h.within).length_le

/-- A prefix is the shortest in any list that begins with it. -/
theorem Shortest.of_prefix {items items' front : List α} {total : ℤ}
    (h : Shortest weight fits items total front) (hfront : front <+: items') :
    Shortest weight fits items' total front where
  isPrefix := hfront
  within := h.within
  least other hother hfits := by
    rcases List.prefix_or_prefix_of_prefix hfront hother with hle | hle
    · exact hle
    · exact h.least other (hle.trans h.isPrefix) hfits

section
variable (fits) [DecidablePred fits]

/-- Items are taken off the front until the count fits. -/
def takeUntil (next : ℤ → α → ℤ) : ℤ → List α → List α
  | _, [] => []
  | count, a :: rest => if fits count then [] else a :: takeUntil next (next count a) rest

/-- The count fits where the total does, for as long as items are taken off. -/
def Agree (next : ℤ → α → ℤ) (weight : α → ℤ) : ℤ → ℤ → List α → Prop
  | _, _, [] => True
  | count, total, a :: rest =>
      (fits count ↔ fits total) ∧
        (¬ fits total → Agree next weight (next count a) (total - weight a) rest)

variable {fits} {next : ℤ → α → ℤ} {items : List α} {count total : ℤ}

theorem isPrefix_takeUntil : takeUntil fits next count items <+: items := by
  induction items generalizing count with
  | nil => exact List.nil_prefix
  | cons a rest ih =>
      unfold takeUntil
      split_ifs
      · exact List.nil_prefix
      · exact (List.prefix_cons_inj a).mpr ih

theorem takeUntil_eq_nil : takeUntil fits next count items = [] ↔ fits count ∨ items = [] := by
  cases items with
  | nil => simp [takeUntil]
  | cons a rest => simp [takeUntil]

theorem shortest_takeUntil (h : fits (total - (items.map weight).sum)) :
    Shortest weight fits items total
      (takeUntil fits (fun total a => total - weight a) total items) := by
  induction items generalizing total with
  | nil => exact shortest_nil (by simpa using h)
  | cons a rest ih =>
      unfold takeUntil
      split_ifs with hfits
      · exact shortest_nil hfits
      · apply Shortest.cons hfits
        apply ih
        rw [List.map_cons, List.sum_cons] at h
        rw [sub_sub]
        exact h

/-- The same items are taken off exactly if the count agrees with the total. -/
theorem takeUntil_eq_iff :
    takeUntil fits next count items =
        takeUntil fits (fun total a => total - weight a) total items ↔
      Agree fits next weight count total items := by
  induction items generalizing count total with
  | nil => exact iff_of_true rfl trivial
  | cons a rest ih =>
      unfold takeUntil Agree
      by_cases hcount : fits count <;> by_cases htotal : fits total
      · simp [hcount, htotal]
      · simp [hcount, htotal]
      · simp [hcount, htotal]
      · simp [hcount, htotal, ih]

end
end WorkflowPlatform.ShortestPrefix
