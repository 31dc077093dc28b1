import Mathlib.Logic.Function.Basic
import Mathlib.Tactic.Common

/-!
# Tables with serial ids

Rows are found by their id; ids are handed out in order and never reused. The
last field says that the next id is free.
-/
namespace WorkflowPlatform

structure Table (α : Type) where
  rows : ℕ → Option α
  next : ℕ
  fresh : ∀ id, next ≤ id → rows id = none

namespace Table
variable {α : Type}

theorem ext {t u : Table α} (hr : ∀ id, t.rows id = u.rows id) (hn : t.next = u.next) : t = u := by
  cases t
  cases u
  obtain rfl := funext hr
  obtain rfl := hn
  rfl

def empty : Table α := ⟨fun _ => none, 1, fun _ _ => rfl⟩

/-- The ids of the rows present, in ascending order. -/
def ids (t : Table α) : List ℕ := (List.range t.next).filter fun id => (t.rows id).isSome

/-- Every row rewritten, possibly depending on its id. -/
def map (f : ℕ → α → α) (t : Table α) : Table α where
  rows := fun id => (t.rows id).map (f id)
  next := t.next
  fresh := fun id h => by rw [t.fresh id h]; rfl

def modify (id : ℕ) (f : α → α) (t : Table α) : Table α :=
  t.map fun i a => if i = id then f a else a

/-- A row with an id that has been handed out for it. -/
def insertAt (id : ℕ) (a : α) (t : Table α) : Table α where
  rows := Function.update t.rows id (some a)
  next := max t.next (id + 1)
  fresh := fun i h => by
    rw [Function.update_of_ne (by omega)]
    exact t.fresh i (by omega)

/-- A row deleted; its id is not handed out again. -/
def erase (id : ℕ) (t : Table α) : Table α where
  rows := Function.update t.rows id none
  next := t.next
  fresh := fun i h => by
    by_cases hi : i = id
    · rw [hi, Function.update_self]
    · rw [Function.update_of_ne hi]
      exact t.fresh i h

theorem lt_next {t : Table α} {id : ℕ} {a : α} (h : t.rows id = some a) : id < t.next := by
  by_contra hn
  rw [t.fresh id (by omega)] at h
  cases h

theorem mem_ids {t : Table α} {id : ℕ} : id ∈ t.ids ↔ ∃ a, t.rows id = some a := by
  simp only [ids, List.mem_filter, List.mem_range, Option.isSome_iff_exists, and_iff_right_iff_imp]
  rintro ⟨a, ha⟩
  exact lt_next ha

@[simp] theorem map_rows (f : ℕ → α → α) (t : Table α) (id : ℕ) :
    (t.map f).rows id = (t.rows id).map (f id) := rfl

@[simp] theorem map_next (f : ℕ → α → α) (t : Table α) : (t.map f).next = t.next := rfl

theorem map_map (f g : ℕ → α → α) (t : Table α) :
    (t.map f).map g = t.map fun id a => g id (f id a) :=
  ext (fun id => by simp [Function.comp_def]) rfl

theorem map_congr {f g : ℕ → α → α} {t : Table α}
    (h : ∀ id a, t.rows id = some a → f id a = g id a) : t.map f = t.map g := by
  refine ext (fun id => ?_) rfl
  cases hr : t.rows id with
  | none => simp [hr]
  | some a => simp [hr, h id a hr]

theorem map_eq_self {f : ℕ → α → α} {t : Table α}
    (h : ∀ id a, t.rows id = some a → f id a = a) : t.map f = t := by
  refine ext (fun id => ?_) rfl
  cases hr : t.rows id with
  | none => simp [hr]
  | some a => simp [hr, h id a hr]

@[simp] theorem modify_next (id : ℕ) (f : α → α) (t : Table α) : (t.modify id f).next = t.next := rfl

theorem modify_same (id : ℕ) (f : α → α) (t : Table α) :
    (t.modify id f).rows id = (t.rows id).map f := by
  simp [modify]

theorem modify_other {id i : ℕ} (f : α → α) (t : Table α) (h : i ≠ id) :
    (t.modify id f).rows i = t.rows i := by
  simp [modify, h]

theorem modify_of_none {id : ℕ} {f : α → α} {t : Table α} (h : t.rows id = none) :
    t.modify id f = t := by
  refine map_eq_self fun i a ha => if_neg ?_
  rintro rfl
  rw [h] at ha
  cases ha

@[simp] theorem insertAt_same (id : ℕ) (a : α) (t : Table α) :
    (t.insertAt id a).rows id = some a := Function.update_self ..

theorem erase_rows (id i : ℕ) (t : Table α) :
    (t.erase id).rows i = if i = id then none else t.rows i := Function.update_apply ..

theorem insertAt_other {id i : ℕ} (a : α) (t : Table α) (h : i ≠ id) :
    (t.insertAt id a).rows i = t.rows i := Function.update_of_ne h ..

end Table
end WorkflowPlatform
