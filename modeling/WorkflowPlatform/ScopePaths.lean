import Mathlib.Data.List.Infix

/-!
# Nested scopes and the paths to them

A body may open further bodies, each under a label. A body inside a root has the
path of the labels from the root to it, and the chain of the bodies around it,
itself first. When a label opens at most one body, a path determines its chain,
and one path is a prefix of another exactly when the body of the first is one of
those around the second.

Paths are often written down as lists of segments, several to a label. When the
segments of the labels form a prefix code, prefixes of such lists say the same
as prefixes of the paths.
-/
namespace ScopePaths

section Code

variable {L S : Type*} {segments : L → List S}

/-- No label is written as nothing, and none as the beginning of another. -/
structure IsPrefixCode (segments : L → List S) : Prop where
  ne_nil : ∀ l, segments l ≠ []
  eq_of_append : ∀ {l l' xs ys}, segments l ++ xs = segments l' ++ ys → l = l'

theorem IsPrefixCode.flatMap_prefix_iff (h : IsPrefixCode segments) {p q : List L} :
    p.flatMap segments <+: q.flatMap segments ↔ p <+: q := by
  induction p generalizing q with
  | nil => simp
  | cons l p ih =>
      cases q with
      | nil =>
          have := h.ne_nil l
          simp [this]
      | cons l' q =>
          rw [List.flatMap_cons, List.flatMap_cons, List.cons_prefix_cons]
          constructor
          · intro hpre
            obtain ⟨rest, hrest⟩ := hpre
            rw [List.append_assoc] at hrest
            have hl := h.eq_of_append hrest
            subst hl
            exact ⟨rfl, ih.mp ⟨rest, List.append_cancel_left hrest⟩⟩
          · intro ⟨hl, hpre⟩
            subst hl
            exact (List.prefix_append_right_inj _).mpr (ih.mpr hpre)

end Code

variable {B L : Type*} {Opens : B → L → B → Prop} {root : B}

/-- The body at the head of the chain is found from the root along the path, and
the rest of the chain are the bodies around it. -/
inductive Located (Opens : B → L → B → Prop) (root : B) : List L → List B → Prop where
  | root : Located Opens root [] [root]
  | inner {path : List L} {outer inner : B} {above : List B} {label : L} :
      Located Opens root path (outer :: above) → Opens outer label inner →
        Located Opens root (path ++ [label]) (inner :: outer :: above)

namespace Located

variable {p q : List L} {chain chain' : List B}

/-- Where a label opens at most one body, a path leads to one chain only. -/
theorem unique
    (hdet : ∀ {path outer above label inner inner'}, Located Opens root path (outer :: above) →
      Opens outer label inner → Opens outer label inner' → inner = inner')
    (h : Located Opens root p chain) (h' : Located Opens root p chain') : chain = chain' := by
  induction h generalizing chain' with
  | root =>
      generalize hp : ([] : List L) = p' at h'
      cases h' with
      | root => rfl
      | inner _ _ => exact absurd hp.symm (by simp)
  | @inner path outer inner above label hout hopen ih =>
      generalize hp : path ++ [label] = p' at h'
      cases h' with
      | root => exact absurd hp (by simp)
      | @inner path' outer' inner' above' label' hout' hopen' =>
          obtain ⟨hpath, hlabel⟩ := List.append_inj' hp rfl
          subst hpath
          obtain ⟨rfl, rfl⟩ := List.cons.inj (ih hout')
          rw [List.singleton_inj.mp hlabel] at hopen
          rw [hdet hout hopen hopen']

/-- Along the way to a body one passes the bodies around it. -/
theorem of_prefix (h : Located Opens root p chain) (hq : q <+: p) :
    ∃ chain', Located Opens root q chain' ∧ chain' <:+ chain := by
  induction h with
  | root =>
      rw [List.prefix_nil.mp hq]
      exact ⟨_, .root, List.suffix_refl _⟩
  | inner hout hopen ih =>
      rcases List.prefix_concat_iff.mp hq with heq | hpre
      · subst heq
        exact ⟨_, hout.inner hopen, List.suffix_refl _⟩
      · obtain ⟨chain', hloc, hsuf⟩ := ih hpre
        exact ⟨chain', hloc, hsuf.trans (List.suffix_cons _ _)⟩

theorem of_mem (h : Located Opens root p chain) {b : B} (hb : b ∈ chain) :
    ∃ q above, q <+: p ∧ Located Opens root q (b :: above) := by
  induction h with
  | root =>
      rw [List.mem_singleton.mp hb]
      exact ⟨[], [], List.prefix_refl _, .root⟩
  | inner hout hopen ih =>
      rcases List.mem_cons.mp hb with heq | hmem
      · subst heq
        exact ⟨_, _, List.prefix_refl _, hout.inner hopen⟩
      · obtain ⟨q, above, hpre, hloc⟩ := ih hmem
        exact ⟨q, above, hpre.trans (List.prefix_append _ _), hloc⟩

/-- What holds of a body that is reached along a prefix of the path holds of a
body of the chain, and the other way round. -/
theorem exists_prefix_iff
    (hdet : ∀ {path outer above label inner inner'}, Located Opens root path (outer :: above) →
      Opens outer label inner → Opens outer label inner' → inner = inner')
    (h : Located Opens root p chain) {P : B → Prop} :
    (∃ q b above, Located Opens root q (b :: above) ∧ q <+: p ∧ P b) ↔ ∃ b ∈ chain, P b := by
  constructor
  · intro ⟨q, b, above, hloc, hpre, hP⟩
    obtain ⟨chain', hloc', hsuf⟩ := h.of_prefix hpre
    rw [hloc'.unique hdet hloc] at hsuf
    exact ⟨b, hsuf.subset List.mem_cons_self, hP⟩
  · intro ⟨b, hb, hP⟩
    obtain ⟨q, above, hpre, hloc⟩ := h.of_mem hb
    exact ⟨q, b, above, hloc, hpre, hP⟩

end Located

end ScopePaths
