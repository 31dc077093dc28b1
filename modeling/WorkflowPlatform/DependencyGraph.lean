import Mathlib.Data.Fintype.Card
import Mathlib.Data.List.Perm.Basic
import Mathlib.Data.Set.Finite.Basic
import Mathlib.Logic.Relation
import Mathlib.Order.WellFounded

/-!
# Finite dependency graphs

A graph is a list of nodes and, for each, the nodes it depends on. A
dependency may name something that is not a node at all. The two facts used
elsewhere are that a nonempty set of nodes each waiting for another of the set
contains a cycle, and that a closed acyclic graph has a topological order, which
`topologicalOrder` computes; along such an order a function of each node and
its dependencies' values is evaluated by one pass.
-/
namespace WorkflowPlatform

structure DependencyGraph (ι : Type) where
  nodes : List ι
  deps : ι → List ι

namespace DependencyGraph
variable {ι V : Type} (g : DependencyGraph ι)

/-- Both are nodes and the second depends on the first. -/
def Edge (a b : ι) : Prop := a ∈ g.nodes ∧ b ∈ g.nodes ∧ a ∈ g.deps b

def Acyclic : Prop := ∀ i, ¬ Relation.TransGen g.Edge i i

/-- Every dependency of a node is itself a node. -/
def Closed : Prop := ∀ i ∈ g.nodes, ∀ d ∈ g.deps i, d ∈ g.nodes

/-- If each member of a nonempty finite set has a predecessor in the set, the
set contains a cycle. -/
theorem exists_cycle {R : ι → ι → Prop} {B : List ι} {b : ι} (hb : b ∈ B)
    (h : ∀ i ∈ B, ∃ a ∈ B, R a i) :
    ∃ i ∈ B, Relation.TransGen (fun a b => a ∈ B ∧ b ∈ B ∧ R a b) i i := by
  by_contra hno
  let T : {x // x ∈ B} → {x // x ∈ B} → Prop := fun x y =>
    Relation.TransGen (fun a b => a ∈ B ∧ b ∈ B ∧ R a b) x.1 y.1
  have : IsTrans {x // x ∈ B} T := ⟨fun _ _ _ h₁ h₂ => h₁.trans h₂⟩
  have : Std.Irrefl T := ⟨fun x hx => hno ⟨x.1, x.2, hx⟩⟩
  have : Finite {x // x ∈ B} := (List.finite_toSet B).to_subtype
  have hwf : WellFounded T := Finite.wellFounded_of_trans_of_irrefl T
  obtain ⟨m, -, hmin⟩ := hwf.has_min Set.univ ⟨⟨b, hb⟩, trivial⟩
  obtain ⟨a, ha, hR⟩ := h m.1 m.2
  exact hmin ⟨a, ha⟩ trivial (.single ⟨ha, m.2, hR⟩)

/-- Each node comes after all of its dependencies, those in `placed` included. -/
def Ordered : List ι → List ι → Prop
  | _, [] => True
  | placed, i :: rest => (∀ d ∈ g.deps i, d ∈ placed) ∧ Ordered (i :: placed) rest

variable [DecidableEq ι]

/-- Place, as often as the fuel allows, the first remaining node whose
dependencies have all been placed. -/
def placeReady : ℕ → List ι → List ι → List ι
  | 0, _, _ => []
  | fuel + 1, placed, remaining =>
      match remaining.find? fun i => (g.deps i).all (· ∈ placed) with
      | none => []
      | some i => i :: placeReady fuel (i :: placed) (remaining.erase i)

def topologicalOrder : List ι := g.placeReady g.nodes.length [] g.nodes

/-- While nodes remain, an acyclic graph has one that is ready. -/
theorem Acyclic.exists_ready (hg : g.Acyclic) {placed remaining : List ι}
    (hsub : ∀ i ∈ remaining, i ∈ g.nodes)
    (hdeps : ∀ i ∈ remaining, ∀ d ∈ g.deps i, d ∈ placed ∨ d ∈ remaining) (hne : remaining ≠ []) :
    ∃ i, remaining.find? (fun i => (g.deps i).all (· ∈ placed)) = some i := by
  rw [← Option.isSome_iff_exists, List.find?_isSome]
  by_contra hno
  have hwait : ∀ i ∈ remaining, ∃ a ∈ remaining, a ∈ g.deps i := by
    intro i hi
    by_contra hnone
    refine hno ⟨i, hi, List.all_eq_true.mpr fun d hd => ?_⟩
    have hplaced : d ∈ placed := (hdeps i hi d hd).resolve_right fun hrem => hnone ⟨d, hrem, hd⟩
    exact decide_eq_true hplaced
  obtain ⟨b, hb⟩ := List.exists_mem_of_ne_nil _ hne
  obtain ⟨i, -, hcycle⟩ := exists_cycle hb hwait
  exact hg i (Relation.TransGen.mono (fun a b h => ⟨hsub a h.1, hsub b h.2.1, h.2.2⟩) _ _ hcycle)

theorem placeReady_spec (hg : g.Acyclic) (fuel : ℕ) (placed remaining : List ι)
    (hfuel : remaining.length ≤ fuel) (hsub : ∀ i ∈ remaining, i ∈ g.nodes)
    (hdeps : ∀ i ∈ remaining, ∀ d ∈ g.deps i, d ∈ placed ∨ d ∈ remaining) :
    (g.placeReady fuel placed remaining).Perm remaining ∧
      g.Ordered placed (g.placeReady fuel placed remaining) := by
  induction fuel generalizing placed remaining with
  | zero =>
      obtain rfl : remaining = [] := List.eq_nil_of_length_eq_zero (by omega)
      exact ⟨.refl _, trivial⟩
  | succ fuel ih =>
      by_cases hne : remaining = []
      · subst hne
        exact ⟨.refl _, trivial⟩
      obtain ⟨i, hi⟩ := hg.exists_ready g hsub hdeps hne
      have hmem : i ∈ remaining := List.mem_of_find?_eq_some hi
      have hready : ∀ d ∈ g.deps i, d ∈ placed := by
        simpa using List.find?_some hi
      have hlen : (remaining.erase i).length ≤ fuel := by
        rw [List.length_erase_of_mem hmem]
        omega
      have hrest := ih (i :: placed) (remaining.erase i) hlen
        (fun j hj => hsub j (List.mem_of_mem_erase hj)) (by
          intro j hj d hd
          rcases hdeps j (List.mem_of_mem_erase hj) d hd with hp | hr
          · exact .inl (List.mem_cons_of_mem _ hp)
          · by_cases hdi : d = i
            · exact .inl (hdi ▸ List.mem_cons_self)
            · exact .inr ((List.mem_erase_of_ne hdi).mpr hr))
      simp only [placeReady, hi]
      exact ⟨(hrest.1.cons i).trans (List.perm_cons_erase hmem).symm, hready, hrest.2⟩

theorem topologicalOrder_spec (hg : g.Acyclic) (hc : g.Closed) :
    g.topologicalOrder.Perm g.nodes ∧ g.Ordered [] g.topologicalOrder :=
  g.placeReady_spec hg _ _ _ le_rfl (fun _ h => h) fun i hi d hd => .inr (hc i hi d hd)

/-- One pass along an order: each node's value from the values so far. -/
def evaluate (f : ι → (ι → Option V) → V) : List ι → (ι → Option V) → ι → Option V
  | [], env => env
  | i :: rest, env => evaluate f rest (Function.update env i (some (f i env)))

theorem evaluate_of_notMem (f : ι → (ι → Option V) → V) {order : List ι} (env : ι → Option V)
    {i : ι} (hi : i ∉ order) : evaluate f order env i = env i := by
  induction order generalizing env with
  | nil => rfl
  | cons j rest ih =>
      rw [List.mem_cons, not_or] at hi
      rw [evaluate, ih _ hi.2, Function.update_of_ne hi.1]

/-- A function that only looks at the dependencies' values is, along a
topological order, evaluated at the final values: the order does not matter. -/
theorem evaluate_eq {f : ι → (ι → Option V) → V}
    (hf : ∀ i e e', (∀ d ∈ g.deps i, e d = e' d) → f i e = f i e')
    {placed order : List ι} (horder : g.Ordered placed order) (hnodup : order.Nodup)
    (hdisjoint : ∀ i ∈ placed, i ∉ order) (env : ι → Option V) {i : ι} (hi : i ∈ order) :
    evaluate f order env i = some (f i (evaluate f order env)) := by
  induction order generalizing placed env with
  | nil => cases hi
  | cons j rest ih =>
      obtain ⟨hj, hrest⟩ := horder
      obtain ⟨hnot, hnodup⟩ := List.nodup_cons.mp hnodup
      rcases List.mem_cons.mp hi with rfl | hi
      · have hval : evaluate f (i :: rest) env i = some (f i env) := by
          rw [evaluate, evaluate_of_notMem f _ hnot, Function.update_self]
        rw [hval]
        refine congrArg some (hf i _ _ fun d hd => ?_)
        exact (evaluate_of_notMem f env (hdisjoint d (hj d hd))).symm
      · refine ih hrest hnodup ?_ _ hi
        intro k hk
        rcases List.mem_cons.mp hk with rfl | hk
        · exact hnot
        · exact fun hmem => hdisjoint k hk (List.mem_cons_of_mem _ hmem)

end DependencyGraph
end WorkflowPlatform
