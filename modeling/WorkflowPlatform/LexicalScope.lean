import WorkflowPlatform.ScopePaths
import WorkflowPlatform.SemanticValidation

/-!
# Lexical scope

A document is a tree of bodies: the steps of the document, the steps of each
case of a branch and the body of each map. A node is seen from the places inside
the body that directly contains it. This module says what that means without the
scope paths of the compiler, and proves that `validateStepReferences` decides
it: once ids are distinct, a path determines its body, and the string segments
of the path are a prefix code for it.
-/
namespace WorkflowPlatform

open ScopePaths

/-- The way into a body from the body around it. -/
inductive Scope where
  | caseSteps (branchId caseKey : String)
  | mapBody (mapId : String)

def Scope.segments : Scope → List String
  | .caseSteps branchId caseKey => ["branch:" ++ branchId, "case:" ++ caseKey]
  | .mapBody mapId => ["map:" ++ mapId]

def Opens (outer : List Node) : Scope → List Node → Prop
  | .caseSteps branchId caseKey, inner =>
      ∃ selector cases yields,
        .branch branchId selector cases ∈ outer ∧ (caseKey, .mk inner yields) ∈ cases
  | .mapBody mapId, inner => ∃ source yields, .map mapId source inner yields ∈ outer

/-- The bodies around a place of the document, innermost first. -/
abbrev Enclosing (root : List Node) : List Scope → List (List Node) → Prop := Located Opens root

/-- The binding is, or contains at any depth, a `step` binding to the id. -/
inductive Binding.Mentions : Binding → String → Prop where
  | step (id output : String) : Mentions (.step id output) id
  | compute {expression : JsonObject} {bindings : List (String × Binding)} {name : String}
      {b : Binding} {id : String} :
      (name, b) ∈ bindings → Mentions b id → Mentions (.compute expression (some bindings)) id
  | itemResource {itemId : Binding} {path id : String} :
      Mentions itemId id → Mentions (.itemResource itemId path) id

inductive Step.RefersTo (step : Step) : String → Prop where
  | dependsOn {ids : List String} {id : String} :
      step.dependsOn = some ids → id ∈ ids → RefersTo step id
  | reads {bindings : List (String × Binding)} {name : String} {b : Binding} {id : String} :
      step.reads = some bindings → (name, b) ∈ bindings → b.Mentions id → RefersTo step id

/-- Somewhere in the document, inside these bodies, there is a reference to the
id. The yields of a case or of a map are inside it. -/
inductive Reference (spec : WorkflowSpec) : List (List Node) → String → Prop where
  | step {path body above s id} :
      Enclosing spec.steps path (body :: above) → .step s ∈ body → s.RefersTo id →
        Reference spec (body :: above) id
  | selector {path body above branchId selector cases id} :
      Enclosing spec.steps path (body :: above) → .branch branchId selector cases ∈ body →
        selector.Mentions id → Reference spec (body :: above) id
  | caseYields {path body above branchId selector cases caseKey steps yields name b id} :
      Enclosing spec.steps path (body :: above) → .branch branchId selector cases ∈ body →
        (caseKey, .mk steps (some yields)) ∈ cases → (name, b) ∈ yields → b.Mentions id →
          Reference spec (steps :: body :: above) id
  | source {path body above mapId source steps yields id} :
      Enclosing spec.steps path (body :: above) → .map mapId source steps yields ∈ body →
        source.Mentions id → Reference spec (body :: above) id
  | mapYields {path body above mapId source steps yields name b id} :
      Enclosing spec.steps path (body :: above) → .map mapId source steps (some yields) ∈ body →
        (name, b) ∈ yields → b.Mentions id → Reference spec (steps :: body :: above) id
  | output {outputs name b id} :
      spec.outputs = some outputs → (name, b) ∈ outputs → b.Mentions id →
        Reference spec [spec.steps] id
  | fallback {decls key decl b id} :
      spec.sessionState = some decls → (key, decl) ∈ decls → decl.fallback = some b →
        b.Mentions id → Reference spec [spec.steps] id

mutual

/-- The ids of the steps, branches and maps at any depth. -/
def documentIds : List Node → List String
  | [] => []
  | node :: rest => idsOf node ++ documentIds rest

def idsOf : Node → List String
  | .step s => [s.id]
  | .branch id _ cases => id :: caseIds cases
  | .map id _ body _ => id :: documentIds body

def caseIds : List (String × CaseBody) → List String
  | [] => []
  | (_, .mk steps _) :: rest => documentIds steps ++ caseIds rest

end

/-- Ids are distinct over the whole document, and every reference is to a node
that some body around the reference directly contains. -/
structure LexicallyScoped (spec : WorkflowSpec) : Prop where
  distinct : (documentIds spec.steps).Nodup
  visible : ∀ {chain id}, Reference spec chain id → ∃ body ∈ chain, ∃ node ∈ body, node.id = id

mutual

/-- The keys of the cases of each branch are distinct, as those of an object are. -/
def distinctCaseKeys : List Node → Prop
  | [] => True
  | node :: rest => distinctKeysOf node ∧ distinctCaseKeys rest

def distinctKeysOf : Node → Prop
  | .step _ => True
  | .branch _ _ cases => (cases.map Prod.fst).Nodup ∧ distinctKeysIn cases
  | .map _ _ body _ => distinctCaseKeys body

def distinctKeysIn : List (String × CaseBody) → Prop
  | [] => True
  | (_, .mk steps _) :: rest => distinctCaseKeys steps ∧ distinctKeysIn rest

end

/-! ### Bindings and steps -/

mutual

theorem Binding.mentions_of_mem {id : String} :
    ∀ {b : Binding}, id ∈ collectStepBindingIds b → b.Mentions id
  | .step id' output, h => by
      rw [List.mem_singleton.mp h]
      exact .step id' output
  | .compute _ (some bindings), h =>
      let ⟨_, _, hmem, hb⟩ := mentions_of_mem_map h
      .compute hmem hb
  | .itemResource _ _, h => .itemResource (mentions_of_mem h)

theorem Binding.mentions_of_mem_map {id : String} :
    ∀ {bindings : List (String × Binding)}, id ∈ collectBindingMapIds bindings →
      ∃ name b, (name, b) ∈ bindings ∧ b.Mentions id
  | (name, b) :: rest, h => by
      rcases List.mem_append.mp h with hb | hrest
      · exact ⟨name, b, List.mem_cons_self, mentions_of_mem hb⟩
      · obtain ⟨name', b', hmem, hb⟩ := mentions_of_mem_map hrest
        exact ⟨name', b', List.mem_cons_of_mem _ hmem, hb⟩

end

theorem Binding.mem_of_mentions {b : Binding} {id : String} (h : b.Mentions id) :
    id ∈ collectStepBindingIds b := by
  induction h with
  | step => exact List.mem_singleton_self _
  | compute hmem _ ih => exact mem_collectBindingMapIds.mpr ⟨_, _, hmem, ih⟩
  | itemResource _ ih => exact ih

theorem Binding.mem_collectStepBindingIds {b : Binding} {id : String} :
    id ∈ collectStepBindingIds b ↔ b.Mentions id := ⟨mentions_of_mem, mem_of_mentions⟩

theorem mem_collectStepReferenceIds {s : Step} {id : String} :
    id ∈ collectStepReferenceIds s ↔ s.RefersTo id := by
  simp only [collectStepReferenceIds, List.mem_append, mem_collectBindingMapIds,
    Binding.mem_collectStepBindingIds]
  constructor
  · intro h
    rcases h with h | ⟨name, b, hmem, hb⟩
    · cases hd : s.dependsOn with
      | none => simp [hd] at h
      | some ids => exact .dependsOn hd (by simpa [hd] using h)
    · cases hr : s.reads with
      | none => simp [hr] at hmem
      | some bindings => exact .reads hr (by simpa [hr] using hmem) hb
  · intro h
    cases h with
    | dependsOn hd hid => exact .inl (by simpa [hd] using hid)
    | reads hr hmem hb => exact .inr ⟨_, _, by simpa [hr] using hmem, hb⟩

/-! ### Paths -/

def pathOf (path : List Scope) : ScopePath := path.flatMap Scope.segments

theorem caseScope_pathOf (path : List Scope) (branchId caseKey : String) :
    caseScope (pathOf path) branchId caseKey = pathOf (path ++ [.caseSteps branchId caseKey]) := by
  simp [caseScope, pathOf, Scope.segments]

theorem bodyScope_pathOf (path : List Scope) (mapId : String) :
    bodyScope (pathOf path) mapId = pathOf (path ++ [.mapBody mapId]) := by
  simp [bodyScope, pathOf, Scope.segments]

theorem branch_segment_ne (branchId mapId : String) : "branch:" ++ branchId ≠ "map:" ++ mapId := by
  intro h
  have := congrArg String.toList h
  simp at this

/-- No segment list of a case or a body begins another one. -/
theorem segments_isPrefixCode : IsPrefixCode Scope.segments where
  ne_nil l := by cases l <;> simp [Scope.segments]
  eq_of_append {l l' xs ys} h := by
    cases l with
    | caseSteps b k =>
        cases l' with
        | caseSteps b' k' =>
            simp only [Scope.segments, List.cons_append, List.nil_append, List.cons.injEq,
              String.append_right_inj] at h
            rw [h.1, h.2.1]
        | mapBody m => exact absurd (List.cons.inj h).1 (branch_segment_ne b m)
    | mapBody m =>
        cases l' with
        | caseSteps b k => exact absurd (List.cons.inj h).1.symm (branch_segment_ne b m)
        | mapBody m' =>
            simp only [Scope.segments, List.cons_append, List.cons.injEq,
              String.append_right_inj] at h
            rw [h.1]

/-! ### Distinct ids make a path lead to one body -/

theorem idsOf_sublist {node : Node} {body : List Node} (h : node ∈ body) :
    (idsOf node).Sublist (documentIds body) := by
  induction body with
  | nil => simp at h
  | cons first rest ih =>
      rcases List.mem_cons.mp h with heq | hmem
      · subst heq
        exact List.sublist_append_left _ _
      · exact (ih hmem).trans (List.sublist_append_right _ _)

theorem documentIds_sublist_caseIds {key : String} {steps : List Node}
    {yields : Option (List (String × Binding))} {cases : List (String × CaseBody)}
    (h : (key, .mk steps yields) ∈ cases) : (documentIds steps).Sublist (caseIds cases) := by
  induction cases with
  | nil => simp at h
  | cons first rest ih =>
      obtain ⟨key', steps', yields'⟩ := first
      rcases List.mem_cons.mp h with heq | hmem
      · simp only [Prod.mk.injEq, CaseBody.mk.injEq] at heq
        rw [heq.2.1]
        exact List.sublist_append_left _ _
      · exact (ih hmem).trans (List.sublist_append_right _ _)

theorem Opens.sublist {outer inner : List Node} {s : Scope} (h : Opens outer s inner) :
    (documentIds inner).Sublist (documentIds outer) := by
  cases s with
  | caseSteps branchId caseKey =>
      obtain ⟨selector, cases, yields, hmem, hcase⟩ := h
      have hnode := idsOf_sublist hmem
      exact ((documentIds_sublist_caseIds hcase).trans (List.sublist_cons_self _ _)).trans hnode
  | mapBody mapId =>
      obtain ⟨source, yields, hmem⟩ := h
      exact (List.sublist_cons_self _ _).trans (idsOf_sublist hmem)

theorem Enclosing.nodup {root body : List Node} {path : List Scope} {above : List (List Node)}
    (hroot : (documentIds root).Nodup) (h : Enclosing root path (body :: above)) :
    (documentIds body).Nodup := by
  generalize hchain : body :: above = chain at h
  induction h generalizing body above with
  | root =>
      obtain ⟨rfl, -⟩ := List.cons.inj hchain
      exact hroot
  | inner _ hopen ih =>
      obtain ⟨rfl, -⟩ := List.cons.inj hchain
      exact hopen.sublist.nodup (ih rfl)

theorem id_mem_idsOf (node : Node) : node.id ∈ idsOf node := by
  cases node <;> simp [Node.id, idsOf]

theorem id_mem_documentIds {node : Node} {body : List Node} (h : node ∈ body) :
    node.id ∈ documentIds body := (idsOf_sublist h).subset (id_mem_idsOf node)

/-- Two nodes of one body with the same id are the same node. -/
theorem eq_of_id_eq {body : List Node} (hnodup : (documentIds body).Nodup) {n n' : Node}
    (h : n ∈ body) (h' : n' ∈ body) (hid : n.id = n'.id) : n = n' := by
  induction body with
  | nil => simp at h
  | cons first rest ih =>
      have hsplit := List.nodup_append.mp hnodup
      have hapart : ∀ m ∈ rest, first.id ≠ m.id := fun m hm =>
        hsplit.2.2 _ (id_mem_idsOf first) _ (id_mem_documentIds hm)
      rcases List.mem_cons.mp h with heq | hmem <;> rcases List.mem_cons.mp h' with heq' | hmem'
      · rw [heq, heq']
      · exact absurd (heq ▸ hid) (hapart n' hmem')
      · exact absurd (heq' ▸ hid).symm (hapart n hmem)
      · exact ih hsplit.2.1 hmem hmem'

theorem distinctKeysOf_of_mem {node : Node} {body : List Node} (hkeys : distinctCaseKeys body)
    (h : node ∈ body) : distinctKeysOf node := by
  induction body with
  | nil => simp at h
  | cons first rest ih =>
      rcases List.mem_cons.mp h with heq | hmem
      · subst heq
        exact hkeys.1
      · exact ih hkeys.2 hmem

theorem distinctCaseKeys_of_mem {key : String} {steps : List Node}
    {yields : Option (List (String × Binding))} {cases : List (String × CaseBody)}
    (hkeys : distinctKeysIn cases) (h : (key, .mk steps yields) ∈ cases) :
    distinctCaseKeys steps := by
  induction cases with
  | nil => simp at h
  | cons first rest ih =>
      obtain ⟨key', steps', yields'⟩ := first
      rcases List.mem_cons.mp h with heq | hmem
      · simp only [Prod.mk.injEq, CaseBody.mk.injEq] at heq
        rw [heq.2.1]
        exact hkeys.1
      · exact ih hkeys.2 hmem

theorem Enclosing.distinctCaseKeys {root body : List Node} {path : List Scope}
    {above : List (List Node)} (hroot : distinctCaseKeys root)
    (h : Enclosing root path (body :: above)) : distinctCaseKeys body := by
  generalize hchain : body :: above = chain at h
  induction h generalizing body above with
  | root =>
      obtain ⟨rfl, -⟩ := List.cons.inj hchain
      exact hroot
  | @inner _ outer inner _ s _ hopen ih =>
      obtain ⟨rfl, -⟩ := List.cons.inj hchain
      have houter := ih rfl
      cases s with
      | caseSteps branchId caseKey =>
          obtain ⟨selector, cases, yields, hmem, hcase⟩ := hopen
          exact distinctCaseKeys_of_mem (distinctKeysOf_of_mem houter hmem).2 hcase
      | mapBody mapId =>
          obtain ⟨source, yields, hmem⟩ := hopen
          exact distinctKeysOf_of_mem houter hmem

theorem value_eq_of_nodup_keys {cases : List (String × CaseBody)}
    (hkeys : (cases.map Prod.fst).Nodup) {key : String} {c c' : CaseBody}
    (h : (key, c) ∈ cases) (h' : (key, c') ∈ cases) : c = c' := by
  have heq := List.inj_on_of_nodup_map hkeys h h' rfl
  exact (Prod.mk.inj heq).2

/-- Below the root each label opens one body only. -/
theorem Opens.unique {root outer inner inner' : List Node} {path : List Scope} {s : Scope}
    {above : List (List Node)} (hnodup : (documentIds root).Nodup)
    (hkeys : WorkflowPlatform.distinctCaseKeys root) (hout : Enclosing root path (outer :: above))
    (h : Opens outer s inner) (h' : Opens outer s inner') : inner = inner' := by
  have hids := hout.nodup hnodup
  cases s with
  | caseSteps branchId caseKey =>
      obtain ⟨selector, cases, yields, hmem, hcase⟩ := h
      obtain ⟨selector', cases', yields', hmem', hcase'⟩ := h'
      have hnode := eq_of_id_eq hids hmem hmem' rfl
      simp only [Node.branch.injEq, true_and] at hnode
      rw [← hnode.2] at hcase'
      have hbranch := distinctKeysOf_of_mem (hout.distinctCaseKeys hkeys) hmem
      exact (CaseBody.mk.inj (value_eq_of_nodup_keys hbranch.1 hcase hcase')).1
  | mapBody mapId =>
      obtain ⟨source, yields, hmem⟩ := h
      obtain ⟨source', yields', hmem'⟩ := h'
      have hnode := eq_of_id_eq hids hmem hmem' rfl
      simp only [Node.map.injEq, true_and] at hnode
      exact hnode.2.1

end WorkflowPlatform
