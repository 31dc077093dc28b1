import WorkflowPlatform.LexicalScope

/-!
# Reference checking is sound and complete

The walk of a document calls back once in every body at every node of it, with
the path of the body. So the ids it records are the ids of the document, the
references it records are the references of the document, and the scope it
records for an id is visible from a reference exactly when the body of the node
is one of those around the reference.
-/
namespace WorkflowPlatform

open ScopePaths

/-- A place of the document where the walk calls back. -/
inductive Situated (root : List Node) : Visit → Prop where
  | step {path body above s} :
      Enclosing root path (body :: above) → .step s ∈ body → Situated root (.step s (pathOf path))
  | branch {path body above branchId selector cases} :
      Enclosing root path (body :: above) → .branch branchId selector cases ∈ body →
        Situated root (.branch branchId selector (pathOf path))
  | caseWalked {path body above branchId selector cases caseKey caseBody} :
      Enclosing root path (body :: above) → .branch branchId selector cases ∈ body →
        (caseKey, caseBody) ∈ cases →
          Situated root (.caseWalked branchId caseKey caseBody
            (pathOf (path ++ [.caseSteps branchId caseKey])))
  | map {path body above mapId source steps yields} :
      Enclosing root path (body :: above) → .map mapId source steps yields ∈ body →
        Situated root (.map mapId source (pathOf path))
  | bodyWalked {path body above mapId source steps yields} :
      Enclosing root path (body :: above) → .map mapId source steps yields ∈ body →
        Situated root (.bodyWalked mapId yields (pathOf (path ++ [.mapBody mapId])))

mutual

theorem visits_situated {root : List Node} :
    ∀ (nodes : List Node) {path : List Scope} {body : List Node} {above : List (List Node)},
      Enclosing root path (body :: above) → nodes ⊆ body →
        ∀ v ∈ visits nodes (pathOf path), Situated root v
  | [], _, _, _, _, _, _, hv => by simp [visits] at hv
  | node :: rest, _, _, _, henc, hsub, v, hv => by
      rw [visits, List.mem_append] at hv
      rcases hv with hnode | hrest
      · exact visitsOf_situated node henc (hsub List.mem_cons_self) v hnode
      · exact visits_situated rest henc (List.subset_of_cons_subset hsub) v hrest

theorem visitsOf_situated {root : List Node} :
    ∀ (node : Node) {path : List Scope} {body : List Node} {above : List (List Node)},
      Enclosing root path (body :: above) → node ∈ body →
        ∀ v ∈ visitsOf node (pathOf path), Situated root v
  | .step s, _, _, _, henc, hmem, v, hv => by
      rw [visitsOf, List.mem_singleton] at hv
      rw [hv]
      exact .step henc hmem
  | .branch id selector cases, _, _, _, henc, hmem, v, hv => by
      rw [visitsOf, List.mem_cons] at hv
      rcases hv with heq | hcase
      · rw [heq]
        exact .branch henc hmem
      · exact caseVisits_situated cases henc hmem (List.Subset.refl _) v hcase
  | .map id source steps yields, _, _, _, henc, hmem, v, hv => by
      rw [visitsOf, List.mem_cons, List.mem_append, List.mem_singleton, bodyScope_pathOf] at hv
      have hin : Opens _ (.mapBody id) steps := ⟨source, yields, hmem⟩
      rcases hv with heq | hbody | heq
      · rw [heq]
        exact .map henc hmem
      · exact visits_situated steps (henc.inner hin) (List.Subset.refl _) v hbody
      · rw [heq]
        exact .bodyWalked henc hmem

theorem caseVisits_situated {root : List Node} {id : String} {selector : Binding}
    {all : List (String × CaseBody)} :
    ∀ (cases : List (String × CaseBody)) {path : List Scope} {body : List Node}
      {above : List (List Node)},
      Enclosing root path (body :: above) → .branch id selector all ∈ body → cases ⊆ all →
        ∀ v ∈ caseVisits id cases (pathOf path), Situated root v
  | [], _, _, _, _, _, _, _, hv => by simp [caseVisits] at hv
  | (key, .mk steps yields) :: rest, _, _, _, henc, hmem, hsub, v, hv => by
      rw [caseVisits, List.mem_append, List.mem_cons, caseScope_pathOf] at hv
      have hcase := hsub List.mem_cons_self
      have hin : Opens _ (.caseSteps id key) steps := ⟨selector, all, yields, hmem, hcase⟩
      rcases hv with hbody | heq | hrest
      · exact visits_situated steps (henc.inner hin) (List.Subset.refl _) v hbody
      · rw [heq]
        exact .caseWalked henc hmem hcase
      · exact caseVisits_situated rest henc hmem (List.subset_of_cons_subset hsub) v hrest

end

theorem visitsOf_subset {node : Node} {body : List Node} (scope : ScopePath) (h : node ∈ body) :
    visitsOf node scope ⊆ visits body scope := by
  induction body with
  | nil => simp at h
  | cons first rest ih =>
      rcases List.mem_cons.mp h with heq | hmem
      · subst heq
        exact List.subset_append_left _ _
      · exact List.Subset.trans (ih hmem) (List.subset_append_right _ _)

theorem mem_caseVisits {branchId key : String} {steps : List Node}
    {yields : Option (List (String × Binding))} {cases : List (String × CaseBody)}
    (scope : ScopePath) (h : (key, .mk steps yields) ∈ cases) :
    visits steps (caseScope scope branchId key) ⊆ caseVisits branchId cases scope ∧
      .caseWalked branchId key (.mk steps yields) (caseScope scope branchId key) ∈
        caseVisits branchId cases scope := by
  induction cases with
  | nil => simp at h
  | cons first rest ih =>
      obtain ⟨key', steps', yields'⟩ := first
      rcases List.mem_cons.mp h with heq | hmem
      · simp only [Prod.mk.injEq, CaseBody.mk.injEq] at heq
        rw [heq.1, heq.2.1, heq.2.2]
        refine ⟨List.subset_append_left _ _, List.mem_append_right _ List.mem_cons_self⟩
      · obtain ⟨hsteps, hwalked⟩ := ih hmem
        refine ⟨fun v hv => ?_, ?_⟩
        · exact List.mem_append_right _ (List.mem_cons_of_mem _ (hsteps hv))
        · exact List.mem_append_right _ (List.mem_cons_of_mem _ hwalked)

/-- The walk comes through every body. -/
theorem visits_subset {root body : List Node} {path : List Scope} {above : List (List Node)}
    (h : Enclosing root path (body :: above)) :
    visits body (pathOf path) ⊆ visits root [] := by
  generalize hchain : body :: above = chain at h
  induction h generalizing body above with
  | root =>
      obtain ⟨rfl, -⟩ := List.cons.inj hchain
      exact List.Subset.refl _
  | @inner path outer inner _ s _ hopen ih =>
      obtain ⟨rfl, -⟩ := List.cons.inj hchain
      refine List.Subset.trans ?_ (ih rfl)
      cases s with
      | caseSteps branchId caseKey =>
          obtain ⟨selector, cases, yields, hmem, hcase⟩ := hopen
          rw [← caseScope_pathOf]
          refine List.Subset.trans ?_ (visitsOf_subset _ hmem)
          exact fun v hv => List.mem_cons_of_mem _ ((mem_caseVisits _ hcase).1 hv)
      | mapBody mapId =>
          obtain ⟨source, yields, hmem⟩ := hopen
          rw [← bodyScope_pathOf]
          refine List.Subset.trans ?_ (visitsOf_subset _ hmem)
          exact fun v hv => List.mem_cons_of_mem _ (List.mem_append_left _ hv)

/-- The visits of a document are the situated ones. -/
theorem mem_visits_iff {root : List Node} {v : Visit} : v ∈ visits root [] ↔ Situated root v := by
  constructor
  · intro h
    exact visits_situated root .root (List.Subset.refl _) v h
  · intro h
    cases h with
    | step henc hmem => exact visits_subset henc (visitsOf_subset _ hmem (by simp [visitsOf]))
    | branch henc hmem => exact visits_subset henc (visitsOf_subset _ hmem (by simp [visitsOf]))
    | map henc hmem => exact visits_subset henc (visitsOf_subset _ hmem (by simp [visitsOf]))
    | @caseWalked _ _ _ _ _ _ _ caseBody henc hmem hcase =>
        cases caseBody with
        | mk steps yields =>
            apply visits_subset henc (visitsOf_subset _ hmem _)
            rw [← caseScope_pathOf]
            exact List.mem_cons_of_mem _ (mem_caseVisits _ hcase).2
    | bodyWalked henc hmem =>
        apply visits_subset henc (visitsOf_subset _ hmem _)
        simp [visitsOf, bodyScope_pathOf]

mutual

theorem definitions_visits :
    ∀ (nodes : List Node) (scope : ScopePath),
      ((visits nodes scope).flatMap Visit.definitions).map Prod.fst = documentIds nodes
  | [], _ => rfl
  | node :: rest, scope => by
      rw [visits, List.flatMap_append, List.map_append, definitions_visitsOf node,
        definitions_visits rest, documentIds]

theorem definitions_visitsOf :
    ∀ (node : Node) (scope : ScopePath),
      ((visitsOf node scope).flatMap Visit.definitions).map Prod.fst = idsOf node
  | .step s, _ => rfl
  | .branch id selector cases, scope => by
      rw [visitsOf, List.flatMap_cons, List.map_append, definitions_caseVisits id cases, idsOf]
      rfl
  | .map id source steps yields, scope => by
      rw [visitsOf, List.flatMap_cons, List.flatMap_append, List.map_append, List.map_append,
        definitions_visits steps, idsOf]
      simp [Visit.definitions]

theorem definitions_caseVisits (branchId : String) :
    ∀ (cases : List (String × CaseBody)) (scope : ScopePath),
      ((caseVisits branchId cases scope).flatMap Visit.definitions).map Prod.fst = caseIds cases
  | [], _ => rfl
  | (key, .mk steps yields) :: rest, scope => by
      rw [caseVisits, List.flatMap_append, List.flatMap_cons, List.map_append, List.map_append,
        definitions_visits steps, definitions_caseVisits branchId rest, caseIds]
      simp [Visit.definitions]

end

/-- An id is recorded with the path of the body that has a node of that id. -/
theorem mem_definitionsOf {spec : WorkflowSpec} {id : String} {scope : ScopePath} :
    (id, scope) ∈ definitionsOf spec ↔
      ∃ path body above, Enclosing spec.steps path (body :: above) ∧ scope = pathOf path ∧
        ∃ node ∈ body, node.id = id := by
  rw [definitionsOf, List.mem_flatMap]
  simp only [mem_visits_iff]
  constructor
  · intro ⟨v, hv, hdef⟩
    cases hv with
    | step henc hmem =>
        obtain ⟨rfl, rfl⟩ := Prod.mk.inj (List.mem_singleton.mp hdef)
        exact ⟨_, _, _, henc, rfl, _, hmem, rfl⟩
    | branch henc hmem =>
        obtain ⟨rfl, rfl⟩ := Prod.mk.inj (List.mem_singleton.mp hdef)
        exact ⟨_, _, _, henc, rfl, _, hmem, rfl⟩
    | map henc hmem =>
        obtain ⟨rfl, rfl⟩ := Prod.mk.inj (List.mem_singleton.mp hdef)
        exact ⟨_, _, _, henc, rfl, _, hmem, rfl⟩
    | caseWalked => simp [Visit.definitions] at hdef
    | bodyWalked => simp [Visit.definitions] at hdef
  · intro ⟨path, body, above, henc, hscope, node, hmem, hid⟩
    subst hscope hid
    cases node with
    | step s => exact ⟨_, .step henc hmem, List.mem_singleton_self _⟩
    | branch id selector cases => exact ⟨_, .branch henc hmem, List.mem_singleton_self _⟩
    | map id source steps yields => exact ⟨_, .map henc hmem, List.mem_singleton_self _⟩

theorem mem_stepRefsOf {binding : Binding} {siteId : String} {siteScope : ScopePath}
    {ref : ReferenceSite} :
    ref ∈ stepRefsOf (some binding) siteId siteScope ↔
      ref.siteId = siteId ∧ ref.siteScope = siteScope ∧ binding.Mentions ref.targetId := by
  obtain ⟨site, scope, target⟩ := ref
  simp only [stepRefsOf, List.mem_map, ReferenceSite.mk.injEq, Binding.mem_collectStepBindingIds]
  constructor
  · intro ⟨id, hid, hsite, hscope, htarget⟩
    exact ⟨hsite.symm, hscope.symm, htarget ▸ hid⟩
  · intro ⟨hsite, hscope, htarget⟩
    exact ⟨target, htarget, hsite.symm, hscope.symm, rfl⟩

theorem mem_stepRefsOfMap {yields : Option (List (String × Binding))} {siteId : String}
    {siteScope : ScopePath} {ref : ReferenceSite} :
    ref ∈ stepRefsOfMap yields siteId siteScope ↔
      ref.siteId = siteId ∧ ref.siteScope = siteScope ∧
        ∃ bindings name b, yields = some bindings ∧ (name, b) ∈ bindings ∧
          b.Mentions ref.targetId := by
  cases yields with
  | none => simp [stepRefsOfMap]
  | some bindings =>
      simp only [stepRefsOfMap, List.mem_flatMap, Prod.exists, mem_stepRefsOf]
      constructor
      · intro ⟨name, b, hmem, hsite, hscope, hb⟩
        exact ⟨hsite, hscope, bindings, name, b, rfl, hmem, hb⟩
      · intro ⟨hsite, hscope, bindings', name, b, heq, hmem, hb⟩
        obtain rfl := Option.some.inj heq
        exact ⟨name, b, hmem, hsite, hscope, hb⟩

/-- A recorded reference is a reference of the document. -/
theorem reference_of_mem {spec : WorkflowSpec} {ref : ReferenceSite} (h : ref ∈ referencesOf spec) :
    ∃ path chain, Enclosing spec.steps path chain ∧ ref.siteScope = pathOf path ∧
      Reference spec chain ref.targetId := by
  rcases List.mem_append.mp h with hvisit | hdoc
  · obtain ⟨v, hv, href⟩ := List.mem_flatMap.mp hvisit
    cases mem_visits_iff.mp hv with
    | step henc hmem =>
        obtain ⟨id, hid, heq⟩ := List.mem_map.mp href
        rw [← heq]
        exact ⟨_, _, henc, rfl, .step henc hmem (mem_collectStepReferenceIds.mp hid)⟩
    | branch henc hmem =>
        obtain ⟨-, hscope, hb⟩ := mem_stepRefsOf.mp href
        exact ⟨_, _, henc, hscope, .selector henc hmem hb⟩
    | @caseWalked _ _ _ _ _ _ _ caseBody henc hmem hcase =>
        cases caseBody with
        | mk steps yields =>
            obtain ⟨-, hscope, bindings, name, b, hy, hname, hb⟩ := mem_stepRefsOfMap.mp href
            subst hy
            have hin : Opens _ (.caseSteps _ _) steps := ⟨_, _, _, hmem, hcase⟩
            exact ⟨_, _, henc.inner hin, hscope, .caseYields henc hmem hcase hname hb⟩
    | map henc hmem =>
        obtain ⟨-, hscope, hb⟩ := mem_stepRefsOf.mp href
        exact ⟨_, _, henc, hscope, .source henc hmem hb⟩
    | bodyWalked henc hmem =>
        obtain ⟨-, hscope, bindings, name, b, hy, hname, hb⟩ := mem_stepRefsOfMap.mp href
        subst hy
        have hin : Opens _ (.mapBody _) _ := ⟨_, _, hmem⟩
        exact ⟨_, _, henc.inner hin, hscope, .mapYields henc hmem hname hb⟩
  · rcases List.mem_append.mp hdoc with hout | hfall
    · obtain ⟨-, hscope, outputs, name, b, ho, hname, hb⟩ := mem_stepRefsOfMap.mp hout
      exact ⟨[], _, .root, hscope, .output ho hname hb⟩
    · obtain ⟨⟨key, decl⟩, hdecl, href⟩ := List.mem_flatMap.mp hfall
      change ref ∈ stepRefsOf decl.fallback key [] at href
      cases hs : spec.sessionState with
      | none => simp [hs] at hdecl
      | some decls =>
          rw [hs, Option.getD_some] at hdecl
          cases hf : decl.fallback with
          | none => simp [hf, stepRefsOf] at href
          | some b =>
              rw [hf] at href
              obtain ⟨-, hscope, hb⟩ := mem_stepRefsOf.mp href
              exact ⟨[], _, .root, hscope, .fallback hs hdecl hf hb⟩

theorem mem_referencesOf_of_visit {spec : WorkflowSpec} {v : Visit} {ref : ReferenceSite}
    (hv : Situated spec.steps v) (href : ref ∈ v.references) : ref ∈ referencesOf spec :=
  List.mem_append_left _ (List.mem_flatMap.mpr ⟨v, mem_visits_iff.mpr hv, href⟩)

/-- Every reference of the document is recorded, with the path of the bodies
around it. -/
theorem mem_of_reference {spec : WorkflowSpec} {chain : List (List Node)} {id : String}
    (h : Reference spec chain id) :
    ∃ ref ∈ referencesOf spec, ∃ path, Enclosing spec.steps path chain ∧
      ref.siteScope = pathOf path ∧ ref.targetId = id := by
  cases h with
  | @step path _ _ s _ henc hmem hid =>
      have href : ⟨s.id, pathOf path, id⟩ ∈ (Visit.step s (pathOf path)).references :=
        List.mem_map_of_mem (mem_collectStepReferenceIds.mpr hid)
      exact ⟨_, mem_referencesOf_of_visit (.step henc hmem) href, path, henc, rfl, rfl⟩
  | @selector path _ _ branchId sel _ _ henc hmem hb =>
      have href : ⟨branchId, pathOf path, id⟩ ∈ (Visit.branch branchId sel (pathOf path)).references :=
        mem_stepRefsOf.mpr ⟨rfl, rfl, hb⟩
      exact ⟨_, mem_referencesOf_of_visit (.branch henc hmem) href, path, henc, rfl, rfl⟩
  | @caseYields path _ _ branchId _ _ caseKey steps yields _ _ _ henc hmem hcase hname hb =>
      have hin : Opens _ (.caseSteps branchId caseKey) steps := ⟨_, _, _, hmem, hcase⟩
      have href : ⟨branchId, pathOf (path ++ [.caseSteps branchId caseKey]), id⟩ ∈
          (Visit.caseWalked branchId caseKey (.mk steps (some yields))
            (pathOf (path ++ [.caseSteps branchId caseKey]))).references :=
        mem_stepRefsOfMap.mpr ⟨rfl, rfl, yields, _, _, rfl, hname, hb⟩
      exact ⟨_, mem_referencesOf_of_visit (.caseWalked henc hmem hcase) href, _, henc.inner hin,
        rfl, rfl⟩
  | @source path _ _ mapId src _ _ _ henc hmem hb =>
      have href : ⟨mapId, pathOf path, id⟩ ∈ (Visit.map mapId src (pathOf path)).references :=
        mem_stepRefsOf.mpr ⟨rfl, rfl, hb⟩
      exact ⟨_, mem_referencesOf_of_visit (.map henc hmem) href, path, henc, rfl, rfl⟩
  | @mapYields path _ _ mapId _ steps yields _ _ _ henc hmem hname hb =>
      have hin : Opens _ (.mapBody mapId) steps := ⟨_, _, hmem⟩
      have href : ⟨mapId, pathOf (path ++ [.mapBody mapId]), id⟩ ∈
          (Visit.bodyWalked mapId (some yields) (pathOf (path ++ [.mapBody mapId]))).references :=
        mem_stepRefsOfMap.mpr ⟨rfl, rfl, yields, _, _, rfl, hname, hb⟩
      exact ⟨_, mem_referencesOf_of_visit (.bodyWalked henc hmem) href, _, henc.inner hin,
        rfl, rfl⟩
  | output ho hname hb =>
      have href : ⟨"", [], id⟩ ∈ stepRefsOfMap spec.outputs "" [] :=
        mem_stepRefsOfMap.mpr ⟨rfl, rfl, _, _, _, ho, hname, hb⟩
      exact ⟨_, List.mem_append_right _ (List.mem_append_left _ href), [], .root, rfl, rfl⟩
  | @fallback decls key decl b _ hs hdecl hf hb =>
      have href : ⟨key, [], id⟩ ∈ stepRefsOf decl.fallback key [] := by
        rw [hf]
        exact mem_stepRefsOf.mpr ⟨rfl, rfl, hb⟩
      have hfall : ⟨key, [], id⟩ ∈
          (spec.sessionState.getD []).flatMap fun d => stepRefsOf d.2.fallback d.1 [] :=
        List.mem_flatMap.mpr ⟨(key, decl), by rwa [hs], href⟩
      exact ⟨_, List.mem_append_right _ (List.mem_append_right _ hfall), [], .root, rfl, rfl⟩

/-- Comparing the path recorded for an id with the path of a place finds out
whether a body around the place has a node of that id. -/
theorem visible_iff {spec : WorkflowSpec} (hnodup : (documentIds spec.steps).Nodup)
    (hkeys : distinctCaseKeys spec.steps) {path : List Scope} {chain : List (List Node)}
    (henc : Enclosing spec.steps path chain) (id : String) :
    (∃ scope, (id, scope) ∈ definitionsOf spec ∧ scope <+: pathOf path) ↔
      ∃ body ∈ chain, ∃ node ∈ body, node.id = id := by
  have hdet : ∀ {path outer above s inner inner'}, Enclosing spec.steps path (outer :: above) →
      Opens outer s inner → Opens outer s inner' → inner = inner' :=
    fun hout h h' => Opens.unique hnodup hkeys hout h h'
  rw [← henc.exists_prefix_iff hdet]
  constructor
  · intro ⟨scope, hdef, hpre⟩
    obtain ⟨path', body, above, henc', hscope, hnode⟩ := mem_definitionsOf.mp hdef
    subst hscope
    exact ⟨path', body, above, henc', segments_isPrefixCode.flatMap_prefix_iff.mp hpre, hnode⟩
  · intro ⟨path', body, above, henc', hpre, hnode⟩
    exact ⟨pathOf path', mem_definitionsOf.mpr ⟨path', body, above, henc', rfl, hnode⟩,
      segments_isPrefixCode.flatMap_prefix_iff.mpr hpre⟩

/-- The check reports nothing exactly on the documents whose ids are distinct
and whose references are all to nodes in scope. -/
theorem validateStepReferences_sound_and_complete (spec : WorkflowSpec)
    (hkeys : distinctCaseKeys spec.steps) :
    validateStepReferences spec = [] ↔ LexicallyScoped spec := by
  have hids : (definitionsOf spec).map Prod.fst = documentIds spec.steps :=
    definitions_visits spec.steps []
  rw [validateStepReferences_eq_nil_iff, hids]
  constructor
  · intro ⟨hnodup, hrefs⟩
    refine ⟨hnodup, fun {chain id} href => ?_⟩
    obtain ⟨ref, hmem, path, henc, hscope, htarget⟩ := mem_of_reference href
    have hvisible := hrefs ref hmem
    rw [hscope, htarget] at hvisible
    exact (visible_iff hnodup hkeys henc id).mp hvisible
  · intro hscoped
    refine ⟨hscoped.distinct, fun ref hmem => ?_⟩
    obtain ⟨path, chain, henc, hscope, href⟩ := reference_of_mem hmem
    rw [hscope]
    exact (visible_iff hscoped.distinct hkeys henc ref.targetId).mpr (hscoped.visible href)

def nestedCase : Node :=
  .branch "choose" (.literal .null)
    [("x", .mk [.step ⟨"inner", "svc@sha256:aa", "f", none, none, none, none⟩] none)]

/-- A document whose output reaches into a case. -/
def reachesIntoCase : WorkflowSpec where
  workflowSpecVersion := 1
  name := "reaches-into-case"
  steps := [nestedCase]
  outputs := some [("y", .step "inner" "value")]

theorem validateStepReferences_reachesIntoCase :
    distinctCaseKeys reachesIntoCase.steps ∧
      (validateStepReferences reachesIntoCase = [] ↔ LexicallyScoped reachesIntoCase) := by
  have hkeys : distinctCaseKeys reachesIntoCase.steps := by
    simp [reachesIntoCase, nestedCase, distinctCaseKeys, distinctKeysOf, distinctKeysIn]
  exact ⟨hkeys, validateStepReferences_sound_and_complete reachesIntoCase hkeys⟩

end WorkflowPlatform
