import Mathlib.Data.List.DropRight
import Mathlib.Tactic.Common

/-!
# Lexical paths

Paths as texts over any alphabet with a separator and a dot: the shortest form of
a path, a path put together from parts, and the path without its last part. The
last section says where a path leads from a working directory, with no links to
follow: the shortest form leads to the same place, and one more name leads one
level down.
-/
namespace LexicalPath

variable {α : Type*} (sep dot : α)

/-! ### Names -/

/-- A part that names something in a directory. -/
structure IsName (part : List α) : Prop where
  noSep : sep ∉ part
  nonEmpty : part ≠ []
  notDot : part ≠ [dot]
  notDotDot : part ≠ [dot, dot]

/-- The names of a shortest path: no superfluous part, and parents only in front of
a path that is not rooted. -/
structure Normal (rooted : Bool) (names : List (List α)) : Prop where
  noSep : ∀ n ∈ names, sep ∉ n
  needed : ∀ n ∈ names, n ≠ [] ∧ n ≠ [dot]
  parents : names.Pairwise fun m n => n = [dot, dot] → m = [dot, dot]
  rootParent : rooted = true → [dot, dot] ∉ names

section
variable {sep dot} {rooted : Bool} {ns : List (List α)} {part : List α}

theorem Normal.dropLast (h : Normal sep dot rooted ns) : Normal sep dot rooted ns.dropLast where
  noSep n hn := h.noSep n ((List.dropLast_sublist ns).mem hn)
  needed n hn := h.needed n ((List.dropLast_sublist ns).mem hn)
  parents := h.parents.sublist (List.dropLast_sublist ns)
  rootParent hr hmem := h.rootParent hr ((List.dropLast_sublist ns).mem hmem)

theorem Normal.concat (h : Normal sep dot rooted ns) (hsep : sep ∉ part)
    (hneeded : part ≠ [] ∧ part ≠ [dot])
    (hparents : part = [dot, dot] → rooted = false ∧ ∀ m ∈ ns, m = [dot, dot]) :
    Normal sep dot rooted (ns ++ [part]) where
  noSep n hn := by
    rcases List.mem_append.mp hn with hn | hn
    · exact h.noSep n hn
    · exact List.mem_singleton.mp hn ▸ hsep
  needed n hn := by
    rcases List.mem_append.mp hn with hn | hn
    · exact h.needed n hn
    · exact List.mem_singleton.mp hn ▸ hneeded
  parents := by
    refine List.pairwise_append.mpr ⟨h.parents, List.pairwise_singleton _ _, fun m hm n hn => ?_⟩
    rw [List.mem_singleton.mp hn]
    exact fun hpart => (hparents hpart).2 m hm
  rootParent hr hmem := by
    rcases List.mem_append.mp hmem with hmem | hmem
    · exact h.rootParent hr hmem
    · have hfalse := (hparents (List.mem_singleton.mp hmem).symm).1
      rw [hr] at hfalse
      cases hfalse

theorem normal_nil : Normal sep dot rooted [] := ⟨nofun, nofun, .nil, fun _ => List.not_mem_nil⟩

theorem IsName.normal (h : Normal sep dot rooted ns) (hpart : IsName sep dot part) :
    Normal sep dot rooted (ns ++ [part]) :=
  h.concat hpart.noSep ⟨hpart.nonEmpty, hpart.notDot⟩ fun hdots => (hpart.notDotDot hdots).elim

theorem head_intercalate (h : Normal sep dot rooted ns) : ([sep].intercalate ns).head? ≠ some sep := by
  cases ns with
  | nil => simp
  | cons n rest =>
      have hn := (h.needed n List.mem_cons_self).1
      obtain ⟨a, n', hcons⟩ := List.exists_cons_of_ne_nil hn
      have ha : a ≠ sep := by
        intro ha
        apply h.noSep n List.mem_cons_self
        rw [hcons, ha]
        exact List.mem_cons_self
      rw [hcons, List.intercalate_cons_cons_left, List.head?_cons]
      exact fun h => ha (Option.some.inj h)

end

/-! ### Paths -/

variable [DecidableEq α]

def isRooted (path : List α) : Bool := path.head? = some sep

/-- The names so far and one more part of the path. -/
def step (rooted : Bool) (names : List (List α)) (part : List α) : List (List α) :=
  if part = [] ∨ part = [dot] then names
  else if part = [dot, dot] then
    match names.getLast? with
    | none => if rooted then [] else [part]
    | some last => if last = [dot, dot] then names ++ [part] else names.dropLast
  else names ++ [part]

def names (path : List α) : List (List α) :=
  (path.splitOn sep).foldl (step dot (isRooted sep path)) []

def render (rooted : Bool) (names : List (List α)) : List α :=
  if rooted then sep :: [sep].intercalate names
  else if names = [] then [dot]
  else [sep].intercalate names

/-- The shortest path that is lexically the same. -/
def clean (path : List α) : List α := render sep dot (isRooted sep path) (names sep dot path)

def join (parts : List (List α)) : List α :=
  let nonEmpty := parts.filter (· ≠ [])
  if nonEmpty = [] then [] else clean sep dot ([sep].intercalate nonEmpty)

/-- All but the last part. -/
def dir (path : List α) : List α := clean sep dot (path.rdropWhile (· ≠ sep))

section
variable {sep dot} {rooted : Bool} {ns : List (List α)} {part path : List α}

theorem not_mem_of_mem_splitOn (h : part ∈ path.splitOn sep) : sep ∉ part := by
  induction path generalizing part with
  | nil =>
      rw [List.splitOn_eq_singleton List.not_mem_nil, List.mem_singleton] at h
      rw [h]
      exact List.not_mem_nil
  | cons a rest ih =>
      rw [List.splitOn_cons_eq_if_modifyHead] at h
      split_ifs at h with ha
      · rcases List.mem_cons.mp h with hnil | hmem
        · rw [hnil]
          exact List.not_mem_nil
        · exact ih hmem
      · obtain ⟨first, others, hsplit⟩ := List.exists_cons_of_ne_nil (List.splitOn_ne_nil sep rest)
        rw [hsplit, List.modifyHead_cons] at h
        rw [hsplit] at ih
        rcases List.mem_cons.mp h with heq | hmem
        · rw [heq, List.mem_cons, not_or]
          exact ⟨fun h => ha (by simp [h]), ih List.mem_cons_self⟩
        · exact ih (List.mem_cons_of_mem _ hmem)

theorem step_skip (h : part = [] ∨ part = [dot]) : step dot rooted ns part = ns := if_pos h

theorem step_parent_nil :
    step dot rooted [] [dot, dot] = if rooted then [] else [[dot, dot]] := by simp [step]

theorem step_parent_concat (init : List (List α)) (last : List α) :
    step dot rooted (init ++ [last]) [dot, dot] =
      if last = [dot, dot] then init ++ [last] ++ [[dot, dot]] else init := by simp [step]

theorem step_name (hneeded : ¬ (part = [] ∨ part = [dot])) (hdots : part ≠ [dot, dot]) :
    step dot rooted ns part = ns ++ [part] := by
  rw [step, if_neg hneeded, if_neg hdots]

theorem Normal.step (h : Normal sep dot rooted ns) (hsep : sep ∉ part) :
    Normal sep dot rooted (step dot rooted ns part) := by
  by_cases hskip : part = [] ∨ part = [dot]
  · rw [step_skip hskip]
    exact h
  · by_cases hdots : part = [dot, dot]
    · subst hdots
      rcases List.eq_nil_or_concat' ns with hnil | ⟨init, last, hconcat⟩
      · subst hnil
        rw [step_parent_nil]
        split_ifs with hr
        · exact normal_nil
        · exact h.concat hsep (not_or.mp hskip) fun _ => ⟨by simpa using hr, nofun⟩
      · subst hconcat
        rw [step_parent_concat]
        split_ifs with hlast
        · refine h.concat hsep (not_or.mp hskip) fun _ => ⟨?_, fun m hm => ?_⟩
          · exact Bool.eq_false_iff.mpr fun hr => h.rootParent hr (by simp [hlast])
          · rcases List.mem_append.mp hm with hm | hm
            · exact (List.pairwise_append.mp h.parents).2.2 m hm last (by simp) hlast
            · exact (List.mem_singleton.mp hm).trans hlast
        · have hinit := h.dropLast
          rwa [List.dropLast_concat] at hinit
    · rw [step_name hskip hdots]
      exact h.concat hsep (not_or.mp hskip) fun hpart => (hdots hpart).elim

theorem normal_foldl {parts : List (List α)} (h : Normal sep dot rooted ns)
    (hparts : ∀ part ∈ parts, sep ∉ part) :
    Normal sep dot rooted (parts.foldl (LexicalPath.step dot rooted) ns) := by
  induction parts generalizing ns with
  | nil => exact h
  | cons part rest ih =>
      obtain ⟨hpart, hrest⟩ := List.forall_mem_cons.mp hparts
      exact ih (h.step hpart) hrest

theorem names_normal (path : List α) :
    Normal sep dot (isRooted sep path) (names sep dot path) :=
  normal_foldl normal_nil fun _ => not_mem_of_mem_splitOn

/-- The parts of a shortest path are its names. -/
theorem Normal.foldl_step (h : Normal sep dot rooted ns) :
    ns.foldl (LexicalPath.step dot rooted) [] = ns := by
  induction ns using List.reverseRecOn with
  | nil => rfl
  | append_singleton init n ih =>
      have hinit := h.dropLast
      rw [List.dropLast_concat] at hinit
      rw [List.foldl_append, ih hinit, List.foldl_cons, List.foldl_nil]
      have hmem : n ∈ init ++ [n] := by simp
      by_cases hdots : n = [dot, dot]
      · subst hdots
        rcases List.eq_nil_or_concat' init with hnil | ⟨front, last, hconcat⟩
        · subst hnil
          rw [step_parent_nil, if_neg fun hr => h.rootParent hr hmem]
          rfl
        · subst hconcat
          have hlast := (List.pairwise_append.mp h.parents).2.2 last (by simp) _
            (List.mem_singleton_self _) rfl
          rw [step_parent_concat, if_pos hlast]
      · exact step_name (not_or.mpr (h.needed n hmem)) hdots

theorem splitOn_intercalate_normal (h : Normal sep dot rooted ns) (hne : ns ≠ []) :
    ([sep].intercalate ns).splitOn sep = ns := List.splitOn_intercalate sep h.noSep hne

theorem isRooted_render (hsep : dot ≠ sep) (h : Normal sep dot rooted ns) :
    isRooted sep (render sep dot rooted ns) = rooted := by
  unfold isRooted render
  split_ifs with hr hnil
  · simp [hr]
  · rw [Bool.not_eq_true] at hr
    simp [hsep, hr]
  · rw [Bool.not_eq_true] at hr
    rw [hr]
    exact decide_eq_false (head_intercalate h)

theorem names_render (hsep : dot ≠ sep) (h : Normal sep dot rooted ns) :
    names sep dot (render sep dot rooted ns) = ns := by
  rw [names, isRooted_render hsep h]
  unfold render
  split_ifs with hr hnil
  · rw [List.splitOn_cons_eq_if_modifyHead, if_pos (by simp), List.foldl_cons,
      step_skip (.inl rfl)]
    by_cases hnil : ns = []
    · subst hnil
      rw [List.intercalate_nil, List.splitOn_eq_singleton List.not_mem_nil, List.foldl_cons,
        step_skip (.inl rfl)]
      rfl
    · rw [splitOn_intercalate_normal h hnil, h.foldl_step]
  · subst hnil
    rw [List.splitOn_eq_singleton (by simpa using hsep.symm), List.foldl_cons, step_skip (.inr rfl)]
    rfl
  · rw [splitOn_intercalate_normal h hnil, h.foldl_step]

theorem render_ne_nil (h : Normal sep dot rooted ns) : render sep dot rooted ns ≠ [] := by
  unfold render
  split_ifs with hr hnil
  · exact List.cons_ne_nil _ _
  · exact List.cons_ne_nil _ _
  · intro hempty
    have hsplit := splitOn_intercalate_normal h hnil
    rw [hempty, List.splitOn_eq_singleton List.not_mem_nil] at hsplit
    exact (h.needed [] (hsplit ▸ List.mem_singleton_self [])).1 rfl

/-! ### A name in a directory -/

theorem isRooted_append (hpath : path ≠ []) (rest : List α) :
    isRooted sep (path ++ rest) = isRooted sep path := by
  rw [isRooted, isRooted, List.head?_append_of_ne_nil _ hpath]

/-- One more part behind a separator. -/
theorem names_append_part (hpath : path ≠ []) (hpart : sep ∉ part) :
    names sep dot (path ++ sep :: part) =
      step dot (isRooted sep path) (names sep dot path) part := by
  rw [names, names, isRooted_append hpath, List.splitOn_append_cons_self,
    List.splitOn_eq_singleton hpart, List.foldl_append]
  rfl

theorem join_clean (hsep : dot ≠ sep) (hpart : IsName sep dot part) :
    join sep dot [clean sep dot path, part] =
      render sep dot (isRooted sep path) (names sep dot path ++ [part]) := by
  have hnormal := @names_normal α sep dot _ path
  have hne : clean sep dot path ≠ [] := render_ne_nil hnormal
  have hboth : [clean sep dot path, part].filter (· ≠ []) = [clean sep dot path, part] := by
    simp [hne, hpart.nonEmpty]
  unfold join
  dsimp only
  rw [hboth, if_neg (List.cons_ne_nil _ _)]
  have hinter : [sep].intercalate [clean sep dot path, part] =
      clean sep dot path ++ sep :: part := by simp [List.intercalate]
  rw [hinter, clean, isRooted_append hne, names_append_part hne hpart.noSep]
  rw [clean, isRooted_render hsep hnormal, names_render hsep hnormal,
    step_name (not_or.mpr ⟨hpart.nonEmpty, hpart.notDot⟩) hpart.notDotDot]

theorem rdropWhile_part (front : List α) (hpart : sep ∉ part) :
    (front ++ sep :: part).rdropWhile (· ≠ sep) = front ++ [sep] := by
  have hall : ∀ a ∈ part.reverse, decide (a ≠ sep) = true := by
    intro a ha
    exact decide_eq_true fun h => hpart (h ▸ List.mem_reverse.mp ha)
  rw [List.rdropWhile, List.reverse_append, List.reverse_cons, List.append_assoc,
    List.dropWhile_append_of_pos hall]
  simp

theorem rdropWhile_of_notMem (hpart : sep ∉ part) : part.rdropWhile (· ≠ sep) = [] := by
  rw [List.rdropWhile_eq_nil_iff]
  intro a ha
  exact decide_eq_true fun h => hpart (h ▸ ha)

omit [DecidableEq α] in
theorem render_concat (hne : ns ≠ []) :
    render sep dot rooted (ns ++ [part]) = render sep dot rooted ns ++ sep :: part := by
  have hinter : [sep].intercalate (ns ++ [part]) = [sep].intercalate ns ++ sep :: part := by
    induction ns with
    | nil => exact (hne rfl).elim
    | cons n rest ih =>
        cases rest with
        | nil => simp [List.intercalate]
        | cons n' rest =>
            rw [List.cons_append, List.cons_append, List.intercalate_cons_cons,
              List.intercalate_cons_cons, ← List.cons_append, ih (List.cons_ne_nil _ _)]
            simp
  cases rooted <;> simp [render, hne, hinter]

/-- Where a name has been added to a shortest path, `dir` gives that path back. -/
theorem dir_render_concat (hsep : dot ≠ sep) (h : Normal sep dot rooted ns)
    (hpart : IsName sep dot part) :
    dir sep dot (render sep dot rooted (ns ++ [part])) = render sep dot rooted ns := by
  by_cases hne : ns = []
  · subst hne
    cases rooted with
    | true =>
        have hrender : render sep dot true ([] ++ [part]) = [] ++ sep :: part := by simp [render]
        rw [hrender, dir, rdropWhile_part [] hpart.noSep]
        have hroot : [] ++ [sep] = render sep dot true [] := by simp [render]
        rw [hroot, clean, isRooted_render hsep h, names_render hsep h]
    | false =>
        have hrender : render sep dot false ([] ++ [part]) = part := by simp [render]
        rw [hrender, dir, rdropWhile_of_notMem hpart.noSep]
        simp [clean, names, isRooted, render, List.splitOn_eq_singleton, step_skip]
  · have hnil := render_ne_nil h
    rw [render_concat hne, dir, rdropWhile_part _ hpart.noSep, clean, isRooted_append hnil,
      names_append_part hnil List.not_mem_nil, step_skip (.inl rfl), isRooted_render hsep h,
      names_render hsep h]

theorem dir_join_clean (hsep : dot ≠ sep) (path : List α) (hpart : IsName sep dot part) :
    dir sep dot (join sep dot [clean sep dot path, part]) = clean sep dot path := by
  rw [join_clean hsep hpart, dir_render_concat hsep (names_normal path) hpart, clean]

end

/-! ### Where a path leads -/

/-- One part of a path, from a directory given by its names from the root. -/
def walk (location : List (List α)) (part : List α) : List (List α) :=
  if part = [] ∨ part = [dot] then location
  else if part = [dot, dot] then location.dropLast
  else location ++ [part]

/-- The place a path leads to from a working directory. -/
def locate (cwd : List (List α)) (path : List α) : List (List α) :=
  (path.splitOn sep).foldl (walk dot) (if isRooted sep path then [] else cwd)

section
variable {sep dot} {rooted : Bool} {ns cwd start : List (List α)} {part path : List α}

theorem walk_name (hpart : IsName sep dot part) : walk dot start part = start ++ [part] := by
  rw [walk, if_neg (not_or.mpr ⟨hpart.nonEmpty, hpart.notDot⟩), if_neg hpart.notDotDot]

/-- A part leads from the end of the names to the end of the names with it. -/
theorem walk_step (h : Normal sep dot rooted ns) (hroot : rooted = true → start = []) :
    (step dot rooted ns part).foldl (walk dot) start = walk dot (ns.foldl (walk dot) start) part := by
  by_cases hskip : part = [] ∨ part = [dot]
  · rw [step_skip hskip, walk, if_pos hskip]
  · by_cases hdots : part = [dot, dot]
    · subst hdots
      rcases List.eq_nil_or_concat' ns with hnil | ⟨init, last, hconcat⟩
      · subst hnil
        rw [step_parent_nil]
        split_ifs with hr
        · simp [walk, hroot hr]
        · rfl
      · subst hconcat
        rw [step_parent_concat]
        split_ifs with hlast
        · rw [List.foldl_append (l := init ++ [last])]
          rfl
        · have hmem : last ∈ init ++ [last] := by simp
          have hname : IsName sep dot last :=
            ⟨h.noSep last hmem, (h.needed last hmem).1, (h.needed last hmem).2, hlast⟩
          rw [List.foldl_append, List.foldl_cons, List.foldl_nil, walk_name hname, walk,
            if_neg hskip, if_pos rfl, List.dropLast_concat]
    · rw [step_name hskip hdots, List.foldl_append]
      rfl

theorem walk_foldl_step {parts : List (List α)} (h : Normal sep dot rooted ns)
    (hparts : ∀ part ∈ parts, sep ∉ part) (hroot : rooted = true → start = []) :
    (parts.foldl (step dot rooted) ns).foldl (walk dot) start =
      parts.foldl (walk dot) (ns.foldl (walk dot) start) := by
  induction parts generalizing ns with
  | nil => rfl
  | cons part rest ih =>
      obtain ⟨hpart, hrest⟩ := List.forall_mem_cons.mp hparts
      rw [List.foldl_cons, ih (h.step hpart) hrest, walk_step h hroot]
      rfl

theorem locate_eq (path : List α) : locate sep dot cwd path =
    (names sep dot path).foldl (walk dot) (if isRooted sep path then [] else cwd) := by
  rw [names, walk_foldl_step normal_nil (fun _ => not_mem_of_mem_splitOn) fun hr => if_pos hr]
  rfl

/-- The shortest form of a path leads to the same place from everywhere. -/
theorem locate_clean (hsep : dot ≠ sep) (path : List α) :
    locate sep dot cwd (clean sep dot path) = locate sep dot cwd path := by
  rw [locate_eq, locate_eq, clean, names_render hsep (names_normal path),
    isRooted_render hsep (names_normal path)]

theorem locate_join_clean (hsep : dot ≠ sep) (path : List α) (hpart : IsName sep dot part) :
    locate sep dot cwd (join sep dot [clean sep dot path, part]) =
      locate sep dot cwd path ++ [part] := by
  have hnormal := hpart.normal (names_normal path)
  rw [join_clean hsep hpart, locate_eq, locate_eq, names_render hsep hnormal,
    isRooted_render hsep hnormal, List.foldl_append]
  exact walk_name hpart

end

end LexicalPath
