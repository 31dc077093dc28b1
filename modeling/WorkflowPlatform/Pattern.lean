import Mathlib.Computability.Language

/-!
# Patterns

Regular patterns over an alphabet given by classes of symbols, with the language
of each and a matcher by derivatives that decides it.
-/

inductive Pattern (α : Type*) where
  | never
  | empty
  | one (symbol : α → Bool)
  | seq (p q : Pattern α)
  | alt (p q : Pattern α)
  | star (p : Pattern α)

namespace Pattern
variable {α : Type*}

open Computability in
def language : Pattern α → Language α
  | never => 0
  | empty => 1
  | one symbol => {l | ∃ a, symbol a ∧ l = [a]}
  | seq p q => p.language * q.language
  | alt p q => p.language + q.language
  | star p => p.language∗

def nullable : Pattern α → Bool
  | never => false
  | empty => true
  | one _ => false
  | seq p q => p.nullable && q.nullable
  | alt p q => p.nullable || q.nullable
  | star _ => true

/-- The pattern of what may follow the symbol. -/
def deriv (a : α) : Pattern α → Pattern α
  | never => never
  | empty => never
  | one symbol => if symbol a then empty else never
  | seq p q => if p.nullable then alt (seq (p.deriv a) q) (q.deriv a) else seq (p.deriv a) q
  | alt p q => alt (p.deriv a) (q.deriv a)
  | star p => seq (p.deriv a) (star p)

def accepts (p : Pattern α) : List α → Bool
  | [] => p.nullable
  | a :: rest => (p.deriv a).accepts rest

/-- At least one repetition. -/
def plus (p : Pattern α) : Pattern α := seq p (star p)

def optional (p : Pattern α) : Pattern α := alt empty p

def oneOf [DecidableEq α] (symbols : List α) : Pattern α := one (· ∈ symbols)

/-- One word. -/
def word [DecidableEq α] (symbols : List α) : Pattern α :=
  symbols.foldr (fun a p => seq (one (· = a)) p) empty

theorem nullable_iff (p : Pattern α) : p.nullable = true ↔ [] ∈ p.language := by
  induction p with
  | never => simp [nullable, language]
  | empty => simp [nullable, language]
  | one symbol =>
      simp only [nullable, language, Bool.false_eq_true, false_iff]
      intro ⟨a, _, h⟩
      cases h
  | seq p q ihp ihq =>
      simp only [nullable, Bool.and_eq_true, ihp, ihq, language, Language.mem_mul]
      constructor
      · intro ⟨hp, hq⟩
        exact ⟨[], hp, [], hq, rfl⟩
      · intro ⟨l, hl, l', hl', h⟩
        obtain ⟨rfl, rfl⟩ := List.append_eq_nil_iff.mp h
        exact ⟨hl, hl'⟩
  | alt p q ihp ihq => simp [nullable, ihp, ihq, language, Language.mem_add]
  | star p _ => simp [nullable, language, Language.nil_mem_kstar]

/-- The derivative has the rests of the words that begin with the symbol. -/
theorem mem_deriv {a : α} {p : Pattern α} {l : List α} :
    l ∈ (p.deriv a).language ↔ a :: l ∈ p.language := by
  induction p generalizing l with
  | never => simp [deriv, language]
  | empty => simp [deriv, language, Language.mem_one]
  | one symbol =>
      unfold deriv
      split
      · next h =>
          simp only [language, Language.mem_one]
          constructor
          · intro hl
            exact ⟨a, h, by rw [hl]⟩
          · intro ⟨b, _, hl⟩
            exact (List.cons.inj hl).2
      · next h =>
          simp only [language, Language.notMem_zero, false_iff]
          intro ⟨b, hb, hl⟩
          rw [(List.cons.inj hl).1] at h
          exact h hb
  | alt p q ihp ihq => simp [deriv, language, Language.mem_add, ihp, ihq]
  | seq p q ihp ihq =>
      have hsplit : a :: l ∈ p.language * q.language ↔
          (∃ x, a :: x ∈ p.language ∧ ∃ y ∈ q.language, x ++ y = l) ∨
            [] ∈ p.language ∧ a :: l ∈ q.language := by
        rw [Language.mem_mul]
        constructor
        · intro ⟨x, hx, y, hy, h⟩
          cases x with
          | nil => exact .inr ⟨hx, h ▸ hy⟩
          | cons b x =>
              obtain ⟨hb, hl⟩ := List.cons.inj h
              exact .inl ⟨x, hb ▸ hx, y, hy, hl⟩
        · intro h
          rcases h with ⟨x, hx, y, hy, hl⟩ | ⟨hnil, hl⟩
          · exact ⟨a :: x, hx, y, hy, by rw [← hl]; rfl⟩
          · exact ⟨[], hnil, a :: l, hl, rfl⟩
      unfold deriv
      split
      · next hn =>
          simp only [language, Language.mem_add, Language.mem_mul, ihp, ihq]
          rw [← Language.mem_mul, hsplit, ← nullable_iff, hn]
          simp
      · next hn =>
          simp only [language, Language.mem_mul, ihp]
          rw [← Language.mem_mul, hsplit, ← nullable_iff]
          simp [hn]
  | star p ih =>
      simp only [deriv, language, Language.mem_mul, ih]
      constructor
      · intro ⟨x, hx, y, hy, h⟩
        obtain ⟨words, hflat, hwords⟩ := Language.mem_kstar.mp hy
        refine Language.mem_kstar.mpr ⟨(a :: x) :: words, ?_, ?_⟩
        · rw [List.flatten_cons, ← hflat, ← h]
          rfl
        · intro w hw
          rcases List.mem_cons.mp hw with heq | hmem
          · exact heq ▸ hx
          · exact hwords w hmem
      · intro h
        obtain ⟨words, hflat, hwords⟩ := Language.mem_kstar_iff_exists_nonempty.mp h
        cases words with
        | nil => cases hflat
        | cons w words =>
            obtain ⟨hw, hne⟩ := hwords w List.mem_cons_self
            cases w with
            | nil => exact absurd rfl hne
            | cons b x =>
                obtain ⟨hb, hl⟩ := List.cons.inj hflat
                refine ⟨x, hb ▸ hw, words.flatten, ?_, hl.symm⟩
                exact Language.mem_kstar.mpr
                  ⟨words, rfl, fun w hmem => (hwords w (List.mem_cons_of_mem _ hmem)).1⟩

/-- The matcher accepts the words of the language. -/
theorem accepts_iff (p : Pattern α) (l : List α) : p.accepts l = true ↔ l ∈ p.language := by
  induction l generalizing p with
  | nil => exact nullable_iff p
  | cons a rest ih => exact (ih _).trans mem_deriv

/-! ### Words of a pattern -/

variable {p q : Pattern α} {f : α → Bool} {l : List α}

theorem mem_seq : l ∈ (seq p q).language ↔
    ∃ x ∈ p.language, ∃ y ∈ q.language, x ++ y = l := Language.mem_mul

theorem mem_one_seq :
    l ∈ (seq (one f) q).language ↔ ∃ a rest, f a = true ∧ rest ∈ q.language ∧ l = a :: rest := by
  rw [mem_seq]
  constructor
  · intro ⟨x, ⟨a, ha, hx⟩, y, hy, h⟩
    exact ⟨a, y, ha, hy, by rw [← h, hx]; rfl⟩
  · intro ⟨a, rest, ha, hrest, h⟩
    exact ⟨[a], ⟨a, ha, rfl⟩, rest, hrest, h.symm⟩

theorem mem_star_one : l ∈ (star (one f)).language ↔ ∀ a ∈ l, f a = true := by
  induction l with
  | nil => exact iff_of_true (Language.nil_mem_kstar _) nofun
  | cons a rest ih =>
      rw [← mem_deriv, List.forall_mem_cons, ← ih]
      unfold deriv
      rw [mem_seq]
      simp only [deriv]
      split_ifs with ha
      · simp [language, Language.mem_one, ha]
      · simp [language, Language.notMem_zero, ha]

theorem mem_plus_one : l ∈ (plus (one f)).language ↔ l ≠ [] ∧ ∀ a ∈ l, f a = true := by
  rw [plus, mem_one_seq]
  constructor
  · intro ⟨a, rest, ha, hrest, h⟩
    subst h
    exact ⟨List.cons_ne_nil a rest, List.forall_mem_cons.mpr ⟨ha, mem_star_one.mp hrest⟩⟩
  · intro ⟨hne, hall⟩
    obtain ⟨a, rest, h⟩ := List.exists_cons_of_ne_nil hne
    subst h
    obtain ⟨ha, hrest⟩ := List.forall_mem_cons.mp hall
    exact ⟨a, rest, ha, mem_star_one.mpr hrest, rfl⟩

theorem mem_word [DecidableEq α] {w : List α} : l ∈ (word w).language ↔ l = w := by
  induction w generalizing l with
  | nil => exact Language.mem_one l
  | cons a w ih =>
      change l ∈ (seq (one fun b => decide (b = a)) (word w)).language ↔ _
      rw [mem_one_seq]
      constructor
      · intro ⟨b, rest, hb, hrest, h⟩
        rw [h, of_decide_eq_true hb, ih.mp hrest]
      · intro h
        exact ⟨a, w, decide_eq_true rfl, ih.mpr rfl, h⟩

theorem mem_word_seq [DecidableEq α] {w : List α} :
    l ∈ (seq (word w) q).language ↔ ∃ rest ∈ q.language, l = w ++ rest := by
  rw [mem_seq]
  constructor
  · intro ⟨x, hx, rest, hrest, h⟩
    rw [mem_word.mp hx] at h
    exact ⟨rest, hrest, h.symm⟩
  · intro ⟨rest, hrest, h⟩
    exact ⟨w, mem_word.mpr rfl, rest, hrest, h.symm⟩

theorem mem_alt : l ∈ (alt p q).language ↔ l ∈ p.language ∨ l ∈ q.language :=
  Language.mem_add p.language q.language l

theorem mem_optional : l ∈ (optional p).language ↔ l = [] ∨ l ∈ p.language := by
  rw [optional, mem_alt]
  exact or_congr_left (Language.mem_one l)

/-- Two words with a symbol between them. -/
theorem mem_seq_mark [DecidableEq α] {a : α} : l ∈ (seq p (seq (word [a]) q)).language ↔
    ∃ x ∈ p.language, ∃ y ∈ q.language, l = x ++ a :: y := by
  rw [mem_seq]
  constructor
  · intro ⟨x, hx, rest, hrest, h⟩
    obtain ⟨y, hy, hmark⟩ := mem_word_seq.mp hrest
    exact ⟨x, hx, y, hy, by rw [← h, hmark]; rfl⟩
  · intro ⟨x, hx, y, hy, h⟩
    exact ⟨x, hx, a :: y, mem_word_seq.mpr ⟨y, hy, rfl⟩, h.symm⟩

end Pattern
