import Mathlib.Tactic.Common

/-!
# Scripts: finite programs that issue operations

A script either has finished, with a value or an error, or issues one
operation and continues with the answer. The answer to an operation may itself
be an error, which a script can catch and carry on from. Nothing here says what
an operation does: `run` takes any handler, and the transaction semantics of
`RowLocking` is another reading of the same syntax.
-/
namespace WorkflowPlatform

inductive Script (Op : Type) (Resp : Op → Type) (ε α : Type) : Type where
  | done (result : Except ε α)
  | call (op : Op) (next : Except ε (Resp op) → Script Op Resp ε α)

namespace Script
variable {Op : Type} {Resp : Op → Type} {ε α β γ σ : Type}

/-- Run the first script and continue with its value; its error ends both. -/
def bind : Script Op Resp ε α → (α → Script Op Resp ε β) → Script Op Resp ε β
  | .done (.ok a), f => f a
  | .done (.error e), _ => .done (.error e)
  | .call op next, f => .call op fun r => (next r).bind f

instance : Monad (Script Op Resp ε) where
  pure a := .done (.ok a)
  bind := bind

def throw (e : ε) : Script Op Resp ε α := .done (.error e)

/-- A `try { .. } catch { .. }` block. An error that the body has already
recovered from does not reach the handler. -/
def tryCatch : Script Op Resp ε α → (ε → Script Op Resp ε α) → Script Op Resp ε α
  | .done (.ok a), _ => .done (.ok a)
  | .done (.error e), h => h e
  | .call op next, h => .call op fun r => (next r).tryCatch h

/-- One operation, with its answer as the result. -/
def perform (op : Op) : Script Op Resp ε (Resp op) := .call op .done

/-- A value computed without any operation, or the error it raised. -/
def lift (r : Except ε α) : Script Op Resp ε α := .done r

@[simp] theorem pure_eq (a : α) : (pure a : Script Op Resp ε α) = .done (.ok a) := rfl

@[simp] theorem done_ok_bind (a : α) (f : α → Script Op Resp ε β) :
    ((.done (.ok a) : Script Op Resp ε α) >>= f) = f a := rfl

@[simp] theorem done_error_bind (e : ε) (f : α → Script Op Resp ε β) :
    ((.done (.error e) : Script Op Resp ε α) >>= f) = .done (.error e) := rfl

@[simp] theorem call_bind (op : Op) (next : Except ε (Resp op) → Script Op Resp ε α)
    (f : α → Script Op Resp ε β) :
    (.call op next >>= f) = .call op fun r => next r >>= f := rfl

@[simp] theorem perform_bind (op : Op) (f : Resp op → Script Op Resp ε β) :
    (perform op >>= f) = .call op fun r => .done r >>= f := rfl

@[simp] theorem lift_ok (a : α) : (lift (.ok a) : Script Op Resp ε α) = .done (.ok a) := rfl

@[simp] theorem lift_error (e : ε) :
    (lift (.error e) : Script Op Resp ε α) = .done (.error e) := rfl

@[simp] theorem throw_eq (e : ε) : (throw e : Script Op Resp ε α) = .done (.error e) := rfl

@[simp] theorem tryCatch_ok (a : α) (h : ε → Script Op Resp ε α) :
    (.done (.ok a) : Script Op Resp ε α).tryCatch h = .done (.ok a) := rfl

@[simp] theorem tryCatch_error (e : ε) (h : ε → Script Op Resp ε α) :
    (.done (.error e) : Script Op Resp ε α).tryCatch h = h e := rfl

@[simp] theorem tryCatch_call (op : Op) (next : Except ε (Resp op) → Script Op Resp ε α)
    (h : ε → Script Op Resp ε α) :
    (Script.call op next).tryCatch h = .call op fun r => (next r).tryCatch h := rfl

theorem bind_assoc (m : Script Op Resp ε α) (f : α → Script Op Resp ε β)
    (g : β → Script Op Resp ε γ) : m >>= f >>= g = m >>= fun a => f a >>= g := by
  induction m with
  | done r => cases r <;> rfl
  | call op next ih => exact congrArg (Script.call op) (funext ih)

theorem bind_pure (m : Script Op Resp ε α) : (m >>= fun a => .done (.ok a)) = m := by
  induction m with
  | done r => cases r <;> rfl
  | call op next ih => exact congrArg (Script.call op) (funext ih)

/-- Every operation the script can reach, whatever it is answered, satisfies `P`. -/
def All (P : Op → Prop) : Script Op Resp ε α → Prop
  | .done _ => True
  | .call op next => P op ∧ ∀ r, (next r).All P

@[simp] theorem all_done (P : Op → Prop) (r : Except ε α) :
    (.done r : Script Op Resp ε α).All P := trivial

@[simp] theorem all_call (P : Op → Prop) (op : Op)
    (next : Except ε (Resp op) → Script Op Resp ε α) :
    (Script.call op next).All P ↔ P op ∧ ∀ r, (next r).All P := Iff.rfl

@[simp] theorem all_perform (P : Op → Prop) (op : Op) :
    (perform op : Script Op Resp ε (Resp op)).All P ↔ P op :=
  ⟨fun h => h.1, fun h => ⟨h, fun _ => trivial⟩⟩

theorem all_of_forall {P : Op → Prop} (h : ∀ op, P op) (m : Script Op Resp ε α) : m.All P := by
  induction m with
  | done r => trivial
  | call op next ih => exact ⟨h op, ih⟩

theorem all_bind {P : Op → Prop} {m : Script Op Resp ε α} {f : α → Script Op Resp ε β}
    (hm : m.All P) (hf : ∀ a, (f a).All P) : (m >>= f).All P := by
  induction m with
  | done r =>
      cases r with
      | ok a => exact hf a
      | error e => trivial
  | call op next ih => exact ⟨hm.1, fun r => ih r (hm.2 r)⟩

theorem all_tryCatch {P : Op → Prop} {m : Script Op Resp ε α}
    {h : ε → Script Op Resp ε α} (hm : m.All P) (hh : ∀ e, (h e).All P) :
    (m.tryCatch h).All P := by
  induction m with
  | done r =>
      cases r with
      | ok a => trivial
      | error e => exact hh e
  | call op next ih => exact ⟨hm.1, fun r => ih r (hm.2 r)⟩

theorem All.mono {P Q : Op → Prop} {m : Script Op Resp ε α} (hm : m.All P)
    (h : ∀ op, P op → Q op) : m.All Q := by
  induction m with
  | done r => trivial
  | call op next ih => exact ⟨h op hm.1, fun r => ih r (hm.2 r)⟩

/-- The script catches nothing: an operation answered with the error `e` ends it
with `e`. -/
def Straight (e : ε) : Script Op Resp ε α → Prop
  | .done _ => True
  | .call _ next => next (.error e) = .done (.error e) ∧ ∀ a, (next (.ok a)).Straight e

@[simp] theorem straight_done (e : ε) (r : Except ε α) :
    (.done r : Script Op Resp ε α).Straight e := trivial

@[simp] theorem straight_perform (e : ε) (op : Op) :
    (perform op : Script Op Resp ε (Resp op)).Straight e := ⟨rfl, fun _ => trivial⟩

theorem straight_bind {e : ε} {m : Script Op Resp ε α} {f : α → Script Op Resp ε β}
    (hm : m.Straight e) (hf : ∀ a, (f a).Straight e) : (m >>= f).Straight e := by
  induction m with
  | done r =>
      cases r with
      | ok a => exact hf a
      | error e => trivial
  | call op next ih =>
      refine ⟨?_, fun a => ih _ (hm.2 a)⟩
      change (next (.error e)).bind f = .done (.error e)
      rw [hm.1]
      rfl

/-- A script that catches nothing and issues only operations that satisfy `P`. -/
structure Tame (P : Op → Prop) (e : ε) (m : Script Op Resp ε α) : Prop where
  all : m.All P
  straight : m.Straight e

theorem tame_done (P : Op → Prop) (e : ε) (r : Except ε α) :
    (.done r : Script Op Resp ε α).Tame P e := ⟨trivial, trivial⟩

theorem tame_perform {P : Op → Prop} (e : ε) {op : Op} (h : P op) :
    (perform op : Script Op Resp ε (Resp op)).Tame P e :=
  ⟨(all_perform P op).mpr h, straight_perform e op⟩

theorem Tame.bind {P : Op → Prop} {e : ε} {m : Script Op Resp ε α} {f : α → Script Op Resp ε β}
    (hm : m.Tame P e) (hf : ∀ a, (f a).Tame P e) : (m >>= f).Tame P e :=
  ⟨all_bind hm.all fun a => (hf a).all, straight_bind hm.straight fun a => (hf a).straight⟩

theorem tame_call {P : Op → Prop} {e : ε} {op : Op} {f : Resp op → Script Op Resp ε α} (h : P op)
    (hf : ∀ a, (f a).Tame P e) : (perform op >>= f).Tame P e := (tame_perform e h).bind hf

theorem Tame.mono {P Q : Op → Prop} {e : ε} {m : Script Op Resp ε α} (hm : m.Tame P e)
    (h : ∀ op, P op → Q op) : m.Tame Q e := ⟨hm.all.mono h, hm.straight⟩

/-- The operations a script issues if each is given this answer. -/
def ahead (answer : (op : Op) → Resp op) : Script Op Resp ε α → List Op
  | .done _ => []
  | .call op next => op :: (next (.ok (answer op))).ahead answer

/-- The uninterrupted run of a script against a handler with state. -/
def run (handle : (op : Op) → σ → Except ε (Resp op) × σ) :
    Script Op Resp ε α → σ → Except ε α × σ
  | .done r, s => (r, s)
  | .call op next, s => (next (handle op s).1).run handle (handle op s).2

@[simp] theorem run_done (handle : (op : Op) → σ → Except ε (Resp op) × σ) (r : Except ε α)
    (s : σ) : (.done r : Script Op Resp ε α).run handle s = (r, s) := rfl

theorem run_call (handle : (op : Op) → σ → Except ε (Resp op) × σ) (op : Op)
    (next : Except ε (Resp op) → Script Op Resp ε α) (s : σ) :
    (Script.call op next).run handle s =
      (next (handle op s).1).run handle (handle op s).2 := rfl

theorem run_bind (handle : (op : Op) → σ → Except ε (Resp op) × σ)
    (m : Script Op Resp ε α) (f : α → Script Op Resp ε β) (s : σ) :
    (m >>= f).run handle s = match m.run handle s with
      | (.ok a, s') => (f a).run handle s'
      | (.error e, s') => (.error e, s') := by
  induction m generalizing s with
  | done r => cases r <;> rfl
  | call op next ih => exact ih _ _

theorem run_bind_ok {handle : (op : Op) → σ → Except ε (Resp op) × σ} {m : Script Op Resp ε α}
    {f : α → Script Op Resp ε β} {s : σ} {a : α} (h : (m.run handle s).1 = .ok a) :
    (m >>= f).run handle s = (f a).run handle (m.run handle s).2 := by
  rw [run_bind, ← Prod.eta (m.run handle s), h]

theorem run_bind_error {handle : (op : Op) → σ → Except ε (Resp op) × σ} {m : Script Op Resp ε α}
    {f : α → Script Op Resp ε β} {s : σ} {e : ε} (h : (m.run handle s).1 = .error e) :
    (m >>= f).run handle s = (.error e, (m.run handle s).2) := by
  rw [run_bind, ← Prod.eta (m.run handle s), h]

/-- Two scripts that leave the state as it is, one after the other. -/
theorem run_bind_const {handle : (op : Op) → σ → Except ε (Resp op) × σ} {s : σ}
    {m : Script Op Resp ε α} {f : α → Script Op Resp ε β} {r : Except ε α}
    {g : α → Except ε β} (hm : m.run handle s = (r, s))
    (hf : ∀ a, (f a).run handle s = (g a, s)) : (m >>= f).run handle s = (r >>= g, s) := by
  rw [run_bind, hm]
  cases r with
  | ok a => exact hf a
  | error e => rfl

theorem run_tryCatch (handle : (op : Op) → σ → Except ε (Resp op) × σ)
    (m : Script Op Resp ε α) (h : ε → Script Op Resp ε α) (s : σ) :
    (m.tryCatch h).run handle s = match m.run handle s with
      | (.ok a, s') => (.ok a, s')
      | (.error e, s') => (h e).run handle s' := by
  induction m generalizing s with
  | done r => cases r <;> rfl
  | call op next ih => exact ih _ _

/-- A handler around a script that first leaves the state as it is. -/
theorem run_bind_tryCatch {handle : (op : Op) → σ → Except ε (Resp op) × σ} {s : σ}
    {m : Script Op Resp ε α} {f : α → Script Op Resp ε β} {r : Except ε α}
    {h : ε → Script Op Resp ε β} : m.run handle s = (r, s) →
    ((m >>= f).tryCatch h).run handle s = match r with
      | .ok a => ((f a).tryCatch h).run handle s
      | .error e => (h e).run handle s := by
  intro hm
  rw [run_tryCatch, run_bind, hm]
  cases r with
  | ok a => exact (run_tryCatch handle (f a) h s).symm
  | error e => rfl

end Script
end WorkflowPlatform
