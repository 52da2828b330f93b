import Mathlib.Data.List.Basic

/-! Programs that call their environment, what they ensure whatever it answers, and that
every run keeps to it. -/
namespace Program

/-- A program by its next call; a loop whose budget has run out is stuck. -/
inductive Prog (C : Type) (R : C → Type) (α : Type)
  | ret (a : α)
  | call (c : C) (next : R c → Prog C R α)
  | exhausted

namespace Prog
variable {C : Type} {R : C → Type} {α β : Type}

def bind : Prog C R α → (α → Prog C R β) → Prog C R β
  | ret a,f => f a
  | call c next,f => call c (fun r => (next r).bind f)
  | exhausted,_ => exhausted

instance : Monad (Prog C R) where
  pure := ret
  bind := bind

def perform (c : C) : Prog C R (R c) := call c ret

end Prog

open Prog

/-- What an environment may do: answer a call in a state, and which state is left. -/
abbrev Semantics (C : Type) (R : C → Type) (σ : Type) := σ → (c : C) → R c → σ → Prop

section Ensures
variable {C : Type} {R : C → Type} {σ α β : Type}

/-- Every call keeps the guarantee, and what is returned meets the postcondition. -/
def Ensures (sem guarantee : Semantics C R σ) (Q : α → σ → Prop) : Prog C R α → σ → Prop
  | ret a,s => Q a s
  | call c next,s => ∀ r s', sem s c r s' → guarantee s c r s' ∧ Ensures sem guarantee Q (next r) s'
  | exhausted,_ => True

/-- Besides, no call blocks, and the budget suffices. -/
def Returns (sem guarantee : Semantics C R σ) (Q : α → σ → Prop) : Prog C R α → σ → Prop
  | ret a,s => Q a s
  | call c next,s => (∃ r s', sem s c r s') ∧
    ∀ r s', sem s c r s' → guarantee s c r s' ∧ Returns sem guarantee Q (next r) s'
  | exhausted,_ => False

/-- The states and the programs still to run that a run comes by. -/
inductive Reaches (sem : Semantics C R σ) (p : Prog C R α) (s : σ) : Prog C R α → σ → Prop
  | start : Reaches sem p s p s
  | step {c : C} {next : R c → Prog C R α} {r : R c} {s₁ s₂ : σ}
    (h : Reaches sem p s (call c next) s₁) (hs : sem s₁ c r s₂) : Reaches sem p s (next r) s₂

variable {sem guarantee : Semantics C R σ} {Q : α → σ → Prop} {s : σ}

@[simp] theorem ensures_ret (a : α) : Ensures sem guarantee Q (ret a) s ↔ Q a s := Iff.rfl
@[simp] theorem ensures_pure (a : α) : Ensures sem guarantee Q (pure a) s ↔ Q a s := Iff.rfl
@[simp] theorem returns_pure (a : α) : Returns sem guarantee Q (pure a) s ↔ Q a s := Iff.rfl

/-- The rule of a call and what follows it. -/
theorem ensures_perform {c : C} {f : R c → Prog C R α}
    (h : ∀ r s', sem s c r s' → guarantee s c r s' ∧ Ensures sem guarantee Q (f r) s') :
    Ensures sem guarantee Q (perform c >>= f) s := h

theorem returns_perform {c : C} {f : R c → Prog C R α} (hex : ∃ r s', sem s c r s')
    (h : ∀ r s', sem s c r s' → guarantee s c r s' ∧ Returns sem guarantee Q (f r) s') :
    Returns sem guarantee Q (perform c >>= f) s := ⟨hex,h⟩

theorem Ensures.mono {Q' : α → σ → Prop} {p : Prog C R α} (h : Ensures sem guarantee Q p s)
    (hQ : ∀ a s', Q a s' → Q' a s') : Ensures sem guarantee Q' p s := by
  induction p generalizing s with
  | ret a => exact hQ a s h
  | call c next ih => exact fun r s' hs => ⟨(h r s' hs).1,ih r (h r s' hs).2⟩
  | exhausted => trivial

theorem Ensures.weaken {guarantee' : Semantics C R σ} {p : Prog C R α} (h : Ensures sem guarantee Q p s)
    (hG : ∀ s c r s', guarantee s c r s' → guarantee' s c r s') : Ensures sem guarantee' Q p s := by
  induction p generalizing s with
  | ret a => exact h
  | call c next ih => exact fun r s' hs => ⟨hG _ _ _ _ (h r s' hs).1,ih r (h r s' hs).2⟩
  | exhausted => trivial

theorem Returns.mono {Q' : α → σ → Prop} {p : Prog C R α} (h : Returns sem guarantee Q p s)
    (hQ : ∀ a s', Q a s' → Q' a s') : Returns sem guarantee Q' p s := by
  induction p generalizing s with
  | ret a => exact hQ a s h
  | call c next ih => exact ⟨h.1,fun r s' hs => ⟨(h.2 r s' hs).1,ih r (h.2 r s' hs).2⟩⟩
  | exhausted => exact h

theorem Returns.weaken {guarantee' : Semantics C R σ} {p : Prog C R α} (h : Returns sem guarantee Q p s)
    (hG : ∀ s c r s', guarantee s c r s' → guarantee' s c r s') : Returns sem guarantee' Q p s := by
  induction p generalizing s with
  | ret a => exact h
  | call c next ih => exact ⟨h.1,fun r s' hs => ⟨hG _ _ _ _ (h.2 r s' hs).1,ih r (h.2 r s' hs).2⟩⟩
  | exhausted => exact h

/-- What is ensured under more answers holds of what returns. -/
theorem Returns.and {sem' guarantee' : Semantics C R σ} {Q' : α → σ → Prop} {p : Prog C R α}
    (h : Returns sem guarantee Q p s) (hsem : ∀ s c r s', sem s c r s' → sem' s c r s')
    (h' : Ensures sem' guarantee' Q' p s) : Returns sem guarantee (fun a s' => Q a s' ∧ Q' a s') p s := by
  induction p generalizing s with
  | ret a => exact ⟨h,h'⟩
  | call c next ih =>
    exact ⟨h.1,fun r s' hs => ⟨(h.2 r s' hs).1,ih r (h.2 r s' hs).2 (h' r s' (hsem _ _ _ _ hs)).2⟩⟩
  | exhausted => exact h

/-- The rule of sequence. -/
theorem ensures_bind {P : β → σ → Prop} {p : Prog C R β} {f : β → Prog C R α}
    (hp : Ensures sem guarantee P p s) (hf : ∀ b s', P b s' → Ensures sem guarantee Q (f b) s') :
    Ensures sem guarantee Q (p >>= f) s := by
  induction p generalizing s with
  | ret b => exact hf b s hp
  | call c next ih => exact fun r s' hs => ⟨(hp r s' hs).1,ih r (hp r s' hs).2⟩
  | exhausted => trivial

theorem returns_bind {P : β → σ → Prop} {p : Prog C R β} {f : β → Prog C R α}
    (hp : Returns sem guarantee P p s) (hf : ∀ b s', P b s' → Returns sem guarantee Q (f b) s') :
    Returns sem guarantee Q (p >>= f) s := by
  induction p generalizing s with
  | ret b => exact hf b s hp
  | call c next ih => exact ⟨hp.1,fun r s' hs => ⟨(hp.2 r s' hs).1,ih r (hp.2 r s' hs).2⟩⟩
  | exhausted => exact hp

theorem Reaches.trans {p : Prog C R α} {p' p'' : Prog C R α} {s s' s'' : σ} (h : Reaches sem p s p' s')
    (h' : Reaches sem p' s' p'' s'') : Reaches sem p s p'' s'' := by
  induction h' with
  | start => exact h
  | step _ hs ih => exact ih.step hs

theorem Reaches.bind {p p' : Prog C R α} {s s' : σ} (h : Reaches sem p s p' s') (f : α → Prog C R β) :
    Reaches sem (p >>= f) s (p' >>= f) s' := by
  induction h with
  | start => exact .start
  | step _ hs ih => exact Reaches.step ih hs

theorem Reaches.mono {sem' : Semantics C R σ} {p p' : Prog C R α} {s' : σ} (h : Reaches sem p s p' s')
    (hsem : ∀ s c r s', sem s c r s' → sem' s c r s') : Reaches sem' p s p' s' := by
  induction h with
  | start => exact .start
  | step _ hs ih => exact ih.step (hsem _ _ _ _ hs)

/-- A run that begins with a call. -/
theorem reaches_perform {c : C} {f : R c → Prog C R α} {r : R c} {p' : Prog C R α} {s₁ s' : σ} (hs : sem s c r s₁)
    (h : Reaches sem (f r) s₁ p' s') : Reaches sem (perform c >>= f) s p' s' :=
  (Reaches.step .start hs).trans h

/-- A run through a first part to its end, and on. -/
theorem reaches_bind {p : Prog C R β} {b : β} {f : β → Prog C R α} {p' : Prog C R α} {s₁ s' : σ}
    (hp : Reaches sem p s (ret b) s₁) (h : Reaches sem (f b) s₁ p' s') : Reaches sem (p >>= f) s p' s' :=
  (hp.bind f).trans h

/-- What holds of the results in another state space, where the runs are those of this one. -/
theorem Ensures.transport {σ' : Type} {sem' guarantee' : Semantics C R σ'} {p : Prog C R α} {Q' : α → Prop}
    {s' : σ'} (h : Ensures sem' guarantee' (fun a _ => Q' a) p s')
    (hs : ∀ c r v, sem s c r v → v = s ∧ sem' s' c r s' ∧ guarantee s c r v) :
    Ensures sem guarantee (fun a _ => Q' a) p s := by
  induction p with
  | ret a => exact h
  | call c next ih =>
    intro r v hv
    obtain ⟨rfl,hv',hg⟩ := hs c r v hv
    exact ⟨hg,ih r (h r s' hv').2⟩
  | exhausted => trivial

/-- Along a run the rest of the program ensures what the whole did. -/
theorem Ensures.reaches {p p' : Prog C R α} {s' : σ} (h : Ensures sem guarantee Q p s)
    (hr : Reaches sem p s p' s') : Ensures sem guarantee Q p' s' := by
  induction hr with
  | start => exact h
  | step _ hs ih => exact (ih _ _ hs).2

theorem Ensures.returned {p : Prog C R α} {a : α} {s' : σ} (h : Ensures sem guarantee Q p s)
    (hr : Reaches sem p s (ret a) s') : Q a s' := h.reaches hr

/-- What every guaranteed step keeps holds along the run. -/
theorem Ensures.invariant {p p' : Prog C R α} {s' : σ} (h : Ensures sem guarantee Q p s)
    {I : σ → Prop} (hI : I s) (hstep : ∀ s c r s', guarantee s c r s' → I s → I s')
    (hr : Reaches sem p s p' s') : I s' := by
  induction hr with
  | start => exact hI
  | step hr hs ih => exact hstep _ _ _ _ (h.reaches hr _ _ hs).1 ih

/-- A program that returns everywhere returns on some run. -/
theorem Returns.exists {p : Prog C R α} (h : Returns sem guarantee Q p s) :
    ∃ a s', Reaches sem p s (ret a) s' ∧ Q a s' := by
  suffices hall : ∀ (p' : Prog C R α) (s' : σ), Reaches sem p s p' s' → Returns sem guarantee Q p' s' →
      ∃ a s'', Reaches sem p s (ret a) s'' ∧ Q a s'' from hall p s .start h
  intro p'
  induction p' with
  | ret a => exact fun s' hr hq => ⟨a,s',hr,hq⟩
  | call c next ih =>
    rintro s' hr ⟨⟨r,s'',hs⟩,hall⟩
    exact ih r s'' (hr.step hs) (hall r s'' hs).2
  | exhausted => exact fun s' _ hq => hq.elim

theorem Returns.ensures {p : Prog C R α} (h : Returns sem guarantee Q p s) :
    Ensures sem guarantee Q p s := by
  induction p generalizing s with
  | ret a => exact h
  | call c next ih => exact fun r s' hs => ⟨(h.2 r s' hs).1,ih r (h.2 r s' hs).2⟩
  | exhausted => exact h.elim

end Ensures
end Program
