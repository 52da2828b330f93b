import HolonightConfig.Program

/-! Programs run one after another, each in its own environment, and that they do what pure steps say. -/
namespace Program
open Prog
variable {C : Type} {R : C → Type} {σ α β ι : Type}

/-- The programs come to their ends one after another, and their answers and what is left meet the
postcondition. -/
def InTurn (sem : ι → Semantics C R σ) (p : ι → Prog C R α) : List ι → (List α → σ → Prop) → σ → Prop
  | [],Q,s => Q [] s
  | i :: l,Q,s => Returns (sem i) (fun _ _ _ _ => True) (fun a s' => InTurn sem p l (fun as => Q (a :: as)) s') (p i) s

/-- Pure steps one after another: what they answer, and what is left. -/
def steps (step : ι → β → α × β) : List ι → β → List α × β
  | [],b => ([],b)
  | i :: l,b => ((step i b).1 :: (steps step l (step i b).2).1,(steps step l (step i b).2).2)

theorem steps_concat (step : ι → β → α × β) (l : List ι) (i : ι) (b : β) :
    (steps step (l ++ [i]) b).2 = (step i (steps step l b).2).2 := by
  induction l generalizing b with
  | nil => rfl
  | cons j l ih => exact ih (step j b).2

variable {sem : ι → Semantics C R σ} {p : ι → Prog C R α}

theorem InTurn.mono {l : List ι} {Q Q' : List α → σ → Prop} {s : σ} (h : InTurn sem p l Q s)
    (hQ : ∀ as s', Q as s' → Q' as s') : InTurn sem p l Q' s := by
  induction l generalizing s Q Q' with
  | nil => exact hQ [] s h
  | cons i l ih => exact Returns.mono h (fun a s' ha => ih ha (fun as => hQ (a :: as)))

/-- Where each program does what its step says of related states, so do all of them one after another. -/
theorem inTurn_steps {related : β → σ → Prop} {step : ι → β → α × β} {l : List ι}
    (hstep : ∀ i ∈ l, ∀ b s, related b s → Returns (sem i) (fun _ _ _ _ => True)
      (fun a s' => a = (step i b).1 ∧ related (step i b).2 s') (p i) s)
    {b : β} {s : σ} (hs : related b s) :
    InTurn sem p l (fun as s' => as = (steps step l b).1 ∧ related (steps step l b).2 s') s := by
  induction l generalizing b s with
  | nil => exact ⟨rfl,hs⟩
  | cons i l ih =>
    have hfirst := hstep i List.mem_cons_self b s hs
    refine hfirst.mono (fun a s' ha => ?_)
    obtain ⟨rfl,hs'⟩ := ha
    have hrest := ih (fun j hj => hstep j (List.mem_cons_of_mem i hj)) hs'
    exact hrest.mono (fun as s'' h => ⟨congrArg _ h.1,h.2⟩)

end Program
