import HolonightConfig.Posix.Tree

/-! Where a configuration path leads: components are followed one by one, so that a
target can be named that does not exist yet. -/
namespace HolonightConfig
open Text Posix

namespace DocumentStore

def requireDirectory (t : Tree) (path : List Name) : Except Errno Unit :=
  match t.look true path with
  | .error e => .error e
  | .ok f => if f.isDirectory then .ok () else .error .notDirectory

/-- Where resolving comes to rest; a link is still to be followed. -/
inductive Halt
  | done (resolved : List Name)
  | failed (errno : Errno)
  | link (resolved : List Name) (target : Path) (pending : List Name)

/-- The components up to the first link. -/
def resolveComponents (t : Tree) (resolved : List Name) : List Name → Halt
  | [] => .done resolved
  | component :: pending =>
    if component = [] then resolveComponents t resolved pending
    else if component = dot ∨ component = dotdot then
      match requireDirectory t resolved with
      | .error e => .failed e
      | .ok () =>
        resolveComponents t (if component = dotdot then resolved.dropLast else resolved) pending
    else
      let candidate := resolved ++ [component]
      match t.look false candidate with
      | .error .noEntry => resolveComponents t candidate pending
      | .error e => .failed e
      | .ok (.symlink target) => .link resolved target pending
      | .ok _ => resolveComponents t candidate pending

def kMaximumLinks : ℕ := 40

def resolveLinks (t : Tree) : ℕ → List Name → List Name → Except Errno (List Name)
  | links,resolved,pending =>
    match resolveComponents t resolved pending with
    | .done r => .ok r
    | .failed e => .error e
    | .link r target rest =>
      match links with
      | 0 => .error .loop
      | links' + 1 =>
        resolveLinks t links' (if target.isAbsolute then [] else r) (target.components ++ rest)

def resolveTarget (t : Tree) (current : List Name) (path : Path) : Except Errno (List Name) :=
  if path.isEmpty then .error .noEntry
  else resolveLinks t kMaximumLinks [] (path.absolute current)

/-! ### Targets are plain -/

/-- A location by names, with no link at it or above it. -/
structure Physical (t : Tree) (p : List Name) : Prop where
  names : ∀ c ∈ p, IsName c
  plain : t.Plain p

theorem Physical.nil (t : Tree) : Physical t [] where
  names := by simp
  plain := by
    intro q hq
    rw [List.prefix_nil.mp hq]
    obtain ⟨f,hf,hd⟩ := (Option.any_eq_true _ _).mp t.root
    cases f with
    | directory m => simp [Tree.isSymlink,hf]
    | _ => cases hd

theorem Physical.above {t : Tree} {p q : List Name} (h : Physical t p) (hq : q <+: p) : Physical t q :=
  ⟨fun c hc => h.names c (hq.subset hc),h.plain.above hq⟩

/-- A component that is no link, as far as one can look, makes a plain path longer. -/
theorem Physical.snoc {t : Tree} {p : List Name} {c : Name} (h : Physical t p) (hc : IsName c)
    (hl : ∀ target, t.look false (p ++ [c]) ≠ .ok (.symlink target)) : Physical t (p ++ [c]) := by
  have hn : ∀ c' ∈ p ++ [c], IsName c' := by
    intro c' hc'
    rcases List.mem_append.mp hc' with h' | h'
    · exact h.names c' h'
    · rw [List.mem_singleton.mp h']
      exact hc
  refine ⟨hn,fun q hq => ?_⟩
  rcases List.prefix_concat_iff.mp hq with rfl | hq
  · cases hf : t.file (p ++ [c]) with
    | none => simp [Tree.isSymlink,hf]
    | some f =>
      have hlook := @Tree.look_names t false _ hn
        (Tree.opened_of_exists (by rw [hf]; rfl)) (by simp)
      rw [hf] at hlook
      cases f with
      | symlink target => exact absurd hlook (hl target)
      | _ => simp [Tree.isSymlink,hf,File.isSymlink]
  · exact h.plain q hq

/-- What holds of where a stretch of components ends. -/
def Halt.Within (done link : List Name → Prop) : Halt → Prop
  | .done r => done r
  | .failed _ => True
  | .link r _ _ => link r

/-- One component: it is passed over, leads up or down, fails, or is a link. -/
theorem resolveComponents_cons (t : Tree) (resolved : List Name) (c : Name) (pending : List Name) :
    (c = [] ∧ resolveComponents t resolved (c :: pending) = resolveComponents t resolved pending) ∨
    (∃ e, resolveComponents t resolved (c :: pending) = .failed e) ∨
    ((c = dot ∨ c = dotdot) ∧ requireDirectory t resolved = .ok () ∧
      resolveComponents t resolved (c :: pending) =
        resolveComponents t (if c = dotdot then resolved.dropLast else resolved) pending) ∨
    (IsName c ∧ (∀ target, t.look false (resolved ++ [c]) ≠ .ok (.symlink target)) ∧
      (∀ e, t.look false (resolved ++ [c]) = .error e → e = .noEntry) ∧
      resolveComponents t resolved (c :: pending) = resolveComponents t (resolved ++ [c]) pending) ∨
    (IsName c ∧ ∃ target, t.look false (resolved ++ [c]) = .ok (.symlink target) ∧
      resolveComponents t resolved (c :: pending) = .link resolved target pending) := by
  rw [resolveComponents]
  by_cases h₁ : c = []
  · exact .inl ⟨h₁,if_pos h₁⟩
  · right
    rw [if_neg h₁]
    by_cases h₂ : c = dot ∨ c = dotdot
    · rw [if_pos h₂]
      cases hr : requireDirectory t resolved with
      | error e => exact .inl ⟨e,rfl⟩
      | ok u => exact .inr (.inl ⟨h₂,rfl,rfl⟩)
    · have hc : IsName c := ⟨h₁,fun h => h₂ (.inl h),fun h => h₂ (.inr h)⟩
      rw [if_neg h₂]
      dsimp only
      cases hl : t.look false (resolved ++ [c]) with
      | error e =>
        cases e with
        | noEntry => exact .inr (.inr (.inl ⟨hc,by simp,by simp,rfl⟩))
        | _ => exact .inl ⟨_,rfl⟩
      | ok f =>
        cases f with
        | symlink target => exact .inr (.inr (.inr ⟨hc,target,rfl,rfl⟩))
        | _ => exact .inr (.inr (.inl ⟨hc,by simp,by simp,rfl⟩))

/-- What one stretch of components ends with is plain. -/
theorem resolveComponents_physical {t : Tree} {resolved : List Name} (h : Physical t resolved)
    (pending : List Name) : (resolveComponents t resolved pending).Within (Physical t) (Physical t) := by
  induction pending generalizing resolved with
  | nil => exact h
  | cons c pending ih =>
    rcases resolveComponents_cons t resolved c pending with ⟨-,he⟩ | ⟨e,he⟩ | ⟨-,-,he⟩ |
      ⟨hc,hl,-,he⟩ | ⟨-,target,-,he⟩ <;> rw [he]
    · exact ih h
    · trivial
    · refine ih ?_
      split
      · exact h.above (List.dropLast_prefix _)
      · exact h
    · exact ih (h.snoc hc hl)
    · exact h

/-- All the links: what they end with is plain. -/
theorem resolveLinks_physical {t : Tree} {links : ℕ} {resolved pending r : List Name}
    (h : Physical t resolved) (hr : resolveLinks t links resolved pending = .ok r) : Physical t r := by
  induction links generalizing resolved pending with
  | zero =>
    have hc := resolveComponents_physical h pending
    rw [resolveLinks] at hr
    split at hr
    · next heq => cases hr; rw [heq] at hc; exact hc
    · cases hr
    · cases hr
  | succ links ih =>
    have hc := resolveComponents_physical h pending
    rw [resolveLinks] at hr
    split at hr
    · next heq => cases hr; rw [heq] at hc; exact hc
    · cases hr
    · next heq =>
      rw [heq] at hc
      refine ih ?_ hr
      split
      · exact Physical.nil t
      · exact hc

theorem resolveTarget_physical {t : Tree} {current r : List Name} {path : Path}
    (h : resolveTarget t current path = .ok r) : Physical t r := by
  unfold resolveTarget at h
  split at h
  · cases h
  · exact resolveLinks_physical (Physical.nil t) h

/-! ### Targets are stable -/

theorem requireDirectory_ok {t : Tree} {p : List Name} (h : Physical t p) :
    requireDirectory t p = .ok () ↔ t.isDirectory p = true := by
  unfold requireDirectory
  constructor
  · intro hr
    split at hr
    · cases hr
    · next f hl =>
      split at hr
      · next hd => rw [Tree.isDirectory,Tree.look_plain h.names h.plain hl]; exact hd
      · cases hr
  · intro hd
    obtain ⟨f,hf,hfd⟩ := (Option.any_eq_true _ _).mp hd
    rw [Tree.look_names h.names (Tree.opened_of_exists (by rw [hf]; rfl))
      (fun _ => h.plain p (List.prefix_refl p)),hf]
    simp [hfd]

/-- Behind a location that does not exist there are only names, down to the target. -/
theorem resolveComponents_missing {t : Tree} {resolved : List Name} (h : Physical t resolved)
    (hm : t.file resolved = none) (pending : List Name) :
    (resolveComponents t resolved pending).Within (resolved <+: ·) (fun _ => False) := by
  induction pending generalizing resolved with
  | nil => exact List.prefix_refl _
  | cons c pending ih =>
    rcases resolveComponents_cons t resolved c pending with ⟨-,he⟩ | ⟨e,he⟩ | ⟨-,hd,he⟩ |
      ⟨hc,hl,-,he⟩ | ⟨hc,target,hl,he⟩ <;> rw [he]
    · exact ih h hm
    · trivial
    · rw [requireDirectory_ok h,Tree.isDirectory,hm] at hd
      cases hd
    · have := ih (h.snoc hc hl) (Tree.file_eq_none_below hm [c])
      revert this
      cases resolveComponents t (resolved ++ [c]) pending with
      | done r => exact fun hp => (List.prefix_append _ _).trans hp
      | failed e => exact id
      | link r target rest => exact id
    · have hn : ∀ c' ∈ resolved ++ [c], IsName c' := by
        intro c' hc'
        rcases List.mem_append.mp hc' with h' | h'
        · exact h.names c' h'
        · rw [List.mem_singleton.mp h']
          exact hc
      have hf := Tree.file_eq_none_below hm [c]
      have hp : t.Plain (resolved ++ [c]) := by
        intro q hq
        rcases List.prefix_concat_iff.mp hq with rfl | hq
        · simp [Tree.isSymlink,hf]
        · exact h.plain q hq
      rw [Tree.look_plain hn hp hl] at hf
      cases hf

end DocumentStore
end HolonightConfig
