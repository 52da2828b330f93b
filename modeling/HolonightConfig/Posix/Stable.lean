import HolonightConfig.Posix.Tree

/-! Paths resolve the same while directories and links stay, and making directories only
adds some. -/
namespace Posix
namespace Tree

/-- The directories and links of one tree are there in the other. -/
def Keeps (t t' : Tree) : Prop :=
  ∀ q, t.isDirectory q = true ∨ t.isSymlink q = true → t'.file q = t.file q

theorem Keeps.trans {t t₁ t₂ : Tree} (h : t.Keeps t₁) (h' : t₁.Keeps t₂) : t.Keeps t₂ := by
  intro q hq
  have hfile := h q hq
  refine (h' q ?_).trans hfile
  rw [isDirectory,isSymlink,hfile]
  exact hq

theorem isSymlink_of_file {t : Tree} {p : List Name} {target : Path} (h : t.file p = some (.symlink target)) :
    t.isSymlink p = true := by
  rw [isSymlink,h]
  rfl

/-- A stretch that comes to rest at a directory, or at a link to follow, is the same. -/
theorem stretch_keeps {t t' : Tree} (h : t.Keeps t') (follow : Bool) (here names : List Name) :
    (∀ x, t.stretch follow here names = .at x → t.isDirectory x = true →
      t'.stretch follow here names = .at x) ∧
    ∀ l target rest, t.stretch follow here names = .link l target rest →
      t'.stretch follow here names = .link l target rest := by
  induction names generalizing here with
  | nil => exact ⟨fun x hx _ => hx,fun l target rest hl => hl⟩
  | cons c rest ih =>
    by_cases h₁ : c = [] ∨ c = dot
    · simp only [stretch,if_pos h₁]
      exact ih here
    by_cases h₂ : c = dotdot
    · simp only [stretch,if_neg h₁,if_pos h₂]
      exact ih here.dropLast
    simp only [stretch,if_neg h₁,if_neg h₂]
    cases hf : t.file (here ++ [c]) with
    | none =>
      refine ⟨fun x hx hd => ?_,fun l target rest' hl => ?_⟩
      · simp only at hx
        split at hx
        · cases hx
          simp [isDirectory,hf] at hd
        · cases hx
      · simp only at hl
        split at hl <;> cases hl
    | some f =>
      cases hfd : f.isDirectory || f.isSymlink with
      | true =>
        have hkeep := h (here ++ [c]) (by simpa [isDirectory,isSymlink,hf] using hfd)
        rw [hkeep,hf]
        cases f with
        | directory m => exact ih (here ++ [c])
        | symlink target => exact ⟨fun x hx _ => hx,fun l target' rest' hl => hl⟩
        | _ => cases hfd
      | false =>
        rw [Bool.or_eq_false_iff] at hfd
        have hrest : ∀ stop, (if rest = [] then Stop.at (here ++ [c]) else Stop.failed Errno.notDirectory) = stop →
            stop = .at (here ++ [c]) ∨ stop = .failed .notDirectory := by
          intro stop hs
          rw [← hs]
          split <;> simp
        have hno : t.isDirectory (here ++ [c]) = false := by
          rw [isDirectory,hf]
          exact hfd.1
        cases f with
        | directory m => cases hfd.1
        | symlink target => cases hfd.2
        | _ =>
          refine ⟨fun x hx hd => ?_,fun l target rest' hl => ?_⟩
          · rcases hrest _ hx with h | h
            · cases h
              rw [hno] at hd
              cases hd
            · cases h
          · rcases hrest _ hl with h | h <;> cases h

theorem walk_keeps {t t' : Tree} (h : t.Keeps t') {follow : Bool} {budget : ℕ} {here names x : List Name}
    (hw : t.walk follow budget here names = .ok x) (hd : t.isDirectory x = true) :
    t'.walk follow budget here names = .ok x := by
  induction budget generalizing here names with
  | zero =>
    rw [walk] at hw ⊢
    have hs := stretch_keeps h follow here names
    cases hst : t.stretch follow here names with
    | «at» y =>
      rw [hst] at hw
      cases hw
      rw [hs.1 x hst hd]
    | failed e =>
      rw [hst] at hw
      cases hw
    | link l target rest =>
      rw [hst] at hw
      cases hw
  | succ budget ih =>
    rw [walk] at hw ⊢
    have hs := stretch_keeps h follow here names
    cases hst : t.stretch follow here names with
    | «at» y =>
      rw [hst] at hw
      cases hw
      rw [hs.1 x hst hd]
    | failed e =>
      rw [hst] at hw
      cases hw
    | link l target rest =>
      rw [hst] at hw
      rw [hs.2 l target rest hst]
      exact ih hw

/-- An entry is in a directory, under the last name. -/
theorem entry_spec {t : Tree} {p d : List Name} {n : Name} (h : t.entry p = .ok (d,n)) :
    t.locate true p.dropLast = .ok d ∧ t.isDirectory d = true ∧ n = p.getLast?.getD [] := by
  unfold entry at h
  split at h
  · cases h
  · next x hl =>
    split at h
    · next m hf =>
      cases h
      exact ⟨hl,isDirectory_of_file hf,rfl⟩
    · cases h
    · cases h

theorem entry_keeps {t t' : Tree} (hk : t.Keeps t') {p d : List Name} {n : Name}
    (h : t.entry p = .ok (d,n)) : t'.entry p = .ok (d,n) := by
  obtain ⟨hl,hd,rfl⟩ := entry_spec h
  have hl' : t'.locate true p.dropLast = .ok d := walk_keeps hk hl hd
  obtain ⟨f,hf,hfd⟩ := (Option.any_eq_true _ _).mp hd
  unfold entry
  rw [hl']
  simp only [hk d (.inl hd),hf]
  cases f with
  | directory m => rfl
  | _ => cases hfd

/-- New are at most directories. -/
def Adds (t t' : Tree) : Prop :=
  ∀ q, t'.file q = t.file q ∨ (t.file q = none ∧ t'.isDirectory q = true)

theorem Adds.refl (t : Tree) : t.Adds t := fun _ => .inl rfl

theorem Adds.trans {t t₁ t₂ : Tree} (h₁ : t.Adds t₁) (h₂ : t₁.Adds t₂) : t.Adds t₂ := by
  intro q
  rcases h₁ q with he | ⟨hn,hd⟩
  · rcases h₂ q with he' | ⟨hn',hd'⟩
    · exact .inl (he'.trans he)
    · exact .inr ⟨he ▸ hn',hd'⟩
  · rcases h₂ q with he' | ⟨hn',-⟩
    · refine .inr ⟨hn,?_⟩
      rw [isDirectory,he']
      exact hd
    · rw [isDirectory,hn'] at hd
      cases hd

theorem createDirectory_adds {t t' : Tree} {m : Metadata} {p : List Name}
    (h : t.createDirectory m p = .ok t') : t.Adds t' := by
  unfold createDirectory at h
  split at h
  · cases h
  · next d n he =>
    split at h
    · cases h
    · next hn =>
      cases h
      intro q
      by_cases hq : q = d ++ [n]
      · subst hq
        refine .inr ⟨hn,?_⟩
        rw [isDirectory,file_put_self (entry_spec he).2.1 (by rw [isDirectory,hn]; rfl)]
        rfl
      · exact .inl (file_put_of_ne hq _)

theorem createAbove_adds {t t' : Tree} {m : Metadata} {up : List Name}
    (h : t.createAbove m up = .ok t') : t.Adds t' := by
  induction up generalizing t' with
  | nil =>
    cases h
    exact Adds.refl t
  | cons c up ih =>
    rw [createAbove] at h
    split at h
    · exact ih h
    · split at h
      · cases h
        exact Adds.refl t
      · cases h
      · split at h
        · cases h
        · next t₁ h₁ =>
          split at h
          · cases h
            exact ih h₁
          · exact (ih h₁).trans (createDirectory_adds h)
      · cases h

theorem Made.adds {t t' : Tree} {p : List Name} (h : t.Made p t') : t.Adds t' := by
  obtain ⟨m,q,-,hc⟩ := h
  exact createAbove_adds hc

end Tree
end Posix
