import HolonightConfig.DocumentStore.Replacing

/-! What a save, a staging or a rollback comes to in one process, under every schedule of
faults. -/
namespace HolonightConfig
open Text Toml Posix Program

namespace DocumentStore
open Storage Document
variable (L : Library)

/-! ### What is asked for -/

def restoresMissing (request : Request) : Bool := request.previous.any (fun p => !p.revision.exists_)

/-- The document that is asked for: of a rollback to a missing one, a missing one. -/
theorem patchFor_success {request : Request} {current : DocumentSnapshot}
    (h : (patchFor L request current).status = .success) :
    ∃ s, (patchFor L request current).snapshot = some s ∧
      (restoresMissing request = true → s.revision = ⟨false,[]⟩) ∧
      (restoresMissing request = false → s.revision.exists_ = true) ∧
      ∀ previous, request.previous = some previous → previous.revision.exists_ = true →
        s.revision = ⟨true,previous.revision.bytes⟩ := by
  unfold patchFor restoresMissing at *
  cases hp : request.previous with
  | none =>
    rw [hp] at h
    dsimp only at h ⊢
    have hcases := patchDocument_cases L current request.edits request.schema
    generalize patchDocument L current request.edits request.schema = r at h hcases
    cases hcases with
    | success hv batch hn hs hc plan hp' snapshot ha hv' =>
      obtain ⟨candidate,-,hparse,-⟩ := applyReplacements_some L current ha
      exact ⟨snapshot,rfl,by simp,fun _ => by rw [(parseDocument_some L hparse).2],by simp⟩
    | _ => cases h
  | some previous =>
    rw [hp] at h
    dsimp only at h ⊢
    unfold prepareRestore at h ⊢
    dsimp only at h ⊢
    split at h
    · cases h
    · next snapshot hs =>
      split at h
      · cases h
      · next hv =>
        rw [if_neg hv]
        refine ⟨snapshot,rfl,?_⟩
        cases he : previous.revision.exists_ with
        | true =>
          rw [he] at hs
          have hrev := (parseDocument_some L hs).2
          exact ⟨by simp [he],fun _ => by rw [hrev],fun p hp' _ => by cases hp'; exact hrev⟩
        | false =>
          rw [he] at hs
          cases hs
          exact ⟨fun _ => rfl,by simp [he],fun p hp' he' => by cases hp'; rw [he] at he'; cases he'⟩

/-- What is not valid has no snapshot. -/
theorem patchFor_failed {request : Request} {current : DocumentSnapshot}
    (h : (patchFor L request current).status ≠ .success) : (patchFor L request current).Failed := by
  unfold patchFor at *
  cases hp : request.previous with
  | none =>
    rw [hp] at h
    dsimp only at h ⊢
    have hcases := patchDocument_cases L current request.edits request.schema
    generalize patchDocument L current request.edits request.schema = r at h hcases
    cases hcases with
    | success => exact absurd rfl h
    | _ => exact ⟨rfl,h,by simp⟩
  | some previous =>
    rw [hp] at h
    dsimp only at h ⊢
    unfold prepareRestore at h ⊢
    dsimp only at h ⊢
    generalize (if previous.revision.exists_ = true then parseDocument L previous.revision.bytes previous.path
      else Result.success (DocumentSnapshot.missing .none) []) = parsed at h ⊢
    cases hv : parsed.value with
    | none => exact ⟨rfl,by simp,by simp⟩
    | some snapshot =>
      rw [hv] at h
      dsimp only at h ⊢
      by_cases he : hasErrors (validateDocument L snapshot request.schema) = true
      · rw [if_pos he]
        exact ⟨rfl,by simp,by simp⟩
      · rw [if_neg he] at h
        exact absurd rfl h

/-- Under the lock, the path leads to the target, the document there is the one expected,
and what is asked for is valid. -/
structure Accepted (me : Process) (path : Path) (target : List Name) (request : Request) (t : Tree)
    (current : DocumentSnapshot) : Prop where
  resolved : resolveTarget t me.current path = .ok target
  holds : Holds (t.file target) current.revision
  snapshot : snapshotAt L target current.revision = some current
  staged : ∀ staged, request.staged = some staged → current.revision = staged
  success : (patchFor L request current).status = .success

/-- How an update under the lock ends. -/
inductive Settled (removal : Prop) (me : Process) (path : Path) (target : List Name) (request : Request) (w : World) :
    SaveResult × Option DocumentSnapshot → World → Prop
  | failed {r : SaveResult} {before : Option DocumentSnapshot} {w' : World} (h : r.Failed)
      (hclean : CleanedUp removal (IsTemporary target) w.tree w'.tree) (hholder : w'.holder = w.holder) :
    Settled removal me path target request w (r,before) w'
  | kept {current : DocumentSnapshot} (ha : Accepted L me path target request w.tree current)
      (hm : restoresMissing request = false)
      (hb : (patchFor L request current).snapshot.map (fun s => s.revision.bytes) =
        some current.revision.bytes) :
    Settled removal me path target request w
      ({ patchFor L request current with snapshot := some current },some current) w
  | absent {current : DocumentSnapshot} (ha : Accepted L me path target request w.tree current)
      (hm : restoresMissing request = true) (he : current.revision.exists_ = false) :
    Settled removal me path target request w (patchFor L request current,none) w
  | removed {current : DocumentSnapshot} {r : SaveResult} {w' : World}
      (ha : Accepted L me path target request w.tree current) (hm : restoresMissing request = true)
      (he : current.revision.exists_ = true) (hr : InPlace path (patchFor L request current) r)
      (hfile : w'.tree.file target = none) (hothers : ∀ q, q ≠ target → w'.tree.file q = w.tree.file q)
      (hholder : w'.holder = w.holder) :
    Settled removal me path target request w (r,none) w'
  | replaced {current s : DocumentSnapshot} {r : SaveResult} {w' : World} {m : Metadata}
      (ha : Accepted L me path target request w.tree current) (hm : restoresMissing request = false)
      (hs : (patchFor L request current).snapshot = some s)
      (hb : s.revision.bytes ≠ current.revision.bytes) (hr : InPlace path (patchFor L request current) r)
      (hname : FreeName target w'.tree) (hfile : w'.tree.file target = some (.regular m s.revision.bytes))
      (hmode : ∀ f, w.tree.file target = some f → m.permissions = (fileMetadata f).permissions)
      (hothers : ∀ q, q ≠ target → w'.tree.file q = w.tree.file q) (hholder : w'.holder = w.holder) :
    Settled removal me path target request w (r,some current) w'

section
variable {me : Process} {removal : Prop} {target : List Name} {I : Option File → Prop}

/-- The removal a restore of a missing document ends with. -/
theorem removal_settled {w : World} {path : Path} {request : Request} {current : DocumentSnapshot}
    (hphys : Physical w.tree target) (hI : I (w.tree.file target))
    (ha : Accepted L me path target request w.tree current) (hm : restoresMissing request = true)
    (hnew : ∀ s, (patchFor L request current).snapshot = some s → ∀ f, Holds f s.revision → I f) :
    Ensures (failing removal me) (keeps target I) (fun r w' => Settled L removal me path target request w r w')
      (do let removed ← removeDocument L path target current (patchFor L request current); pure (removed,none)) w := by
  obtain ⟨directory,name,rfl⟩ : ∃ directory name, target = directory ++ [name] :=
    ⟨_,_,(List.dropLast_append_getLast ha.holds.ne_nil).symm⟩
  obtain ⟨s,hsome,hmissing,-,-⟩ := patchFor_success L ha.success
  have hI' : I none := hnew s hsome none (hmissing hm)
  refine ensures_bind (removeDocument_faulty L hphys ha.holds ha.success hI hI' path) (fun r w₃ h => ?_)
  rcases h with ⟨h,rfl⟩ | ⟨rfl,rfl,he⟩ | ⟨hr,he,hfile,hothers,hholder⟩
  · exact .failed h (.inl rfl) rfl
  · exact .absent ha hm he
  · exact .removed ha hm he hr hfile hothers hholder

/-- The replacement everything else ends with, where the text is another. -/
theorem replacement_settled {w : World} {path : Path} {request : Request} {current : DocumentSnapshot}
    (hphys : Physical w.tree target) (hI : I (w.tree.file target))
    (ha : Accepted L me path target request w.tree current) (hm : restoresMissing request = false)
    (hb : (patchFor L request current).snapshot.map (fun s => s.revision.bytes) ≠ some current.revision.bytes)
    (hnew : ∀ s, (patchFor L request current).snapshot = some s → ∀ f, Holds f s.revision → I f) (budget : ℕ) :
    Ensures (failing removal me) (keeps target I) (fun r w' => Settled L removal me path target request w r w')
      (do
        let replaced ← replaceDocument L budget path target current (patchFor L request current)
        pure (replaced,some current)) w := by
  obtain ⟨directory,name,rfl⟩ : ∃ directory name, target = directory ++ [name] :=
    ⟨_,_,(List.dropLast_append_getLast ha.holds.ne_nil).symm⟩
  obtain ⟨s,hsome,-,hexists,-⟩ := patchFor_success L ha.success
  have hne : s.revision.bytes ≠ current.revision.bytes := by
    intro h
    rw [hsome,Option.map_some,h] at hb
    exact hb rfl
  have hI' : ∀ m, I (some (.regular m s.revision.bytes)) := by
    refine fun m => hnew s hsome _ ?_
    have he := hexists hm
    change s.revision = ⟨true,s.revision.bytes⟩
    rw [← he]
  refine ensures_bind (replaceDocument_faulty L hphys ha.holds ha.success (by rw [hsome]; rfl) hI hI'
    budget path) (fun r w₃ h => ?_)
  rcases h with ⟨h,hclean,hholder⟩ | ⟨hr,hname,m,hfile,hmode,hothers,hholder⟩
  · exact .failed h hclean hholder
  · exact .replaced ha hm hsome hne hr hname hfile hmode hothers hholder

theorem updateLocked_faulty {w : World} {path : Path} {request : Request} (hI : I (w.tree.file target))
    (hnew : ∀ current s, Accepted L me path target request w.tree current →
      (patchFor L request current).snapshot = some s → ∀ f, Holds f s.revision → I f) (budget : ℕ) :
    Ensures (failing removal me) (keeps target I) (fun r w' => Settled L removal me path target request w r w')
      (updateLocked L budget path target request) w := by
  refine ensures_perform (fun r w₁ hres => ?_)
  have hsame : w₁ = w := by rcases hres with ⟨rfl,-⟩ | ⟨-,rfl⟩ <;> rfl
  subst hsame
  refine ⟨hI,?_⟩
  cases r with
  | error e => exact .failed (failed_failure (by simp) _ _) (.inl rfl) rfl
  | ok resolved =>
    dsimp only
    split
    · exact .failed (failed_failure (by simp) _ _) (.inl rfl) rfl
    · next heq =>
      have heq := not_not.mp heq
      subst heq
      have hres : resolveTarget w₁.tree me.current path = .ok resolved := by
        rcases hres with ⟨-,h⟩ | ⟨⟨e,h⟩,-⟩
        · exact h.symm
        · cases h
      have hphys := resolveTarget_physical hres
      refine ensures_perform (fun found w₂ hread => ?_)
      have hsame : w₂ = w₁ := by rcases hread with ⟨rfl,-⟩ | ⟨-,rfl⟩ <;> rfl
      subst hsame
      refine ⟨hI,?_⟩
      split
      · refine .failed ⟨rfl,?_⟩ (.inl rfl) rfl
        unfold unreadable
        split <;> simp
      · next current hv =>
        have hfound : found = reading w₂.tree resolved := by
          rcases hread with ⟨-,h⟩ | ⟨⟨message,rfl⟩,-⟩
          · exact h
          · cases hv
        rw [hfound] at hv
        obtain ⟨hholds,hsnap⟩ := holds_of_read L hphys hv
        split
        · exact .failed (failed_failure (by simp) _ _) (.inl rfl) rfl
        · next hstaged =>
          have hacc : (patchFor L request current).status = .success →
              Accepted L me path resolved request w₂.tree current := by
            refine fun h => ⟨hres,hholds,hsnap,fun staged hs => ?_,h⟩
            rw [hs] at hstaged
            simpa using hstaged
          split
          · next h =>
            have ha := hacc h.2
            exact removal_settled L hphys hI ha h.1 (fun s => hnew current s ha)
          · next hm =>
            split
            · next hs => exact .failed (patchFor_failed L hs) (.inl rfl) rfl
            · next hs =>
              have hs := not_not.mp hs
              have ha := hacc hs
              have hm : restoresMissing request = false := by
                cases h : restoresMissing request with
                | false => rfl
                | true => exact absurd ⟨h,hs⟩ hm
              split
              · next hb => exact .kept ha hm hb
              · next hb => exact replacement_settled L hphys hI ha hm hb (fun s => hnew current s ha) budget

end
/-! ### The whole operation -/

/-- New are at most directories above the target, and the lock file. -/
def Grown (target : List Name) (t t' : Tree) : Prop :=
  ∀ q, t'.file q = t.file q ∨ (t.file q = none ∧ q <+: target.dropLast ∧ t'.isDirectory q = true) ∨
    (t.file q = none ∧ q = (lockPath target).components ∧ ∃ m, t'.file q = some (.regular m []))

theorem Grown.refl (target : List Name) (t : Tree) : Grown target t t := fun _ => .inl rfl

theorem lockPath_components (target : List Name) :
    (lockPath target).components = target.dropLast ++ [target.getLast?.getD [] ++ bytes ".lock"] := rfl

theorem lockPath_ne (target : List Name) : (lockPath target).components ≠ target := by
  rw [lockPath_components]
  intro h
  have hl : (bytes ".lock").length = 5 := by decide +kernel
  rcases List.eq_nil_or_concat' target with rfl | ⟨d,n,rfl⟩
  · simp at h
  · simp only [List.dropLast_concat,List.getLast?_concat,Option.getD_some,List.append_cancel_left_eq,
      List.singleton_inj] at h
    have := congrArg List.length h
    rw [List.length_append,hl] at this
    omega

theorem lockPath_not_above (target : List Name) : ¬ (lockPath target).components <+: target.dropLast := by
  intro h
  have := h.length_le
  rw [lockPath_components,List.length_append,List.length_singleton] at this
  omega

/-- The target itself is as it was. -/
theorem Grown.target {target : List Name} {t t' : Tree} (h : Grown target t t') :
    t'.file target = t.file target := by
  rcases h target with he | ⟨hn,hp,-⟩ | ⟨-,he,-⟩
  · exact he
  · have hlen := hp.length_le
    rw [List.length_dropLast] at hlen
    have hnil : target = [] := by
      rw [← List.length_eq_zero_iff]
      omega
    have hroot := t.root
    rw [hnil] at hn
    rw [hn] at hroot
    cases hroot
  · exact absurd he.symm (lockPath_ne target)

theorem Grown.of_extends {target : List Name} {t t' : Tree} (h : t.Extends t' target.dropLast) :
    Grown target t t' := by
  intro q
  rcases h q with he | ⟨hn,hp,hd⟩
  · exact .inl he
  · exact .inr (.inl ⟨hn,hp,hd⟩)

/-- The directory of the target is there, and so is its lock file. -/
structure Prepared (target : List Name) (t : Tree) : Prop where
  directory : t.isDirectory target.dropLast = true
  lock : ∃ f, t.file (lockPath target).components = some f ∧ f.isDirectory = false ∧ f.isSymlink = false

/-- What updating comes to: nothing where the path leads nowhere, and else a failure that
leaves the target alone, or what was settled under the lock. -/
def Outcome (removal : Prop) (me : Process) (path : Path) (request : Request) (w : World)
    (r : SaveResult × Option DocumentSnapshot) (w' : World) : Prop :=
  (r.1.Failed ∧ w' = w) ∨ ∃ target, resolveTarget w.tree me.current path = .ok target ∧
    w'.holder = w.holder ∧ ((r.1.Failed ∧ Grown target w.tree w'.tree) ∨
      (rollbackTargetMatches me.current target request.previous = true ∧
        w.holder (lockPath target).components = none ∧ ∃ w₁ w₂, Grown target w.tree w₁.tree ∧
        Prepared target w₁.tree ∧ Settled L removal me path target request w₁ r w₂ ∧ w₂.tree = w'.tree))

section
variable {me : Process} {removal : Prop} {target : List Name} {I : Option File → Prop}

theorem acquire_faulty {w : World} (hI : I (w.tree.file target)) (lock : Path) (budget : ℕ) :
    Ensures (failing removal me) (keeps target I)
      (fun r w' => (w' = w ∧ ∃ e, r = .error e) ∨ (r = .ok () ∧ w.holder (lock.absolute me.current) = none ∧
        w' = w.hold (lock.absolute me.current) (some me.id)))
      (acquire lock budget) w := by
  induction budget with
  | zero => trivial
  | succ budget ih =>
    refine ensures_perform (fun r w' hs => ?_)
    rcases hs with ⟨rfl,hfree,rfl⟩ | ⟨⟨e,rfl⟩,rfl⟩
    · exact ⟨hI,.inr ⟨rfl,hfree,rfl⟩⟩
    · refine ⟨hI,?_⟩
      cases e with
      | interrupted => exact ih
      | _ => exact .inl ⟨rfl,_,rfl⟩

/-- Settling changes no lock. -/
theorem Settled.holder {path : Path} {request : Request} {w w' : World}
    {r : SaveResult × Option DocumentSnapshot} (h : Settled L removal me path target request w r w') :
    w'.holder = w.holder := by
  cases h with
  | failed _ _ h => exact h
  | removed _ _ _ _ _ _ h => exact h
  | replaced _ _ _ _ _ _ _ _ _ h => exact h
  | _ => rfl

theorem World.unhold {w₁ w₂ : World} {l : List Name} {id : ℕ} (hfree : w₁.holder l = none)
    (hw : w₂.holder = (w₁.hold l (some id)).holder) : (w₂.hold l none).holder = w₁.holder := by
  funext p
  have hp := congrFun hw p
  by_cases h : p = l
  · subst h
    simp [World.hold,hfree]
  · simpa [World.hold,h] using hp

/-- Making the directories above the target changes nothing that is there. -/
theorem createDirectories_extends {w w' : World} {path : Path} {r : Except Errno Unit}
    (hn : ∀ c ∈ path.absolute me.current, IsName c) (hp : w.tree.Plain (path.absolute me.current))
    (h : failing removal me w (.createDirectories path) r w') :
    w.tree.Extends w'.tree (path.absolute me.current) ∧ w'.holder = w.holder ∧
      ∀ u, r = .ok u → w'.tree.isDirectory (path.absolute me.current) = true := by
  rcases h with h | ⟨⟨e,he⟩,t,hmade,rfl⟩
  · cases r with
    | ok u =>
      obtain ⟨m,t,hc,rfl⟩ := h
      obtain ⟨hext,hdir⟩ := Tree.createDirectories_plain hn hp hc
      exact ⟨hext,rfl,fun _ _ => hdir⟩
    | error e =>
      obtain ⟨-,t,hmade,rfl⟩ := h
      exact ⟨hmade.extends hn hp,rfl,by simp⟩
  · exact ⟨hmade.extends hn hp,rfl,by simp [he]⟩

/-- The lock file may have been made, and nothing else. -/
structure LockOpened (target : List Name) (w w' : World) : Prop where
  others : ∀ q, q ≠ (lockPath target).components → w'.tree.file q = w.tree.file q
  lock : w'.tree.file (lockPath target).components = w.tree.file (lockPath target).components ∨
    w.tree.file (lockPath target).components = none ∧
      ∃ m, w'.tree.file (lockPath target).components = some (.regular m [])
  holder : w'.holder = w.holder

theorem LockOpened.refl (target : List Name) (w : World) : LockOpened target w w := ⟨fun _ _ => rfl,.inl rfl,rfl⟩

/-- What is a directory or a link is the same one. -/
theorem LockOpened.isDirectory {w w' : World} (h : LockOpened target w w') {q : List Name}
    (hq : q <+: target.dropLast) : w'.tree.isDirectory q = w.tree.isDirectory q := by
  rw [Tree.isDirectory,h.others q]
  · rfl
  · rintro rfl
    exact lockPath_not_above target hq

/-- Opening the lock file makes at most this file, and succeeds only with one. -/
theorem openLock_opened {w w' : World} {r : Except Errno Unit} (hn : ∀ c ∈ target.dropLast, IsName c)
    (hp : w.tree.Plain target.dropLast) (h : failing removal me w (.openLock (lockPath target)) r w') :
    LockOpened target w w' ∧ ∀ u, r = .ok u → w.tree.isDirectory target.dropLast = true → Prepared target w'.tree := by
  rcases h with h | ⟨⟨e,he⟩,rfl⟩
  swap
  · exact ⟨.refl _ _,by simp [he]⟩
  have hlock : (lockPath target).absolute me.current = (lockPath target).components := rfl
  simp only [Works,hlock] at h
  split at h
  · obtain ⟨rfl,rfl⟩ := h
    exact ⟨.refl _ _,by simp⟩
  · next d n he =>
    rw [lockPath_components] at he
    obtain ⟨rfl,rfl,hd⟩ := Tree.entry_snoc hn hp he
    rw [← lockPath_components] at h
    split at h
    · next hnone =>
      obtain ⟨m,-,rfl⟩ := h
      have hself := Tree.file_put_self hd (by rw [Tree.isDirectory,← lockPath_components,hnone]; rfl)
        (some (.regular m []))
      exact ⟨⟨fun q hq => Tree.file_put_of_ne hq _,.inr ⟨hnone,m,hself⟩,rfl⟩,
        fun _ _ _ => ⟨Tree.isDirectory_put hd _,_,hself,rfl,rfl⟩⟩
    · obtain ⟨rfl,rfl⟩ := h
      exact ⟨.refl _ _,by simp⟩
    · obtain ⟨rfl,rfl⟩ := h
      exact ⟨.refl _ _,by simp⟩
    · next f hdir hlink hf =>
      obtain ⟨-,rfl⟩ := h
      refine ⟨.refl _ _,fun _ _ hdirectory => ⟨hdirectory,f,hf,?_,?_⟩⟩
      · cases f <;> simp_all [File.isDirectory]
      · cases f <;> simp_all [File.isSymlink]

theorem Grown.opened {t : Tree} {w w' : World} (h : t.Extends w.tree target.dropLast) (ho : LockOpened target w w') :
    Grown target t w'.tree := by
  intro q
  by_cases hq : q = (lockPath target).components
  · subst hq
    have hsame : w.tree.file (lockPath target).components = t.file (lockPath target).components := by
      rcases h (lockPath target).components with he | ⟨-,hp,-⟩
      · exact he
      · exact absurd hp (lockPath_not_above target)
    rcases ho.lock with he | ⟨hn,hm⟩
    · exact .inl (he.trans hsame)
    · exact .inr (.inr ⟨hsame ▸ hn,rfl,hm⟩)
  · rw [Tree.isDirectory,ho.others q hq]
    rcases h q with he | hnew
    · exact .inl he
    · exact .inr (.inl hnew)

/-- What is settled under the lock is allowed of the target. -/
theorem Settled.keeps {path : Path} {request : Request} {w w' : World} {r : SaveResult × Option DocumentSnapshot}
    (h : Settled L removal me path target request w r w') (hI : I (w.tree.file target))
    (hnew : ∀ current s, Accepted L me path target request w.tree current →
      (patchFor L request current).snapshot = some s → ∀ f, Holds f s.revision → I f) : I (w'.tree.file target) := by
  cases h with
  | failed _ hclean _ =>
    rw [hclean.target]
    exact hI
  | kept _ _ _ => exact hI
  | absent _ _ _ => exact hI
  | @removed current r w' ha hm he hr hfile hothers hholder =>
    obtain ⟨s,hsome,hmissing,-,-⟩ := patchFor_success L ha.success
    rw [hfile]
    exact hnew current s ha hsome none (hmissing hm)
  | @replaced current s r w' m ha hm hsome hb hr hname hfile hmode hothers hholder =>
    obtain ⟨s',hsome',-,hexists,-⟩ := patchFor_success L ha.success
    cases hsome.symm.trans hsome'
    rw [hfile]
    refine hnew current s ha hsome _ ?_
    change s.revision = ⟨true,s.revision.bytes⟩
    rw [← hexists hm]

/-- What is done once the lock is taken. -/
def lockTaken (budget : ℕ) (path : Path) (target : List Name) (request : Request) :
    Command (SaveResult × Option DocumentSnapshot) := do
  let result ← updateLocked L budget path target request
  Storage.unlock (lockPath target)
  pure result

/-- The lock is given back, with what was settled under it. -/
theorem lockTaken_faulty {w : World} {path : Path} {request : Request}
    (hfree : w.holder (lockPath target).components = none) (hI : I (w.tree.file target))
    (hnew : ∀ current s, Accepted L me path target request w.tree current →
      (patchFor L request current).snapshot = some s → ∀ f, Holds f s.revision → I f) (budget : ℕ) :
    Ensures (failing removal me) (keeps target I)
      (fun r w' => w'.holder = w.holder ∧ ∃ w₁, Settled L removal me path target request
        (w.hold (lockPath target).components (some me.id)) r w₁ ∧ w₁.tree = w'.tree)
      (lockTaken L budget path target request) (w.hold (lockPath target).components (some me.id)) := by
  have hset := @updateLocked_faulty L me removal target I (w.hold (lockPath target).components (some me.id))
    path request hI hnew budget
  refine ensures_bind hset (fun r w₁ hset => ensures_perform (fun _ w₂ hs => ?_))
  have hs : Works me w₁ (.unlock (lockPath target)) () w₂ := hs.resolve_right id
  have hheld : w₁.holder ((lockPath target).absolute me.current) = some me.id := by
    rw [hset.holder]
    exact Function.update_self _ _ _
  simp only [Works,hheld,if_true] at hs
  subst hs
  exact ⟨hset.keeps L hI hnew,World.unhold hfree hset.holder,w₁,hset,rfl⟩

theorem updateTarget_faulty {w : World} {path : Path} {request : Request}
    (hT : resolveTarget w.tree me.current path = .ok target) (hI : I (w.tree.file target))
    (hnew : ∀ t current s, t.file target = w.tree.file target →
      Accepted L me path target request t current →
      (patchFor L request current).snapshot = some s → ∀ f, Holds f s.revision → I f) (budget : ℕ) :
    Ensures (failing removal me) (keeps target I)
      (fun r w' => w'.holder = w.holder ∧ ((r.1.Failed ∧ Grown target w.tree w'.tree) ∨
        (w.holder (lockPath target).components = none ∧ ∃ w₁ w₂, Grown target w.tree w₁.tree ∧
        Prepared target w₁.tree ∧ Settled L removal me path target request w₁ r w₂ ∧ w₂.tree = w'.tree)))
      (updateTarget L budget path target request) w := by
  have hphys := resolveTarget_physical hT
  have hnames : ∀ c ∈ target.dropLast, IsName c := fun c hc => hphys.names c (List.dropLast_subset _ hc)
  have hplain : w.tree.Plain target.dropLast := hphys.plain.above (List.dropLast_prefix _)
  have hkeep : ∀ {t : Tree}, Grown target w.tree t → I (t.file target) := by
    intro t h
    rw [h.target]
    exact hI
  refine ensures_perform (fun r w₁ hs => ?_)
  -- Directories may be there now, and nothing else.
  obtain ⟨hext,hholder,hdirectory⟩ := @createDirectories_extends me removal w w₁ (Path.ofLocation target).parentPath r
    hnames hplain hs
  have hgrown := Grown.of_extends hext
  refine ⟨hkeep hgrown,?_⟩
  cases r with
  | error e => exact ⟨hholder,.inl ⟨failed_failure (by simp) _ _,hgrown⟩⟩
  | ok u =>
    have hplain₁ : w₁.tree.Plain target.dropLast := fun q hq => hext.isSymlink.trans (hplain q hq)
    refine ensures_perform (fun r w₂ hs => ?_)
    obtain ⟨hopened,hprepared⟩ := openLock_opened hnames hplain₁ hs
    have hgrown₂ := Grown.opened hext hopened
    have hholder₂ := hopened.holder.trans hholder
    refine ⟨hkeep hgrown₂,?_⟩
    cases r with
    | error e => exact ⟨hholder₂,.inl ⟨failed_storageError _ _ _,hgrown₂⟩⟩
    | ok u' =>
      have hprepared := hprepared u' rfl (hdirectory u rfl)
      refine ensures_bind (acquire_faulty (hkeep hgrown₂) _ budget) (fun r w₃ h => ?_)
      rcases h with ⟨rfl,e,rfl⟩ | ⟨rfl,hfree,rfl⟩
      · exact ⟨hholder₂,.inl ⟨failed_storageError _ _ _,hgrown₂⟩⟩
      refine (lockTaken_faulty L hfree (hkeep hgrown₂) (fun current s => hnew w₂.tree current s hgrown₂.target)
        budget).mono (fun r w₄ h => ?_)
      obtain ⟨hh,w₅,hset,htree⟩ := h
      exact ⟨hh.trans hholder₂,.inr ⟨hholder₂ ▸ hfree,w₂.hold (lockPath target).components (some me.id),w₅,
        hgrown₂,hprepared,hset,htree⟩⟩

theorem updateDocument_faulty {w : World} {path : Path} {request : Request}
    (hI : ∀ target, resolveTarget w.tree me.current path = .ok target → I (w.tree.file target))
    (hnew : ∀ target, resolveTarget w.tree me.current path = .ok target → ∀ t current s,
      t.file target = w.tree.file target → Accepted L me path target request t current →
      (patchFor L request current).snapshot = some s → ∀ f, Holds f s.revision → I f) (budget : ℕ) :
    Ensures (failing removal me)
      (fun _ _ _ w' => ∀ target, resolveTarget w.tree me.current path = .ok target → I (w'.tree.file target))
      (Outcome L removal me path request w) (updateDocument L budget me path request) w := by
  unfold updateDocument
  split
  · exact .inl ⟨failed_failure (by simp) _ _,rfl⟩
  · refine ensures_perform (fun r w₁ hs => ?_)
    have hsame : w₁ = w := by rcases hs with ⟨rfl,-⟩ | ⟨-,rfl⟩ <;> rfl
    subst hsame
    refine ⟨hI,?_⟩
    cases r with
    | error e => exact .inl ⟨failed_failure (by simp) _ _,rfl⟩
    | ok target =>
      have hT : resolveTarget w₁.tree me.current path = .ok target := by
        rcases hs with ⟨-,h⟩ | ⟨⟨e,h⟩,-⟩
        · exact h.symm
        · cases h
      dsimp only
      split
      · exact .inl ⟨failed_failure (by simp) _ _,rfl⟩
      · next hmatch =>
        refine ensures_perform (fun found w₂ hread => ?_)
        have hsame : w₂ = w₁ := by rcases hread with ⟨rfl,-⟩ | ⟨-,rfl⟩ <;> rfl
        subst hsame
        refine ⟨hI,?_⟩
        split
        · refine .inl ⟨⟨rfl,?_⟩,rfl⟩
          unfold unreadable
          split <;> simp
        · have h := @updateTarget_faulty L me removal target I w₂ path request hT (hI target hT) (hnew target hT) budget
          refine ((h.weaken (fun s c r s' hk T hT' => ?_))).mono (fun r w' h => ?_)
          · cases hT.symm.trans hT'
            exact hk
          · refine .inr ⟨target,hT,h.1,?_⟩
            rcases h.2 with h | h
            · exact .inl h
            · exact .inr ⟨by simpa using hmatch,h⟩

theorem updateDocument_outcome (removal : Prop) (budget : ℕ) (me : Process) (path : Path) (request : Request) (w : World) :
    Ensures (failing removal me) anyStep (Outcome L removal me path request w) (updateDocument L budget me path request) w :=
  (updateDocument_faulty (I := fun _ => True) L (fun _ _ => trivial)
    (fun _ _ _ _ _ _ _ _ _ _ => trivial) budget).weaken (fun _ _ _ _ _ => trivial)

end
end DocumentStore
end HolonightConfig
