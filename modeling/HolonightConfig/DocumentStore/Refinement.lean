import HolonightConfig.Document.Overrides
import HolonightConfig.DocumentStore.Serializable
import HolonightConfig.Program.Simulation

/-! Without faults, and with nobody else about, an update of the store is an update of the document
by itself; with faults and others it is one at some time between its call and its return. -/
namespace HolonightConfig
open Text Toml Posix Program

namespace DocumentStore
open Storage Document Change
variable (L : Library)

/-! ### The document by itself -/

/-- What is said of a request for a document, with the document before, and what is left of it. -/
def revise (path : Path) (request : Request) (current : DocumentSnapshot) :
    (SaveResult × Option DocumentSnapshot) × DocumentRevision :=
  let patched := patchFor L request current
  let octets := (patched.snapshot.map (fun s => s.revision.bytes)).getD []
  if request.staged.any (fun staged => current.revision ≠ staged) then
    ((failure .revisionChanged (bytes "staged document changed; rollback refused") path,none),current.revision)
  else if patched.status ≠ .success then ((patched,none),current.revision)
  else if restoresMissing request then
    ((if current.revision.exists_ then placed path patched else patched,none),⟨false,[]⟩)
  else if octets = current.revision.bytes then (({ patched with snapshot := some current },some current),current.revision)
  else ((placed path patched,some current),⟨true,octets⟩)

/-- What reading finds of a revision. -/
def found (revision : DocumentRevision) : FileContent :=
  if revision.exists_ then .content revision.bytes else .missing

/-- What an update says, and what it leaves of the revision that is there. -/
def update (target : List Name) (u : Update) (revision : DocumentRevision) :
    (SaveResult × Option DocumentSnapshot) × DocumentRevision :=
  let read := readDocument L (.ofLocation target) (found revision)
  match read.value with
  | none => ((unreadable read.diagnostics,none),revision)
  | some current => revise L u.path u.request current

/-- The target holds the revision, and nothing else is changed, but that its lock file may be there now. -/
structure Leaves (target : List Name) (w : World) (revision : DocumentRevision) (w' : World) : Prop where
  document : Holds (w'.tree.file target) revision
  others : ∀ q, q ≠ target → q ≠ (lockPath target).components → w'.tree.file q = w.tree.file q
  lock : w'.tree.file (lockPath target).components = w.tree.file (lockPath target).components ∨
    w.tree.file (lockPath target).components = none ∧
      ∃ m, w'.tree.file (lockPath target).components = some (.regular m [])
  holder : w'.holder = w.holder

theorem Leaves.of_others {target : List Name} {w w' : World} {revision : DocumentRevision}
    (h : Holds (w'.tree.file target) revision) (hothers : ∀ q, q ≠ target → w'.tree.file q = w.tree.file q)
    (hholder : w'.holder = w.holder) : Leaves target w revision w' :=
  ⟨h,fun q hq _ => hothers q hq,.inl (hothers _ (lockPath_ne target)),hholder⟩

theorem Leaves.refl {target : List Name} {w : World} {revision : DocumentRevision}
    (h : Holds (w.tree.file target) revision) : Leaves target w revision w := .of_others h (fun _ _ => rfl) rfl

/-- The lock file appears once. -/
theorem Leaves.trans {target : List Name} {w w₁ w₂ : World} {revision revision' : DocumentRevision}
    (h : Leaves target w revision w₁) (h' : Leaves target w₁ revision' w₂) : Leaves target w revision' w₂ := by
  refine ⟨h'.document,fun q hq hl => (h'.others q hq hl).trans (h.others q hq hl),?_,h'.holder.trans h.holder⟩
  rcases h.lock with he | ⟨hn,m,hm⟩
  · rw [← he]
    exact h'.lock
  · rcases h'.lock with he' | ⟨hn',-⟩
    · exact .inr ⟨hn,m,he'.trans hm⟩
    · rw [hm] at hn'
      cases hn'

/-- What opens the lock file before is part of it. -/
theorem Leaves.opened {target : List Name} {w w₁ w₂ : World} {revision revision' : DocumentRevision}
    (hholds : Holds (w₁.tree.file target) revision) (ho : LockOpened target w w₁)
    (h : Leaves target w₁ revision' w₂) : Leaves target w revision' w₂ :=
  Leaves.trans ⟨hholds,fun q _ hl => ho.others q hl,ho.lock,ho.holder⟩ h

/-! ### What success says -/

section
variable {sem : Semantics Call Call.Answer World} {path : Path} {target : List Name} {patched : SaveResult}
  {current : DocumentSnapshot} {w : World}

theorem ensures_anything {α : Type} (p : Command α) : Ensures sem anyStep (fun _ _ => True) p w := by
  induction p generalizing w with
  | ret a => trivial
  | call c next ih => exact fun r w' _ => ⟨trivial,ih r⟩
  | exhausted => trivial

theorem fillTemporary_refuses (budget : ℕ) (file : Descriptor) (octets : Bytes) (mode : ℕ) :
    Ensures sem anyStep (fun r _ => ∀ x, r = some x → x.status ≠ .success)
      (fillTemporary budget path file octets mode) w := by
  refine ensures_bind (ensures_anything _) (fun r w₁ _ => ?_)
  cases r with
  | error e =>
    rintro x ⟨rfl⟩
    simp [storageError,failure]
  | ok u =>
    refine ensures_perform (fun r w₂ _ => ⟨trivial,?_⟩)
    cases r with
    | error e =>
      rintro x ⟨rfl⟩
      simp [storageError,failure]
    | ok u =>
      refine ensures_perform (fun r w₃ _ => ⟨trivial,?_⟩)
      cases r with
      | error e =>
        rintro x ⟨rfl⟩
        simp [storageError,failure]
      | ok u =>
        intro x h
        cases h

theorem prepareTemporary_refuses (budget : ℕ) (metadata : Option Metadata) (file : Descriptor) (octets : Bytes) :
    Ensures sem anyStep (fun r _ => ∀ x, r = some x → x.status ≠ .success)
      (prepareTemporary L budget path target current metadata file octets) w := by
  refine ensures_bind (fillTemporary_refuses _ _ _ _) (fun r w₁ hr => ?_)
  cases r with
  | some x => exact hr
  | none =>
    refine ensures_perform (fun r w₂ _ => ⟨trivial,?_⟩)
    cases r with
    | error e =>
      rintro x ⟨rfl⟩
      simp [storageError,failure]
    | ok u =>
      refine ensures_bind (ensures_anything _) (fun same w₃ _ => ?_)
      split
      · refine ensures_bind (ensures_anything _) (fun same w₄ _ => ?_)
        split
        · intro x h
          cases h
        · rintro x ⟨rfl⟩
          simp [failure]
      · rintro x ⟨rfl⟩
        simp [failure]

theorem syncTarget_placed (message : Bytes) :
    Ensures sem anyStep (fun r _ => r.status = .success → r = placed path patched)
      (syncTarget message path target patched) w := by
  refine ensures_perform (fun r w₁ _ => ⟨trivial,?_⟩)
  cases r with
  | error e =>
    intro h
    cases h
  | ok u => exact fun _ => rfl

/-- A replacement that succeeds says what was asked for. -/
theorem replaceDocument_placed (budget : ℕ) :
    Ensures sem anyStep (fun r _ => r.status = .success → r = placed path patched)
      (replaceDocument L budget path target current patched) w := by
  refine ensures_bind (ensures_anything _) (fun r w₁ _ => ?_)
  cases r with
  | error e =>
    intro h
    cases h
  | ok metadata =>
    refine ensures_perform (fun r w₂ _ => ⟨trivial,?_⟩)
    cases r with
    | error e =>
      intro h
      cases h
    | ok temporary =>
      refine ensures_bind (prepareTemporary_refuses L _ _ _ _) (fun r w₃ hr => ?_)
      cases r with
      | some x => exact ensures_perform (fun _ w₄ _ => ⟨trivial,fun h => absurd h (hr x rfl)⟩)
      | none =>
        refine ensures_perform (fun r w₄ _ => ⟨trivial,?_⟩)
        cases r with
        | error e =>
          refine ensures_perform (fun _ w₅ _ => ⟨trivial,fun h => ?_⟩)
          cases h
        | ok u => exact syncTarget_placed _

/-- So does a removal of what is there. -/
theorem removeDocument_placed (he : current.revision.exists_ = true) :
    Ensures sem anyStep (fun r _ => r.status = .success → r = placed path patched)
      (removeDocument L path target current patched) w := by
  unfold removeDocument
  rw [if_neg (by simp [he])]
  refine ensures_perform (fun r w₁ _ => ⟨trivial,?_⟩)
  cases r with
  | error e =>
    intro h
    cases h
  | ok u =>
    refine ensures_bind (ensures_anything _) (fun same w₂ _ => ?_)
    split
    · refine ensures_perform (fun r w₃ _ => ⟨trivial,?_⟩)
      cases r with
      | error e =>
        intro h
        cases h
      | ok u => exact syncTarget_placed _
    · intro h
      cases h

end

/-! ### What is asked for -/

section
variable {L} {path : Path} {target : List Name} {current s : DocumentSnapshot} {request : Request}

/-- What is asked for, unless it is a missing document, can be read. -/
theorem patchFor_parsed (h : (patchFor L request current).snapshot = some s) (hm : restoresMissing request = false) :
    ∃ path', (parseDocument L s.revision.bytes path').value = some s := by
  have hread : ∀ {octets : Bytes} {path' : Path}, (parseDocument L octets path').value = some s →
      ∃ path', (parseDocument L s.revision.bytes path').value = some s := by
    intro octets path' hp
    refine ⟨path',?_⟩
    rw [(parseDocument_some L hp).2]
    exact hp
  unfold patchFor at h
  unfold restoresMissing at hm
  cases hp : request.previous with
  | none =>
    rw [hp] at h
    obtain ⟨candidate,hparse⟩ := (patchDocument_patching L current h).parsed
    exact hread hparse
  | some previous =>
    rw [hp] at h hm
    have he : previous.revision.exists_ = true := by simpa using hm
    unfold prepareRestore at h
    dsimp only at h
    rw [if_pos he] at h
    split at h
    · cases h
    · next snapshot hparse =>
      split at h
      · cases h
      · cases h
        exact hread hparse

/-- The document of a revision that is there is one of this revision. -/
theorem snapshotAt_revision {f : Option File} {revision : DocumentRevision} (hf : Holds f revision)
    (h : snapshotAt L target revision = some current) : current.revision = revision := by
  rcases hf.cases with ⟨-,rfl⟩ | ⟨m,-,he⟩
  · cases h
    rfl
  · rw [snapshotAt,if_pos he] at h
    rw [(parseDocument_some L h).2,← he]

end

/-! ### One update -/

section
variable {L} {me : Process} {path : Path} {target : List Name} {w : World} {current : DocumentSnapshot}
  {request : Request} {budget : ℕ} {w' : World} {revision : DocumentRevision}

/-- The target under the lock, one name below its directory. -/
theorem Standing.snoc (h : Standing L me path target w.tree current) :
    target.dropLast ++ [target.getLast h.ne_nil] = target := List.dropLast_append_getLast h.ne_nil

/-- What is refused under the lock is refused by itself, and changes nothing. -/
theorem updateLocked_refuses (h : Standing L me path target w.tree current)
    (hrefused : request.staged.any (fun staged => current.revision ≠ staged) = true ∨
      (patchFor L request current).status ≠ .success) :
    Returns (faultless me) anyStep (fun r w' => r = (revise L path request current).1 ∧ w' = w)
      (updateLocked L budget path target request) w := by
  refine returns_perform ⟨_,w,rfl,rfl⟩ (fun r w₁ hr => ⟨trivial,?_⟩)
  obtain ⟨rfl,rfl⟩ := hr
  rw [h.resolved]
  dsimp only
  rw [if_neg (by simp)]
  refine returns_perform ⟨_,w₁,rfl,rfl⟩ (fun found w₂ hr => ⟨trivial,?_⟩)
  obtain ⟨rfl,rfl⟩ := hr
  rw [Path.absolute_ofLocation,h.read]
  dsimp only
  unfold revise
  by_cases hstaged : request.staged.any (fun staged => current.revision ≠ staged) = true
  · rw [if_pos hstaged,if_pos hstaged]
    exact ⟨rfl,rfl⟩
  · have hs := hrefused.resolve_left hstaged
    have hkept : ¬ (request.previous.any (fun p => !p.revision.exists_) = true ∧
        (patchFor L request current).status = .success) := fun hc => hs hc.2
    rw [if_neg hstaged,if_neg hstaged,if_neg hkept,if_pos hs,if_pos hs]
    exact ⟨rfl,rfl⟩

theorem removeDocument_refines (h : Standing L me path target w.tree current) {patched : SaveResult}
    (hs : patched.status = .success) :
    Returns (faultless me) anyStep (fun r w' =>
      r = (if current.revision.exists_ then placed path patched else patched) ∧ Leaves target w ⟨false,[]⟩ w')
      (removeDocument L path target current patched) w := by
  cases he : current.revision.exists_ with
  | false =>
    rcases h.holds.cases with ⟨hf,hr⟩ | ⟨m,-,he'⟩
    · rw [removeDocument,he]
      refine ⟨rfl,.refl ?_⟩
      rw [hf]
      rfl
    · rw [he] at he'
      cases he'
  | true =>
    obtain ⟨directory,name,rfl⟩ : ∃ directory name, target = directory ++ [name] := ⟨_,_,h.snoc.symm⟩
    have hfaulty := @removeDocument_faulty L me False directory name (fun _ => True) w h.physical current h.holds patched hs
      trivial trivial path
    have hsettled := (removeDocument_returns L h hs).and (fun _ _ _ _ => .inl) hfaulty
    refine (hsettled.and (fun _ _ _ _ => id) (removeDocument_placed L he)).mono (fun r w' hr => ?_)
    obtain ⟨⟨hsuccess,hcase⟩,hplaced⟩ := hr
    refine ⟨hplaced hsuccess,?_⟩
    rcases hcase with ⟨hf,-⟩ | ⟨-,-,he'⟩ | ⟨-,-,hfile,hothers,hholder⟩
    · exact absurd hsuccess hf.status.1
    · rw [he] at he'
      cases he'
    · refine .of_others ?_ hothers hholder
      rw [hfile]
      rfl

theorem replaceDocument_refines (h : Standing L me path target w.tree current) (hname : FreeName target w.tree)
    {patched : SaveResult} (hs : patched.status = .success) {octets : Bytes}
    (hoctets : (patched.snapshot.map (fun s => s.revision.bytes)).getD [] = octets) (hb : octets.length ≤ budget) :
    Returns (faultless me) anyStep (fun r w' => r = placed path patched ∧ Leaves target w ⟨true,octets⟩ w')
      (replaceDocument L budget path target current patched) w := by
  obtain ⟨directory,name,rfl⟩ : ∃ directory name, target = directory ++ [name] := ⟨_,_,h.snoc.symm⟩
  have hfaulty := @replaceDocument_faulty L me False directory name (fun _ => True) w h.physical current h.holds patched hs
    octets hoctets trivial (fun _ => trivial) budget path
  have hsettled := (replaceDocument_returns L h hname hs (hoctets ▸ hb)).and (fun _ _ _ _ => .inl) hfaulty
  refine (hsettled.and (fun _ _ _ _ => id) (replaceDocument_placed L budget)).mono (fun r w' hr => ?_)
  obtain ⟨⟨hsuccess,hcase⟩,hplaced⟩ := hr
  refine ⟨hplaced hsuccess,?_⟩
  rcases hcase with ⟨hf,-⟩ | ⟨-,-,m,hfile,-,hothers,hholder⟩
  · exact absurd hsuccess hf.status.1
  · refine .of_others ?_ hothers hholder
    rw [hfile]
    rfl

/-- Under the lock. -/
theorem updateLocked_refines (h : Standing L me path target w.tree current) (hname : FreeName target w.tree)
    (hb : kMaximumDocumentBytes ≤ budget) :
    Returns (faultless me) anyStep (fun r w' => r = (revise L path request current).1 ∧
      Leaves target w (revise L path request current).2 w') (updateLocked L budget path target request) w := by
  by_cases hstaged : request.staged.any (fun staged => current.revision ≠ staged) = true
  · refine (updateLocked_refuses h (.inl hstaged)).mono (fun r w' hr => ⟨hr.1,?_⟩)
    rw [hr.2,revise,if_pos hstaged]
    exact .refl h.holds
  by_cases hs : (patchFor L request current).status = .success
  swap
  · refine (updateLocked_refuses h (.inr hs)).mono (fun r w' hr => ⟨hr.1,?_⟩)
    rw [hr.2,revise,if_neg hstaged,if_pos hs]
    exact .refl h.holds
  obtain ⟨s,hsome,-,-,-⟩ := patchFor_success L hs
  have hexpected : ∀ staged, request.staged = some staged → current.revision = staged := by
    intro staged hst
    rw [hst] at hstaged
    simpa using hstaged
  refine updateLocked_returns L (fun _ _ _ _ _ => trivial) h hexpected hs (fun hm hkept => ?_) (fun hm => ?_)
    (fun hm hne => ?_)
  · rw [hsome,Option.map_some,Option.some.injEq] at hkept
    rw [revise,if_neg hstaged,if_neg (not_not.mpr hs),if_neg (by simp [hm]),hsome,Option.map_some,Option.getD_some,
      if_pos hkept]
    exact ⟨rfl,.refl h.holds⟩
  · refine (removeDocument_refines h hs).mono (fun r w' hr => ?_)
    rw [revise,if_neg hstaged,if_neg (not_not.mpr hs),if_pos hm]
    exact ⟨by rw [hr.1],hr.2⟩
  · rw [hsome,Option.map_some,ne_eq,Option.some.injEq] at hne
    obtain ⟨path',hparse⟩ := patchFor_parsed hsome hm
    obtain ⟨-,hsize,-,-⟩ := parseDocument_value hparse
    refine (replaceDocument_refines h hname hs (by rw [hsome]; rfl) (hsize.trans hb)).mono (fun r w' hr => ?_)
    rw [revise,if_neg hstaged,if_neg (not_not.mpr hs),if_neg (by simp [hm]),hsome,Option.map_some,Option.getD_some,
      if_neg hne]
    exact ⟨by rw [hr.1],hr.2⟩

/-- A call by one process without faults, of a path that leads to the target whatever document is there. -/
structure Called (target : List Name) (w : World) (u : Update) : Prop where
  path : ¬ (u.path.isEmpty ∨ u.path.filename = [])
  leads : ∀ revision w', Leaves target w revision w' → resolveTarget w'.tree u.me.current u.path = .ok target
  captured : rollbackTargetMatches u.me.current target u.request.previous = true
  budget : kMaximumDocumentBytes ≤ u.budget

theorem Leaves.called (h : Leaves target w revision w') {u : Update} (hu : Called target w u) : Called target w' u :=
  ⟨hu.path,fun r w₂ h₂ => hu.leads r w₂ (h.trans h₂),hu.captured,hu.budget⟩

/-- What leads to the target is what it was. -/
theorem Leaves.above (h : Leaves target w revision w') {q : List Name} (hq : q <+: target.dropLast) :
    w'.tree.file q = w.tree.file q := by
  refine h.others q ?_ ?_
  · rintro rfl
    exact h.document.ne_dropLast (hq.eq_of_length_le (by rw [List.length_dropLast]; exact Nat.sub_le _ _)).symm
  · rintro rfl
    exact lockPath_not_above target hq

theorem Leaves.lockable (h : Leaves target w revision w') (hlock : Lockable target w) : Lockable target w' := by
  refine ⟨?_,fun f hf => ?_,?_⟩
  · rw [Tree.isDirectory,h.above (List.prefix_refl _)]
    exact hlock.directory
  · rcases h.lock with he | ⟨-,m,hm⟩
    · exact hlock.lock f (he ▸ hf)
    · cases hm.symm.trans hf
      exact ⟨rfl,rfl⟩
  · rw [h.holder]
    exact hlock.free

theorem Leaves.name (h : Leaves target w revision w') (hname : FreeName target w.tree) : FreeName target w'.tree := by
  obtain ⟨suffix,hs,hfree⟩ := hname
  exact ⟨suffix,hs,(h.others _ (temporaryAt_ne target suffix) (temporaryAt_ne_lock target suffix)).trans hfree⟩

theorem reading_found (hp : Physical w.tree target) (hd : w.tree.isDirectory target.dropLast = true)
    (h : Holds (w.tree.file target) revision) : reading w.tree target = found revision := by
  have hlook : ∀ follow, w.tree.look follow target = _ := fun follow =>
    Tree.look_names hp.names ((Tree.opened_iff_parent w.tree h.ne_nil).mpr hd)
      (fun _ => hp.plain target (List.prefix_refl _))
  unfold reading found
  rw [hlook,hlook]
  rcases h.cases with ⟨hf,rfl⟩ | ⟨m,hf,he⟩
  · rw [hf]
    rfl
  · rw [hf,he]
    rfl

/-- What reading accepts is the document of the revision. -/
theorem snapshotAt_found (h : Holds (w.tree.file target) revision)
    (hv : (readDocument L (.ofLocation target) (found revision)).value = some current) :
    snapshotAt L target revision = some current := by
  unfold snapshotAt
  unfold found at hv
  rcases h.cases with ⟨-,rfl⟩ | ⟨m,-,he⟩
  · exact hv
  · rw [he] at hv ⊢
    rw [if_pos rfl] at hv ⊢
    change (parseDocument L (readChunks revision.bytes) (.ofLocation target)).value = some current at hv
    rwa [parseDocument_readChunks] at hv

/-- An update without faults says what is said of the revision by itself, and leaves what that leaves. -/
theorem updateDocument_refines {u : Update} (hu : Called target w u) (hlock : Lockable target w)
    (hname : FreeName target w.tree) (hholds : Holds (w.tree.file target) revision) :
    Returns (faultless u.me) anyStep (fun r w' => r = (update L target u revision).1 ∧
      Leaves target w (update L target u revision).2 w')
      (updateDocument L u.budget u.me u.path u.request) w := by
  have hresolved := hu.leads _ w (.refl hholds)
  have hreading := reading_found (resolveTarget_physical hresolved) hlock.directory hholds
  cases hv : (readDocument L (.ofLocation target) (found revision)).value with
  | none =>
    simp only [update,hv]
    unfold updateDocument
    rw [if_neg hu.path]
    refine returns_perform ⟨_,w,rfl,rfl⟩ (fun r w₁ hr => ⟨trivial,?_⟩)
    obtain ⟨rfl,rfl⟩ := hr
    rw [hresolved]
    dsimp only
    rw [hu.captured]
    refine returns_perform ⟨_,w₁,rfl,rfl⟩ (fun r w₂ hr => ⟨trivial,?_⟩)
    obtain ⟨rfl,rfl⟩ := hr
    rw [Path.absolute_ofLocation,hreading,hv]
    exact ⟨rfl,.refl hholds⟩
  | some current =>
    simp only [update,hv]
    have hsnap := snapshotAt_found hholds hv
    obtain rfl := snapshotAt_revision hholds hsnap
    have hstand : Standing L u.me u.path target w.tree current := ⟨hresolved,hlock.directory,hholds,hsnap⟩
    refine updateDocument_opens L (fun _ _ _ _ _ => trivial) hu.path hstand hu.captured hlock
      ((by decide : 0 < kMaximumDocumentBytes).trans_le hu.budget) (fun _ _ => trivial) (fun w₁ ho => ?_)
    have hopened := hstand.opened L ho
    have hheld : Standing L u.me u.path target (w₁.hold (lockPath target).components (some u.me.id)).tree current := hopened
    have hfree : w₁.holder (lockPath target).components = none := by
      rw [ho.holder]
      exact hlock.free
    refine (updateLocked_refines hheld (ho.freeName hname) hu.budget).mono (fun r w' hr => ⟨hr.1,?_⟩)
    exact .opened hopened.holds ho ⟨hr.2.document,hr.2.others,hr.2.lock,World.unhold hfree hr.2.holder⟩

/-! ### Updates one after another -/

/-- Updates one after another, of any processes and with any requests, do what they do of the revisions by
themselves: they answer the same and leave the same. -/
theorem updates_refine {us : List Update} (hus : ∀ u ∈ us, Called target w u) (hlock : Lockable target w)
    (hname : FreeName target w.tree) (hholds : Holds (w.tree.file target) revision) :
    InTurn (fun u : Update => faultless u.me) (fun u => updateDocument L u.budget u.me u.path u.request) us
      (fun rs w' => rs = (steps (update L target) us revision).1 ∧
        Leaves target w (steps (update L target) us revision).2 w') w := by
  refine inTurn_steps (fun u hu revision' w₁ h => ?_) (.refl hholds)
  refine Returns.mono (updateDocument_refines (h.called (hus u hu)) (h.lockable hlock) (h.name hname) h.document)
    (fun r w₂ hr => ⟨hr.1,h.trans hr.2⟩)

/-- The target's own path leads to it. -/
theorem resolveTarget_own {t : Tree} {current : List Name} (hn : ∀ c ∈ target, IsName c) (hp : t.Plain target)
    (ho : t.Opened target) : resolveTarget t current (.ofLocation target) = .ok target := by
  have hcomponents : ∀ (pending resolved : List Name), resolved ++ pending = target →
      resolveComponents t resolved pending = .done target := by
    intro pending
    induction pending with
    | nil =>
      rintro resolved rfl
      rw [resolveComponents,List.append_nil]
    | cons c pending ih =>
      intro resolved happ
      have hc : IsName c := hn c (by simp [← happ])
      have hpre : resolved ++ [c] <+: target := ⟨pending,by simpa using happ⟩
      have hopen : t.Opened (resolved ++ [c]) := by
        intro q hq hne
        refine ho q (hq.trans hpre) (fun he => hne ?_)
        exact hq.eq_of_length_le (he ▸ hpre.length_le)
      have hlook : t.look false (resolved ++ [c]) = _ :=
        Tree.look_names (fun c' hc' => hn c' (hpre.subset hc')) hopen (by simp)
      rw [resolveComponents,if_neg hc.1,if_neg (by simp [hc.2.1,hc.2.2])]
      dsimp only
      rw [hlook]
      cases hf : t.file (resolved ++ [c]) with
      | none => exact ih _ (by simpa using happ)
      | some f =>
        cases f with
        | symlink link =>
          have hplain := hp _ hpre
          rw [Tree.isSymlink,hf] at hplain
          cases hplain
        | _ => exact ih _ (by simpa using happ)
  unfold resolveTarget
  rw [Path.isEmpty_ofLocation,Path.absolute_ofLocation,if_neg (by simp),resolveLinks,hcomponents target [] rfl]

/-- A process may always call by the target's own path. -/
theorem called_own (hn : ∀ c ∈ target, IsName c) (hne : target ≠ []) (hp : w.tree.Plain target)
    (hd : w.tree.isDirectory target.dropLast = true) (me : Process) {request : Request}
    (hm : rollbackTargetMatches me.current target request.previous = true) :
    Called target w ⟨me,.ofLocation target,request,kMaximumDocumentBytes⟩ := by
  refine ⟨?_,fun revision w' h => resolveTarget_own hn (fun q hq => ?_) ?_,hm,le_rfl⟩
  · have hlast : (Path.ofLocation target).filename = target.getLast hne := by
      rw [Path.filename,Path.ofLocation,List.getLast?_eq_some_getLast hne,Option.getD_some]
    rw [Path.isEmpty_ofLocation,hlast]
    simpa using (hn _ (List.getLast_mem hne)).1
  · by_cases he : q = target
    · subst he
      rcases h.document.cases with ⟨hf,-⟩ | ⟨m,hf,-⟩ <;> rw [Tree.isSymlink,hf] <;> rfl
    · have hsplit := List.dropLast_append_getLast hne
      have habove : q <+: target.dropLast := by
        rw [← hsplit] at hq he
        exact (List.prefix_concat_iff.mp hq).resolve_left he
      rw [Tree.isSymlink,h.above habove]
      exact hp q hq
  · rw [Tree.opened_iff_parent _ hne,Tree.isDirectory,h.above (List.prefix_refl _)]
    exact hd

end

/-- One process saves, and another takes it back. -/
def savedAndRestored : List Update :=
  [⟨⟨0,[]⟩,homePath,⟨setX,anyDocument,none,none⟩,kMaximumDocumentBytes⟩,
    ⟨⟨1,[]⟩,homePath,⟨[],anyDocument,some ⟨true,bytes "'x' = 1\n"⟩,some (.missing homePath)⟩,kMaximumDocumentBytes⟩]

example : ((steps (update Reference.library [configName]) savedAndRestored ⟨false,[]⟩).1.map (fun r => r.1.status) =
    [.success,.success]) ∧ (steps (update Reference.library [configName]) savedAndRestored ⟨false,[]⟩).2 = ⟨false,[]⟩ := by
  decide +kernel

theorem updates_refine_home :
    InTurn (fun u : Update => faultless u.me) (fun u => updateDocument Reference.library u.budget u.me u.path u.request)
      savedAndRestored (fun rs w' => rs = (steps (update Reference.library [configName]) savedAndRestored ⟨false,[]⟩).1 ∧
        Leaves [configName] bareHome (steps (update Reference.library [configName]) savedAndRestored ⟨false,[]⟩).2 w')
      bareHome := by
  have hstand := bareHome_standing Reference.library
  have hfree : FreeName [configName] bareHome.tree := ⟨bytes "aaaaaa",by decide +kernel,by decide +kernel⟩
  refine updates_refine (fun u hu => ?_) bareHome_lockable hfree hstand.holds
  have hcalled : ∀ me request, rollbackTargetMatches me.current [configName] request.previous = true →
      Called [configName] bareHome ⟨me,homePath,request,kMaximumDocumentBytes⟩ :=
    fun me request => called_own hstand.physical.names hstand.ne_nil hstand.physical.plain hstand.directory me
  rcases List.mem_pair.mp hu with rfl | rfl
  · exact hcalled _ _ rfl
  · exact hcalled _ _ (by decide +kernel)

/-! ### Updates at once -/

section
variable (L : Library) (target : List Name) {ι : Type} (calls : ι → Update)

/-- An update takes the document to what it makes of the revision by itself, another writer takes it anywhere. -/
def Moves : Option ι → Option File → Option File → Prop
  | some i,before,after => ∃ revision, Holds before revision ∧ Holds after (update L target (calls i) revision).2
  | none,_,_ => True

variable [DecidableEq ι]

/-- An answer is a failure that left everything alone, or that of the update by itself of what was there at
some time during the call, which it leaves as it is, or of what it was the one to change during the call,
unless the directory could not be synced after it. -/
inductive Answers (i : ι) (start : Option File) (begun changes : List (Change (Option ι) (Option File))) :
    SaveResult × Option DocumentSnapshot → Prop
  | failed {r : SaveResult × Option DocumentSnapshot} (h : r.1.Failed) (ho : own (some i) changes = []) :
    Answers i start begun changes r
  | still {revision : DocumentRevision} {earlier : List (Change (Option ι) (Option File))}
    (hsince : begun <+: earlier) (he : earlier <+: changes) (hf : Holds (latest start earlier) revision)
    (hs : (update L target (calls i) revision).2 = revision) (ho : own (some i) changes = []) :
    Answers i start begun changes (update L target (calls i) revision).1
  | moved {r : SaveResult} {revision : DocumentRevision} {f f' : Option File}
    (hbegun : own (some i) begun = []) (ho : own (some i) changes = [⟨some i,f,f'⟩]) (hf : Holds f revision)
    (hf' : Holds f' (update L target (calls i) revision).2)
    (hr : r = (update L target (calls i) revision).1.1 ∨
      ∃ message e, r = unsynced message e (calls i).path (update L target (calls i) revision).1.1) :
    Answers i start begun changes (r,(update L target (calls i) revision).1.2)

/-- The runs are those of the updates by themselves, one after another; each has its effect and its answer
between its call and its return. -/
structure Linearized (w : World) (p₀ : ι → Command (SaveResult × Option DocumentSnapshot)) (s₀ : Ledger ι)
    (p : ι → Command (SaveResult × Option DocumentSnapshot)) (s : Ledger ι) : Prop where
  chain : Serial (Moves L target calls) (document target w) s.changes (document target s.world)
  grown : s₀.changes <+: s.changes
  answers : ∀ i r, p₀ i = updates L calls i → p i = .ret r →
    Answers L target calls i (document target w) s₀.changes s.changes r
  folds : ∀ revision, Holds (document target w) revision → (∀ e ∈ s.changes, e.who ≠ none) →
    Holds (document target s.world)
      (steps (fun i => update L target (calls i)) (s.changes.filterMap Change.who) revision).2

end

section
variable {L : Library} {target : List Name} {u : Update} {current : DocumentSnapshot} {f f' : Option File}

/-- A document that is found is updated as itself. -/
theorem Found.update (h : Found L target u.request f current) :
    update L target u current.revision = revise L u.path u.request current := by
  have hread : (readDocument L (.ofLocation target) (found current.revision)).value = some current := by
    have hsnap := h.snapshot
    unfold snapshotAt at hsnap
    unfold found
    rcases h.holds.cases with ⟨-,hr⟩ | ⟨m,-,he⟩
    · rw [hr] at hsnap ⊢
      exact hsnap
    · rw [if_pos he] at hsnap ⊢
      change (parseDocument L (readChunks current.revision.bytes) (.ofLocation target)).value = some current
      rwa [parseDocument_readChunks]
  unfold DocumentStore.update
  simp only [hread]

theorem Found.expected (h : Found L target u.request f current) :
    ¬ u.request.staged.any (fun staged => current.revision ≠ staged) = true := by
  cases hs : u.request.staged with
  | none => simp
  | some staged => simp [h.staged staged hs]

/-- What a change makes is what the update by itself leaves. -/
theorem Applies.leaves (h : Applies L target u.request current f f') :
    Holds f' (update L target u current.revision).2 := by
  rw [h.found.update,revise,if_neg h.found.expected,if_neg (not_not.mpr h.found.success)]
  cases hm : restoresMissing u.request with
  | true =>
    rw [(h.removes hm).2]
    rfl
  | false =>
    obtain ⟨m,s,hsome,hb,rfl⟩ := h.replaces hm
    rw [if_neg (by simp),hsome,Option.map_some,Option.getD_some,if_neg hb]
    rfl

/-- A change is answered as the update by itself answers. -/
theorem Applies.answered (h : Applies L target u.request current f f') :
    (update L target u current.revision).1 =
      (placed u.path (patchFor L u.request current),if restoresMissing u.request then none else some current) := by
  rw [h.found.update,revise,if_neg h.found.expected,if_neg (not_not.mpr h.found.success)]
  cases hm : restoresMissing u.request with
  | true =>
    rw [if_pos rfl,if_pos (h.removes hm).1]
    rfl
  | false =>
    obtain ⟨m,s,hsome,hb,-⟩ := h.replaces hm
    rw [if_neg (by simp),hsome,Option.map_some,Option.getD_some,if_neg hb]
    rfl

end

section
variable {L : Library} {target : List Name} {ι : Type} [DecidableEq ι] {calls : ι → Update} {i : ι} {w : World}
  {p : ι → Command (SaveResult × Option DocumentSnapshot)} {s : Ledger ι}

theorem Told.answers {start : Origin ι} {changes : List (Change (Option ι) (Option File))}
    {r : SaveResult × Option DocumentSnapshot} (h : Told L target calls i start changes r)
    (hbegun : own (some i) start.begun = []) : Answers L target calls i start.first start.begun changes r := by
  cases h with
  | failed h ho => exact .failed h ho
  | @kept current earlier hsince he hf hm hb ho =>
    obtain ⟨s,hsome,-,-,-⟩ := patchFor_success L hf.success
    rw [hsome,Option.map_some,Option.some.injEq] at hb
    have hu : update L target (calls i) current.revision =
        (({ patchFor L (calls i).request current with snapshot := some current },some current),current.revision) := by
      rw [hf.update,revise,if_neg hf.expected,if_neg (not_not.mpr hf.success),if_neg (by simp [hm]),hsome,
        Option.map_some,Option.getD_some,if_pos hb]
    have hanswer : Answers L target calls i start.first start.begun changes
        (update L target (calls i) current.revision).1 := .still hsince he hf.holds (by rw [hu]) ho
    rwa [hu] at hanswer
  | @absent current earlier hsince he hf hn hm ho =>
    have hu : update L target (calls i) current.revision = ((patchFor L (calls i).request current,none),⟨false,[]⟩) := by
      rw [hf.update,revise,if_neg hf.expected,if_neg (not_not.mpr hf.success),if_pos hm,if_neg (by simp [hn])]
    have hr : current.revision = ⟨false,[]⟩ := by
      rcases hf.holds.cases with ⟨-,hr⟩ | ⟨-,-,he⟩
      · exact hr
      · rw [hn] at he
        cases he
    have hanswer : Answers L target calls i start.first start.begun changes
        (update L target (calls i) current.revision).1 := .still hsince he hf.holds (by rw [hu,hr]) ho
    rwa [hu] at hanswer
  | @changed r current f f' hr ha ho =>
    have hanswered := ha.answered
    have hmoved := @Answers.moved L target ι calls _ i start.first start.begun changes r current.revision f f' hbegun ho
      ha.found.holds ha.leaves
    rw [hanswered] at hmoved
    refine hmoved (hr.answer.imp id (fun ⟨message,e,he⟩ => ⟨message,e,?_⟩))
    rw [he,unsynced_placed]

omit [DecidableEq ι] in
/-- Without other writers the document is what the updates by themselves leave, in the order of their changes. -/
theorem moves_steps {a b : Option File} {changes : List (Change (Option ι) (Option File))}
    (h : Serial (Moves L target calls) a changes b) {revision : DocumentRevision} (ha : Holds a revision)
    (hwho : ∀ e ∈ changes, e.who ≠ none) :
    Holds b (steps (fun i => update L target (calls i)) (changes.filterMap Change.who) revision).2 := by
  induction h with
  | nil => exact ha
  | @snoc b c changes who h hop ih =>
    have hbefore := ih (fun e he => hwho e (by simp [he]))
    cases who with
    | none => exact absurd rfl (hwho ⟨none,b,c⟩ (by simp))
    | some i =>
      obtain ⟨revision',hf,hf'⟩ := hop
      have hlast : List.filterMap Change.who (changes ++ [Change.mk (some i) b c]) =
          changes.filterMap Change.who ++ [i] := by
        rw [List.filterMap_append]
        rfl
      rw [hlast,steps_concat,hbefore.unique hf]
      exact hf'

/-- What is not begun has done nothing yet. -/
theorem Runs.outside (h : Unlocked target calls w) (hr : Runs L target calls w p s) (hi : p i = updates L calls i) :
    Outside target calls i ⟨document target w,s.changes⟩ s := by
  have hc := compatible L target calls (document target w) h.distinct
  have hrely := (updates_safe h).waiting hc (fun i r s s' hr h => h.relies hr) hr hi
  have hout : Outside target calls i ⟨document target w,[]⟩ s := (h.outside i).relies hrely
  exact ⟨hout.free,hout.own,hout.latest,List.prefix_refl _⟩

/-- What a call that begins in the middle of a run says when it returns. -/
theorem Runs.since {p' : ι → Command (SaveResult × Option DocumentSnapshot)} {s' : Ledger ι} (h : Unlocked target calls w)
    (hr : Runs L target calls w p s) (hi : p i = updates L calls i)
    (hr' : Pool.Run (cooperating target calls) (Outsider target) ⟨p,s⟩ ⟨p',s'⟩)
    {r : SaveResult × Option DocumentSnapshot} (hret : p' i = .ret r) :
    Returned L target calls i ⟨document target w,s.changes⟩ r s' := by
  have hc := compatible L target calls (document target w) h.distinct
  have hsafe : Pool.Safe (cooperating target calls) (fun i s c _ s' => Cooperates L target calls i s c s')
      (fun i => Relies target calls i (document target w))
      (fun j r s' => j = i → Returned L target calls j ⟨document target w,s.changes⟩ r s') ⟨p,s⟩ := by
    intro j
    by_cases hj : j = i
    · subst hj
      dsimp only
      rw [hi]
      exact (updateDocument_endures (hr.outside h hi)).mono (fun _ _ hret _ => hret)
    · exact ((hr.ledgered h).1 j).mono (fun _ _ _ he => absurd he hj)
  exact (hsafe.run hc (fun j r s s' hr hq hj => (hq hj).relies hr) hr').returned hret rfl

/-- Whatever order the steps come in and whatever fails, each update takes effect at once, during its call, or
not at all: the target is what the updates by themselves make of it in the order of their changes, and the
answers are theirs. -/
theorem updates_linearize {p₀ : ι → Command (SaveResult × Option DocumentSnapshot)} {s₀ : Ledger ι}
    (h : Unlocked target calls w) (hr₀ : Runs L target calls w p₀ s₀)
    (hr : Pool.Run (cooperating target calls) (Outsider target) ⟨p₀,s₀⟩ ⟨p,s⟩) :
    Linearized L target calls w p₀ s₀ p s := by
  obtain ⟨-,hledger⟩ := Runs.ledgered h (hr₀.trans hr)
  have hchain : Serial (Moves L target calls) (document target w) s.changes (document target s.world) := by
    refine hledger.serial.weaken (fun who before after hop => ?_)
    cases who with
    | none => trivial
    | some i =>
      obtain ⟨current,happ⟩ := hop
      exact ⟨current.revision,happ.found.holds,happ.leaves⟩
  have hgrown : s₀.changes <+: s.changes := by
    have hsteps : ∀ i (s : Ledger ι) c r s', cooperating target calls i s c r s' → s.changes <+: s'.changes := by
      intro i s c r s' hs
      rw [hs.2.2.1]
      exact prefix_note _ _ _ _
    have houtside : ∀ s s' : Ledger ι, Outsider target s s' → s.changes <+: s'.changes := by
      intro s s' hs
      rw [hs.changes]
      exact prefix_note _ _ _ _
    exact hr.keeps (fun s s' => s.changes <+: s'.changes) (fun _ => List.prefix_refl _) List.IsPrefix.trans hsteps
      houtside
  exact ⟨hchain,hgrown,fun i r hi hret => (hr₀.since h hi hr hret).told.answers (hr₀.outside h hi).own,
    fun revision => moves_steps hchain⟩

end

theorem updates_linearize_home : ∃ p s e r, Linearized Reference.library [configName] homeUpdates lockedHome
    (updates Reference.library homeUpdates) ⟨lockedHome,[],false⟩ p s ∧
    e ∈ s.changes ∧ e.who = some 0 ∧ p 0 = .ret r ∧ r.1.status = .success := by
  obtain ⟨p,s,e,r,hrun,he,hwho,hp,hr⟩ := homeUpdates_saved
  exact ⟨p,s,e,r,updates_linearize homeUpdates_unlocked .refl hrun,he,hwho,hp,hr⟩

end DocumentStore
end HolonightConfig
