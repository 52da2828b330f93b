import HolonightConfig.DocumentStore.Outcome
import HolonightConfig.DocumentStore.Stability

/-! Without faults an update that finds its directory, and a lock file that nobody holds,
comes to its end. -/
namespace HolonightConfig
open Text Toml Posix Program

namespace DocumentStore
open Storage Document
variable (L : Library)

/-! ### Where a document can be updated -/

/-- The path leads to the target, whose directory is there, and the document in it. -/
structure Standing (me : Process) (path : Path) (target : List Name) (t : Tree)
    (current : DocumentSnapshot) : Prop where
  resolved : resolveTarget t me.current path = .ok target
  directory : t.isDirectory target.dropLast = true
  holds : Holds (t.file target) current.revision
  snapshot : snapshotAt L target current.revision = some current

section
variable {L} {me : Process} {path : Path} {target : List Name} {t t' : Tree} {current : DocumentSnapshot}

theorem Standing.physical (h : Standing L me path target t current) : Physical t target :=
  resolveTarget_physical h.resolved

theorem Standing.ne_nil (h : Standing L me path target t current) : target ≠ [] := h.holds.ne_nil

theorem Standing.names_above (h : Standing L me path target t current) : ∀ c ∈ target.dropLast, IsName c :=
  fun c hc => h.physical.names c (List.dropLast_subset _ hc)

theorem Standing.named (h : Standing L me path target t current) :
    ¬ ((Path.ofLocation target).isEmpty ∨ (Path.ofLocation target).filename = []) := by
  have hname : (Path.ofLocation target).filename = target.getLast h.ne_nil := by
    change target.getLast?.getD [] = _
    rw [List.getLast?_eq_some_getLast h.ne_nil]
    rfl
  rintro (he | he)
  · cases he
  · exact (h.physical.names _ (List.getLast_mem h.ne_nil)).1 (hname ▸ he)

theorem Standing.look (h : Standing L me path target t current) (follow : Bool) :
    t.look follow target = match t.file target with
      | some f => .ok f
      | none => .error .noEntry :=
  Tree.look_names h.physical.names ((Tree.opened_iff_parent t h.ne_nil).mpr h.directory)
    (fun _ => h.physical.plain target (List.prefix_refl _))

/-- Reading finds the document. -/
theorem Standing.read (h : Standing L me path target t current) :
    (readDocument L (.ofLocation target) (reading t target)).value = some current := by
  have hsnap := h.snapshot
  unfold reading
  rw [h.look,h.look]
  rcases h.holds.cases with ⟨hf,hr⟩ | ⟨m,hf,he⟩
  · rw [hf]
    rw [hr] at hsnap
    exact hsnap
  · rw [hf]
    rw [snapshotAt,if_pos he] at hsnap
    change (parseDocument L (readChunks current.revision.bytes) (.ofLocation target)).value = some current
    rw [parseDocument_readChunks]
    exact hsnap

theorem Standing.look_parent (h : Standing L me path target t current) :
    ∃ m, t.look true target.dropLast = .ok (.directory m) := by
  obtain ⟨f,hf,hfd⟩ := (Option.any_eq_true _ _).mp h.directory
  cases f with
  | directory m =>
    refine ⟨m,?_⟩
    rw [Tree.look_names h.names_above (Tree.opened_of_exists (by rw [hf]; rfl))
      (fun _ => by simp [Tree.isSymlink,hf]),hf]
  | _ => cases hfd

/-- A new file in the directory takes nothing away. -/
theorem Standing.written (h : Standing L me path target t current) (name : Name)
    (hw : Written (target.dropLast ++ [name]) t t') (hne : target.dropLast ++ [name] ≠ target)
    (hnone : t.file (target.dropLast ++ [name]) = none) : Standing L me path target t' current := by
  have hlen : (target.dropLast ++ [name]).length = target.length := by
    have := List.length_pos_iff.mpr h.ne_nil
    simp only [List.length_append,List.length_dropLast,List.length_singleton]
    omega
  have hoff : ¬ target.dropLast ++ [name] <+: target := fun hp => hne (hp.eq_of_length hlen)
  have hpar : target.dropLast ≠ target.dropLast ++ [name] := by
    intro he
    have := congrArg List.length he
    simp at this
  refine ⟨resolveTarget_written hw (.inr ⟨hnone,hoff⟩) h.resolved,?_,?_,h.snapshot⟩
  · rw [Tree.isDirectory,hw.others _ hpar]
    exact h.directory
  · rw [hw.others _ hne.symm]
    exact h.holds

theorem Standing.entry (h : Standing L me path target t current) (name : Name) :
    t.entry (target.dropLast ++ [name]) = .ok (target.dropLast,name) := Tree.entry_directory h.names_above h.directory

/-- A temporary file takes nothing away. -/
theorem Standing.drafted {w₀ w : World} {file : Descriptor} {m : Metadata} {b : Bytes} {suffix : Name}
    (h : Standing L me path target w₀.tree current) (hfile : file.location = temporaryAt target suffix)
    (hnone : w₀.tree.file file.location = none) (hd : Drafted w₀ file m b w) :
    Standing L me path target w.tree current := by
  obtain ⟨hwritten,hothers,-⟩ := hd
  rw [hfile] at hwritten hothers hnone
  exact h.written (temporaryBase target ++ suffix) ⟨hothers,.inl hnone,m,b,hwritten⟩ (temporaryAt_ne target suffix) hnone

end
/-! ### What comes to its end -/

section
variable {me : Process} {G : Semantics Call Call.Answer World} {path : Path} {target : List Name}
variable {current : DocumentSnapshot}

/-- Guarantees that a call cannot break which leaves the tree alone. -/
def AllowsStill (G : Semantics Call Call.Answer World) : Prop := ∀ w c r w', w'.tree = w.tree → G w c r w'

theorem unchanged_returns (hG : AllowsStill G) {w : World} (h : Standing L me path target w.tree current) :
    Returns (faultless me) G (fun r w' => r = true ∧ w' = w) (unchanged L path target current) w := by
  refine returns_perform ⟨_,w,rfl,rfl⟩ (fun found w' hs => ?_)
  obtain ⟨rfl,rfl⟩ := hs
  refine ⟨hG _ _ _ _ rfl,?_⟩
  rw [Path.absolute_ofLocation,h.read]
  dsimp only
  rw [if_neg (by simp)]
  refine returns_perform ⟨_,w',rfl,rfl⟩ (fun r w'' hs => ?_)
  obtain ⟨rfl,rfl⟩ := hs
  refine ⟨hG _ _ _ _ rfl,?_⟩
  rw [h.resolved]
  exact ⟨by simp,rfl⟩

theorem syncTarget_returns (hG : AllowsStill G) {w : World} (message : Bytes) (path : Path)
    (target : List Name) {patched : SaveResult} (hs : patched.status = .success) :
    Returns (faultless me) G (fun r _ => r.status = .success) (syncTarget message path target patched) w := by
  refine returns_perform ⟨.ok (),w,rfl,rfl⟩ (fun r w' h => ?_)
  obtain ⟨rfl,rfl⟩ := h
  exact ⟨hG _ _ _ _ rfl,hs⟩

theorem openDirectory_returns {w : World} (h : Standing L me path target w.tree current)
    {r : Except Errno Unit} {w' : World}
    (hs : faultless me w (.openDirectory (Path.ofLocation target).parentPath) r w') : r = .ok () ∧ w' = w := by
  obtain ⟨rfl,rfl⟩ := hs
  obtain ⟨m,hm⟩ := h.look_parent
  rw [Path.parentPath_ofLocation,Path.absolute_ofLocation,hm]
  exact ⟨rfl,rfl⟩

/-- A document that nobody else changes is removed. -/
theorem removeDocument_returns {w : World} (h : Standing L me path target w.tree current)
    {patched : SaveResult} (hs : patched.status = .success) :
    Returns (faultless me) anyStep (fun r _ => r.status = .success)
      (removeDocument L path target current patched) w := by
  have hG : AllowsStill anyStep := fun _ _ _ _ _ => trivial
  unfold removeDocument
  split
  · exact hs
  · next he =>
    have he : current.revision.exists_ = true := by simpa using he
    refine returns_perform ⟨_,w,rfl,rfl⟩ (fun r w₁ hop => ⟨trivial,?_⟩)
    obtain ⟨rfl,rfl⟩ := openDirectory_returns L h hop
    refine returns_bind (unchanged_returns L hG h) (fun ok w₂ hok => ?_)
    obtain ⟨rfl,rfl⟩ := hok
    obtain ⟨m,hf⟩ : ∃ m, w₂.tree.file target = some (.regular m current.revision.bytes) := by
      rcases h.holds.cases with ⟨-,hr⟩ | ⟨m,hf,-⟩
      · rw [hr] at he
        cases he
      · exact ⟨m,hf⟩
    have hsplit := List.dropLast_append_getLast h.ne_nil
    obtain ⟨t,ht⟩ : ∃ t, w₂.tree.unlink target = .ok t := by
      rw [← hsplit] at hf ⊢
      exact Tree.unlink_regular h.names_above hf
    refine returns_perform ⟨.ok (),w₂.on t,?_⟩ (fun r w₃ hun => ⟨trivial,?_⟩)
    · simp only [faultless,Works,Path.absolute_ofLocation,ht]
      exact ⟨rfl,trivial⟩
    · simp only [faultless,Works,Path.absolute_ofLocation,ht] at hun
      obtain ⟨rfl,rfl⟩ := hun
      exact syncTarget_returns hG _ _ _ hs

/-- Octets are written where the budget is one call for each. -/
theorem writeTemporary_returns {w₀ w : World} {file : Descriptor} {m : Metadata} {b : Bytes}
    (hd : Drafted w₀ file m b w) {budget : ℕ} {octets : Bytes} (hb : octets.length ≤ budget) :
    Returns (faultless me) anyStep (fun r w' => r = .ok () ∧ ∃ b', Drafted w₀ file m b' w')
      (writeTemporary file budget octets) w := by
  induction budget generalizing octets b w with
  | zero =>
    cases octets with
    | nil => exact ⟨rfl,b,hd⟩
    | cons c octets => simp at hb
  | succ budget ih =>
    cases octets with
    | nil => exact ⟨rfl,b,hd⟩
    | cons c octets =>
      refine returns_perform ⟨_,_,1,Nat.one_pos,by simp,rfl,rfl⟩ (fun r w' hs => ⟨trivial,?_⟩)
      obtain ⟨k,hpos,hk,rfl,rfl⟩ := hs
      obtain ⟨k,rfl⟩ := Nat.exists_eq_succ_of_ne_zero (Nat.pos_iff_ne_zero.mp hpos)
      refine ih (hd.modify (fun m b => (m,b ++ (c :: octets).take (k + 1)))) ?_
      rw [List.length_drop]
      omega

/-- The temporary file is made ready. -/
theorem prepareTemporary_returns {w₀ w : World} {file : Descriptor} {m : Metadata}
    (h : Standing L me path target w₀.tree current) (hd : Drafted w₀ file m [] w) {suffix : Name}
    (hfile : file.location = temporaryAt target suffix) (hnone : w₀.tree.file file.location = none) {budget : ℕ} {octets : Bytes} (hb : octets.length ≤ budget)
    {metadata : Option Metadata} (hmeta : metadata = (w₀.tree.file target).map fileMetadata) :
    Returns (faultless me) anyStep (fun r w' => r = none ∧ ∃ m' b', Drafted w₀ file m' b' w')
      (prepareTemporary L budget path target current metadata file octets) w := by
  have hG : AllowsStill anyStep := fun _ _ _ _ _ => trivial
  have hstand : ∀ {m b w}, Drafted w₀ file m b w → Standing L me path target w.tree current :=
    fun hd => h.drafted hfile hnone hd
  have hfill : Returns (faultless me) anyStep (fun r w' => r = none ∧ ∃ m' b', Drafted w₀ file m' b' w')
      (fillTemporary budget path file octets ((metadata.map Metadata.permissions).getD 0o600)) w := by
    refine returns_bind (writeTemporary_returns hd hb) (fun r w₁ hw => ?_)
    obtain ⟨rfl,b',hd'⟩ := hw
    refine returns_perform ⟨_,_,rfl,rfl⟩ (fun r w₂ hs => ⟨trivial,?_⟩)
    obtain ⟨rfl,rfl⟩ := hs
    refine returns_perform ⟨_,_,rfl,rfl⟩ (fun r w₃ hs => ⟨trivial,?_⟩)
    obtain ⟨rfl,rfl⟩ := hs
    exact ⟨rfl,_,_,hd'.modify _⟩
  refine returns_bind hfill (fun r w₁ hr => ?_)
  obtain ⟨rfl,m',b',hd'⟩ := hr
  refine returns_perform ⟨_,w₁,rfl,rfl⟩ (fun r w₂ hop => ⟨trivial,?_⟩)
  obtain ⟨rfl,rfl⟩ := openDirectory_returns L (hstand hd') hop
  refine returns_bind (unchanged_returns L hG (hstand hd')) (fun ok w₃ hok => ?_)
  obtain ⟨rfl,rfl⟩ := hok
  have hsame : Returns (faultless me) anyStep (fun r w' => r = true ∧ w' = w₃)
      (sameMetadata target metadata) w₃ := by
    cases hm : metadata with
    | none => exact ⟨rfl,rfl⟩
    | some m₀ =>
      refine returns_perform ⟨_,w₃,rfl,rfl⟩ (fun r w₄ hs => ⟨trivial,?_⟩)
      obtain ⟨rfl,rfl⟩ := hs
      have htarget : w₄.tree.file target = w₀.tree.file target :=
        hd'.others target (by rw [hfile]; exact (temporaryAt_ne target suffix).symm)
      rw [hm] at hmeta
      cases hf : w₀.tree.file target with
      | none =>
        rw [hf] at hmeta
        cases hmeta
      | some f =>
        rw [hf] at hmeta
        rw [Path.absolute_ofLocation,(hstand hd').look,htarget,hf]
        exact ⟨decide_eq_true (Option.some.inj hmeta.symm),rfl⟩
  refine returns_bind hsame (fun ok w₄ hok => ?_)
  obtain ⟨rfl,rfl⟩ := hok
  exact ⟨rfl,m',b',hd'⟩

/-- The permissions are the target's. -/
theorem inspectTarget_returns {w : World} (h : Standing L me path target w.tree current) :
    Returns (faultless me) anyStep (fun r w' => r = .ok ((w.tree.file target).map fileMetadata) ∧ w' = w)
      (inspectTarget target current) w := by
  unfold inspectTarget
  split
  · next he =>
    refine returns_perform ⟨_,w,rfl,rfl⟩ (fun r w' hs => ⟨trivial,?_⟩)
    obtain ⟨rfl,rfl⟩ := hs
    rcases h.holds.cases with ⟨-,hr⟩ | ⟨m,hf,-⟩
    · rw [hr] at he
      cases he
    · rw [Path.absolute_ofLocation,h.look,hf]
      exact ⟨rfl,rfl⟩
  · next he =>
    rcases h.holds.cases with ⟨hf,-⟩ | ⟨m,-,he'⟩
    · rw [hf]
      exact ⟨rfl,rfl⟩
    · exact absurd he' he

/-- Where a name is free, a temporary file is made. -/
theorem mkstemp_returns {w : World} (h : Standing L me path target w.tree current) (hname : FreeName target w.tree) :
    (∃ r w', faultless me w (.mkstemp (Path.ofLocation target).parentPath (temporaryBase target)) r w') ∧
      ∀ r w', faultless me w (.mkstemp (Path.ofLocation target).parentPath (temporaryBase target)) r w' →
        ∃ temporary, r = .ok temporary := by
  have hchild : ∀ suffix, ((Path.ofLocation target).parentPath.child (temporaryBase target ++ suffix)).absolute
      me.current = temporaryAt target suffix := fun _ => rfl
  have hentry : ∀ suffix, w.tree.entry (temporaryAt target suffix) = .ok (target.dropLast,temporaryBase target ++ suffix) :=
    fun suffix => h.entry _
  obtain ⟨suffix,hsuffix,hfree⟩ := hname
  refine ⟨⟨.ok ⟨_,target.dropLast,_⟩,_,suffix,⟨temporaryMode,0,0⟩,hsuffix,rfl,rfl,hentry suffix,hfree,rfl⟩,
    fun r w' hmk => ?_⟩
  cases r with
  | ok temporary => exact ⟨temporary,rfl⟩
  | error e =>
    rcases hmk with ⟨-,⟨suffix',-,he⟩ | ⟨-,hall⟩⟩
    · rw [hchild,hentry] at he
      cases he
    · have hsome : (w.tree.file (temporaryAt target suffix)).isSome = true :=
        hall suffix hsuffix _ _ (by rw [hchild,hentry])
      rw [hfree] at hsome
      cases hsome

/-- The rename goes through. -/
theorem rename_returns {w : World} (h : Standing L me path target w.tree current) {source : Path} {suffix : Name}
    (hsource : source.absolute me.current = temporaryAt target suffix) {m : Metadata} {b : Bytes}
    (hw : w.tree.file (temporaryAt target suffix) = some (.regular m b)) :
    (∃ r w', faultless me w (.rename source (.ofLocation target)) r w') ∧
      ∀ r w', faultless me w (.rename source (.ofLocation target)) r w' → r = .ok () := by
  obtain ⟨t,ht⟩ : ∃ t, w.tree.rename (temporaryAt target suffix) target = .ok t := by
    have hent₁ := h.entry (temporaryBase target ++ suffix)
    have hent₂ := h.entry (target.getLast h.ne_nil)
    have hne := temporaryAt_ne target suffix
    rw [List.dropLast_append_getLast] at hent₂
    unfold temporaryAt at hw hne ⊢
    unfold Tree.rename
    rw [hent₁,hent₂]
    simp only [hw,List.dropLast_append_getLast,h.holds.not_isDirectory,Bool.false_eq_true,if_false,if_neg hne]
    exact ⟨_,rfl⟩
  refine ⟨⟨.ok (),w.on t,?_⟩,fun r w' hren => ?_⟩
  · simp only [faultless,Works,Path.absolute_ofLocation,hsource,ht]
    exact ⟨rfl,trivial⟩
  · simp only [faultless,Works,Path.absolute_ofLocation,hsource,ht] at hren
    exact hren.1

/-- A document that nobody else changes is replaced. -/
theorem replaceDocument_returns {w : World} (h : Standing L me path target w.tree current)
    (hname : FreeName target w.tree) {patched : SaveResult} (hs : patched.status = .success) {budget : ℕ}
    (hb : ((patched.snapshot.map (fun s => s.revision.bytes)).getD []).length ≤ budget) :
    Returns (faultless me) anyStep (fun r _ => r.status = .success)
      (replaceDocument L budget path target current patched) w := by
  have hG : AllowsStill anyStep := fun _ _ _ _ _ => trivial
  refine returns_bind (inspectTarget_returns L h) (fun r w₁ hr => ?_)
  obtain ⟨rfl,rfl⟩ := hr
  obtain ⟨hmake,hmade⟩ := mkstemp_returns L h hname
  refine returns_perform hmake (fun r w₂ hmk => ⟨trivial,?_⟩)
  obtain ⟨temporary,rfl⟩ := hmade r w₂ hmk
  obtain ⟨m,hdrawn⟩ := @mkstemp_drawn me True target temporary w₁ w₂ h.physical.names h.physical.plain (.inl hmk)
  obtain ⟨suffix,-,hloc⟩ := hdrawn.named
  refine returns_bind (prepareTemporary_returns L h hdrawn.drafted hloc hdrawn.fresh hb rfl) (fun r w₃ hr => ?_)
  obtain ⟨rfl,m',b',hd⟩ := hr
  obtain ⟨hrename,hrenamed⟩ := rename_returns L (h.drafted hloc hdrawn.fresh hd) (hdrawn.path.trans hloc)
    (hloc ▸ hd.written)
  refine returns_perform hrename (fun r w₄ hren => ⟨trivial,?_⟩)
  obtain rfl := hrenamed r w₄ hren
  exact syncTarget_returns hG _ _ _ hs

/-! ### The whole update -/

variable {request : Request}

/-- Under the lock: what is kept returns at once, and else what changes the target decides. -/
theorem updateLocked_returns (hG : AllowsStill G) {Q : SaveResult × Option DocumentSnapshot → World → Prop}
    {w : World} (h : Standing L me path target w.tree current)
    (hstaged : ∀ staged, request.staged = some staged → current.revision = staged)
    (hs : (patchFor L request current).status = .success) {budget : ℕ}
    (hkept : restoresMissing request = false → (patchFor L request current).snapshot.map
      (fun s => s.revision.bytes) = some current.revision.bytes →
      Q ({ patchFor L request current with snapshot := some current },some current) w)
    (hremoved : restoresMissing request = true → Returns (faultless me) G (fun r w' => Q (r,none) w')
      (removeDocument L path target current (patchFor L request current)) w)
    (hreplaced : restoresMissing request = false → (patchFor L request current).snapshot.map
      (fun s => s.revision.bytes) ≠ some current.revision.bytes →
      Returns (faultless me) G (fun r w' => Q (r,some current) w')
        (replaceDocument L budget path target current (patchFor L request current)) w) :
    Returns (faultless me) G Q (updateLocked L budget path target request) w := by
  refine returns_perform ⟨_,w,rfl,rfl⟩ (fun r w₁ hr => ⟨hG _ _ _ _ (by rw [hr.1]),?_⟩)
  obtain ⟨rfl,rfl⟩ := hr
  rw [h.resolved]
  dsimp only
  rw [if_neg (by simp)]
  refine returns_perform ⟨_,w₁,rfl,rfl⟩ (fun found w₂ hr => ⟨hG _ _ _ _ (by rw [hr.1]),?_⟩)
  obtain ⟨rfl,rfl⟩ := hr
  rw [Path.absolute_ofLocation,h.read]
  dsimp only
  have hany : ¬ (request.staged.any (fun staged => current.revision ≠ staged)) = true := by
    cases hst : request.staged with
    | none => simp
    | some staged => simp [hstaged staged hst]
  rw [if_neg hany]
  cases hm : restoresMissing request with
  | true =>
    rw [if_pos ⟨hm,hs⟩]
    exact returns_bind (hremoved hm) (fun r w₃ hr => hr)
  | false =>
    rw [if_neg (fun hc => by rw [← restoresMissing,hm] at hc; exact Bool.false_ne_true hc.1),
      if_neg (by simpa using hs)]
    split
    · next hb => exact hkept hm hb
    · next hb => exact returns_bind (hreplaced hm hb) (fun r w₃ hr => hr)

/-- An update that conflicts returns the conflicts. -/
theorem updateLocked_conflicts {w : World} {edits : EditBatch} {schema : DocumentSchema} (budget : ℕ)
    (h : Standing L me path target w.tree current)
    (hs : (patchDocument L current edits schema).status ≠ .success) :
    Returns (faultless me) anyStep (fun r _ => r.1 = patchDocument L current edits schema)
      (updateLocked L budget path target ⟨edits,schema,none,none⟩) w := by
  refine returns_perform ⟨_,w,rfl,rfl⟩ (fun r w₁ hr => ⟨trivial,?_⟩)
  obtain ⟨rfl,rfl⟩ := hr
  rw [h.resolved]
  dsimp only
  rw [if_neg (by simp)]
  refine returns_perform ⟨_,w₁,rfl,rfl⟩ (fun found w₂ hr => ⟨trivial,?_⟩)
  obtain ⟨rfl,rfl⟩ := hr
  rw [Path.absolute_ofLocation,h.read]
  dsimp only
  have hs : (patchFor L ⟨edits,schema,none,none⟩ current).status ≠ .success := hs
  rw [if_neg (by simp),if_neg (by simp),if_pos hs]
  rfl

/-- Nobody holds the lock of a target that is prepared for it. -/
structure Ready (target : List Name) (w : World) : Prop where
  prepared : Prepared target w.tree
  free : w.holder (lockPath target).components = none

/-- Nobody holds the lock of a target whose directory is there, and where the lock file goes is one, or
nothing. -/
structure Lockable (target : List Name) (w : World) : Prop where
  directory : w.tree.isDirectory target.dropLast = true
  lock : ∀ f, w.tree.file (lockPath target).components = some f → f.isDirectory = false ∧ f.isSymlink = false
  free : w.holder (lockPath target).components = none

theorem Ready.lockable {w : World} (h : Ready target w) : Lockable target w := by
  obtain ⟨f,hf,hfine⟩ := h.prepared.lock
  refine ⟨h.prepared.directory,fun f' hf' => ?_,h.free⟩
  cases hf.symm.trans hf'
  exact hfine

/-- Where there is a lock file, opening it changes nothing. -/
theorem LockOpened.same {w w' : World} (h : LockOpened target w w') (hp : Prepared target w.tree) : w' = w := by
  obtain ⟨f,hf,-⟩ := hp.lock
  have htree : w'.tree = w.tree := by
    refine Tree.ext (fun q => ?_)
    by_cases hq : q = (lockPath target).components
    · subst hq
      rcases h.lock with he | ⟨hn,-⟩
      · exact he
      · rw [hf] at hn
        cases hn
    · exact h.others q hq
  obtain ⟨t,holder⟩ := w'
  obtain ⟨t₀,holder₀⟩ := w
  cases htree
  cases h.holder
  rfl

theorem temporaryAt_ne_lock (target : List Name) (suffix : Name) :
    temporaryAt target suffix ≠ (lockPath target).components := by
  rw [lockPath_components]
  unfold temporaryAt temporaryBase
  rw [ne_eq,List.append_cancel_left_eq,List.singleton_inj]
  intro h
  have hl := congrArg List.length h
  have h₁ : (bytes ".").length = 1 := by decide +kernel
  have h₂ : (bytes ".tmp-").length = 5 := by decide +kernel
  have h₃ : (bytes ".lock").length = 5 := by decide +kernel
  have hname : (Path.ofLocation target).filename = target.getLast?.getD [] := rfl
  rw [hname] at hl
  simp only [List.length_append,h₁,h₂,h₃] at hl
  omega

theorem LockOpened.freeName {w w' : World} (h : LockOpened target w w') (hname : FreeName target w.tree) :
    FreeName target w'.tree := by
  obtain ⟨suffix,hsuffix,hfree⟩ := hname
  exact ⟨suffix,hsuffix,(h.others _ (temporaryAt_ne_lock target suffix)).trans hfree⟩

/-- Making the lock file takes nothing away. -/
theorem Standing.opened {w w' : World} (h : Standing L me path target w.tree current) (ho : LockOpened target w w') :
    Standing L me path target w'.tree current := by
  rcases ho.lock with he | ⟨hn,m,hm⟩
  · have htree : w'.tree = w.tree := by
      refine Tree.ext (fun q => ?_)
      by_cases hq : q = (lockPath target).components
      · rw [hq]
        exact he
      · exact ho.others q hq
    rw [htree]
    exact h
  · exact h.written _ ⟨ho.others,.inl hn,m,[],hm⟩ (lockPath_ne target) hn

/-- The lock file is opened, and made where there was none. -/
theorem openLock_returns {w : World} (hn : ∀ c ∈ target.dropLast, IsName c) (h : Lockable target w) :
    (∃ r w', faultless me w (.openLock (lockPath target)) r w') ∧
      ∀ r w', faultless me w (.openLock (lockPath target)) r w' → r = .ok () := by
  have hent := @Tree.entry_directory w.tree target.dropLast (target.getLast?.getD [] ++ bytes ".lock") hn h.directory
  have habs : (lockPath target).absolute me.current =
      target.dropLast ++ [target.getLast?.getD [] ++ bytes ".lock"] := rfl
  have hlock := h.lock
  rw [lockPath_components] at hlock
  simp only [faultless,Works,habs,hent]
  cases hf : w.tree.file (target.dropLast ++ [target.getLast?.getD [] ++ bytes ".lock"]) with
  | none =>
    refine ⟨⟨_,_,⟨0,0,0⟩,rfl,rfl⟩,?_⟩
    rintro r w' ⟨m,hr,-⟩
    exact hr
  | some f =>
    obtain ⟨hfd,hfs⟩ := hlock f hf
    cases f with
    | directory m => cases hfd
    | symlink l => cases hfs
    | _ => exact ⟨⟨_,_,rfl,rfl⟩,fun r w' hr => hr.1⟩

/-- Directories that are there are not made again. -/
theorem createDirectories_returns {w : World} (hn : ∀ c ∈ target.dropLast, IsName c)
    (hd : w.tree.isDirectory target.dropLast = true) :
    (∃ r w', faultless me w (.createDirectories (Path.ofLocation target).parentPath) r w') ∧
      ∀ r w', faultless me w (.createDirectories (Path.ofLocation target).parentPath) r w' → r = .ok () ∧ w' = w := by
  have hmade : ∀ m, w.tree.createDirectories m target.dropLast = .ok w.tree :=
    fun m => Tree.createDirectories_existing hn hd
  refine ⟨⟨.ok (),w,⟨0,0,0⟩,w.tree,hmade _,rfl⟩,fun r w' hr => ?_⟩
  cases r with
  | ok u =>
    obtain ⟨m,t,ht,rfl⟩ := hr
    cases (hmade m).symm.trans ht
    exact ⟨rfl,rfl⟩
  | error e =>
    obtain ⟨⟨m,hm⟩,-⟩ := hr
    cases (hmade m).symm.trans hm

/-- A free lock is taken at the first attempt. -/
theorem acquire_returns (hG : AllowsStill G) {w : World} (hfree : w.holder (lockPath target).components = none)
    {budget : ℕ} (hb : 0 < budget) :
    Returns (faultless me) G (fun r w' => r = .ok () ∧ w' = w.hold (lockPath target).components (some me.id))
      (acquire (lockPath target) budget) w := by
  obtain ⟨budget,rfl⟩ := Nat.exists_eq_succ_of_ne_zero (Nat.pos_iff_ne_zero.mp hb)
  refine returns_perform ⟨_,_,rfl,hfree,rfl⟩ (fun r w' hr => ⟨hG _ _ _ _ (by rw [hr.2.2]; rfl),?_⟩)
  obtain ⟨rfl,-,rfl⟩ := hr
  exact ⟨rfl,rfl⟩

/-- What is done under the lock leaves it to be given back. -/
theorem lockTaken_returns (hG : AllowsStill G) {Q : SaveResult × Option DocumentSnapshot → World → Prop} {w : World}
    {budget : ℕ} (hlocked : Returns (faultless me) G (fun r w' => Q r (w'.hold (lockPath target).components none))
      (updateLocked L budget path target request) (w.hold (lockPath target).components (some me.id))) :
    Returns (faultless me) G Q (lockTaken L budget path target request)
      (w.hold (lockPath target).components (some me.id)) := by
  have hfaulty := @updateLocked_faulty L me True target (fun _ => True)
    (w.hold (lockPath target).components (some me.id)) path request trivial (fun _ _ _ _ _ _ => trivial) budget
  refine returns_bind (hlocked.and (fun _ _ _ _ => .inl) hfaulty) (fun r w₁ hr => ?_)
  obtain ⟨hQ,hset⟩ := hr
  have hmine : w₁.holder ((lockPath target).absolute me.current) = some me.id := by
    rw [hset.holder]
    exact Function.update_self _ _ _
  refine returns_perform ⟨(),_,rfl⟩ (fun u w₂ hr => ?_)
  have hr : w₂ = w₁.hold (lockPath target).components none := by
    simp only [faultless,Works] at hr
    rw [if_pos hmine] at hr
    exact hr
  subst hr
  exact ⟨hG _ _ _ _ rfl,hQ⟩

/-- The update returns what it comes to under the lock, whose file may have been made for it. -/
theorem updateDocument_opens (hG : AllowsStill G) {Q : SaveResult × Option DocumentSnapshot → World → Prop}
    {w : World} (hpath : ¬ (path.isEmpty ∨ path.filename = []))
    (h : Standing L me path target w.tree current)
    (hmatch : rollbackTargetMatches me.current target request.previous = true) (hlock : Lockable target w)
    {budget : ℕ} (hb : 0 < budget)
    (hopen : ∀ w₁, LockOpened target w w₁ → G w (.openLock (lockPath target)) (.ok ()) w₁)
    (hlocked : ∀ w₁, LockOpened target w w₁ →
      Returns (faultless me) G (fun r w' => Q r (w'.hold (lockPath target).components none))
        (updateLocked L budget path target request) (w₁.hold (lockPath target).components (some me.id))) :
    Returns (faultless me) G Q (updateDocument L budget me path request) w := by
  unfold updateDocument
  rw [if_neg hpath]
  refine returns_perform ⟨_,w,rfl,rfl⟩ (fun r w₁ hr => ⟨hG _ _ _ _ (by rw [hr.1]),?_⟩)
  obtain ⟨rfl,rfl⟩ := hr
  rw [h.resolved]
  dsimp only
  rw [hmatch]
  refine returns_perform ⟨_,w₁,rfl,rfl⟩ (fun found w₂ hr => ⟨hG _ _ _ _ (by rw [hr.1]),?_⟩)
  obtain ⟨rfl,rfl⟩ := hr
  rw [Path.absolute_ofLocation,h.read]
  dsimp only
  obtain ⟨hmakes,hmade⟩ := @createDirectories_returns me target w₂ h.names_above h.directory
  refine returns_perform hmakes (fun r w₃ hr => ?_)
  obtain ⟨rfl,rfl⟩ := hmade r w₃ hr
  refine ⟨hG _ _ _ _ rfl,?_⟩
  obtain ⟨hopens,hopened⟩ := @openLock_returns me target w₃ h.names_above hlock
  refine returns_perform hopens (fun r w₄ hr => ?_)
  obtain rfl := hopened r w₄ hr
  obtain ⟨ho,-⟩ := @openLock_opened me True target w₃ w₄ _ h.names_above (h.physical.plain.above (List.dropLast_prefix _))
    (.inl hr)
  refine ⟨hopen w₄ ho,?_⟩
  have hfree : w₄.holder (lockPath target).components = none := by
    rw [ho.holder]
    exact hlock.free
  refine returns_bind (acquire_returns hG hfree hb) (fun r w₅ hr => ?_)
  obtain ⟨rfl,rfl⟩ := hr
  exact lockTaken_returns L hG (hlocked w₄ ho)

/-- So it does where the lock file is there. -/
theorem updateDocument_returns (hG : AllowsStill G) {Q : SaveResult × Option DocumentSnapshot → World → Prop}
    {w : World} (hpath : ¬ (path.isEmpty ∨ path.filename = []))
    (h : Standing L me path target w.tree current)
    (hmatch : rollbackTargetMatches me.current target request.previous = true) (hready : Ready target w)
    {budget : ℕ} (hb : 0 < budget)
    (hlocked : Returns (faultless me) G (fun r w' => Q r (w'.hold (lockPath target).components none))
      (updateLocked L budget path target request) (w.hold (lockPath target).components (some me.id))) :
    Returns (faultless me) G Q (updateDocument L budget me path request) w := by
  refine updateDocument_opens L hG hpath h hmatch hready.lockable hb (fun w₁ ho => ?_) (fun w₁ ho => ?_)
  · rw [ho.same hready.prepared]
    exact hG _ _ _ _ rfl
  · rw [ho.same hready.prepared]
    exact hlocked

/-- An update comes to the lock, and then to what the lock is for. -/
theorem updateDocument_flocks {w : World} (hpath : ¬ (path.isEmpty ∨ path.filename = []))
    (h : Standing L me path target w.tree current)
    (hmatch : rollbackTargetMatches me.current target request.previous = true) (hready : Ready target w) (budget : ℕ) :
    ∃ next, Reaches (faultless me) (updateDocument L (budget + 1) me path request) w
      (.call (.flock (lockPath target)) next) w ∧ next (.ok ()) = lockTaken L (budget + 1) path target request := by
  have hmade : faultless me w (.createDirectories (Path.ofLocation target).parentPath) (.ok ()) w :=
    ⟨⟨0,0,0⟩,w.tree,Tree.createDirectories_existing h.names_above h.directory,rfl⟩
  have hopened : faultless me w (.openLock (lockPath target)) (.ok ()) w := by
    obtain ⟨⟨r,w',hs⟩,hok⟩ := @openLock_returns me target w h.names_above hready.lockable
    obtain rfl := hok r w' hs
    obtain ⟨ho,-⟩ := @openLock_opened me True target w w' _ h.names_above (h.physical.plain.above (List.dropLast_prefix _))
      (.inl hs)
    rwa [ho.same hready.prepared] at hs
  have htarget : ∃ next, Reaches (faultless me) (updateTarget L (budget + 1) path target request) w
      (.call (.flock (lockPath target)) next) w ∧ next (.ok ()) = lockTaken L (budget + 1) path target request :=
    ⟨_,reaches_perform hmade (reaches_perform hopened .start),rfl⟩
  obtain ⟨next,hreach,hnext⟩ := htarget
  refine ⟨next,?_,hnext⟩
  have hresolved : faultless me w (.resolve .before path) (.ok target) w := ⟨rfl,h.resolved.symm⟩
  have hread : faultless me w (.read .before (.ofLocation target)) (reading w.tree target) w :=
    ⟨rfl,by rw [Path.absolute_ofLocation]⟩
  unfold updateDocument
  rw [if_neg hpath]
  refine reaches_perform hresolved ?_
  dsimp only
  rw [hmatch]
  refine reaches_perform hread ?_
  rw [h.read]
  exact hreach

/-- It takes a lock that nobody has. -/
theorem updateDocument_locks {w : World} (hpath : ¬ (path.isEmpty ∨ path.filename = []))
    (h : Standing L me path target w.tree current)
    (hmatch : rollbackTargetMatches me.current target request.previous = true) (hready : Ready target w) (budget : ℕ) :
    Reaches (faultless me) (updateDocument L (budget + 1) me path request) w
      (lockTaken L (budget + 1) path target request) (w.hold (lockPath target).components (some me.id)) := by
  obtain ⟨next,hreach,hnext⟩ := updateDocument_flocks L hpath h hmatch hready budget
  rw [← hnext]
  exact hreach.step ⟨rfl,hready.free,rfl⟩

end
end DocumentStore
end HolonightConfig
