import HolonightConfig.AppearanceStore.Reserved
import HolonightConfig.DocumentStore.Serializable

/-! Any number of calls of the editing interface on one target, call by call in any order and under
every schedule of faults: a file that can be read stays one, and one that cannot is left alone. -/
namespace HolonightConfig
open Text Toml Posix Program

namespace AppearanceStore
open Storage Document DocumentStore AppearanceDocument Change

/-- One call of the editing interface: by whom, on which path, and which. -/
structure Editor where
  me : Process
  path : Path
  action : Action
  budget : ℕ

section
variable (L : Library) (target : List Name)

/-- What a call asks for under the lock; the version edit is based on a document read before. -/
inductive Action.Requests : Action → Request → Prop
  | save (edits : EditBatch) (document : DocumentSnapshot) :
    Requests (.save edits) ⟨edits ++ [versionEdit document],appearanceDocumentSchema L,none,none⟩
  | stage (edits : EditBatch) (document : DocumentSnapshot) :
    Requests (.stage edits) ⟨edits ++ [versionEdit document],appearanceDocumentSchema L,none,none⟩
  | restore (staged : DocumentRevision) (previous : DocumentSnapshot) :
    Requests (.restore staged previous) ⟨[],appearanceDocumentSchema L,some staged,some previous⟩

section
variable {ι : Type} [DecidableEq ι] (editors : ι → Editor) (i : ι)

/-- The updates of the editors, were they all asked for the same. -/
def asked (request : Request) (i : ι) : Update :=
  ⟨(editors i).me,(editors i).path,request,(editors i).budget⟩

/-- Nothing in particular. -/
def nothing : Request := ⟨[],⟨[],none⟩,none,none⟩

/-- What an editor does is an update with one of its requests. -/
def Edits (s : Ledger ι) (c : Call) (s' : Ledger ι) : Prop :=
  ∃ request, (editors i).action.Requests L request ∧ Cooperates L target (asked editors request) i s c s'

abbrev Editing (start : Origin ι) {α : Type} (Q : α → Ledger ι → Prop) (p : Command α) (s : Ledger ι) : Prop :=
  Withstands (cooperating target (asked editors nothing) i) (fun s c _ s' => Edits L target editors i s c s')
    (Relies target (asked editors nothing) i start.first) Q p s

end

variable {L target} {ι : Type} [DecidableEq ι] {editors : ι → Editor} {i : ι} {start : Origin ι} {s s' : Ledger ι}

theorem Action.requests (action : Action) : ∃ request, action.Requests L request := by
  cases action with
  | save edits => exact ⟨_,.save edits (.missing .none)⟩
  | stage edits => exact ⟨_,.stage edits (.missing .none)⟩
  | restore staged previous => exact ⟨_,.restore staged previous⟩

theorem Action.Requests.schema {action : Action} {request : Request} (h : action.Requests L request) :
    request.schema = appearanceDocumentSchema L := by
  cases h <;> rfl

theorem Action.Requests.edits {action : Action} {request : Request} (h : action.Requests L request)
    {edits : EditBatch} (ha : action.edits = some edits) : request.previous = none ∧
      ∃ document, request.edits = edits ++ [versionEdit document] := by
  cases h with
  | restore => cases ha
  | save edits document =>
    cases ha
    exact ⟨rfl,document,rfl⟩
  | stage edits document =>
    cases ha
    exact ⟨rfl,document,rfl⟩

/-! What an update relies on does not hang on what it is asked for. -/

omit [DecidableEq ι] in
theorem relies_asked {request request' : Request} [DecidableEq ι]
    (h : Relies target (asked editors request) i start.first s s') : Relies target (asked editors request') i start.first s s' :=
  ⟨h.lock,h.links,h.temporaries,h.rechecked,h.quiet,h.own,h.grown,h.latest⟩

theorem outside_asked {request request' : Request} (h : Outside target (asked editors request) i start s) :
    Outside target (asked editors request') i start s :=
  ⟨h.free,h.own,h.latest,h.since⟩

theorem editing_compatible (start : Option File) (hid : ∀ i j, (editors i).me.id = (editors j).me.id → i = j) :
    Pool.Compatible (fun i s c (_ : c.Answer) s' => Edits L target editors i s c s') (Outsider target)
      (fun i => Relies target (asked editors nothing) i start) where
  refl := (compatible L target (asked editors nothing) start hid).refl
  trans := (compatible L target (asked editors nothing) start hid).trans
  others := by
    rintro i j s c r s' hij ⟨request,-,h⟩
    exact @relies_asked target ι editors i ⟨start,[]⟩ s s' request nothing _
      ((compatible L target (asked editors request) start hid).others (r := r) hij h)
  outside := (compatible L target (asked editors nothing) start hid).outside

/-- The rule of a call before the lock that changes nothing. -/
theorem editing_still {α : Type} {Q : α → Ledger ι → Prop} {c : Call} {k : c.Answer → Command α}
    (h : Outside target (asked editors nothing) i start s) (hc : guarded c = false)
    (ho : offered target (asked editors nothing i) c) (hcheck : ∀ b, rechecks c b = b)
    (hstill : ∀ w r w', faulty (editors i).me w c r w' → w' = w)
    (hk : ∀ s₁, Outside target (asked editors nothing) i start s₁ → ∀ r, LeadsTo target c r →
      Editing L target editors i start Q (k r) s₁) :
    Editing L target editors i start Q (Prog.perform c >>= k) s := by
  refine withstands_perform (fun s₁ hr r s' hs => ?_)
  have hout := h.relies hr
  obtain ⟨request,hrequest⟩ := (editors i).action.requests (L := L)
  have hstep : s' = s₁ ∧ Cooperates L target (asked editors request) i s₁ c s' :=
    cooperating_still hs (hstill _ _ _ hs.1) hcheck
      ⟨(fun hg => by rw [hc] at hg; cases hg),fun he => absurd he hout.free⟩ ho
  obtain ⟨rfl,hco⟩ := hstep
  exact ⟨⟨request,hrequest,hco⟩,hk _ hout r hs.2.1⟩

/-- An update with one of the editor's requests. -/
theorem update_editing {request : Request} (h : Outside target (asked editors nothing) i start s)
    (hrequest : (editors i).action.Requests L request) :
    Editing L target editors i start (fun _ _ => True)
      (updateDocument L (editors i).budget (editors i).me (editors i).path request) s := by
  have hupdate : Endures L target (asked editors request) i start (Returned L target (asked editors request) i start)
      (updateDocument L (editors i).budget (editors i).me (editors i).path request) s :=
    updateDocument_endures (outside_asked h)
  exact (hupdate.weaken (fun _ _ _ _ hg => ⟨request,hrequest,hg⟩) (fun _ _ hr => relies_asked hr)).mono
    (fun _ _ _ => trivial)

theorem stage_editing (h : Outside target (asked editors nothing) i start s) {edits : EditBatch}
    (ha : ∀ document, (editors i).action.Requests L
      ⟨edits ++ [versionEdit document],appearanceDocumentSchema L,none,none⟩) :
    Editing L target editors i start (fun _ _ => True)
      (stageAppearanceDocument L (editors i).budget (editors i).me (editors i).path edits) s := by
  unfold stageAppearanceDocument
  refine withstands_bind (P := fun _ => Outside target (asked editors nothing) i start) ?_ (fun found s₁ h₁ => ?_)
  · unfold resolveDocumentTarget
    split
    · exact h
    · refine editing_still h rfl rfl (fun _ => rfl) (by rintro w r w' (⟨rfl,-⟩ | ⟨-,rfl⟩) <;> rfl) (fun s₁ h₁ r _ => ?_)
      cases r with
      | error e => exact h₁
      | ok found => exact h₁
  · cases found.value with
    | none => trivial
    | some location =>
      refine withstands_bind (P := fun _ => Outside target (asked editors nothing) i start) ?_ (fun current s₂ h₂ => ?_)
      · exact editing_still h₁ rfl trivial (fun _ => rfl) (by rintro w r w' (⟨rfl,-⟩ | ⟨-,rfl⟩) <;> rfl)
          (fun s₂ h₂ r _ => h₂)
      · cases current.value with
        | none => trivial
        | some document =>
          dsimp only
          split
          · trivial
          · exact withstands_bind (update_editing h₂ (ha document.snapshot)) (fun _ _ _ => trivial)

theorem action_editing (h : Outside target (asked editors nothing) i start s) :
    Editing L target editors i start (fun _ _ => True)
      ((editors i).action.program L (editors i).budget (editors i).me (editors i).path) s := by
  cases ha : (editors i).action with
  | save edits =>
    exact withstands_bind (stage_editing h (fun document => ha ▸ .save edits document)) (fun _ _ _ => trivial)
  | stage edits =>
    exact withstands_bind (stage_editing h (fun document => ha ▸ .stage edits document)) (fun _ _ _ => trivial)
  | restore staged previous =>
    exact withstands_bind (update_editing h (ha ▸ .restore staged previous)) (fun _ _ _ => trivial)

/-! ### Runs of many calls -/

section
variable (L target editors)

def programs (i : ι) : Command SaveResult :=
  (editors i).action.program L (editors i).budget (editors i).me (editors i).path

/-- Calls of the editing interface and other writers, step by step in any order and under every schedule
of faults. -/
abbrev Editions (w : World) (p : ι → Command SaveResult) (s : Ledger ι) : Prop :=
  Pool.Run (cooperating target (asked editors nothing)) (Outsider target) ⟨programs L editors,⟨w,[],false⟩⟩ ⟨p,s⟩

/-- What a change may be: an editor makes what it was asked for of the document it finds, another writer
anything. -/
def Edition : Option ι → Option File → Option File → Prop
  | some i,before,after => ∃ request current, (editors i).action.Requests L request ∧
    Applies L target request current before after
  | none,_,_ => True

/-- The target is what the editors and the others make of it one after another; it can be read as long as
what the others leave can; no edit is made to a document that cannot be read; and each edit sets its values,
with the version, over values it has seen. -/
structure Usable (w : World) (s : Ledger ι) : Prop where
  serial : Serial (Edition L target editors) (document target w) s.changes (document target s.world)
  loads : ∀ path, Loads L path (document target w) →
    (∀ e ∈ s.changes, e.who = none → Loads L path e.after) → Loads L path (document target s.world)
  respects : ∀ path, ∀ e ∈ s.changes, ∀ i edits, e.who = some i → (editors i).action.edits = some edits →
    Loads L path e.before
  seen : ∀ e ∈ s.changes, ∀ i edits, e.who = some i → (editors i).action.edits = some edits →
    ∃ read, OverwritesSeen L target (edits ++ [versionEdit read]) e.before e.after

end

variable {w : World} {p : ι → Command SaveResult}

theorem editions_safe (hfree : w.holder (lockPath target).components = none) :
    Pool.Safe (cooperating target (asked editors nothing))
      (fun i s c (_ : c.Answer) s' => Edits L target editors i s c s')
      (fun i => Relies target (asked editors nothing) i (document target w)) (fun _ _ _ => True)
      ⟨programs L editors,⟨w,[],false⟩⟩ := by
  intro i
  refine @action_editing L target ι _ editors i ⟨document target w,[]⟩ _ ⟨?_,rfl,rfl,List.nil_prefix⟩
  rw [holder,hfree]
  simp

/-- In every run the changes are those of the editors and the others one after another. -/
theorem Editions.serial (hid : ∀ i j, (editors i).me.id = (editors j).me.id → i = j)
    (hfree : w.holder (lockPath target).components = none) (hr : Editions L target editors w p s) :
    Serial (Edition L target editors) (document target w) s.changes (document target s.world) := by
  refine (editions_safe hfree).invariant (editing_compatible (document target w) hid) (fun _ _ _ _ _ => id)
    (I := fun s => Serial (Edition L target editors) (document target w) s.changes (document target s.world)) (.nil _)
    ?_ ?_ hr
  · rintro i s c r s' ⟨request,hrequest,h⟩ hserial
    rcases h.change with ⟨hd,he⟩ | ⟨-,-,⟨current,happ⟩,he⟩
    · rw [hd,he]
      exact hserial
    · rw [he]
      exact .snoc hserial ⟨request,current,hrequest,happ⟩
  · intro s s' h hserial
    rw [h.changes]
    unfold note
    split
    · next he =>
      rw [he]
      exact hserial
    · exact .snoc hserial trivial

section
variable (hL : L.Permissive) (hC : L.Conforms kMaximumDocumentBytes)
include hL hC

omit [DecidableEq ι] in
/-- What an editor leaves can be read. -/
theorem edition_loads {who : Option ι} {before after : Option File} (h : Edition L target editors who before after)
    (hwho : who ≠ none) (path : Path) : Loads L path after := by
  cases who with
  | none => exact absurd rfl hwho
  | some i =>
    obtain ⟨request,current,hrequest,happ⟩ := h
    cases hm : restoresMissing request with
    | true =>
      rw [(happ.removes hm).2]
      exact loads_missing path
    | false =>
      obtain ⟨m,next,hnext,-,rfl⟩ := happ.replaces hm
      obtain ⟨next',hnext',-,hexists,-⟩ := patchFor_success L happ.found.success
      cases hnext.symm.trans hnext'
      refine patchFor_loads hL hC hrequest.schema hnext ?_ path
      change next.revision = ⟨true,next.revision.bytes⟩
      rw [← hexists hm]

omit [DecidableEq ι] in
/-- What an edit is made to can be read. -/
theorem edition_respects {before after : Option File} (h : Edition L target editors (some i) before after)
    {edits : EditBatch} (ha : (editors i).action.edits = some edits) (path : Path) : Loads L path before := by
  obtain ⟨request,current,hrequest,happ⟩ := h
  have hp := (hrequest.edits ha).1
  have hm : restoresMissing request = false := by rw [restoresMissing,hp]; rfl
  obtain ⟨m,next,hnext,-⟩ := happ.replaces hm
  rw [patchFor,hp,hrequest.schema] at hnext
  exact patchDocument_loads hL hC hnext happ.found.holds happ.found.snapshot path

omit [DecidableEq ι] in
theorem serial_loads {a b : Option File} {changes : List (Change (Option ι) (Option File))}
    (h : Serial (Edition L target editors) a changes b) {path : Path} (ha : Loads L path a)
    (hothers : ∀ e ∈ changes, e.who = none → Loads L path e.after) : Loads L path b := by
  cases h with
  | nil => exact ha
  | @snoc before _ changes who _ hop =>
    cases who with
    | none => exact hothers ⟨none,before,b⟩ (by simp) rfl
    | some i => exact edition_loads hL hC hop (by simp) path

/-- Whatever order the steps of the calls come in and whatever fails, the document stays readable, and
one that is not is left alone. -/
theorem editions_stay_usable (hid : ∀ i j, (editors i).me.id = (editors j).me.id → i = j)
    (hfree : w.holder (lockPath target).components = none) (hr : Editions L target editors w p s) :
    Usable L target editors w s := by
  have hserial := hr.serial hid hfree
  have hedition : ∀ e ∈ s.changes, ∀ i, e.who = some i → Edition L target editors (some i) e.before e.after := by
    intro e he i hi
    have hop := hserial.mem e he
    rwa [hi] at hop
  refine ⟨hserial,fun path hl hothers => serial_loads hL hC hserial hl hothers,
    fun path e he i edits hi ha => edition_respects hL hC (hedition e he i hi) ha path,fun e he i edits hi ha => ?_⟩
  obtain ⟨request,current,hrequest,happ⟩ := hedition e he i hi
  obtain ⟨hp,read,hedits⟩ := hrequest.edits ha
  exact ⟨read,hedits ▸ happ.seen hp⟩

end
end

section
variable {L : Library} {target : List Name} {ι : Type} [DecidableEq ι] {editors : ι → Editor} {w w' : World}
  {p : ι → Command SaveResult} {s : Ledger ι} {i : ι}

/-- A run goes on with one editor whose path is the target's own. -/
theorem Editions.onward {q : Command SaveResult} (hid : ∀ i j, (editors i).me.id = (editors j).me.id → i = j)
    (hfree : w.holder (lockPath target).components = none) (hn : ∀ c ∈ target, IsName c) (hp : w.tree.Plain target)
    (hpath : (editors i).path = .ofLocation target) (hrun : Editions L target editors w p s)
    (hr : Reaches (faultless (editors i).me) (p i) s.world q w') :
    ∃ s', Pool.Run (cooperating target (asked editors nothing)) (Outsider target) ⟨p,s⟩ ⟨Function.update p i q,s'⟩ ∧
      s'.world = w' ∧ ∃ more, s'.changes = s.changes ++ more ∧ ∀ e ∈ more, e.who = some i := by
  have hnext : ∀ p' s', Pool.Run (cooperating target (asked editors nothing)) (Outsider target) ⟨p,s⟩ ⟨p',s'⟩ →
      s'.world.tree.Plain target ∧
      ∀ c next, p' i = .call c next → offered target (asked editors nothing i) c := by
    intro p' s' hrun'
    have hall : Editions L target editors w p' s' := hrun.trans hrun'
    have hstart : Pool.Safe _ _ _ _ _ := @editions_safe L target ι _ editors w hfree
    have hc := @editing_compatible L target ι _ editors (document target w) hid
    refine ⟨?_,fun c next hcall => ?_⟩
    · refine hstart.invariant hc (fun _ _ _ _ _ => id) (I := fun s => s.world.tree.Plain target) hp ?_
        (fun s s' ho => ho.links) hall
      rintro i s c r s' ⟨request,-,hco⟩
      exact hco.links
    · obtain ⟨r,w₁,hf,hl⟩ := @faulty_total (editors i).me s'.world target c
      have hs : cooperating target (asked editors nothing) i s' c r ⟨w₁,note (some i) (document target s'.world)
        (document target w₁) s'.changes,rechecks c s'.rechecked⟩ := ⟨hf,hl,rfl,rfl⟩
      obtain ⟨request,-,hco⟩ := (hstart.run hc (fun _ _ _ _ _ => id) hall).next hc hcall hs
      cases c with
      | resolve phase path =>
        cases phase with
        | before => exact hco.offered
        | _ => trivial
      | write file octets => exact hco.offered
      | flock path => exact hco.offered
      | _ => trivial
  exact @run_onward target ι _ (asked editors nothing) w' i SaveResult p q s hn hpath hnext hr

/-- A document that can be saved by the target's own path. -/
structure Savable (L : Library) (me : Process) (target : List Name) (w : World) (current : DocumentSnapshot) : Prop where
  standing : Standing L me (.ofLocation target) target w.tree current
  lockable : Lockable target w
  name : FreeName target w.tree

/-- A run goes on with one save from beginning to end. -/
theorem Editions.saves (hid : ∀ i j, (editors i).me.id = (editors j).me.id → i = j)
    (hfree : w.holder (lockPath target).components = none) (hplain : w.tree.Plain target)
    (hrun : Editions L target editors w p s) (hp : p i = programs L editors i)
    (hpath : (editors i).path = .ofLocation target) {edits : EditBatch} (ha : (editors i).action = .save edits)
    {current : DocumentSnapshot} (h : Savable L (editors i).me target s.world current) {version : ℤ} {appearance : Appearance}
    (hd : (decodeAppearanceDocument L current).value = some ⟨current,version,appearance⟩)
    (he : edits.any (fun edit => edit.key = versionKey) = false)
    (hs : (patchDocument L current (edits ++ [versionEdit current]) (appearanceDocumentSchema L)).status = .success)
    (hlen : (((patchDocument L current (edits ++ [versionEdit current]) (appearanceDocumentSchema L)).snapshot.map
      (fun s => s.revision.bytes)).getD []).length ≤ (editors i).budget) (hpos : 0 < (editors i).budget) :
    ∃ r s' before next, Pool.Run (cooperating target (asked editors nothing)) (Outsider target) ⟨p,s⟩
        ⟨Function.update p i (.ret r),s'⟩ ∧ r.status = .success ∧
      Updated L (editors i).me (.ofLocation target) target (edits ++ [versionEdit current]) (appearanceDocumentSchema L)
        s.world (r,before) s'.world current next ∧ s'.world.holder = s.world.holder ∧
      ∃ more, s'.changes = s.changes ++ more ∧ ∀ e ∈ more, e.who = some i := by
  have hstand := h.standing
  have hnamed : ¬ ((Path.ofLocation target).isEmpty ∨ (Path.ofLocation target).filename = []) :=
    hstand.named
  have hempty : (Path.ofLocation target).isEmpty = false :=
    Bool.eq_false_iff.mpr (fun he => hnamed (.inl he))
  obtain ⟨⟨r,before⟩,w',hreach,hsuccess,hout⟩ :=
    (updateDocument_patches hnamed hstand h.lockable h.name hs hlen hpos).exists
  have hstaged := (@stage_reaches L (editors i).me (.ofLocation target) target s.world current _ edits hempty hstand hd he
    (editors i).budget).trans (hreach.bind _)
  have hsaved : Reaches (faultless (editors i).me) (p i) s.world (.ret r) w' := by
    rw [hp]
    unfold programs
    rw [ha,hpath]
    exact hstaged.bind (fun staged => Prog.ret staged.result)
  obtain ⟨s',hrun',rfl,hmore⟩ := hrun.onward hid hfree hstand.physical.names hplain hpath hsaved
  obtain ⟨target',current',next,hup⟩ := hout.updated (.inl hsuccess)
  obtain ⟨hT,hholds,hsnap⟩ := hup.before
  cases hT.symm.trans hstand.resolved
  obtain rfl : current' = current := by
    rw [hholds.unique hstand.holds,hstand.snapshot] at hsnap
    exact (Option.some.inj hsnap).symm
  exact ⟨r,s',before,next,hrun',hsuccess,hup,hout.holder,hmore⟩

end

/-- The accent set to another one. -/
def setAccent : EditBatch := [⟨[bytes "theme",bytes "accent"],none,some (.string (bytes "teal"))⟩]

/-- Any number of saves of this accent. -/
def homeEditors (i : ℕ) : Editor := ⟨⟨i,[]⟩,homePath,.save setAccent,kMaximumDocumentBytes⟩

theorem lockedHome_savable : Savable Reference.library ⟨0,[]⟩ [configName] lockedHome (.missing homePath) where
  standing := lockedHome_standing Reference.library
  lockable := lockedHome_ready.lockable
  name := ⟨bytes "aaaaaa",by decide +kernel,by decide +kernel⟩

/-- One of the saves has set the accent. -/
theorem homeEditors_runs : ∃ p s e r, Editions Reference.library [configName] homeEditors lockedHome p s ∧
    e ∈ s.changes ∧ e.who = some 0 ∧ p 0 = .ret r ∧ r.status = .success := by
  have hfacts : (patchDocument Reference.library (.missing homePath) (setAccent ++ [versionEdit (.missing homePath)])
        (appearanceDocumentSchema Reference.library)).status = .success ∧
      (((patchDocument Reference.library (.missing homePath) (setAccent ++ [versionEdit (.missing homePath)])
        (appearanceDocumentSchema Reference.library)).snapshot.map
        (fun s => s.revision.bytes)).getD []).length ≤ kMaximumDocumentBytes ∧
      (patchDocument Reference.library (.missing homePath) (setAccent ++ [versionEdit (.missing homePath)])
        (appearanceDocumentSchema Reference.library)).snapshot.map (fun s => s.revision.bytes) ≠ some [] := by
    decide +kernel
  obtain ⟨hs,hlen,hne⟩ := hfacts
  obtain ⟨r,s,before,next,hrun,hsuccess,hup,-,more,hmore,hwho⟩ := @Editions.saves Reference.library [configName] ℕ _
    homeEditors lockedHome _ ⟨lockedHome,[],false⟩ 0 (fun _ _ h => h) rfl
    (lockedHome_standing Reference.library).physical.plain .refl rfl rfl setAccent rfl _ lockedHome_savable _ _ rfl
    (by decide +kernel) hs hlen (by decide)
  obtain ⟨-,hmade⟩ := hup.made hne
  have hserial := Editions.serial (fun _ _ h => h) rfl hrun
  have hsome : more ≠ [] := fun hc => hmade ((hserial.unchanged (hmore.trans hc)).trans lockedHome_document)
  obtain ⟨e,he⟩ := List.exists_mem_of_ne_nil _ hsome
  exact ⟨_,s,e,r,hrun,hmore ▸ he,hwho e he,Function.update_self _ _ _,hsuccess⟩

theorem editions_stay_usable_home : ∃ p s e r, Usable Reference.library [configName] homeEditors lockedHome s ∧
    Editions Reference.library [configName] homeEditors lockedHome p s ∧ e ∈ s.changes ∧ e.who = some 0 ∧
    p 0 = .ret r ∧ r.status = .success := by
  obtain ⟨p,s,e,r,hrun,he,hwho,hp,hr⟩ := homeEditors_runs
  exact ⟨p,s,e,r,editions_stay_usable Reference.permissive (Reference.conforms _) (fun _ _ h => h) rfl hrun,hrun,he,hwho,
    hp,hr⟩

end AppearanceStore
end HolonightConfig
