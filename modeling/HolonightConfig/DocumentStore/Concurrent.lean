import HolonightConfig.DocumentStore.Outcome
import HolonightConfig.Program.Concurrent

/-! Any number of updates of one target, call by call in any order and under every schedule
of faults, among writers that know no lock: the sibling lock and the recheck let an update
replace only the document it has found. -/
namespace HolonightConfig
open Text Toml Posix Program

namespace DocumentStore
open Storage Document Change

/-- One update: by whom, of which path, and what for. -/
structure Update where
  me : Process
  path : Path
  request : Request
  budget : ℕ

/-- The path leads to the target at first, or nowhere. -/
def LeadsTo (target : List Name) : (c : Call) → c.Answer → Prop
  | .resolve .before _,r => ∀ found, r = .ok found → found = target
  | _,_ => True

/-- The calls of an update that the lock is for. -/
def guarded : Call → Bool
  | .resolve .before _ | .read .before _ | .createDirectories _ | .openLock _ | .flock _ => false
  | _ => true

/-- No write of nothing, no other lock than the target's, and no other path at first. -/
def offered (target : List Name) (u : Update) : Call → Prop
  | .write _ octets => octets ≠ []
  | .flock path => path = lockPath target
  | .resolve .before path => path = u.path
  | _ => True

/-- Whether a call comes behind the last read of the target and before what follows it. -/
def rechecks : Call → Bool → Bool
  | .read .recheck _,_ => true
  | .rename _ _,_ | .unlink _,_ | .remove _,_ | .unlock _,_ => false
  | _,b => b

/-! ### What may happen to the tree -/

/-- Nothing is lost or changed, and what is new is not the target. -/
def Quiet (target : List Name) (t t' : Tree) : Prop :=
  ∀ q, t'.file q = t.file q ∨ (t.file q = none ∧ q ≠ target)

theorem Quiet.refl (target : List Name) (t : Tree) : Quiet target t t := fun _ => .inl rfl

theorem Quiet.trans {target : List Name} {t t₁ t₂ : Tree} (h : Quiet target t t₁) (h' : Quiet target t₁ t₂) :
    Quiet target t t₂ := by
  intro q
  rcases h q with he | hn
  · rcases h' q with he' | hn'
    · exact .inl (he'.trans he)
    · exact .inr ⟨he ▸ hn'.1,hn'.2⟩
  · exact .inr hn

theorem Quiet.target {target : List Name} {t t' : Tree} (h : Quiet target t t') : t'.file target = t.file target := by
  rcases h target with he | hn
  · exact he
  · exact absurd rfl hn.2

theorem Quiet.kept {target q : List Name} {t t' : Tree} {f : File} (h : Quiet target t t') (hf : t.file q = some f) :
    t'.file q = some f := by
  rcases h q with he | hn
  · exact he.trans hf
  · rw [hn.1] at hf
    cases hf

/-- No new links on the way to the target. -/
def Linkless (target : List Name) (t t' : Tree) : Prop := t.Plain target → t'.Plain target

theorem Linkless.of_others {target x : List Name} {t t' : Tree} (hx : t'.isSymlink x = false)
    (h : ∀ q, q ≠ x → t'.file q = t.file q) : Linkless target t t' := by
  intro hp q hq
  by_cases he : q = x
  · rw [he]
    exact hx
  · rw [Tree.isSymlink,h q he]
    exact hp q hq

/-! ### Who may do what -/

/-- The world, the changes of the target so far, and whether it has been read for the last
time before it is changed. -/
structure Ledger (ι : Type) where
  world : World
  changes : List (Change (Option ι) (Option File))
  rechecked : Bool

section
variable (L : Library) (target : List Name)

def document (w : World) : Option File := w.tree.file target

/-- The document a request finds and can be made on. -/
structure Found (request : Request) (before : Option File) (current : DocumentSnapshot) : Prop where
  holds : Holds before current.revision
  snapshot : snapshotAt L target current.revision = some current
  staged : ∀ staged, request.staged = some staged → current.revision = staged
  success : (patchFor L request current).status = .success

/-- What a request makes of the document it finds. -/
structure Applies (request : Request) (current : DocumentSnapshot) (before after : Option File) : Prop where
  found : Found L target request before current
  removes : restoresMissing request = true → current.revision.exists_ = true ∧ after = none
  replaces : restoresMissing request = false → ∃ m s, (patchFor L request current).snapshot = some s ∧
    s.revision.bytes ≠ current.revision.bytes ∧ after = some (.regular m s.revision.bytes)

section
variable {ι : Type} [DecidableEq ι] (calls : ι → Update) (i : ι)

/-- The calls of one update under every schedule of faults, the path leading to the target
at first. -/
def cooperating (i : ι) : Semantics Call Call.Answer (Ledger ι) :=
  fun s c r s' => faulty (calls i).me s.world c r s'.world ∧ LeadsTo target c r ∧
    s'.changes = note (some i) (document target s.world) (document target s'.world) s.changes ∧
    s'.rechecked = rechecks c s.rechecked

/-- Another writer changes files and links as it likes, except for the directory of the target,
the lock and the temporary files, and not behind a last read; it makes no link of the target. -/
structure Outsider (s s' : Ledger ι) : Prop where
  early : s.rechecked = false
  spared : ∀ q, q <+: target.dropLast ∨ q = (lockPath target).components ∨ (∃ suffix, q = temporaryAt target suffix) →
    s'.world.tree.file q = s.world.tree.file q
  plain : s'.world.tree.isSymlink target = false
  holder : s'.world.holder = s.world.holder
  changes : s'.changes = note none (document target s.world) (document target s'.world) s.changes
  rechecked : s'.rechecked = s.rechecked

def holder (s : Ledger ι) : Option ℕ := s.world.holder (lockPath target).components

/-- What one update does: it takes the lock and gives it back, changes nothing that is there
without it, and with it the target as it was asked to. -/
structure Cooperates (s : Ledger ι) (c : Call) (s' : Ledger ι) : Prop where
  lock : holder target s' = holder target s ∨
    (holder target s = none ∧ holder target s' = some (calls i).me.id) ∨
    (holder target s = some (calls i).me.id ∧ holder target s' = none)
  guarded : guarded c = true ↔ holder target s = some (calls i).me.id
  offered : offered target (calls i) c
  links : Linkless target s.world.tree s'.world.tree
  quiet : holder target s ≠ some (calls i).me.id →
    Quiet target s.world.tree s'.world.tree ∧ s'.rechecked = s.rechecked
  change : (document target s'.world = document target s.world ∧ s'.changes = s.changes) ∨
    (holder target s = some (calls i).me.id ∧ own (some i) s.changes = [] ∧
      (∃ current, Applies L target (calls i).request current (document target s.world) (document target s'.world)) ∧
      s'.changes = s.changes ++ [⟨some i,document target s.world,document target s'.world⟩])

/-- What an update relies on: the others leave its lock, its temporary file while it has the
lock, and everything that is there behind its last read of the target. -/
structure Relies (start : Option File) (s s' : Ledger ι) : Prop where
  lock : holder target s = some (calls i).me.id ↔ holder target s' = some (calls i).me.id
  links : Linkless target s.world.tree s'.world.tree
  temporaries : holder target s = some (calls i).me.id → ∀ suffix f,
    s.world.tree.file (temporaryAt target suffix) = some f → s'.world.tree.file (temporaryAt target suffix) = some f
  rechecked : holder target s = some (calls i).me.id → s'.rechecked = s.rechecked
  quiet : holder target s = some (calls i).me.id → s.rechecked = true → Quiet target s.world.tree s'.world.tree
  own : own (some i) s'.changes = own (some i) s.changes
  grown : s.changes <+: s'.changes
  latest : document target s.world = latest start s.changes → document target s'.world = latest start s'.changes

theorem Cooperates.grown {s s' : Ledger ι} {c : Call} (h : Cooperates L target calls i s c s') :
    s.changes <+: s'.changes := by
  rcases h.change with ⟨-,he⟩ | ⟨-,-,-,he⟩
  · exact he ▸ List.prefix_refl _
  · rw [he]
    exact List.prefix_append _ _

omit [DecidableEq ι] in
theorem Outsider.links {target : List Name} {s s' : Ledger ι} (h : Outsider target s s') :
    Linkless target s.world.tree s'.world.tree := by
  intro hp q hq
  by_cases he : q = target
  · rw [he]
    exact h.plain
  · have hq' : q <+: target.dropLast := by
      rcases List.eq_nil_or_concat' target with rfl | ⟨d,n,rfl⟩
      · exact absurd (List.prefix_nil.mp hq) he
      · rw [List.dropLast_concat]
        exact (List.prefix_concat_iff.mp hq).resolve_left he
    rw [Tree.isSymlink,h.spared q (.inl hq')]
    exact hp q hq

theorem compatible (start : Option File) (hid : ∀ i j, (calls i).me.id = (calls j).me.id → i = j) :
    Pool.Compatible (fun i s c (_ : c.Answer) s' => Cooperates L target calls i s c s') (Outsider target)
      (fun i => Relies target calls i start) where
  refl := fun i s => ⟨Iff.rfl,id,fun _ _ _ => id,fun _ => rfl,fun _ _ => .refl _ _,rfl,List.prefix_refl _,id⟩
  trans := by
    intro i s s₁ s₂ h h'
    refine ⟨h.lock.trans h'.lock,fun hp => h'.links (h.links hp),fun hl suffix f hf => ?_,fun hl => ?_,
      fun hl hc => ?_,h'.own.trans h.own,h.grown.trans h'.grown,fun hl => h'.latest (h.latest hl)⟩
    · exact h'.temporaries (h.lock.mp hl) suffix f (h.temporaries hl suffix f hf)
    · exact (h'.rechecked (h.lock.mp hl)).trans (h.rechecked hl)
    · exact (h.quiet hl hc).trans (h'.quiet (h.lock.mp hl) ((h.rechecked hl).trans hc))
  others := by
    intro i j s c r s' hij h
    have hne : (calls j).me.id ≠ (calls i).me.id := fun he => hij (hid j i he).symm
    have hquiet : holder target s = some (calls i).me.id →
        Quiet target s.world.tree s'.world.tree ∧ s'.rechecked = s.rechecked := by
      intro hl
      refine h.quiet ?_
      rw [hl]
      exact fun he => hne (Option.some.inj he).symm
    refine ⟨?_,h.links,fun hl _ _ hf => (hquiet hl).1.kept hf,fun hl => (hquiet hl).2,
      fun hl _ => (hquiet hl).1,?_,h.grown,?_⟩
    · rcases h.lock with he | ⟨hb,ha⟩ | ⟨hb,ha⟩
      · rw [he]
      · simp [hb,ha,hne]
      · simp [hb,ha,hne]
    · rcases h.change with ⟨-,he⟩ | ⟨-,-,-,he⟩
      · rw [he]
      · rw [he]
        exact own_snoc_of_ne (by simpa using Ne.symm hij) _ _ _
    · intro hl
      rcases h.change with ⟨hd,he⟩ | ⟨-,-,-,he⟩
      · rw [hd,he]
        exact hl
      · rw [he,latest_snoc]
  outside := by
    intro i s s' h
    have hheld : holder target s' = holder target s := congrFun h.holder _
    refine ⟨by rw [hheld],h.links,fun _ suffix f hf => ?_,fun _ => h.rechecked,fun _ hc => ?_,?_,?_,?_⟩
    · rw [h.spared _ (.inr (.inr ⟨suffix,rfl⟩))]
      exact hf
    · rw [h.early] at hc
      cases hc
    · rw [h.changes]
      exact own_note_of_ne (by simp) _ _ _
    · rw [h.changes]
      exact prefix_note _ _ _ _
    · intro hl
      rw [h.changes]
      exact latest_note hl _ _

/-- What a run starts with, and the changes there are when an update is called. -/
structure Origin (ι : Type) where
  first : Option File
  begun : List (Change (Option ι) (Option File))

/-- What holds of an update whatever the others do meanwhile. -/
abbrev Endures (start : Origin ι) {α : Type} (Q : α → Ledger ι → Prop) (p : Command α) (s : Ledger ι) : Prop :=
  Withstands (cooperating target calls i) (fun s c _ s' => Cooperates L target calls i s c s')
    (Relies target calls i start.first) Q p s

/-- Under the lock, with the update's changes so far. -/
structure Inside (start : Origin ι) (changes : List (Change (Option ι) (Option File))) (s : Ledger ι) : Prop where
  held : holder target s = some (calls i).me.id
  plain : s.world.tree.Plain target
  own : own (some i) s.changes = changes
  latest : document target s.world = latest start.first s.changes
  since : start.begun <+: s.changes

/-- Behind the last read, with what was found. -/
structure Checked (f : Option File) (s : Ledger ι) : Prop where
  rechecked : s.rechecked = true
  found : document target s.world = f

/-- Not under the lock, and nothing changed so far. -/
structure Outside (start : Origin ι) (s : Ledger ι) : Prop where
  free : holder target s ≠ some (calls i).me.id
  own : own (some i) s.changes = []
  latest : document target s.world = latest start.first s.changes
  since : start.begun <+: s.changes

end
end

section
variable {L : Library} {target : List Name} {ι : Type} [DecidableEq ι] {calls : ι → Update} {i : ι}
  {start : Origin ι} {f : Option File} {changes : List (Change (Option ι) (Option File))} {s s' : Ledger ι}

theorem Outside.relies (h : Outside target calls i start s) (hr : Relies target calls i start.first s s') :
    Outside target calls i start s' :=
  ⟨fun he => h.free (hr.lock.mpr he),hr.own.trans h.own,hr.latest h.latest,h.since.trans hr.grown⟩

theorem Inside.relies (h : Inside target calls i start changes s) (hr : Relies target calls i start.first s s') :
    Inside target calls i start changes s' :=
  ⟨hr.lock.mp h.held,hr.links h.plain,hr.own.trans h.own,hr.latest h.latest,h.since.trans hr.grown⟩

theorem Checked.relies (h : Checked target f s) (hl : holder target s = some (calls i).me.id)
    (hr : Relies target calls i start.first s s') : Checked target f s' :=
  ⟨(hr.rechecked hl).trans h.rechecked,(hr.quiet hl h.rechecked).target.trans h.found⟩

/-- A call that changes nothing. -/
theorem cooperating_still {c : Call} {r : c.Answer} (hs : cooperating target calls i s c r s')
    (hw : s'.world = s.world) (hc : ∀ b, rechecks c b = b)
    (hg : guarded c = true ↔ holder target s = some (calls i).me.id) (ho : offered target (calls i) c) :
    s' = s ∧ Cooperates L target calls i s c s' := by
  obtain ⟨-,-,hlog,hcheck⟩ := hs
  rw [hw,note_self] at hlog
  rw [hc] at hcheck
  obtain ⟨w,changes,rechecked⟩ := s'
  dsimp only at hw hlog hcheck
  subst hw hlog hcheck
  exact ⟨rfl,.inl rfl,hg,ho,id,fun _ => ⟨.refl _ _,rfl⟩,.inl ⟨rfl,rfl⟩⟩

/-- The rule of a call that changes nothing. -/
theorem endures_still {α : Type} {Q : α → Ledger ι → Prop} {P : Ledger ι → Prop} {c : Call} {k : c.Answer → Command α}
    (hstill : ∀ w r w', faulty (calls i).me w c r w' → w' = w) (hc : ∀ b, rechecks c b = b)
    (hP : ∀ s', Relies target calls i start.first s s' → P s')
    (hg : ∀ s', P s' → (guarded c = true ↔ holder target s' = some (calls i).me.id)) (ho : offered target (calls i) c)
    (h : ∀ s₁, P s₁ → ∀ r, faulty (calls i).me s₁.world c r s₁.world → LeadsTo target c r →
      Endures L target calls i start Q (k r) s₁) :
    Endures L target calls i start Q (Prog.perform c >>= k) s := by
  refine withstands_perform (fun s₁ hr r s' hs => ?_)
  have hp := hP s₁ hr
  obtain ⟨rfl,hco⟩ := cooperating_still (L := L) hs (hstill _ _ _ hs.1) hc (hg s₁ hp) ho
  exact ⟨hco,h s' hp r hs.1 hs.2.1⟩

/-- Under the lock something else than the target is changed. -/
theorem Inside.beside (h : Inside target calls i start changes s) {c : Call} {r : c.Answer}
    (hs : cooperating target calls i s c r s') (hfile : s'.world.tree.file target = s.world.tree.file target)
    (hlinks : Linkless target s.world.tree s'.world.tree) (hholder : s'.world.holder = s.world.holder)
    (hc : guarded c = true ∧ offered target (calls i) c) :
    Inside target calls i start changes s' ∧ Cooperates L target calls i s c s' := by
  have hdocument : document target s'.world = document target s.world := hfile
  have hsame : s'.changes = s.changes := by
    rw [hs.2.2.1,hdocument,note_self]
  have hheld : holder target s' = holder target s := congrFun hholder _
  refine ⟨⟨hheld.trans h.held,hlinks h.plain,?_,?_,?_⟩,?_⟩
  · rw [hsame]
    exact h.own
  · rw [hsame]
    exact hdocument.trans h.latest
  · rw [hsame]
    exact h.since
  · exact ⟨.inl hheld,⟨fun _ => h.held,fun _ => hc.1⟩,hc.2,hlinks,fun hne => absurd h.held hne,.inl ⟨hfile,hsame⟩⟩

/-- Under the lock a call changes nothing. -/
theorem Inside.same (h : Inside target calls i start changes s) {c : Call} {r : c.Answer}
    (hs : cooperating target calls i s c r s') (hw : s'.world = s.world) (hc : guarded c = true ∧ offered target (calls i) c) :
    Inside target calls i start changes s' ∧ Cooperates L target calls i s c s' :=
  h.beside hs (by rw [hw]) (by rw [hw]; exact id) (by rw [hw]) hc

/-- Under the lock the target is changed as it was asked to. -/
theorem Inside.changed {current : DocumentSnapshot} (h : Inside target calls i start [] s)
    (hfound : document target s.world = f) {c : Call} {r : c.Answer} (hs : cooperating target calls i s c r s')
    (ha : Applies L target (calls i).request current f (s'.world.tree.file target))
    (hne : s'.world.tree.file target ≠ f) (hlinks : Linkless target s.world.tree s'.world.tree)
    (hholder : s'.world.holder = s.world.holder) (hc : guarded c = true ∧ offered target (calls i) c) :
    Inside target calls i start [⟨some i,f,s'.world.tree.file target⟩] s' ∧ Cooperates L target calls i s c s' := by
  have hheld : holder target s' = holder target s := congrFun hholder _
  have hlog : s'.changes = s.changes ++ [⟨some i,f,s'.world.tree.file target⟩] := by
    rw [hs.2.2.1,hfound]
    exact note_of_ne hne _ _
  refine ⟨⟨hheld.trans h.held,hlinks h.plain,?_,?_,?_⟩,?_⟩
  · rw [hlog,own_snoc_self,h.own]
    rfl
  · rw [hlog,latest_snoc]
    rfl
  · rw [hlog]
    exact h.since.trans (List.prefix_append _ _)
  · refine ⟨.inl hheld,⟨fun _ => h.held,fun _ => hc.1⟩,hc.2,hlinks,fun hn => absurd h.held hn,
      .inr ⟨h.held,h.own,⟨current,?_⟩,?_⟩⟩
    · rw [hfound]
      exact ha
    · rw [hlog,hfound]
      rfl

/-! ### The temporary file -/

variable {file : Descriptor} {m : Metadata} {b : Bytes}

/-- Under the lock with a temporary file, that has these octets. -/
structure Drafting (target : List Name) (calls : ι → Update) (i : ι) (start : Origin ι) (file : Descriptor)
    (m : Metadata) (b : Bytes) (s : Ledger ι) : Prop extends Inside target calls i start [] s where
  temporary : ∃ suffix, file.location = temporaryAt target suffix
  written : s.world.tree.file file.location = some (.regular m b)

theorem Drafting.relies (h : Drafting target calls i start file m b s) (hr : Relies target calls i start.first s s') :
    Drafting target calls i start file m b s' := by
  refine ⟨h.toInside.relies hr,h.temporary,?_⟩
  obtain ⟨suffix,hsuffix⟩ := h.temporary
  have hwritten := h.written
  rw [hsuffix] at hwritten ⊢
  exact hr.temporaries h.held suffix _ hwritten

theorem Drafting.same (h : Drafting target calls i start file m b s) {c : Call} {r : c.Answer}
    (hs : cooperating target calls i s c r s') (hw : s'.world = s.world) (hc : guarded c = true ∧ offered target (calls i) c) :
    Drafting target calls i start file m b s' ∧ Cooperates L target calls i s c s' := by
  obtain ⟨hin,hco⟩ := h.toInside.same (L := L) hs hw hc
  exact ⟨⟨hin,h.temporary,by rw [hw]; exact h.written⟩,hco⟩

theorem Drafting.modify (h : Drafting target calls i start file m b s) (hne : target ≠ file.location)
    {g : Metadata → Bytes → Metadata × Bytes} {c : Call} {r : c.Answer} (hs : cooperating target calls i s c r s')
    (hw : s'.world = s.world.on (s.world.tree.modify file.directory file.name g))
    (hc : guarded c = true ∧ offered target (calls i) c) :
    Drafting target calls i start file (g m b).1 (g m b).2 s' ∧ Cooperates L target calls i s c s' := by
  have hself := Tree.file_modify_self h.written g
  have hothers : ∀ q, q ≠ file.location → s'.world.tree.file q = s.world.tree.file q := by
    intro q hq
    rw [hw]
    exact Tree.file_modify_of_ne hq g
  have hlinks : Linkless target s.world.tree s'.world.tree := by
    refine Linkless.of_others ?_ hothers
    rw [hw,Tree.isSymlink]
    exact (congrArg (Option.any File.isSymlink) hself).trans rfl
  obtain ⟨hin,hco⟩ := h.toInside.beside (L := L) hs (hothers target hne) hlinks (by rw [hw]; rfl) hc
  refine ⟨⟨hin,h.temporary,?_⟩,hco⟩
  rw [hw]
  exact hself

/-- The rule of a call that changes nothing, with a temporary file. -/
theorem Drafting.still {α : Type} {Q : α → Ledger ι → Prop} {c : Call} {k : c.Answer → Command α}
    (h : Drafting target calls i start file m b s) (hc : guarded c = true ∧ offered target (calls i) c)
    (hcheck : ∀ b, rechecks c b = b) (hstill : ∀ w r w', faulty (calls i).me w c r w' → w' = w)
    (hk : ∀ s₁, Drafting target calls i start file m b s₁ → ∀ r, faulty (calls i).me s₁.world c r s₁.world →
      LeadsTo target c r → Endures L target calls i start Q (k r) s₁) :
    Endures L target calls i start Q (Prog.perform c >>= k) s :=
  endures_still hstill hcheck (fun _ hr => h.relies hr) (fun _ hd => ⟨fun _ => hd.held,fun _ => hc.1⟩) hc.2 hk

theorem Inside.still {α : Type} {Q : α → Ledger ι → Prop} {c : Call} {k : c.Answer → Command α}
    (h : Inside target calls i start changes s) (hc : guarded c = true ∧ offered target (calls i) c)
    (hcheck : ∀ b, rechecks c b = b) (hstill : ∀ w r w', faulty (calls i).me w c r w' → w' = w)
    (hk : ∀ s₁, Inside target calls i start changes s₁ → ∀ r, faulty (calls i).me s₁.world c r s₁.world →
      LeadsTo target c r → Endures L target calls i start Q (k r) s₁) :
    Endures L target calls i start Q (Prog.perform c >>= k) s :=
  endures_still hstill hcheck (fun _ hr => h.relies hr) (fun _ hd => ⟨fun _ => hd.held,fun _ => hc.1⟩) hc.2 hk

theorem writeTemporary_endures (hd : Drafting target calls i start file m b s) (hne : target ≠ file.location)
    (budget : ℕ) (octets : Bytes) :
    Endures L target calls i start (fun r s' => ∃ b', Drafting target calls i start file m b' s' ∧
      (r = .ok () → b' = b ++ octets)) (writeTemporary file budget octets) s := by
  induction budget generalizing octets b s with
  | zero =>
    cases octets with
    | nil => exact ⟨b,hd,by simp⟩
    | cons c octets => trivial
  | succ budget ih =>
    cases octets with
    | nil => exact ⟨b,hd,by simp⟩
    | cons c octets =>
      refine withstands_perform (fun s₁ hr r s' hs => ?_)
      have hd := hd.relies hr
      have hcall : guarded (.write file (c :: octets)) = true ∧ offered target (calls i) (.write file (c :: octets)) :=
        ⟨rfl,by simp [offered]⟩
      rcases hs.1 with ⟨k,hpos,hk,rfl,hw⟩ | ⟨he,hw⟩
      · obtain ⟨hd',hco⟩ := hd.modify (L := L) hne hs hw hcall
        refine ⟨hco,?_⟩
        obtain ⟨k,rfl⟩ := Nat.exists_eq_succ_of_ne_zero (Nat.pos_iff_ne_zero.mp hpos)
        refine (ih hd' ((c :: octets).drop (k + 1))).mono (fun r w' h => ?_)
        obtain ⟨b',hd',hr⟩ := h
        refine ⟨b',hd',fun h => ?_⟩
        rw [hr h,List.append_assoc,List.take_append_drop]
      · obtain ⟨hd',hco⟩ := hd.same (L := L) hs hw hcall
        refine ⟨hco,?_⟩
        rcases he with ⟨e,rfl⟩ | rfl
        · cases e with
          | interrupted => exact ih hd' _
          | _ => exact ⟨b,hd',by simp⟩
        · exact ⟨b,hd',by simp⟩

theorem fillTemporary_endures (hd : Drafting target calls i start file m [] s) (hne : target ≠ file.location)
    (budget : ℕ) (path : Path) (octets : Bytes) (mode : ℕ) :
    Endures L target calls i start (fun r s' => ∃ m' b', Drafting target calls i start file m' b' s' ∧
      (∀ result, r = some result → result.Failed) ∧ (r = none → b' = octets))
      (fillTemporary budget path file octets mode) s := by
  refine withstands_bind (writeTemporary_endures hd hne budget octets) (fun r s' h => ?_)
  obtain ⟨b',hd',hr⟩ := h
  cases r with
  | error e =>
    refine ⟨m,b',hd',?_,by simp⟩
    rintro result ⟨rfl⟩
    exact failed_storageError _ _ _
  | ok u =>
    have hb := hr rfl
    rw [List.nil_append] at hb
    refine withstands_perform (fun s₁ hr r s₂ hs => ?_)
    have hd' := hd'.relies hr
    rcases hs.1 with ⟨rfl,hw⟩ | ⟨⟨e,rfl⟩,hw⟩
    · obtain ⟨hd₂,hco⟩ := hd'.modify (L := L) hne hs hw ⟨rfl,trivial⟩
      refine ⟨hco,hd₂.still ⟨rfl,trivial⟩ (fun _ => rfl) (by rintro w r w' (⟨-,rfl⟩ | ⟨-,rfl⟩) <;> rfl)
        (fun s₃ hd₃ r _ _ => ?_)⟩
      cases r with
      | error e =>
        refine ⟨_,_,hd₃,?_,by simp⟩
        rintro result ⟨rfl⟩
        exact failed_storageError _ _ _
      | ok u => exact ⟨_,_,hd₃,by simp,fun _ => hb⟩
    · obtain ⟨hd₂,hco⟩ := hd'.same (L := L) hs hw ⟨rfl,trivial⟩
      refine ⟨hco,m,b',hd₂,?_,by simp⟩
      rintro result ⟨rfl⟩
      exact failed_storageError _ _ _

/-! ### The recheck -/

/-- What an update keeps while it has the lock, be the target read for the last time or not. -/
structure Lasting (target : List Name) (calls : ι → Update) (i : ι) (start : Origin ι) (P : Ledger ι → Prop) :
    Prop where
  relies : ∀ {s s'}, P s → Relies target calls i start.first s s' → P s'
  held : ∀ {s}, P s → holder target s = some (calls i).me.id
  plain : ∀ {s}, P s → s.world.tree.Plain target
  rechecked : ∀ {s s'}, P s → s'.world = s.world → s'.changes = s.changes → P s'

theorem lasting_drafting : Lasting target calls i start (Drafting target calls i start file m b) where
  relies := fun h hr => h.relies hr
  held := fun h => h.held
  plain := fun h => h.plain
  rechecked := by
    intro s s' h hw hc
    refine ⟨⟨?_,?_,?_,?_,?_⟩,h.temporary,?_⟩
    · rw [holder,hw]
      exact h.held
    · rw [hw]
      exact h.plain
    · rw [hc]
      exact h.own
    · rw [hw,hc]
      exact h.latest
    · rw [hc]
      exact h.since
    · rw [hw]
      exact h.written

theorem lasting_inside : Lasting target calls i start (Inside target calls i start changes) where
  relies := fun h hr => h.relies hr
  held := fun h => h.held
  plain := fun h => h.plain
  rechecked := by
    intro s s' h hw hc
    refine ⟨?_,?_,?_,?_,?_⟩
    · rw [holder,hw]
      exact h.held
    · rw [hw]
      exact h.plain
    · rw [hc]
      exact h.own
    · rw [hw,hc]
      exact h.latest
    · rw [hc]
      exact h.since

/-- Behind a recheck that passes, the target is the revision that was read. -/
theorem unchanged_endures {P : Ledger ι → Prop} (hlast : Lasting target calls i start P) (hn : ∀ c ∈ target, IsName c)
    (hP : P s) (path : Path) (current : DocumentSnapshot) :
    Endures L target calls i start (fun ok s' => P s' ∧
        (ok = true → ∃ f, Checked target f s' ∧ Holds f current.revision))
      (unchanged L path target current) s := by
  refine withstands_perform (fun s₁ hr found s₂ hs => ?_)
  have hp₁ := hlast.relies hP hr
  have hw : s₂.world = s₁.world := by rcases hs.1 with ⟨h,-⟩ | ⟨-,h⟩ <;> exact h
  have hlog : s₂.changes = s₁.changes := by
    rw [hs.2.2.1,hw,note_self]
  have hp₂ := hlast.rechecked hp₁ hw hlog
  refine ⟨?_,?_⟩
  · have hheld : holder target s₂ = holder target s₁ := by rw [holder,hw]; rfl
    refine ⟨.inl hheld,⟨fun _ => hlast.held hp₁,fun _ => rfl⟩,trivial,?_,fun hne => absurd (hlast.held hp₁) hne,
      .inl ⟨by rw [hw],hlog⟩⟩
    rw [hw]
    exact id
  split
  · exact ⟨hp₂,by simp⟩
  · next latest hl =>
    split
    · exact ⟨hp₂,by simp⟩
    · next hrev =>
      have hfound : found = reading s₂.world.tree target := by
        rcases hs.1 with ⟨-,h⟩ | ⟨⟨message,rfl⟩,-⟩
        · rw [hw]
          exact h
        · cases hl
      rw [hfound] at hl
      have hholds := (holds_of_read L ⟨hn,hlast.plain hp₂⟩ hl).1
      rw [not_not.mp hrev] at hholds
      have hchecked : Checked target (s₂.world.tree.file target) s₂ := ⟨hs.2.2.2,rfl⟩
      refine endures_still (P := fun s' => P s' ∧ Checked target (s₂.world.tree.file target) s')
        (by rintro w r w' (⟨rfl,-⟩ | ⟨-,rfl⟩) <;> rfl) (fun _ => rfl)
        (fun s' hr => ⟨hlast.relies hp₂ hr,hchecked.relies (hlast.held hp₂) hr⟩)
        (fun s' hp => ⟨fun _ => hlast.held hp.1,fun _ => rfl⟩) trivial (fun s₃ hp₃ r _ _ => ?_)
      cases r with
      | error e => exact ⟨hp₃.1,by simp⟩
      | ok resolved => exact ⟨hp₃.1,fun _ => ⟨_,hp₃.2,hholds⟩⟩

/-- With a temporary file, behind a last read. -/
structure Finished (target : List Name) (calls : ι → Update) (i : ι) (start : Origin ι) (f : Option File) (file : Descriptor)
    (m : Metadata) (b : Bytes) (s : Ledger ι) : Prop extends Drafting target calls i start file m b s where
  checked : Checked target f s

theorem Finished.relies (h : Finished target calls i start f file m b s) (hr : Relies target calls i start.first s s') :
    Finished target calls i start f file m b s' :=
  ⟨h.toDrafting.relies hr,h.checked.relies h.held hr⟩

theorem sameMetadata_endures (hd : Finished target calls i start f file m b s) (metadata : Option Metadata) :
    Endures L target calls i start (fun _ s' => Finished target calls i start f file m b s')
      (sameMetadata target metadata) s := by
  cases metadata with
  | none => exact hd
  | some m =>
    refine endures_still (by rintro w r w' (⟨rfl,-⟩ | ⟨-,rfl⟩) <;> rfl) (fun _ => rfl) (fun _ hr => hd.relies hr)
      (fun _ hd => ⟨fun _ => hd.held,fun _ => rfl⟩) trivial (fun s₁ hd₁ r _ _ => ?_)
    cases r <;> exact hd₁

/-- The temporary file is complete, and the target the revision that was read, or it failed. -/
theorem prepareTemporary_endures (hn : ∀ c ∈ target, IsName c) (hd : Drafting target calls i start file m [] s)
    (hne : target ≠ file.location) (budget : ℕ) (path : Path) (current : DocumentSnapshot)
    (metadata : Option Metadata) (octets : Bytes) :
    Endures L target calls i start (fun r s' => ∃ m' b', Drafting target calls i start file m' b' s' ∧
      (∀ result, r = some result → result.Failed) ∧
      (r = none → b' = octets ∧ ∃ f, Checked target f s' ∧ Holds f current.revision))
      (prepareTemporary L budget path target current metadata file octets) s := by
  refine withstands_bind (fillTemporary_endures hd hne budget path octets _) (fun r s₁ h => ?_)
  obtain ⟨m',b',hd₁,hfail,hdone⟩ := h
  cases r with
  | some result => exact ⟨m',b',hd₁,hfail,by simp⟩
  | none =>
    have hb := hdone rfl
    refine hd₁.still ⟨rfl,trivial⟩ (fun _ => rfl) (by rintro w r w' (⟨rfl,-⟩ | ⟨-,rfl⟩) <;> rfl)
      (fun s₂ hd₂ r _ _ => ?_)
    cases r with
    | error e =>
      refine ⟨m',b',hd₂,?_,by simp⟩
      rintro result ⟨rfl⟩
      exact failed_storageError _ _ _
    | ok u =>
      refine withstands_bind (unchanged_endures lasting_drafting hn hd₂ path current) (fun ok s₃ h => ?_)
      obtain ⟨hd₃,hchecked⟩ := h
      cases ok with
      | false =>
        refine ⟨m',b',hd₃,?_,by simp⟩
        rintro result ⟨rfl⟩
        exact failed_failure (by simp) _ _
      | true =>
        obtain ⟨f,hf,hholds⟩ := hchecked rfl
        refine withstands_bind (sameMetadata_endures ⟨hd₃,hf⟩ metadata) (fun ok s₄ hd₄ => ?_)
        cases ok with
        | false =>
          refine ⟨m',b',hd₄.toDrafting,?_,by simp⟩
          rintro result ⟨rfl⟩
          exact failed_failure (by simp) _ _
        | true => exact ⟨m',b',hd₄.toDrafting,by simp,fun _ => ⟨hb,f,hd₄.checked,hholds⟩⟩

/-! ### Replacing and removing -/

theorem syncTarget_endures (hi : Inside target calls i start changes s) {patched : SaveResult}
    (hs : patched.status = .success) (message : Bytes) (path : Path) :
    Endures L target calls i start (fun r s' => InPlace path patched r ∧ Inside target calls i start changes s')
      (syncTarget message path target patched) s := by
  refine hi.still ⟨rfl,trivial⟩ (fun _ => rfl) (by rintro w r w' (⟨-,rfl⟩ | ⟨-,rfl⟩) <;> rfl)
    (fun s₁ hi₁ r _ _ => ?_)
  cases r with
  | error e => exact ⟨.of_error hs message e path,hi₁⟩
  | ok u => exact ⟨.of_success hs path,hi₁⟩

theorem inspectTarget_endures (hi : Inside target calls i start changes s) (current : DocumentSnapshot) :
    Endures L target calls i start (fun _ s' => Inside target calls i start changes s')
      (inspectTarget target current) s := by
  unfold inspectTarget
  split
  · refine hi.still ⟨rfl,trivial⟩ (fun _ => rfl) (by rintro w r w' (⟨rfl,-⟩ | ⟨-,rfl⟩) <;> rfl)
      (fun s₁ hi₁ r _ _ => ?_)
    cases r <;> exact hi₁
  · exact hi

/-- How an update under the lock ends: with nothing changed, or with the one change asked for. -/
inductive Ended (L : Library) (target : List Name) (calls : ι → Update) (i : ι) (start : Origin ι)
    (current : DocumentSnapshot) (r : SaveResult) (s : Ledger ι) : Prop
  | failed (h : r.Failed) (hi : Inside target calls i start [] s)
  | changed {f f' : Option File} (hr : InPlace (calls i).path (patchFor L (calls i).request current) r)
    (ha : Applies L target (calls i).request current f f')
    (hi : Inside target calls i start [⟨some i,f,f'⟩] s)

section
variable {directory : List Name} {name : Name}

/-- Removing the temporary file leaves the target. -/
theorem Drafting.remove (hn : ∀ c ∈ directory, IsName c) (hdir : file.directory = directory)
    (hd : Drafting target calls i start file m b s) (hne : target ≠ file.location) {path : Path}
    (hpath : path.absolute (calls i).me.current = file.location)
    (hs : cooperating target calls i s (.remove path) () s') :
    Inside target calls i start [] s' ∧ Cooperates L target calls i s (.remove path) s' := by
  subst hdir
  rcases hs.1 with h | ⟨-,hw⟩
  · obtain ⟨t,ht⟩ := Tree.unlink_regular hn hd.written
    obtain ⟨hgone,hothers⟩ := Tree.unlink_file hn hd.written ht
    simp only [Works,hpath] at h
    rw [Descriptor.location,ht] at h
    dsimp only at h
    have hlinks : Linkless target s.world.tree t := by
      refine Linkless.of_others ?_ hothers
      rw [Tree.isSymlink,hgone]
      rfl
    exact hd.toInside.beside hs (by rw [h]; exact hothers target hne) (by rw [h]; exact hlinks) (by rw [h]; rfl)
      ⟨rfl,trivial⟩
  · exact hd.toInside.same hs hw ⟨rfl,trivial⟩

/-- A new temporary file beside the target. -/
theorem Inside.draft (hi : Inside target calls i start [] s) (hdir : s.world.tree.isDirectory file.directory = true)
    (hfresh : s.world.tree.file file.location = none) (hne : target ≠ file.location)
    (htemporary : ∃ suffix, file.location = temporaryAt target suffix) {c : Call} {r : c.Answer}
    (hs : cooperating target calls i s c r s')
    (hw : s'.world = s.world.on (s.world.tree.put file.directory file.name (some (.regular m []))))
    (hc : guarded c = true ∧ offered target (calls i) c) :
    Drafting target calls i start file m [] s' ∧ Cooperates L target calls i s c s' := by
  have hself : s'.world.tree.file file.location = some (.regular m []) := by
    rw [hw]
    refine Tree.file_put_self hdir ?_ _
    rw [Tree.isDirectory]
    exact (congrArg (Option.any _) hfresh).trans rfl
  have hothers : ∀ q, q ≠ file.location → s'.world.tree.file q = s.world.tree.file q := by
    intro q hq
    rw [hw]
    exact Tree.file_put_of_ne hq _
  have hlinks : Linkless target s.world.tree s'.world.tree := by
    refine Linkless.of_others ?_ hothers
    rw [Tree.isSymlink,hself]
    rfl
  obtain ⟨hin,hco⟩ := hi.beside (L := L) hs (hothers target hne) hlinks (by rw [hw]; rfl) hc
  exact ⟨⟨hin,htemporary,hself⟩,hco⟩

theorem Found.regular_ne {request : Request} {current : DocumentSnapshot}
    (h : Found L target request f current) {octets : Bytes} (hb : octets ≠ current.revision.bytes) (m : Metadata) :
    some (File.regular m octets) ≠ f := by
  rcases h.holds.cases with ⟨hf,-⟩ | ⟨m',hf,-⟩
  · rw [hf]
    simp
  · rw [hf]
    simp [hb]

/-- The rename puts what was asked for in place of what was found. -/
theorem Drafting.rename (hn : ∀ c ∈ directory, IsName c) (hdir : file.directory = directory)
    (hd : Drafting (directory ++ [name]) calls i start file m b s) (hne : directory ++ [name] ≠ file.location)
    {source : Path} (hsource : source.absolute (calls i).me.current = file.location)
    {current snapshot : DocumentSnapshot} (hf : document (directory ++ [name]) s.world = f)
    (hfound : Found L (directory ++ [name]) (calls i).request f current)
    (hm : restoresMissing (calls i).request = false)
    (hsome : (patchFor L (calls i).request current).snapshot = some snapshot)
    (hb : snapshot.revision.bytes ≠ current.revision.bytes) (hoctets : b = snapshot.revision.bytes) {u : Unit}
    (hs : cooperating (directory ++ [name]) calls i s (.rename source (.ofLocation (directory ++ [name]))) (.ok u) s') :
    ∃ f', Applies L (directory ++ [name]) (calls i).request current f f' ∧
      Inside (directory ++ [name]) calls i start [⟨some i,f,f'⟩] s' ∧
      Cooperates L (directory ++ [name]) calls i s (.rename source (.ofLocation (directory ++ [name]))) s' := by
  have hloc : file.location = directory ++ [file.name] := by
    rw [Descriptor.location,hdir]
  obtain ⟨t,ht,hw⟩ := failing_rename_ok hs.1
  rw [Path.absolute_ofLocation,hsource,hloc] at ht
  have hwritten := hd.written
  rw [hloc] at hwritten
  have hnames : file.name ≠ name := by
    intro h
    exact hne (by rw [hloc,h])
  obtain ⟨hself,hgone,hothers⟩ := Tree.rename_file hn hnames hwritten ht rfl
  have hfile : s'.world.tree.file (directory ++ [name]) = some (.regular m snapshot.revision.bytes) := by
    rw [hw,World.tree_on,hself,hoctets]
  have hlinks : Linkless (directory ++ [name]) s.world.tree s'.world.tree := by
    intro hp q hq
    rw [hw,World.tree_on,Tree.isSymlink]
    by_cases h₁ : q = directory ++ [file.name]
    · rw [h₁,hgone]
      rfl
    · by_cases h₂ : q = directory ++ [name]
      · rw [h₂,hself]
        rfl
      · rw [hothers q h₁ h₂]
        exact hp q hq
  have happ : Applies L (directory ++ [name]) (calls i).request current f
      (s'.world.tree.file (directory ++ [name])) := by
    refine ⟨hfound,fun h => ?_,fun _ => ⟨m,snapshot,hsome,hb,hfile⟩⟩
    rw [hm] at h
    cases h
  obtain ⟨hi,hco⟩ := hd.toInside.changed hf hs happ (by rw [hfile]; exact hfound.regular_ne hb m) hlinks
    (by rw [hw]; rfl) ⟨rfl,trivial⟩
  exact ⟨_,happ,hi,hco⟩

theorem replaceDocument_endures (hn : ∀ c ∈ directory ++ [name], IsName c)
    (hi : Inside (directory ++ [name]) calls i start [] s) {current snapshot : DocumentSnapshot}
    (hfound : ∀ f, Holds f current.revision → Found L (directory ++ [name]) (calls i).request f current)
    (hm : restoresMissing (calls i).request = false)
    (hs : (patchFor L (calls i).request current).status = .success)
    (hsome : (patchFor L (calls i).request current).snapshot = some snapshot)
    (hb : snapshot.revision.bytes ≠ current.revision.bytes) (budget : ℕ) :
    Endures L (directory ++ [name]) calls i start (Ended L (directory ++ [name]) calls i start current)
      (replaceDocument L budget (calls i).path (directory ++ [name]) current (patchFor L (calls i).request current))
      s := by
  have hoctets : ((patchFor L (calls i).request current).snapshot.map (fun s => s.revision.bytes)).getD [] =
      snapshot.revision.bytes := by
    rw [hsome]
    rfl
  have hnames : ∀ c ∈ directory, IsName c := fun c hc => hn c (by simp [hc])
  unfold replaceDocument
  rw [hoctets]
  refine withstands_bind (inspectTarget_endures hi current) (fun r s₁ hi => ?_)
  cases r with
  | error e => exact .failed (failed_storageError _ _ _) hi
  | ok metadata =>
    refine withstands_perform (fun s₁ hr r s₂ hs₂ => ?_)
    have hi := hi.relies hr
    cases r with
    | error e =>
      obtain ⟨hi',hco⟩ := hi.same (L := L) hs₂ (failing_mkstemp_error hs₂.1) ⟨rfl,trivial⟩
      exact ⟨hco,.failed (failed_storageError _ _ _) hi'⟩
    | ok temporary =>
      obtain ⟨m,hdrawn⟩ := mkstemp_drawn hn hi.plain hs₂.1
      have hdir : temporary.file.directory = directory := hdrawn.directory.trans List.dropLast_concat
      have hne := hdrawn.ne
      obtain ⟨suffix,-,hsuffix⟩ := hdrawn.named
      obtain ⟨hd,hco⟩ := hi.draft (L := L) (hdrawn.directory ▸ hdrawn.isDirectory) hdrawn.fresh hne ⟨suffix,hsuffix⟩ hs₂
        hdrawn.made ⟨rfl,trivial⟩
      refine ⟨hco,?_⟩
      refine withstands_bind (prepareTemporary_endures hn hd hne budget _ current metadata _) (fun r s₃ h => ?_)
      obtain ⟨m',b',hd₃,hfail,hdone⟩ := h
      cases r with
      | some result =>
        refine withstands_perform (fun s₄ hr _ s₅ hs₅ => ?_)
        obtain ⟨hi',hco⟩ := (hd₃.relies hr).remove (L := L) hnames hdir hne hdrawn.path hs₅
        exact ⟨hco,.failed (hfail result rfl) hi'⟩
      | none =>
        obtain ⟨hb',f,hchecked,hholds⟩ := hdone rfl
        refine withstands_perform (fun s₄ hr r s₅ hs₅ => ?_)
        have hd₄ := hd₃.relies hr
        have hchecked := hchecked.relies hd₃.held hr
        cases r with
        | error e =>
          obtain ⟨hd₅,hco⟩ := hd₄.same (L := L) hs₅ (failing_rename_error hs₅.1) ⟨rfl,trivial⟩
          refine ⟨hco,withstands_perform (fun s₆ hr _ s₇ hs₇ => ?_)⟩
          obtain ⟨hi',hco⟩ := (hd₅.relies hr).remove (L := L) hnames hdir hne hdrawn.path hs₇
          exact ⟨hco,.failed (failed_storageError _ _ _) hi'⟩
        | ok u =>
          obtain ⟨f',happ,hi',hco⟩ := hd₄.rename hnames hdir hne hdrawn.path hchecked.found (hfound f hholds) hm hsome
            hb hb' hs₅
          exact ⟨hco,(syncTarget_endures hi' hs _ _).mono (fun r s₆ h => .changed h.1 happ h.2)⟩

/-- The removal leaves nothing of what was found. -/
theorem Inside.unlink (hn : ∀ c ∈ directory, IsName c) (hi : Inside (directory ++ [name]) calls i start [] s)
    {current : DocumentSnapshot} (hf : document (directory ++ [name]) s.world = f)
    (hfound : Found L (directory ++ [name]) (calls i).request f current) (he : current.revision.exists_ = true)
    (hm : restoresMissing (calls i).request = true) {u : Unit}
    (hs : cooperating (directory ++ [name]) calls i s (.unlink (.ofLocation (directory ++ [name]))) (.ok u) s') :
    ∃ f', Applies L (directory ++ [name]) (calls i).request current f f' ∧
      Inside (directory ++ [name]) calls i start [⟨some i,f,f'⟩] s' ∧
      Cooperates L (directory ++ [name]) calls i s (.unlink (.ofLocation (directory ++ [name]))) s' := by
  obtain ⟨t,ht,hw⟩ := failing_unlink_ok hs.1
  rw [Path.absolute_ofLocation] at ht
  obtain ⟨m,hregular⟩ : ∃ m, f = some (.regular m current.revision.bytes) := by
    rcases hfound.holds.cases with ⟨-,hr⟩ | ⟨m,hf,-⟩
    · rw [hr] at he
      cases he
    · exact ⟨m,hf⟩
  obtain ⟨hgone,hothers⟩ := Tree.unlink_file hn (hf.trans hregular) ht
  have hfile : s'.world.tree.file (directory ++ [name]) = none := by
    rw [hw]
    exact hgone
  have hlinks : Linkless (directory ++ [name]) s.world.tree s'.world.tree := by
    rw [hw]
    refine Linkless.of_others ?_ hothers
    rw [Tree.isSymlink,World.tree_on,hgone]
    rfl
  have happ : Applies L (directory ++ [name]) (calls i).request current f
      (s'.world.tree.file (directory ++ [name])) := by
    refine ⟨hfound,fun _ => ⟨he,hfile⟩,fun h => ?_⟩
    rw [hm] at h
    cases h
  obtain ⟨hi',hco⟩ := hi.changed hf hs happ (by rw [hfile,hregular]; simp) hlinks (by rw [hw]; rfl) ⟨rfl,trivial⟩
  exact ⟨_,happ,hi',hco⟩

theorem removeDocument_endures (hn : ∀ c ∈ directory ++ [name], IsName c)
    (hi : Inside (directory ++ [name]) calls i start [] s) {current : DocumentSnapshot}
    (hfound : ∀ f, Holds f current.revision → Found L (directory ++ [name]) (calls i).request f current)
    (hs : (patchFor L (calls i).request current).status = .success)
    (hm : restoresMissing (calls i).request = true) :
    Endures L (directory ++ [name]) calls i start (fun r s' => Ended L (directory ++ [name]) calls i start current r s' ∨
        (r = patchFor L (calls i).request current ∧ current.revision.exists_ = false ∧ s' = s))
      (removeDocument L (calls i).path (directory ++ [name]) current (patchFor L (calls i).request current)) s := by
  have hnames : ∀ c ∈ directory, IsName c := fun c hc => hn c (by simp [hc])
  unfold removeDocument
  split
  · next he => exact .inr ⟨rfl,by simpa using he,rfl⟩
  · next he =>
    have he : current.revision.exists_ = true := by simpa using he
    refine hi.still ⟨rfl,trivial⟩ (fun _ => rfl) (by rintro w r w' (⟨rfl,-⟩ | ⟨-,rfl⟩) <;> rfl)
      (fun s₁ hi r _ _ => ?_)
    cases r with
    | error e => exact .inl (.failed (failed_storageError _ _ _) hi)
    | ok u =>
      refine withstands_bind (unchanged_endures lasting_inside hn hi _ current) (fun ok s₂ h => ?_)
      obtain ⟨hi,hchecked⟩ := h
      cases ok with
      | false => exact .inl (.failed (failed_failure (by simp) _ _) hi)
      | true =>
        obtain ⟨f,hchecked,hholds⟩ := hchecked rfl
        refine withstands_perform (fun s₃ hr r s₄ hs₄ => ?_)
        have hchecked := hchecked.relies hi.held hr
        have hi := hi.relies hr
        cases r with
        | error e =>
          obtain ⟨hi',hco⟩ := hi.same (L := L) hs₄ (failing_unlink_error hs₄.1) ⟨rfl,trivial⟩
          exact ⟨hco,.inl (.failed (failed_storageError _ _ _) hi')⟩
        | ok u =>
          obtain ⟨f',happ,hi',hco⟩ := hi.unlink hnames hchecked.found (hfound f hholds) he hm hs₄
          exact ⟨hco,(syncTarget_endures hi' hs _ _).mono (fun r s₅ h => .inl (.changed h.1 happ h.2))⟩

end

/-! ### The whole update -/

/-- What the answer of an update says of the target: the update made the one change it was asked
for, or none, and then it has failed or there was nothing to change at some time since it was called. -/
inductive Told (L : Library) (target : List Name) (calls : ι → Update) (i : ι) (start : Origin ι)
    (changes : List (Change (Option ι) (Option File))) : SaveResult × Option DocumentSnapshot → Prop
  | failed {r : SaveResult} {before : Option DocumentSnapshot} (h : r.Failed) (ho : own (some i) changes = []) :
    Told L target calls i start changes (r,before)
  | kept {current : DocumentSnapshot} {earlier : List (Change (Option ι) (Option File))}
    (hsince : start.begun <+: earlier) (he : earlier <+: changes)
    (hf : Found L target (calls i).request (latest start.first earlier) current)
    (hm : restoresMissing (calls i).request = false)
    (hb : (patchFor L (calls i).request current).snapshot.map (fun s => s.revision.bytes) =
      some current.revision.bytes) (ho : own (some i) changes = []) :
    Told L target calls i start changes
      ({ patchFor L (calls i).request current with snapshot := some current },some current)
  | absent {current : DocumentSnapshot} {earlier : List (Change (Option ι) (Option File))}
    (hsince : start.begun <+: earlier) (he : earlier <+: changes)
    (hf : Found L target (calls i).request (latest start.first earlier) current) (hn : current.revision.exists_ = false)
    (hm : restoresMissing (calls i).request = true) (ho : own (some i) changes = []) :
    Told L target calls i start changes (patchFor L (calls i).request current,none)
  | changed {r : SaveResult} {current : DocumentSnapshot} {f f' : Option File}
    (hr : InPlace (calls i).path (patchFor L (calls i).request current) r)
    (ha : Applies L target (calls i).request current f f') (ho : own (some i) changes = [⟨some i,f,f'⟩]) :
    Told L target calls i start changes (r,if restoresMissing (calls i).request then none else some current)

/-- An update that has returned. -/
structure Returned (L : Library) (target : List Name) (calls : ι → Update) (i : ι) (start : Origin ι)
    (r : SaveResult × Option DocumentSnapshot) (s : Ledger ι) : Prop where
  free : holder target s ≠ some (calls i).me.id
  told : Told L target calls i start s.changes r

theorem Told.relies {r : SaveResult × Option DocumentSnapshot} (h : Told L target calls i start s.changes r)
    (hr : Relies target calls i start.first s s') : Told L target calls i start s'.changes r := by
  cases h with
  | failed h ho => exact .failed h (hr.own.trans ho)
  | kept hsince he hf hm hb ho => exact .kept hsince (he.trans hr.grown) hf hm hb (hr.own.trans ho)
  | absent hsince he hf hn hm ho => exact .absent hsince (he.trans hr.grown) hf hn hm (hr.own.trans ho)
  | changed hi ha ho => exact .changed hi ha (hr.own.trans ho)

theorem Returned.relies {r : SaveResult × Option DocumentSnapshot} (h : Returned L target calls i start r s)
    (hr : Relies target calls i start.first s s') : Returned L target calls i start r s' :=
  ⟨fun he => h.free (hr.lock.mpr he),h.told.relies hr⟩

theorem Outside.failed (h : Outside target calls i start s) {r : SaveResult} (hr : r.Failed)
    (before : Option DocumentSnapshot) : Returned L target calls i start (r,before) s :=
  ⟨h.free,.failed hr h.own⟩

theorem unreadable_failed (diagnostics : List Diagnostic) : (unreadable diagnostics).Failed := by
  refine ⟨rfl,?_⟩
  unfold unreadable
  split <;> simp

/-- How an update ends under the lock is what its answer says. -/
theorem Ended.told {current : DocumentSnapshot} {r : SaveResult} (h : Ended L target calls i start current r s) :
    ∃ changes, Inside target calls i start changes s ∧ Told L target calls i start s.changes
      (r,if restoresMissing (calls i).request then none else some current) := by
  cases h with
  | failed hr hi => exact ⟨_,hi,.failed hr hi.own⟩
  | changed hr ha hi => exact ⟨_,hi,.changed hr ha hi.own⟩

section
variable {current : DocumentSnapshot}

theorem removal_told (hn : ∀ c ∈ target, IsName c) (htarget : target ≠ []) (hi : Inside target calls i start [] s)
    (hlatest : Holds (latest start.first s.changes) current.revision)
    (hfound : ∀ f, Holds f current.revision → Found L target (calls i).request f current)
    (hs : (patchFor L (calls i).request current).status = .success) (hm : restoresMissing (calls i).request = true) :
    Endures L target calls i start (fun r s' => ∃ changes, Inside target calls i start changes s' ∧
        Told L target calls i start s'.changes r)
      (do
        let removed ← removeDocument L (calls i).path target current (patchFor L (calls i).request current)
        pure (removed,none)) s := by
  obtain ⟨directory,name,rfl⟩ : ∃ directory name, target = directory ++ [name] :=
    ⟨_,_,(List.dropLast_append_getLast htarget).symm⟩
  refine withstands_bind (removeDocument_endures hn hi hfound hs hm) (fun r s' h => ?_)
  rcases h with h | ⟨rfl,hnone,rfl⟩
  · have htold := h.told
    rw [hm] at htold
    exact htold
  · exact ⟨_,hi,.absent hi.since (List.prefix_refl _) (hfound _ hlatest) hnone hm hi.own⟩

theorem replacement_told (hn : ∀ c ∈ target, IsName c) (htarget : target ≠ []) (hi : Inside target calls i start [] s)
    (hfound : ∀ f, Holds f current.revision → Found L target (calls i).request f current)
    (hs : (patchFor L (calls i).request current).status = .success) (hm : restoresMissing (calls i).request = false)
    (hb : (patchFor L (calls i).request current).snapshot.map (fun s => s.revision.bytes) ≠ some current.revision.bytes)
    (budget : ℕ) :
    Endures L target calls i start (fun r s' => ∃ changes, Inside target calls i start changes s' ∧
        Told L target calls i start s'.changes r)
      (do
        let replaced ← replaceDocument L budget (calls i).path target current (patchFor L (calls i).request current)
        pure (replaced,some current)) s := by
  obtain ⟨directory,name,rfl⟩ : ∃ directory name, target = directory ++ [name] :=
    ⟨_,_,(List.dropLast_append_getLast htarget).symm⟩
  obtain ⟨snapshot,hsome,-,-,-⟩ := patchFor_success L hs
  have hne : snapshot.revision.bytes ≠ current.revision.bytes := by
    intro h
    rw [hsome,Option.map_some,h] at hb
    exact hb rfl
  refine withstands_bind (replaceDocument_endures hn hi hfound hm hs hsome hne budget) (fun r s' h => ?_)
  have htold := h.told
  rw [hm] at htold
  exact htold

end

/-- Under the lock, still held at the end. -/
theorem updateLocked_endures (hn : ∀ c ∈ target, IsName c) (hi : Inside target calls i start [] s) (budget : ℕ) :
    Endures L target calls i start (fun r s' => ∃ changes, Inside target calls i start changes s' ∧
      Told L target calls i start s'.changes r) (updateLocked L budget (calls i).path target (calls i).request) s := by
  have hfailed : ∀ {s r before}, Inside target calls i start [] s → r.Failed → ∃ changes,
      Inside target calls i start changes s ∧ Told L target calls i start s.changes (r,before) :=
    fun hi hr => ⟨_,hi,.failed hr hi.own⟩
  refine hi.still ⟨rfl,trivial⟩ (fun _ => rfl) (by rintro w r w' (⟨rfl,-⟩ | ⟨-,rfl⟩) <;> rfl)
    (fun s₁ hi r _ _ => ?_)
  cases r with
  | error e => exact hfailed hi (failed_failure (by simp) _ _)
  | ok resolved =>
    dsimp only
    split
    · exact hfailed hi (failed_failure (by simp) _ _)
    · refine hi.still ⟨rfl,trivial⟩ (fun _ => rfl) (by rintro w r w' (⟨rfl,-⟩ | ⟨-,rfl⟩) <;> rfl)
        (fun s₂ hi found hread _ => ?_)
      split
      · exact hfailed hi (unreadable_failed _)
      · next current hv =>
        have hread : found = reading s₂.world.tree target := by
          rcases hread with ⟨-,h⟩ | ⟨⟨message,rfl⟩,-⟩
          · exact h
          · cases hv
        rw [hread] at hv
        obtain ⟨hholds,hsnap⟩ := holds_of_read L ⟨hn,hi.plain⟩ hv
        split
        · exact hfailed hi (failed_failure (by simp) _ _)
        · next hstaged =>
          have hfound : (patchFor L (calls i).request current).status = .success →
              ∀ f, Holds f current.revision → Found L target (calls i).request f current := by
            refine fun h f hf => ⟨hf,hsnap,fun staged hs => ?_,h⟩
            rw [hs] at hstaged
            simpa using hstaged
          have hlatest : Holds (latest start.first s₂.changes) current.revision := hi.latest ▸ hholds
          split
          · next h => exact removal_told hn hholds.ne_nil hi hlatest (hfound h.2) h.2 h.1
          · next hm =>
            split
            · next hs => exact hfailed hi (patchFor_failed L hs)
            · next hs =>
              have hs := not_not.mp hs
              have hm : restoresMissing (calls i).request = false := by
                cases h : restoresMissing (calls i).request with
                | false => rfl
                | true => exact absurd ⟨h,hs⟩ hm
              split
              · next hb => exact ⟨_,hi,.kept hi.since (List.prefix_refl _) (hfound hs _ hlatest) hm hb hi.own⟩
              · next hb => exact replacement_told hn hholds.ne_nil hi (hfound hs) hs hm hb budget

/-- Without the lock new files are made beside the target. -/
theorem Outside.beside (h : Outside target calls i start s) {c : Call} {r : c.Answer}
    (hs : cooperating target calls i s c r s') (hquiet : Quiet target s.world.tree s'.world.tree)
    (hlinks : Linkless target s.world.tree s'.world.tree) (hholder : s'.world.holder = s.world.holder)
    (hc : guarded c = false ∧ offered target (calls i) c ∧ ∀ b, rechecks c b = b) :
    Outside target calls i start s' ∧ Cooperates L target calls i s c s' := by
  have hdocument : document target s'.world = document target s.world := hquiet.target
  have hsame : s'.changes = s.changes := by
    rw [hs.2.2.1,hdocument,note_self]
  have hcheck : s'.rechecked = s.rechecked := hs.2.2.2.trans (hc.2.2 _)
  have hheld : holder target s' = holder target s := congrFun hholder _
  refine ⟨⟨hheld ▸ h.free,hsame ▸ h.own,?_,hsame ▸ h.since⟩,?_⟩
  · rw [hsame]
    exact hdocument.trans h.latest
  · refine ⟨.inl hheld,?_,hc.2.1,hlinks,fun _ => ⟨hquiet,hcheck⟩,.inl ⟨hdocument,hsame⟩⟩
    rw [hc.1]
    exact ⟨(fun hg => by cases hg),fun he => absurd he h.free⟩

theorem Quiet.of_extends {t t' : Tree} (h : t.Extends t' target.dropLast) : Quiet target t t' := by
  intro q
  rcases h q with he | ⟨hn,hp,-⟩
  · exact .inl he
  · refine .inr ⟨hn,?_⟩
    rintro rfl
    have hlen := hp.length_le
    rw [List.length_dropLast] at hlen
    have hnil : q = [] := by
      rw [← List.length_eq_zero_iff]
      omega
    have hroot := t.root
    rw [← hnil,hn] at hroot
    cases hroot

/-- Opening the lock file changes nothing that is there. -/
theorem LockOpened.quiet {w w' : World} (h : LockOpened target w w') :
    Quiet target w.tree w'.tree ∧ Linkless target w.tree w'.tree := by
  have hlock : w'.tree.isSymlink (lockPath target).components = true →
      w'.tree.file (lockPath target).components = w.tree.file (lockPath target).components := by
    intro hl
    rcases h.lock with he | ⟨-,m,hm⟩
    · exact he
    · rw [Tree.isSymlink,hm] at hl
      cases hl
  constructor
  · intro q
    by_cases hq : q = (lockPath target).components
    · subst hq
      rcases h.lock with he | ⟨hn,-⟩
      · exact .inl he
      · exact .inr ⟨hn,lockPath_ne target⟩
    · exact .inl (h.others q hq)
  · intro hp q hq
    by_cases he : q = (lockPath target).components
    · subst he
      cases hl : w'.tree.isSymlink (lockPath target).components with
      | false => rfl
      | true =>
        rw [Tree.isSymlink,hlock hl] at hl
        exact hl.symm.trans (hp _ hq)
    · rw [Tree.isSymlink,h.others q he]
      exact hp q hq

/-- The lock is taken when nobody has it. -/
theorem acquire_endures (h : Outside target calls i start s) (hp : s.world.tree.Plain target) (budget : ℕ) :
    Endures L target calls i start (fun r s' =>
      match r with
      | .error _ => Outside target calls i start s'
      | .ok _ => Inside target calls i start [] s')
      (acquire (lockPath target) budget) s := by
  induction budget generalizing s with
  | zero => trivial
  | succ budget ih =>
    refine withstands_perform (fun s₁ hr r s₂ hs => ?_)
    have h := h.relies hr
    have hp := hr.links hp
    rcases hs.1 with ⟨rfl,hfree,hw⟩ | ⟨⟨e,rfl⟩,hw⟩
    · have htree : s₂.world.tree = s₁.world.tree := by rw [hw]; rfl
      have hdocument : document target s₂.world = document target s₁.world := congrArg (fun t => t.file target) htree
      have hsame : s₂.changes = s₁.changes := by
        rw [hs.2.2.1,hdocument,note_self]
      have hheld : holder target s₂ = some (calls i).me.id := by
        rw [holder,hw]
        exact Function.update_self _ _ _
      refine ⟨⟨.inr (.inl ⟨hfree,hheld⟩),?_,rfl,?_,fun _ => ⟨?_,hs.2.2.2⟩,.inl ⟨hdocument,hsame⟩⟩,hheld,?_,
        hsame ▸ h.own,?_,hsame ▸ h.since⟩
      · exact ⟨(fun hg => by cases hg),fun he => absurd he h.free⟩
      · rw [htree]
        exact id
      · rw [htree]
        exact .refl _ _
      · rw [htree]
        exact hp
      · rw [hsame,hdocument]
        exact h.latest
    · obtain ⟨h₂,hco⟩ := h.beside (L := L) hs (by rw [hw]; exact .refl _ _) (by rw [hw]; exact id) (by rw [hw])
        ⟨rfl,rfl,fun _ => rfl⟩
      have hp₂ : s₂.world.tree.Plain target := by
        rw [hw]
        exact hp
      refine ⟨hco,?_⟩
      cases e with
      | interrupted => exact ih h₂ hp₂
      | _ => exact h₂

theorem updateTarget_endures (h : Outside target calls i start s) (hn : ∀ c ∈ target, IsName c)
    (hp : s.world.tree.Plain target) :
    Endures L target calls i start (Returned L target calls i start)
      (updateTarget L (calls i).budget (calls i).path target (calls i).request) s := by
  have hnames : ∀ c ∈ target.dropLast, IsName c := fun c hc => hn c (List.dropLast_subset _ hc)
  refine withstands_perform (fun s₁ hr r s₂ hs => ?_)
  have h := h.relies hr
  have hp := hr.links hp
  obtain ⟨hext,hholder,-⟩ := @createDirectories_extends (calls i).me True s₁.world s₂.world
    (Path.ofLocation target).parentPath r hnames (hp.above (List.dropLast_prefix _)) hs.1
  have hlinks : Linkless target s₁.world.tree s₂.world.tree := fun hp q hq => hext.isSymlink.trans (hp q hq)
  obtain ⟨h₂,hco⟩ := h.beside (L := L) hs (Quiet.of_extends hext) hlinks hholder ⟨rfl,trivial,fun _ => rfl⟩
  refine ⟨hco,?_⟩
  cases r with
  | error e => exact h₂.failed (failed_failure (by simp) _ _) _
  | ok u =>
    refine withstands_perform (fun s₃ hr r s₄ hs => ?_)
    have h₃ := h₂.relies hr
    have hp₃ := hr.links (hlinks hp)
    obtain ⟨hopened,-⟩ := openLock_opened hnames (hp₃.above (List.dropLast_prefix _)) hs.1
    obtain ⟨hquiet,hlinks₄⟩ := hopened.quiet
    obtain ⟨h₄,hco₄⟩ := h₃.beside (L := L) hs hquiet hlinks₄ hopened.holder ⟨rfl,trivial,fun _ => rfl⟩
    refine ⟨hco₄,?_⟩
    cases r with
    | error e => exact h₄.failed (failed_storageError _ _ _) _
    | ok u =>
      refine withstands_bind (acquire_endures h₄ (hlinks₄ hp₃) _) (fun r s₅ h => ?_)
      cases r with
      | error e => exact h.failed (failed_storageError _ _ _) _
      | ok u =>
        refine withstands_bind (updateLocked_endures hn h (calls i).budget) (fun r s₆ h => ?_)
        obtain ⟨changes,hi,htold⟩ := h
        refine withstands_perform (fun s₇ hr _ s₈ hs => ?_)
        have hi := hi.relies hr
        rcases hs.1 with hf | hf
        swap
        · exact hf.elim
        have hheld : s₇.world.holder ((lockPath target).absolute (calls i).me.current) = some (calls i).me.id :=
          hi.held
        simp only [Works,hheld,if_true] at hf
        have htree : s₈.world.tree = s₇.world.tree := by rw [hf]; rfl
        have hdocument : document target s₈.world = document target s₇.world :=
          congrArg (fun t => t.file target) htree
        have hsame : s₈.changes = s₇.changes := by
          rw [hs.2.2.1,hdocument,note_self]
        have hfree : holder target s₈ = none := by
          rw [holder,hf]
          exact Function.update_self _ _ _
        refine ⟨⟨.inr (.inr ⟨hi.held,hfree⟩),⟨fun _ => hi.held,fun _ => rfl⟩,trivial,?_,
          fun hne => absurd hi.held hne,.inl ⟨hdocument,hsame⟩⟩,?_,?_⟩
        · rw [htree]
          exact id
        · rw [hfree]
          simp
        · rw [hsame]
          exact htold.relies hr

/-- Whatever the other updates of the target and the other writers do meanwhile, an update takes
the lock for what it changes, changes what it has found, gives the lock back, and says what it
has done. -/
theorem updateDocument_endures (h : Outside target calls i start s) :
    Endures L target calls i start (Returned L target calls i start)
      (updateDocument L (calls i).budget (calls i).me (calls i).path (calls i).request) s := by
  unfold updateDocument
  split
  · exact h.failed (failed_failure (by simp) _ _) _
  · refine endures_still (P := Outside target calls i start) (by rintro w r w' (⟨rfl,-⟩ | ⟨-,rfl⟩) <;> rfl)
      (fun _ => rfl) (fun s' hr => h.relies hr)
      (fun s' h => ⟨(fun hg => by cases hg),fun he => absurd he h.free⟩) rfl (fun s₁ h r hres hl => ?_)
    cases r with
    | error e => exact h.failed (failed_failure (by simp) _ _) _
    | ok found =>
      obtain rfl : found = target := hl found rfl
      have hphys : Physical s₁.world.tree found := by
        rcases hres with ⟨-,he⟩ | ⟨⟨e,he⟩,-⟩
        · exact resolveTarget_physical he.symm
        · cases he
      dsimp only
      split
      · exact h.failed (failed_failure (by simp) _ _) _
      · refine endures_still (P := fun s' => Outside found calls i start s' ∧ s'.world.tree.Plain found)
          (by rintro w r w' (⟨rfl,-⟩ | ⟨-,rfl⟩) <;> rfl) (fun _ => rfl)
          (fun s' hr => ⟨h.relies hr,hr.links hphys.plain⟩)
          (fun s' h => ⟨(fun hg => by cases hg),fun he => absurd he h.1.free⟩) trivial (fun s₂ h content _ _ => ?_)
        split
        · exact h.1.failed (unreadable_failed _) _
        · exact updateTarget_endures h.1 hphys.names h.2

end
end DocumentStore
end HolonightConfig
