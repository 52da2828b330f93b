import HolonightConfig.DocumentStore.Concurrent
import HolonightConfig.DocumentStore.Rivals

/-! Updates of one target side by side, among other writers: the target is what they make of it
one after another, one at a time has the lock, none waits for ever, and no value is overwritten
unseen. -/
namespace HolonightConfig
open Text Toml Posix Program

namespace DocumentStore
open Storage Document Change

/-! ### Calls that do not block -/

section
variable {me : Process} {w : World}

theorem made_self (t : Tree) (p : List Name) : t.Made p t := ⟨⟨0,0,0⟩,[],List.nil_prefix,rfl⟩

/-- A name for a temporary file is found, or it fails. -/
theorem mkstemp_works (directory : Path) (base : Name) :
    ∃ r w', Works me w (.mkstemp directory base) r w' := by
  by_cases hfree : ∃ suffix, isSuffix suffix = true ∧ ∃ d n,
      w.tree.entry ((directory.child (base ++ suffix)).absolute me.current) = .ok (d,n) ∧
        w.tree.file (d ++ [n]) = none
  · obtain ⟨suffix,hsuffix,d,n,he,hn⟩ := hfree
    exact ⟨.ok ⟨directory.child (base ++ suffix),⟨d,n⟩⟩,_,suffix,⟨temporaryMode,0,0⟩,hsuffix,rfl,rfl,he,hn,rfl⟩
  · by_cases herror : ∃ suffix, isSuffix suffix = true ∧ ∃ e,
        w.tree.entry ((directory.child (base ++ suffix)).absolute me.current) = .error e
    · obtain ⟨suffix,hsuffix,e,he⟩ := herror
      exact ⟨.error e,w,rfl,.inl ⟨suffix,hsuffix,he⟩⟩
    · refine ⟨.error .exists_,w,rfl,.inr ⟨rfl,fun suffix hsuffix d n he => ?_⟩⟩
      cases hf : w.tree.file (d ++ [n]) with
      | some f => rfl
      | none => exact absurd ⟨suffix,hsuffix,d,n,he,hf⟩ hfree

/-- Without faults only a lock that somebody has blocks. -/
theorem works_total {target : List Name} {u : Update} {c : Call} (ho : offered target u c)
    (hfree : guarded c = false → w.holder (lockPath target).components = none) :
    ∃ r w', faultless me w c r w' := by
  cases c with
  | createDirectories path =>
    cases hc : w.tree.createDirectories ⟨0,0,0⟩ (path.absolute me.current) with
    | ok t => exact ⟨.ok (),w.on t,⟨0,0,0⟩,t,hc,rfl⟩
    | error e => exact ⟨.error e,w,⟨⟨0,0,0⟩,hc⟩,w.tree,made_self _ _,rfl⟩
  | openLock path =>
    simp only [faultless,Works]
    split
    · next e he => exact ⟨.error e,w,rfl,rfl⟩
    · next d n he =>
      split
      · exact ⟨.ok (),_,⟨0,0,0⟩,rfl,rfl⟩
      · exact ⟨.error .isDirectory,w,rfl,rfl⟩
      · exact ⟨.error .loop,w,rfl,rfl⟩
      · exact ⟨.ok (),w,rfl,rfl⟩
  | flock path =>
    obtain rfl : path = lockPath target := ho
    exact ⟨.ok (),_,rfl,hfree rfl,rfl⟩
  | mkstemp directory base => exact mkstemp_works directory base
  | write file octets =>
    have hpos : 0 < octets.length := List.length_pos_iff.mpr ho
    exact ⟨.ok octets.length,_,octets.length,hpos,Nat.le_refl _,rfl,rfl⟩
  | rename source goal =>
    simp only [faultless,Works]
    split
    · next e he => exact ⟨.error e,w,rfl,rfl⟩
    · next t ht => exact ⟨.ok (),w.on t,rfl,rfl⟩
  | unlink path =>
    simp only [faultless,Works]
    split
    · next e he => exact ⟨.error e,w,rfl,rfl⟩
    · next t ht => exact ⟨.ok (),w.on t,rfl,rfl⟩
  | remove path =>
    simp only [faultless,Works]
    split
    · exact ⟨(),w,rfl⟩
    · next t ht => exact ⟨(),w.on t,rfl⟩
  | unlock path => exact ⟨(),_,rfl⟩
  | fchmod file mode => exact ⟨.ok (),_,rfl,rfl⟩
  | fsync file => exact ⟨.ok (),w,rfl,rfl⟩
  | close file => exact ⟨.ok (),w,rfl,rfl⟩
  | fsyncDirectory path => exact ⟨.ok (),w,rfl,rfl⟩
  | resolve phase path => exact ⟨_,w,rfl,rfl⟩
  | read phase path => exact ⟨_,w,rfl,rfl⟩
  | stat path => exact ⟨_,w,rfl,rfl⟩
  | openDirectory path => exact ⟨_,w,rfl,rfl⟩

/-- With faults no call blocks. -/
theorem faulty_total (me : Process) (w : World) {target : List Name} {c : Call} :
    ∃ r w', faulty me w c r w' ∧ LeadsTo target c r := by
  cases c with
  | resolve phase path =>
    refine ⟨.error .noEntry,w,.inr ⟨⟨_,rfl⟩,rfl⟩,?_⟩
    cases phase with
    | before => exact fun found h => by cases h
    | _ => trivial
  | read phase path => exact ⟨.failed [],w,.inr ⟨⟨_,rfl⟩,rfl⟩,trivial⟩
  | createDirectories path => exact ⟨.error .noEntry,w,.inr ⟨⟨_,rfl⟩,w.tree,made_self _ _,rfl⟩,trivial⟩
  | unlock path => exact ⟨(),_,.inl rfl,trivial⟩
  | remove path =>
    obtain ⟨r,w',h⟩ := @works_total me w target ⟨me,path,⟨[],⟨[],none⟩,none,none⟩,0⟩ (.remove path) trivial (fun h => by cases h)
    exact ⟨r,w',.inl h,trivial⟩
  | write file octets => exact ⟨.error .noEntry,w,.inr ⟨.inl ⟨_,rfl⟩,rfl⟩,trivial⟩
  | _ => exact ⟨.error .noEntry,w,.inr ⟨⟨_,rfl⟩,rfl⟩,trivial⟩

end

/-! ### Runs of many updates -/

section
variable (L : Library) (target : List Name) {ι : Type} [DecidableEq ι] (calls : ι → Update)

/-- The programs of many updates. -/
def updates : ι → Command (SaveResult × Option DocumentSnapshot) :=
  fun i => updateDocument L (calls i).budget (calls i).me (calls i).path (calls i).request

omit [DecidableEq ι] in
/-- Each update opens the lock file for itself, and nobody has the lock yet. -/
structure Unlocked (w : World) : Prop where
  distinct : ∀ i j, (calls i).me.id = (calls j).me.id → i = j
  free : w.holder (lockPath target).components = none

/-- Updates of the target and other writers, step by step in any order and under every schedule
of faults. -/
abbrev Runs (w : World) (p : ι → Command (SaveResult × Option DocumentSnapshot)) (s : Ledger ι) : Prop :=
  Pool.Run (cooperating target calls) (Outsider target) ⟨updates L calls,⟨w,[],false⟩⟩ ⟨p,s⟩

/-- What a change may be: an update makes what it was asked for of what it finds, another writer
anything. -/
def Operation : Option ι → Option File → Option File → Prop
  | some i,before,after => ∃ current, Applies L target (calls i).request current before after
  | none,_,_ => True

/-- The target is what the changes make of it, one after another, each update changes it at most
once, and each answer says what its update has done. -/
structure Serialized (w : World) (p : ι → Command (SaveResult × Option DocumentSnapshot)) (s : Ledger ι) :
    Prop where
  serial : Serial (Operation L target calls) (document target w) s.changes (document target s.world)
  once : ∀ i, (own (some i) s.changes).length ≤ 1
  told : ∀ i r, p i = .ret r → Told L target calls i ⟨document target w,[]⟩ s.changes r

end

section
variable {L : Library} {target : List Name} {ι : Type} [DecidableEq ι] {calls : ι → Update} {w : World}
  {p : ι → Command (SaveResult × Option DocumentSnapshot)} {s s' : Ledger ι}

/-- What holds of the ledger in every run. -/
structure Ledgered (L : Library) (target : List Name) (calls : ι → Update) (w : World) (s : Ledger ι) : Prop where
  serial : Serial (Operation L target calls) (document target w) s.changes (document target s.world)
  once : ∀ i, (own (some i) s.changes).length ≤ 1
  links : Linkless target w.tree s.world.tree
  held : holder target s = none ∨ ∃ i, holder target s = some (calls i).me.id

theorem Ledgered.step {i : ι} {c : Call} (hg : Cooperates L target calls i s c s')
    (h : Ledgered L target calls w s) : Ledgered L target calls w s' := by
  have hheld : holder target s' = none ∨ ∃ i, holder target s' = some (calls i).me.id := by
    rcases hg.lock with he | ⟨-,he⟩ | ⟨-,he⟩
    · rw [he]
      exact h.held
    · exact .inr ⟨i,he⟩
    · exact .inl he
  have hlinks : Linkless target w.tree s'.world.tree := fun hp => hg.links (h.links hp)
  rcases hg.change with ⟨hd,he⟩ | ⟨-,hown,happ,he⟩
  · refine ⟨?_,?_,hlinks,hheld⟩
    · rw [hd,he]
      exact h.serial
    · rw [he]
      exact h.once
  · refine ⟨?_,fun j => ?_,hlinks,hheld⟩
    · rw [he]
      exact .snoc h.serial happ
    · rw [he]
      by_cases hj : i = j
      · subst hj
        rw [own_snoc_self,hown]
        exact Nat.le_refl 1
      · rw [own_snoc_of_ne (by simpa using hj)]
        exact h.once j

theorem Ledgered.outside (ho : Outsider target s s') (h : Ledgered L target calls w s) :
    Ledgered L target calls w s' := by
  have hheld : holder target s' = holder target s := congrFun ho.holder _
  refine ⟨?_,fun i => ?_,fun hp => ho.links (h.links hp),by rw [hheld]; exact h.held⟩
  · rw [ho.changes]
    unfold note
    split
    · next he =>
      rw [he]
      exact h.serial
    · exact .snoc h.serial trivial
  · rw [ho.changes,own_note_of_ne (by simp)]
    exact h.once i

theorem Unlocked.outside (h : Unlocked target calls w) (i : ι) :
    Outside target calls i ⟨document target w,[]⟩ ⟨w,[],false⟩ := by
  refine ⟨?_,rfl,rfl,List.nil_prefix⟩
  rw [holder,h.free]
  simp

theorem updates_safe (h : Unlocked target calls w) :
    Pool.Safe (cooperating target calls) (fun i s c _ s' => Cooperates L target calls i s c s')
      (fun i => Relies target calls i (document target w)) (fun i => Returned L target calls i ⟨document target w,[]⟩)
      ⟨updates L calls,⟨w,[],false⟩⟩ :=
  fun i => updateDocument_endures (h.outside i)

/-- Every run is safe, and its ledger true. -/
theorem Runs.ledgered (h : Unlocked target calls w) (hr : Runs L target calls w p s) :
    Pool.Safe (cooperating target calls) (fun i s c _ s' => Cooperates L target calls i s c s')
      (fun i => Relies target calls i (document target w)) (fun i => Returned L target calls i ⟨document target w,[]⟩)
      ⟨p,s⟩ ∧ Ledgered L target calls w s := by
  have hc := compatible L target calls (document target w) h.distinct
  have hsafe := updates_safe (L := L) h
  have hstable : ∀ i r s s', Relies target calls i (document target w) s s' →
      Returned L target calls i ⟨document target w,[]⟩ r s → Returned L target calls i ⟨document target w,[]⟩ r s' :=
    fun i r s s' hr h => h.relies hr
  refine ⟨hsafe.run hc hstable hr,?_⟩
  exact hsafe.invariant hc hstable ⟨.nil _,fun _ => Nat.zero_le 1,id,.inl h.free⟩ (fun i s c r s' hg hi => hi.step hg)
    (fun s s' ho hi => hi.outside ho) hr

/-- No update is lost: in every order of the steps, the target is what those that changed it made
of it one after another, each update making of the document right before what it was asked for,
and each answer tells what its update did. -/
theorem updates_serialize (h : Unlocked target calls w) (hr : Runs L target calls w p s) :
    Serialized L target calls w p s := by
  obtain ⟨hsafe,hledger⟩ := hr.ledgered h
  exact ⟨hledger.serial,hledger.once,fun i r hi => (hsafe.returned hi).told⟩

/-! ### What is overwritten -/

/-- A save replaces a document in which each of its values is the one it started from or already
the one it asks for, by one in which it is this. -/
def OverwritesSeen (L : Library) (target : List Name) (edits : EditBatch) (before after : Option File) : Prop :=
  ∃ current next : DocumentSnapshot, Holds before current.revision ∧ snapshotAt L target current.revision = some current ∧
    Holds after next.revision ∧ snapshotAt L target next.revision = some next ∧
    ∀ edit ∈ edits, ∃ edit', normalizeEdit L edit = some edit' ∧
      (Value.same (current.value edit.key) edit.baseline = true ∨
        Value.same (current.value edit.key) edit'.pending = true) ∧
      Value.same (next.value edit.key) edit'.pending = true

/-- What a batch is applied to has the values it started from, or those it asks for. -/
theorem patchDocument_seen {current : DocumentSnapshot} {edits : EditBatch} {schema : DocumentSchema}
    (h : (patchDocument L current edits schema).status = .success) :
    ∀ edit ∈ edits, ∃ edit', normalizeEdit L edit = some edit' ∧
      (Value.same (current.value edit.key) edit.baseline = true ∨
        Value.same (current.value edit.key) edit'.pending = true) := by
  have hcases := patchDocument_cases L current edits schema
  generalize patchDocument L current edits schema = r at h hcases
  cases hcases with
  | success hv batch hn hs hc plan hp snapshot ha hv' =>
    intro edit he
    rw [normalizeEdits_value] at hn
    obtain ⟨edit',hm,he'⟩ := normalizeEdits_mem L hn edit he
    have hbaseline : edit'.baseline = edit.baseline := by
      unfold normalizeEdit at he'
      split at he'
      · cases he'
        rfl
      · obtain ⟨v,-,rfl⟩ := Option.map_eq_some_iff.mp he'
        rfl
    have hagree : conflicting current edit' = false := by
      cases hconflict : conflicting current edit' with
      | false => rfl
      | true =>
        have hmem : edit' ∈ batch.filter (conflicting current) := List.mem_filter.mpr ⟨hm,hconflict⟩
        rw [hc] at hmem
        cases hmem
    rw [conflicting,normalizeEdit_key L he',hbaseline,Bool.and_eq_false_iff] at hagree
    refine ⟨edit',he',?_⟩
    rcases hagree with hp | hb
    · exact .inr (by simpa using hp)
    · exact .inl (by simpa using hb)
  | _ => cases h

theorem Applies.seen {request : Request} {current : DocumentSnapshot} {before after : Option File}
    (h : Applies L target request current before after) (hp : request.previous = none) :
    OverwritesSeen L target request.edits before after := by
  have hpatch : patchFor L request current = patchDocument L current request.edits request.schema := by
    rw [patchFor,hp]
  have hm : restoresMissing request = false := by rw [restoresMissing,hp]; rfl
  obtain ⟨m,next,hnext,-,hafter⟩ := h.replaces hm
  obtain ⟨next',hnext',-,hexists,-⟩ := patchFor_success L h.found.success
  cases hnext.symm.trans hnext'
  have hsuccess := h.found.success
  rw [hpatch] at hsuccess hnext
  have hpatching := patchDocument_patching L current hnext
  refine ⟨current,next,h.found.holds,h.found.snapshot,?_,?_,fun edit he => ?_⟩
  · rw [hafter]
    change next.revision = ⟨true,next.revision.bytes⟩
    rw [← hexists hm]
  · obtain ⟨candidate,hparse⟩ := hpatching.parsed
    have hrev := (parseDocument_some L hparse).2
    rw [snapshotAt_path h.found.snapshot] at hparse
    rw [snapshotAt,hrev,if_pos rfl]
    exact hparse
  · obtain ⟨edit',he',hseen⟩ := patchDocument_seen hsuccess edit he
    obtain ⟨edit'',he'',hnew⟩ := hpatching.edited edit he
    cases he'.symm.trans he''
    exact ⟨edit',he',hseen,hnew⟩

/-- No save overwrites a value that it has not seen, whatever order the steps come in and whoever
else writes. -/
theorem updates_overwrite_seen (h : Unlocked target calls w) (hr : Runs L target calls w p s) :
    ∀ e ∈ s.changes, ∀ i, e.who = some i → (calls i).request.previous = none →
      OverwritesSeen L target (calls i).request.edits e.before e.after := by
  intro e he i hi hp
  have hop := (hr.ledgered h).2.serial.mem e he
  rw [hi] at hop
  obtain ⟨current,happ⟩ := hop
  exact happ.seen hp

/-! ### The lock -/

/-- The next call is one the lock is for. -/
def Inner (q : Command (SaveResult × Option DocumentSnapshot)) : Prop :=
  ∃ c next, q = .call c next ∧ guarded c = true

/-- One update at a time is at the calls the lock is for, and it has the lock; the lock is given
back. -/
structure Excluded (target : List Name) (calls : ι → Update)
    (p : ι → Command (SaveResult × Option DocumentSnapshot)) (s : Ledger ι) : Prop where
  holds : ∀ i, Inner (p i) → holder target s = some (calls i).me.id
  alone : ∀ i j, Inner (p i) → Inner (p j) → i = j
  inner : ∀ i, holder target s = some (calls i).me.id → Inner (p i) ∨ p i = .exhausted
  released : (∀ i, ∃ r, p i = .ret r) → holder target s = none

/-- The next call of an update. -/
theorem Runs.next (h : Unlocked target calls w) (hr : Runs L target calls w p s) {i : ι} {c : Call}
    {next : c.Answer → Command (SaveResult × Option DocumentSnapshot)} (hi : p i = .call c next) :
    (guarded c = true ↔ holder target s = some (calls i).me.id) ∧ offered target (calls i) c := by
  obtain ⟨r,w',hf,hl⟩ := @faulty_total (calls i).me s.world target c
  have hs : cooperating target calls i s c r ⟨w',note (some i) (document target s.world) (document target w') s.changes,
    rechecks c s.rechecked⟩ := ⟨hf,hl,rfl,rfl⟩
  have hco := (hr.ledgered h).1.next (compatible L target calls (document target w) h.distinct) hi hs
  exact ⟨hco.guarded,hco.offered⟩

theorem Runs.returned_free (h : Unlocked target calls w) (hr : Runs L target calls w p s) {i : ι}
    {r : SaveResult × Option DocumentSnapshot} (hi : p i = .ret r) : holder target s ≠ some (calls i).me.id :=
  ((hr.ledgered h).1.returned hi).free

/-- Who has the lock is at a call that the lock is for. -/
theorem Runs.inner (h : Unlocked target calls w) (hr : Runs L target calls w p s) {i : ι}
    (hi : holder target s = some (calls i).me.id) : Inner (p i) ∨ p i = .exhausted := by
  cases hp : p i with
  | ret r => exact absurd hi (hr.returned_free h hp)
  | call c next => exact .inl ⟨c,next,rfl,(hr.next h hp).1.mpr hi⟩
  | exhausted => exact .inr rfl

/-- In every order of the steps, one update at a time has the lock. -/
theorem updates_exclude (h : Unlocked target calls w) (hr : Runs L target calls w p s) : Excluded target calls p s := by
  have hholds : ∀ i, Inner (p i) → holder target s = some (calls i).me.id := by
    intro i hi
    obtain ⟨c,next,hp,hc⟩ := hi
    exact (hr.next h hp).1.mp hc
  refine ⟨hholds,fun i j hi hj => ?_,fun i hi => hr.inner h hi,fun hall => ?_⟩
  · have hij := (hholds i hi).symm.trans (hholds j hj)
    exact h.distinct i j (Option.some.inj hij)
  · rcases (hr.ledgered h).2.held with hnone | ⟨i,hi⟩
    · exact hnone
    · obtain ⟨r,hp⟩ := hall i
      exact absurd hi (hr.returned_free h hp)

omit [DecidableEq ι] in
/-- An update that can make its next call without a fault. -/
def Proceeds (calls : ι → Update) (p : ι → Command (SaveResult × Option DocumentSnapshot)) (s : Ledger ι) (i : ι) :
    Prop :=
  ∃ c next, p i = .call c next ∧ ∃ r w', faultless (calls i).me s.world c r w'

/-- No update waits for ever: it can go on, or another one has the lock and can, unless that
one has run out of tries. -/
theorem updates_proceed (h : Unlocked target calls w) (hr : Runs L target calls w p s) (i : ι) :
    (∃ r, p i = .ret r) ∨ p i = .exhausted ∨ Proceeds calls p s i ∨
      ∃ j, holder target s = some (calls j).me.id ∧ (Proceeds calls p s j ∨ p j = .exhausted) := by
  have hgo : ∀ j, Inner (p j) → Proceeds calls p s j := by
    intro j hj
    obtain ⟨c,next,hp,hc⟩ := hj
    exact ⟨c,next,hp,works_total (hr.next h hp).2 (fun hg => by rw [hc] at hg; cases hg)⟩
  cases hp : p i with
  | ret r => exact .inl ⟨r,rfl⟩
  | exhausted => exact .inr (.inl rfl)
  | call c next =>
    refine .inr (.inr ?_)
    rcases (hr.ledgered h).2.held with hnone | ⟨j,hj⟩
    · exact .inl ⟨c,next,hp,works_total (hr.next h hp).2 (fun _ => hnone)⟩
    · refine .inr ⟨j,hj,?_⟩
      rcases hr.inner h hj with hin | hex
      · exact .inl (hgo j hin)
      · exact .inr hex

end

/-! ### An update alone -/

/-- A path without links leads to its own location. -/
theorem resolveTarget_plain {t : Tree} {p found current : List Name} (hn : ∀ c ∈ p, IsName c) (hp : t.Plain p)
    (h : resolveTarget t current (.ofLocation p) = .ok found) : found = p := by
  have hcomponents : ∀ (pending resolved : List Name), resolved ++ pending = p →
      resolveComponents t resolved pending = .done p ∨ ∃ e, resolveComponents t resolved pending = .failed e := by
    intro pending
    induction pending with
    | nil =>
      rintro resolved rfl
      exact .inl (by rw [resolveComponents,List.append_nil])
    | cons c pending ih =>
      intro resolved happ
      have hc : IsName c := hn c (by simp [← happ])
      have hnext := ih (resolved ++ [c]) (by simpa using happ)
      have hpre : resolved ++ [c] <+: p := ⟨pending,by simpa using happ⟩
      rcases resolveComponents_cons t resolved c pending with ⟨hnil,-⟩ | he | ⟨hdots,-,-⟩ | ⟨-,-,-,he⟩ |
        ⟨-,target,hl,-⟩
      · exact absurd hnil hc.1
      · exact .inr he
      · rcases hdots with hdot | hdot
        · exact absurd hdot hc.2.1
        · exact absurd hdot hc.2.2
      · rw [he]
        exact hnext
      · have hfile := Tree.look_plain (fun c' hc' => hn c' (hpre.subset hc')) (hp.above hpre) hl
        have hlink := hp _ hpre
        rw [Tree.isSymlink,hfile] at hlink
        cases hlink
  unfold resolveTarget at h
  rw [Path.isEmpty_ofLocation,Path.absolute_ofLocation] at h
  rw [if_neg (by simp),resolveLinks] at h
  rcases hcomponents p [] (List.nil_append p) with hd | ⟨e,he⟩
  · rw [hd] at h
    cases h
    rfl
  · rw [he] at h
    cases h

section
variable {L : Library} {target : List Name} {ι : Type} [DecidableEq ι] {calls : ι → Update} {w w' : World}
  {i : ι} {q : Command (SaveResult × Option DocumentSnapshot)}

/-- A run goes on with the calls of one process, by a path that leads to the target. -/
theorem run_onward {α : Type} {p : ι → Command α} {q : Command α} {s : Ledger ι} (hn : ∀ c ∈ target, IsName c)
    (hpath : (calls i).path = .ofLocation target)
    (hsafe : ∀ p' s', Pool.Run (cooperating target calls) (Outsider target) ⟨p,s⟩ ⟨p',s'⟩ →
      s'.world.tree.Plain target ∧ ∀ c next, p' i = .call c next → offered target (calls i) c)
    (hr : Reaches (faultless (calls i).me) (p i) s.world q w') :
    ∃ s', Pool.Run (cooperating target calls) (Outsider target) ⟨p,s⟩ ⟨Function.update p i q,s'⟩ ∧ s'.world = w' ∧
      ∃ more, s'.changes = s.changes ++ more ∧ ∀ e ∈ more, e.who = some i := by
  induction hr with
  | start =>
    rw [Function.update_eq_self]
    exact ⟨s,.refl,rfl,[],by simp,by simp⟩
  | @step c next r w₁ w₂ _ hs ih =>
    obtain ⟨s₁,hrun,rfl,more,hmore,hwho⟩ := ih
    have hcall : Function.update p i (.call c next) i = .call c next := Function.update_self _ _ _
    obtain ⟨hplain,hoffered⟩ := hsafe _ _ hrun
    have hl : LeadsTo target c r := by
      cases c with
      | resolve phase path =>
        cases phase with
        | before =>
          obtain rfl : path = (calls i).path := hoffered _ _ hcall
          rintro found rfl
          have hresolved := hs.2.symm
          rw [hpath] at hresolved
          exact resolveTarget_plain hn hplain hresolved
        | _ => trivial
      | _ => trivial
    let s₂ : Ledger ι := ⟨w₂,note (some i) (document target s₁.world) (document target w₂) s₁.changes,
      rechecks c s₁.rechecked⟩
    have hstep : cooperating target calls i s₁ c r s₂ := ⟨.inl hs,hl,rfl,rfl⟩
    have hnext : Pool.Step (cooperating target calls) (Outsider target) _ _ := .call i hcall hstep
    rw [Function.update_idem] at hnext
    refine ⟨s₂,hrun.tail hnext,rfl,?_⟩
    unfold s₂ note
    dsimp only
    split
    · exact ⟨more,hmore,hwho⟩
    · refine ⟨more ++ [_],by rw [hmore,List.append_assoc],fun e he => ?_⟩
      rcases List.mem_append.mp he with he | he
      · exact hwho e he
      · rw [List.mem_singleton] at he
        rw [he]

/-- A run goes on with one update whose path is the target's own. -/
theorem Runs.onward {p : ι → Command (SaveResult × Option DocumentSnapshot)} {s : Ledger ι}
    (h : Unlocked target calls w) (hn : ∀ c ∈ target, IsName c) (hp : w.tree.Plain target)
    (hpath : (calls i).path = .ofLocation target) (hrun : Runs L target calls w p s)
    (hr : Reaches (faultless (calls i).me) (p i) s.world q w') :
    ∃ s', Pool.Run (cooperating target calls) (Outsider target) ⟨p,s⟩ ⟨Function.update p i q,s'⟩ ∧ s'.world = w' ∧
      ∃ more, s'.changes = s.changes ++ more ∧ ∀ e ∈ more, e.who = some i := by
  refine run_onward hn hpath (fun p' s' hrun' => ?_) hr
  have hall : Runs L target calls w p' s' := hrun.trans hrun'
  exact ⟨(hall.ledgered h).2.links hp,fun c next hc => (hall.next h hc).2⟩

/-- A run of one update whose path is the target's own is one of the runs. -/
theorem Runs.alone (h : Unlocked target calls w) (hn : ∀ c ∈ target, IsName c) (hp : w.tree.Plain target)
    (hpath : (calls i).path = .ofLocation target)
    (hr : Reaches (faultless (calls i).me) (updates L calls i) w q w') :
    ∃ s, Runs L target calls w (Function.update (updates L calls) i q) s ∧ s.world = w' ∧
      ∀ e ∈ s.changes, e.who = some i := by
  obtain ⟨s,hrun,hw,more,hmore,hwho⟩ := @Runs.onward L target ι _ calls w w' i q (updates L calls) ⟨w,[],false⟩ h hn hp hpath
    .refl hr
  exact ⟨s,hrun,hw,by rw [hmore]; exact hwho⟩

end

/-! ### Writers in the home directory -/

/-- Any number of updates that set one value. -/
def homeUpdates (i : ℕ) : Update := ⟨⟨i,[]⟩,homePath,⟨setX,anyDocument,none,none⟩,kMaximumDocumentBytes⟩

theorem homeUpdates_unlocked : Unlocked [configName] homeUpdates lockedHome :=
  ⟨fun _ _ h => h,rfl⟩

/-- One update has the lock, and another one waits for it. -/
theorem homeUpdates_waits : ∃ p s next, Runs Reference.library [configName] homeUpdates lockedHome p s ∧
    holder [configName] s = some 0 ∧ p 1 = .call (.flock (lockPath [configName])) next := by
  have hstand := lockedHome_standing Reference.library
  have hphys := hstand.physical
  have hpath : ¬ (homePath.isEmpty ∨ homePath.filename = []) := by decide +kernel
  have hstand₁ : Standing Reference.library ⟨1,[]⟩ homePath [configName] lockedHome.tree (.missing homePath) :=
    ⟨hstand.resolved,hstand.directory,hstand.holds,hstand.snapshot⟩
  -- The second one comes to the lock, and then the first one takes it.
  obtain ⟨next,hwaits,-⟩ := @updateDocument_flocks Reference.library ⟨1,[]⟩ homePath [configName] (.missing homePath)
    ⟨setX,anyDocument,none,none⟩ lockedHome hpath hstand₁ rfl lockedHome_ready (kMaximumDocumentBytes - 1)
  have hlocks := @updateDocument_locks Reference.library ⟨0,[]⟩ homePath [configName] (.missing homePath)
    ⟨setX,anyDocument,none,none⟩ lockedHome hpath hstand rfl lockedHome_ready (kMaximumDocumentBytes - 1)
  obtain ⟨s₁,hrun₁,hw₁,-⟩ := @Runs.alone Reference.library [configName] ℕ _ homeUpdates lockedHome lockedHome 1 _
    homeUpdates_unlocked hphys.names hphys.plain rfl hwaits
  rw [← hw₁] at hlocks
  obtain ⟨s₂,hrun₂,hw₂,-⟩ := @Runs.onward Reference.library [configName] ℕ _ homeUpdates lockedHome _ 0 _ _ s₁
    homeUpdates_unlocked hphys.names hphys.plain rfl hrun₁ hlocks
  refine ⟨_,s₂,next,hrun₁.trans hrun₂,?_,?_⟩
  · rw [holder,hw₂]
    exact Function.update_self _ _ _
  · rw [Function.update_of_ne (by decide)]
    exact Function.update_self _ _ _

theorem updates_exclude_home : ∃ p s next, Excluded [configName] homeUpdates p s ∧
    holder [configName] s = some 0 ∧ p 1 = .call (.flock (lockPath [configName])) next := by
  obtain ⟨p,s,next,hrun,hheld,hp⟩ := homeUpdates_waits
  exact ⟨p,s,next,updates_exclude homeUpdates_unlocked hrun,hheld,hp⟩

theorem updates_proceed_home : ∃ p s next, p 1 = .call (.flock (lockPath [configName])) next ∧
    holder [configName] s = some 0 ∧
    ((∃ r, p 1 = .ret r) ∨ p 1 = .exhausted ∨ Proceeds homeUpdates p s 1 ∨
      ∃ j, holder [configName] s = some (homeUpdates j).me.id ∧ (Proceeds homeUpdates p s j ∨ p j = .exhausted)) := by
  obtain ⟨p,s,next,hrun,hheld,hp⟩ := homeUpdates_waits
  exact ⟨p,s,next,hp,hheld,updates_proceed homeUpdates_unlocked hrun 1⟩

theorem lockedHome_document : document [configName] lockedHome = none := by
  decide +kernel

/-- One update has set its value. -/
theorem homeUpdates_saved : ∃ p s e r, Runs Reference.library [configName] homeUpdates lockedHome p s ∧
    e ∈ s.changes ∧ e.who = some 0 ∧ p 0 = .ret r ∧ r.1.status = .success := by
  have hfacts : (patchDocument Reference.library (.missing homePath) setX anyDocument).status = .success ∧
      (((patchDocument Reference.library (.missing homePath) setX anyDocument).snapshot.map
        (fun s => s.revision.bytes)).getD []).length ≤ kMaximumDocumentBytes ∧
      (patchDocument Reference.library (.missing homePath) setX anyDocument).snapshot.map
        (fun s => s.revision.bytes) ≠ some [] := by decide +kernel
  obtain ⟨hs,hlen,hne⟩ := hfacts
  obtain ⟨r,w',hreach,hsuccess,hout⟩ := (updateDocument_home hs hlen).exists
  have hphys := (lockedHome_standing Reference.library).physical
  obtain ⟨s,hrun,rfl,hwho⟩ := Runs.alone homeUpdates_unlocked hphys.names hphys.plain (i := 0) rfl hreach
  obtain ⟨next,hup⟩ := hout.home hsuccess
  obtain ⟨-,hmade⟩ := hup.made hne
  have hserial := (hrun.ledgered homeUpdates_unlocked).2.serial
  have hsome : s.changes ≠ [] := fun hc => hmade ((hserial.unchanged hc).trans lockedHome_document)
  obtain ⟨e,he⟩ := List.exists_mem_of_ne_nil _ hsome
  exact ⟨_,s,e,r,hrun,he,hwho e he,Function.update_self _ _ _,hsuccess⟩

theorem updates_serialize_home : ∃ p s e r, Serialized Reference.library [configName] homeUpdates lockedHome p s ∧
    e ∈ s.changes ∧ e.who = some 0 ∧ p 0 = .ret r ∧ r.1.status = .success := by
  obtain ⟨p,s,e,r,hrun,he,hwho,hp,hr⟩ := homeUpdates_saved
  exact ⟨p,s,e,r,updates_serialize homeUpdates_unlocked hrun,he,hwho,hp,hr⟩

theorem updates_overwrite_seen_home : ∃ p s e, Runs Reference.library [configName] homeUpdates lockedHome p s ∧
    e ∈ s.changes ∧ OverwritesSeen Reference.library [configName] setX e.before e.after := by
  obtain ⟨p,s,e,r,hrun,he,hwho,-⟩ := homeUpdates_saved
  exact ⟨p,s,e,hrun,he,updates_overwrite_seen homeUpdates_unlocked hrun e he 0 hwho rfl⟩

end DocumentStore
end HolonightConfig
