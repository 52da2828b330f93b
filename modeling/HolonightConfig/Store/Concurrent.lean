import HolonightConfig.Program.Concurrent
import HolonightConfig.Store.Atomic

/-! Any number of writers of one path, which know no lock, call by call in any order and under
every schedule of faults: each fills a file of its own, and what gets to the destination is whole. -/
namespace HolonightConfig
open Text Posix Program

namespace Store
open Storage Change

/-- One writer of the path: who, what is to be there, and whether removing its temporary file may fail. -/
structure Writer where
  me : Process
  appearance : Appearance
  budget : ℕ
  removal : Prop

/-- The world, and who has changed what at each location. -/
structure History (ι : Type) where
  world : World
  changes : List Name → List (Change (Option ι) (Option File))

def History.file {ι : Type} (s : History ι) (q : List Name) : Option File := s.world.tree.file q

section
variable (path : Path)

/-- Where the path ends, in whatever directory. -/
def IsDestination (q : List Name) : Prop := ∃ directory, q = directory ++ [path.filename]

/-- What has the destination's name is no link. -/
def NoLinks (t : Tree) : Prop := ∀ q, IsDestination path q → t.isSymlink q = false

section
variable {ι : Type} [DecidableEq ι] (writers : ι → Writer) (i : ι)

def Writes (after : Option File) : Prop :=
  ∃ m octets, (Codec.serialize (writers i).appearance).value = some octets ∧ after = some (.regular m octets)

/-- The calls of one writer under every schedule of faults. -/
def writing : Semantics Call Call.Answer (History ι) := fun s c r s' =>
  failing (writers i).removal (writers i).me s.world c r s'.world ∧
    s'.changes = fun q => note (some i) (s.file q) (s'.file q) (s.changes q)

/-- Another program changes files as it likes, except for directories, links and temporary files, and
makes no link of a destination. -/
structure Outsider (s s' : History ι) : Prop where
  keeps : s.world.tree.Keeps s'.world.tree
  links : NoLinks path s.world.tree → NoLinks path s'.world.tree
  spared : ∀ q, IsTemporary path q → s.file q ≠ none → s'.file q = s.file q
  changes : s'.changes = fun q => note none (s.file q) (s'.file q) (s.changes q)

/-- What a writer does to a location it changes. -/
inductive Touches (s : History ι) (q : List Name) (after : Option File) : Prop
  | directory (hn : s.file q = none) (hd : after.any File.isDirectory = true)
  | temporary (ht : IsTemporary path q) (ho : s.file q = none ∨ Last (some i) (s.changes q))
  | destination (hq : IsDestination path q) (hd : (s.file q).any File.isDirectory = false)
    (hw : Writes writers i after)

structure Cooperates (s s' : History ι) : Prop where
  keeps : s.world.tree.Keeps s'.world.tree
  links : NoLinks path s.world.tree → NoLinks path s'.world.tree
  touches : ∀ q, s'.file q ≠ s.file q → Touches path writers i s q (s'.file q)
  changes : s'.changes = fun q => note (some i) (s.file q) (s'.file q) (s.changes q)

/-- What a writer relies on: the others leave its temporary file, and all directories and links. -/
structure Relies (start : Tree) (s s' : History ι) : Prop where
  keeps : s.world.tree.Keeps s'.world.tree
  links : NoLinks path s.world.tree → NoLinks path s'.world.tree
  drafts : ∀ q, IsTemporary path q → s.file q ≠ none → Last (some i) (s.changes q) →
    s'.file q = s.file q ∧ s'.changes q = s.changes q
  own : ∀ q, own (some i) (s'.changes q) = own (some i) (s.changes q)
  grown : ∀ q, s.changes q <+: s'.changes q
  latest : ∀ q, s.file q = latest (start.file q) (s.changes q) → s'.file q = latest (start.file q) (s'.changes q)

end

variable {path} {ι : Type} [DecidableEq ι] {writers : ι → Writer} {i : ι} {start : Tree} {s s' : History ι}

theorem not_isDestination {q : List Name} (h : IsTemporary path q) : ¬ IsDestination path q := by
  rintro ⟨directory,rfl⟩
  exact destination_not_temporary path directory h

theorem compatible (start : Tree) : Pool.Compatible (fun i s c (_ : Call.Answer c) s' => Cooperates path writers i s s')
    (Outsider path) (fun i => Relies path i start) where
  refl := fun i s => ⟨fun _ _ => rfl,id,fun _ _ _ _ => ⟨rfl,rfl⟩,fun _ => rfl,fun _ => List.prefix_refl _,fun _ => id⟩
  trans := by
    intro i s s₁ s₂ h h'
    refine ⟨h.keeps.trans h'.keeps,fun hl => h'.links (h.links hl),fun q ht hne hlast => ?_,
      fun q => (h'.own q).trans (h.own q),fun q => (h.grown q).trans (h'.grown q),fun q hq => h'.latest q (h.latest q hq)⟩
    obtain ⟨hf,hc⟩ := h.drafts q ht hne hlast
    obtain ⟨hf',hc'⟩ := h'.drafts q ht (hf ▸ hne) (hc ▸ hlast)
    exact ⟨hf'.trans hf,hc'.trans hc⟩
  others := by
    intro i j s c r s' hij h
    have hne : some j ≠ some i := by simpa using Ne.symm hij
    refine ⟨h.keeps,h.links,fun q ht hsome hlast => ?_,fun q => ?_,fun q => ?_,fun q hq => ?_⟩
    · have hsame : s'.file q = s.file q := by
        by_contra hchanged
        cases h.touches q hchanged with
        | directory hn _ => exact hsome hn
        | temporary _ ho =>
          obtain ⟨e,he,hwho⟩ := ho.resolve_left hsome
          obtain ⟨e',he',hwho'⟩ := hlast
          rw [he] at he'
          cases he'
          exact hne (hwho.symm.trans hwho')
        | destination hd _ _ => exact not_isDestination ht hd
      refine ⟨hsame,?_⟩
      rw [h.changes]
      dsimp only
      rw [hsame,note_self]
    · rw [h.changes]
      exact own_note_of_ne hne _ _ _
    · rw [h.changes]
      exact prefix_note _ _ _ _
    · rw [h.changes]
      exact latest_note hq _ _
  outside := by
    intro i s s' h
    refine ⟨h.keeps,h.links,fun q ht hsome _ => ?_,fun q => ?_,fun q => ?_,fun q hq => ?_⟩
    · have hsame := h.spared q ht hsome
      refine ⟨hsame,?_⟩
      rw [h.changes]
      dsimp only
      rw [hsame,note_self]
    · rw [h.changes]
      exact own_note_of_ne (by simp) _ _ _
    · rw [h.changes]
      exact prefix_note _ _ _ _
    · rw [h.changes]
      exact latest_note hq _ _

/-- What holds of a writer whatever the others do meanwhile. -/
abbrev Endures (path : Path) (writers : ι → Writer) (i : ι) (start : Tree) {α : Type} (Q : α → History ι → Prop)
    (p : Command α) (s : History ι) : Prop :=
  Withstands (writing writers i) (fun s _ _ s' => Cooperates path writers i s s') (Relies path i start) Q p s

/-! ### What a writer has done so far -/

/-- What a writer has made is gone again, but for directories, what is at a destination, the temporary file
it still has, and one whose removal failed. -/
structure Steady (path : Path) (writers : ι → Writer) (i : ι) (start : Tree) (kept : Option (List Name)) (s : History ι) : Prop where
  links : NoLinks path s.world.tree
  latest : ∀ q, s.file q = latest (start.file q) (s.changes q)
  gone : ∀ q, some q ≠ kept → ¬ IsDestination path q → Last (some i) (s.changes q) → s.file q ≠ none →
    (s.file q).any File.isDirectory = true ∨ ((writers i).removal ∧ IsTemporary path q)

/-- A writer has made nothing but directories at a destination. -/
def Unplaced (path : Path) (i : ι) (s : History ι) : Prop :=
  ∀ q, IsDestination path q → ∀ e ∈ own (some i) (s.changes q), e.after.any File.isDirectory = true

/-- What a writer is to write has been seen at a destination. -/
def Arrived (path : Path) (writers : ι → Writer) (i : ι) (start : Tree) (s : History ι) : Prop :=
  ∃ q f, IsDestination path q ∧ Writes writers i f ∧ Seen (start.file q) (s.changes q) f

/-- A writer with a temporary file, that has these octets. -/
structure Drafting (path : Path) (writers : ι → Writer) (i : ι) (start : Tree) (temporary : Temporary) (m : Metadata)
    (b : Bytes) (s : History ι) : Prop extends Steady path writers i start (some temporary.file.location) s where
  unplaced : Unplaced path i s
  isTemporary : IsTemporary path temporary.file.location
  written : s.file temporary.file.location = some (.regular m b)
  last : Last (some i) (s.changes temporary.file.location)
  entry : s.world.tree.entry (temporary.path.absolute (writers i).me.current) =
    .ok (temporary.file.directory,temporary.file.name)

variable {kept : Option (List Name)} {temporary : Temporary} {m : Metadata} {b : Bytes}

theorem Steady.relies (h : Steady path writers i start kept s) (hr : Relies path i start s s') :
    Steady path writers i start kept s' := by
  refine ⟨hr.links h.links,fun q => hr.latest q (h.latest q),fun q hq hd hlast hne => ?_⟩
  have hsame := hlast.unchanged (hr.grown q) (hr.own q)
  have hfile : s'.file q = s.file q := by rw [hr.latest q (h.latest q),hsame,← h.latest q]
  rw [hfile] at hne ⊢
  exact h.gone q hq hd (hsame ▸ hlast) hne

theorem Unplaced.relies (h : Unplaced path i s) (hr : Relies path i start s s') : Unplaced path i s' := by
  intro q hq
  rw [hr.own q]
  exact h q hq

theorem Arrived.relies (h : Arrived path writers i start s) (hr : Relies path i start s s') :
    Arrived path writers i start s' := by
  obtain ⟨q,f,hq,hw,hseen⟩ := h
  exact ⟨q,f,hq,hw,hseen.mono (hr.grown q)⟩

theorem Drafting.relies (h : Drafting path writers i start temporary m b s) (hr : Relies path i start s s') :
    Drafting path writers i start temporary m b s' := by
  obtain ⟨hf,hc⟩ := hr.drafts _ h.isTemporary (by rw [h.written]; simp) h.last
  exact ⟨h.toSteady.relies hr,h.unplaced.relies hr,h.isTemporary,hf.trans h.written,hc ▸ h.last,
    Tree.entry_keeps hr.keeps h.entry⟩

/-- The rule of a call that changes nothing. -/
theorem endures_still {α : Type} {Q : α → History ι → Prop} {P : History ι → Prop} {c : Call} {k : c.Answer → Command α}
    (hstill : ∀ w r w', failing (writers i).removal (writers i).me w c r w' → w' = w) (hP : ∀ s', Relies path i start s s' → P s')
    (h : ∀ s₁, P s₁ → ∀ r, failing (writers i).removal (writers i).me s₁.world c r s₁.world → Endures path writers i start Q (k r) s₁) :
    Endures path writers i start Q (Prog.perform c >>= k) s := by
  refine withstands_perform (fun s₁ hr r s' hs => ?_)
  obtain ⟨hf,hlog⟩ := hs
  have hworld : s'.world = s₁.world := hstill _ _ _ hf
  obtain ⟨w,changes⟩ := s'
  dsimp only [History.file] at hworld hlog hf
  subst hworld
  simp only [note_self] at hlog
  subst hlog
  exact ⟨⟨fun _ _ => rfl,id,fun q hq => absurd rfl hq,by simp [History.file]⟩,h s₁ (hP s₁ hr) r hf⟩

/-! ### The temporary file -/

section
variable {loc : List Name}

variable (writers) in
omit [DecidableEq ι] in
/-- Beside the temporary file nothing changes. -/
theorem Steady.beside (h : Steady path writers i start (some loc) s) (ht : IsTemporary path loc)
    (ho : s.file loc = none ∨ Last (some i) (s.changes loc))
    (hplain : (s.file loc).any File.isDirectory = false ∧ (s.file loc).any File.isSymlink = false)
    (hothers : ∀ q, q ≠ loc → s'.file q = s.file q)
    (hlog : s'.changes = fun q => note (some i) (s.file q) (s'.file q) (s.changes q)) :
    Steady path writers i start (some loc) s' ∧ Cooperates path writers i s s' := by
  have hne : ∀ q, IsDestination path q → q ≠ loc := by
    rintro q hq rfl
    exact not_isDestination ht hq
  have hlinks : NoLinks path s'.world.tree := by
    intro q hq
    rw [Tree.isSymlink]
    exact (congrArg (Option.any File.isSymlink) (hothers q (hne q hq))).trans (h.links q hq)
  have hsame : ∀ q, q ≠ loc → s'.changes q = s.changes q := by
    intro q hq
    rw [hlog]
    dsimp only
    rw [hothers q hq,note_self]
  refine ⟨⟨hlinks,fun q => ?_,fun q hq hd hlast hn => ?_⟩,⟨fun q hq => ?_,fun _ => hlinks,fun q hq => ?_,hlog⟩⟩
  · rw [hlog]
    exact latest_note (h.latest q) _ _
  · have hq' : q ≠ loc := fun he => hq (congrArg some he)
    rw [hothers q hq'] at hn ⊢
    exact h.gone q hq hd (hsame q hq' ▸ hlast) hn
  · refine hothers q ?_
    rintro rfl
    rcases hq with hq | hq
    · exact absurd hq (Bool.not_eq_true _ ▸ hplain.1)
    · exact absurd hq (Bool.not_eq_true _ ▸ hplain.2)
  · obtain rfl : q = loc := by
      by_contra hq'
      exact hq (hothers q hq')
    exact .temporary ht ho

theorem Unplaced.beside (h : Unplaced path i s) (ht : IsTemporary path loc)
    (hothers : ∀ q, q ≠ loc → s'.file q = s.file q)
    (hlog : s'.changes = fun q => note (some i) (s.file q) (s'.file q) (s.changes q)) : Unplaced path i s' := by
  intro q hq
  have hne : q ≠ loc := by
    rintro rfl
    exact not_isDestination ht hq
  rw [hlog]
  dsimp only
  rw [hothers q hne,note_self]
  exact h q hq

omit [DecidableEq ι] in
/-- Where the temporary file is gone it need not be spared. -/
theorem Steady.dropped (h : Steady path writers i start (some loc) s) (hn : s.file loc = none) :
    Steady path writers i start none s := by
  refine ⟨h.links,h.latest,fun q _ hd hlast hsome => h.gone q ?_ hd hlast hsome⟩
  intro he
  cases he
  exact hsome hn

omit [DecidableEq ι] in
/-- Nor where its removal failed. -/
theorem Steady.forgotten (h : Steady path writers i start (some loc) s) (hremoval : (writers i).removal)
    (ht : IsTemporary path loc) : Steady path writers i start none s := by
  refine ⟨h.links,h.latest,fun q _ hd hlast hsome => ?_⟩
  by_cases he : some q = some loc
  · cases he
    exact .inr ⟨hremoval,ht⟩
  · exact h.gone q he hd hlast hsome

omit [DecidableEq ι] in
theorem Steady.spare (h : Steady path writers i start none s) : Steady path writers i start (some loc) s :=
  ⟨h.links,h.latest,fun q _ => h.gone q (by simp)⟩

end

theorem Drafting.modify (h : Drafting path writers i start temporary m b s)
    {g : Metadata → Bytes → Metadata × Bytes} {c : Call} {r : c.Answer} (hs : writing writers i s c r s')
    (hw : s'.world = s.world.on (s.world.tree.modify temporary.file.directory temporary.file.name g)) :
    Drafting path writers i start temporary (g m b).1 (g m b).2 s' ∧ Cooperates path writers i s s' := by
  have hself : s'.file temporary.file.location = some (.regular (g m b).1 (g m b).2) := by
    rw [History.file,hw]
    exact Tree.file_modify_self h.written g
  have hothers : ∀ q, q ≠ temporary.file.location → s'.file q = s.file q := by
    intro q hq
    rw [History.file,hw]
    exact Tree.file_modify_of_ne hq g
  obtain ⟨hsteady,hco⟩ := h.toSteady.beside writers h.isTemporary (.inr h.last)
    (by rw [h.written]; exact ⟨rfl,rfl⟩) hothers hs.2
  refine ⟨⟨hsteady,h.unplaced.beside h.isTemporary hothers hs.2,h.isTemporary,hself,?_,
    Tree.entry_keeps hco.keeps h.entry⟩,hco⟩
  rw [hs.2]
  exact Last.note (.inr h.last)

theorem Drafting.same (h : Drafting path writers i start temporary m b s) {c : Call} {r : c.Answer}
    (hs : writing writers i s c r s') (hw : s'.world = s.world) :
    Drafting path writers i start temporary m b s' ∧ Cooperates path writers i s s' := by
  obtain ⟨w,changes⟩ := s'
  obtain ⟨-,hlog⟩ := hs
  dsimp only [History.file] at hw hlog
  subst hw
  simp only [note_self] at hlog
  subst hlog
  exact ⟨h,⟨fun _ _ => rfl,id,fun q hq => absurd rfl hq,by simp [History.file]⟩⟩

theorem writeAll_endures (hd : Drafting path writers i start temporary m b s) (budget : ℕ) (octets : Bytes) :
    Endures path writers i start (fun r s' => ∃ b', Drafting path writers i start temporary m b' s' ∧
      (r = .ok () → b' = b ++ octets)) (writeAll temporary.file budget octets) s := by
  induction budget generalizing octets b s with
  | zero =>
    cases octets with
    | nil => exact ⟨b,hd,by simp⟩
    | cons c octets => trivial
  | succ budget ih =>
    cases octets with
    | nil => exact ⟨b,hd,by simp⟩
    | cons c octets =>
      refine withstands_perform (fun s₁ hr r s' hs => ?_)
      have hd := hd.relies hr
      rcases hs.1 with ⟨k,hpos,hk,rfl,hw⟩ | ⟨he,hw⟩
      · obtain ⟨hd',hco⟩ := hd.modify hs hw
        refine ⟨hco,(ih hd' ((c :: octets).drop k)).mono (fun r w' h => ?_)⟩
        obtain ⟨b',hd',hr⟩ := h
        refine ⟨b',hd',fun h => ?_⟩
        rw [hr h,List.append_assoc,List.take_append_drop]
      · obtain ⟨hd',hco⟩ := hd.same hs hw
        refine ⟨hco,?_⟩
        rcases he with ⟨e,rfl⟩ | rfl
        · cases e with
          | interrupted => exact ih hd' _
          | _ => exact ⟨b,hd',by simp⟩
        · exact ih hd' _

theorem prepareTemporary_endures (hd : Drafting path writers i start temporary m [] s) (budget : ℕ) (octets : Bytes) :
    Endures path writers i start (fun r s' => ∃ b, Drafting path writers i start temporary m b s' ∧
      (∀ result, r = some result → result.value = none) ∧ (r = none → b = octets))
      (prepareTemporary budget path temporary.file octets) s := by
  refine withstands_bind (writeAll_endures hd budget octets) (fun r s' h => ?_)
  obtain ⟨b,hd',hr⟩ := h
  cases r with
  | error e =>
    refine ⟨b,hd',?_,by simp⟩
    rintro result ⟨rfl⟩
    rfl
  | ok u =>
    have hb := hr rfl
    rw [List.nil_append] at hb
    refine withstands_bind (P := fun _ => Drafting path writers i start temporary m b) ?_ (fun r s₂ hd₂ => ?_)
    · refine endures_still (by rintro w r w' (⟨-,rfl⟩ | ⟨-,rfl⟩) <;> rfl) (fun _ => hd'.relies)
        (fun s₁ hd₁ r _ => ?_)
      cases r with
      | error e => exact hd₁
      | ok u =>
        exact endures_still (by rintro w r w' (⟨-,rfl⟩ | ⟨-,rfl⟩) <;> rfl) (fun _ => hd₁.relies)
          (fun _ hd₂ _ _ => hd₂)
    · cases r with
      | error e =>
        refine ⟨b,hd₂,?_,by simp⟩
        rintro result ⟨rfl⟩
        rfl
      | ok u => exact ⟨b,hd₂,by simp,fun _ => hb⟩

/-- A new temporary file. -/
theorem Steady.draft (h : Steady path writers i start none s) (hu : Unplaced path i s) {directory : Path}
    (hs : writing writers i s (.mkstemp directory (temporaryBase path)) (.ok temporary) s') :
    ∃ m, Drafting path writers i start temporary m [] s' ∧ Cooperates path writers i s s' := by
  obtain ⟨hmk,hlog⟩ := hs
  obtain ⟨m,hdrawn⟩ := mkstemp_drawn hmk
  have hself : s'.file temporary.file.location = some (.regular m []) := hdrawn.drafted.written
  have hothers : ∀ q, q ≠ temporary.file.location → s'.file q = s.file q := hdrawn.drafted.others
  have hnone : s.file temporary.file.location = none := hdrawn.fresh
  obtain ⟨hsteady,hco⟩ := h.spare.beside writers hdrawn.isTemporary (.inl hnone)
    (by rw [hnone]; exact ⟨rfl,rfl⟩) hothers hlog
  refine ⟨m,⟨hsteady,hu.beside hdrawn.isTemporary hothers hlog,hdrawn.isTemporary,hself,?_,
    Tree.entry_keeps hco.keeps hdrawn.entry⟩,hco⟩
  rw [hlog]
  exact Last.note (.inl (by rw [hself,hnone]; simp))

/-- Removing the temporary file leaves nothing of the writer's, where it does not fail. -/
theorem Drafting.remove (h : Drafting path writers i start temporary m b s)
    (hs : writing writers i s (.remove temporary.path) () s') :
    (Steady path writers i start none s' ∧ Unplaced path i s') ∧ Cooperates path writers i s s' := by
  by_cases hw : s'.world = s.world ∧ (writers i).removal
  · obtain ⟨hd,hco⟩ := h.same hs hw.1
    exact ⟨⟨hd.toSteady.forgotten hw.2 hd.isTemporary,hd.unplaced⟩,hco⟩
  obtain ⟨hf,hlog⟩ := hs
  have hf := hf.resolve_right (fun hf => hw hf.symm)
  have hdir := (Tree.entry_spec h.entry).2.1
  have hwritten := h.written
  rw [History.file,Descriptor.location] at hwritten
  have hfile : s.world.tree.isDirectory (temporary.file.directory ++ [temporary.file.name]) = false := by
    rw [Tree.isDirectory,hwritten]
    rfl
  simp only [Works,Tree.unlink,h.entry,hwritten,File.isDirectory,Bool.false_eq_true,if_false] at hf
  have hgone : s'.file temporary.file.location = none := by
    rw [History.file,hf]
    exact Tree.file_put_self hdir hfile none
  have hothers : ∀ q, q ≠ temporary.file.location → s'.file q = s.file q := by
    intro q hq
    rw [History.file,hf]
    exact Tree.file_put_of_ne hq none
  obtain ⟨hsteady,hco⟩ := h.toSteady.beside writers h.isTemporary (.inr h.last)
    (by rw [h.written]; exact ⟨rfl,rfl⟩) hothers hlog
  exact ⟨⟨hsteady.dropped hgone,h.unplaced.beside h.isTemporary hothers hlog⟩,hco⟩

/-- What a rename to the destination comes to. -/
theorem Drafting.renamed (h : Drafting path writers i start temporary m b s) (hpath : path.filename ≠ []) {u : Unit}
    (hs : writing writers i s (.rename temporary.path path) (.ok u) s') :
    ∃ directory, s.world.tree.isDirectory (directory ++ [path.filename]) = false ∧
      s'.file (directory ++ [path.filename]) = some (.regular m b) ∧ s'.file temporary.file.location = none ∧
      ∀ q, q ≠ temporary.file.location → q ≠ directory ++ [path.filename] → s'.file q = s.file q := by
  obtain ⟨directory,hnd,hself,hgone,hothers,-,-⟩ := rename_placed hpath h.entry h.isTemporary h.written hs.1
  exact ⟨directory,hnd,hself,hgone,hothers⟩

/-- The rename puts the whole document in place. -/
theorem Drafting.rename (h : Drafting path writers i start temporary m b s) (hpath : path.filename ≠ [])
    (hb : (Codec.serialize (writers i).appearance).value = some b) {u : Unit}
    (hs : writing writers i s (.rename temporary.path path) (.ok u) s') :
    (Steady path writers i start none s' ∧ Arrived path writers i start s') ∧ Cooperates path writers i s s' := by
  obtain ⟨directory,hnd,hself,hgone,hothers⟩ := h.renamed hpath hs
  have hlog := hs.2
  have hdest : IsDestination path (directory ++ [path.filename]) := ⟨directory,rfl⟩
  have hlinks : NoLinks path s'.world.tree := by
    intro q hq
    rw [Tree.isSymlink]
    by_cases he : q = directory ++ [path.filename]
    · rw [he]
      exact (congrArg (Option.any File.isSymlink) hself).trans rfl
    · have hne : q ≠ temporary.file.location := by
        rintro rfl
        exact not_isDestination h.isTemporary hq
      exact (congrArg (Option.any File.isSymlink) (hothers q hne he)).trans (h.links q hq)
  have hlatest : ∀ q, s'.file q = latest (start.file q) (s'.changes q) := by
    intro q
    rw [hlog]
    exact latest_note (h.latest q) _ _
  refine ⟨⟨⟨hlinks,hlatest,fun q _ hd hlast hn => ?_⟩,⟨_,_,hdest,⟨m,b,hb,rfl⟩,?_⟩⟩,
    ⟨fun q hq => ?_,fun _ => hlinks,fun q hq => ?_,hlog⟩⟩
  · by_cases hloc : q = temporary.file.location
    · rw [hloc] at hn
      exact absurd hgone hn
    have hsame := hothers q hloc (fun he => hd (he ▸ hdest))
    rw [hlog] at hlast
    dsimp only at hlast
    rw [hsame,note_self] at hlast
    rw [hsame] at hn ⊢
    exact h.gone q (fun he => hloc (Option.some.inj he)) hd hlast hn
  · rw [← hself,hlatest]
    exact seen_latest _ _
  · refine hothers q ?_ ?_
    · rintro rfl
      have hplain := h.written
      rw [History.file] at hplain
      simp [Tree.isDirectory,Tree.isSymlink,hplain,File.isDirectory,File.isSymlink] at hq
    · rintro rfl
      rw [hnd,h.links _ hdest] at hq
      simp at hq
  · by_cases hloc : q = temporary.file.location
    · rw [hloc]
      exact .temporary h.isTemporary (.inr h.last)
    · obtain rfl : q = directory ++ [path.filename] := by
        by_contra he
        exact hq (hothers q hloc he)
      exact .destination hdest hnd ⟨m,b,hb,hself⟩

variable (writers) in
/-- New directories. -/
theorem Steady.adds (h : Steady path writers i start none s) (hu : Unplaced path i s)
    (hadds : s.world.tree.Adds s'.world.tree)
    (hlog : s'.changes = fun q => note (some i) (s.file q) (s'.file q) (s.changes q)) :
    (Steady path writers i start none s' ∧ Unplaced path i s') ∧ Cooperates path writers i s s' := by
  have hlinks : NoLinks path s'.world.tree := by
    intro q hq
    rcases hadds q with he | ⟨-,hd⟩
    · rw [Tree.isSymlink,he]
      exact h.links q hq
    · obtain ⟨f,hf,hfd⟩ := (Option.any_eq_true _ _).mp hd
      rw [Tree.isSymlink,hf]
      cases f with
      | symlink target => cases hfd
      | _ => rfl
  refine ⟨⟨⟨hlinks,fun q => ?_,fun q hq hd hlast hn => ?_⟩,fun q hq e he => ?_⟩,
    ⟨fun q hq => ?_,fun _ => hlinks,fun q hq => ?_,hlog⟩⟩
  · rw [hlog]
    exact latest_note (h.latest q) _ _
  · rcases hadds q with he | ⟨-,hdir⟩
    · have hsame : s'.file q = s.file q := he
      rw [hlog] at hlast
      dsimp only at hlast
      rw [hsame,note_self] at hlast
      rw [hsame] at hn ⊢
      exact h.gone q hq hd hlast hn
    · exact .inl hdir
  · rw [hlog] at he
    dsimp only at he
    rcases hadds q with hsame | ⟨-,hdir⟩
    · have hsame : s'.file q = s.file q := hsame
      rw [hsame,note_self] at he
      exact hu q hq e he
    · by_cases hsame : s'.file q = s.file q
      · rw [hsame,note_self] at he
        exact hu q hq e he
      · rw [note_of_ne hsame,own_snoc_self] at he
        rcases List.mem_append.mp he with he | he
        · exact hu q hq e he
        · rw [List.mem_singleton] at he
          rw [he]
          exact hdir
  · rcases hadds q with he | ⟨hn,-⟩
    · exact he
    · simp [Tree.isDirectory,Tree.isSymlink,hn] at hq
  · rcases hadds q with he | ⟨hn,hd⟩
    · exact absurd he hq
    · exact .directory hn hd

/-! ### Writing -/

/-- What a writer has done when it returns. -/
def Told (path : Path) (writers : ι → Writer) (i : ι) (start : Tree) (r : Result Path) (s : History ι) : Prop :=
  (r.value = none ∧ Unplaced path i s) ∨ (r.value = some path ∧ Arrived path writers i start s)

def Returned (path : Path) (writers : ι → Writer) (i : ι) (start : Tree) (r : Result Path) (s : History ι) : Prop :=
  Steady path writers i start none s ∧ Told path writers i start r s

theorem Returned.relies {r : Result Path} (h : Returned path writers i start r s) (hr : Relies path i start s s') :
    Returned path writers i start r s' :=
  ⟨h.1.relies hr,h.2.imp (And.imp_right fun hu => hu.relies hr) (And.imp_right fun ha => ha.relies hr)⟩

/-- The rule of removing the temporary file and failing. -/
theorem Drafting.fails (h : Drafting path writers i start temporary m b s) {result : Result Path}
    (hresult : result.value = none) : Endures path writers i start (Returned path writers i start)
      (Storage.remove temporary.path >>= fun _ => pure result) s := by
  refine withstands_perform (fun s₁ hr _ s' hs => ?_)
  obtain ⟨⟨hsteady,hu⟩,hco⟩ := (h.relies hr).remove hs
  exact ⟨hco,hsteady,.inl ⟨hresult,hu⟩⟩

theorem replaceFile_endures (h : Steady path writers i start none s) (hu : Unplaced path i s) (hpath : path.filename ≠ [])
    {octets : Bytes} (ho : (Codec.serialize (writers i).appearance).value = some octets) (budget : ℕ) :
    Endures path writers i start (Returned path writers i start) (replaceFile budget path octets) s := by
  refine withstands_perform (fun s₁ hr r s₂ hs => ?_)
  have h₁ := h.relies hr
  have hu₁ := hu.relies hr
  cases r with
  | error e =>
    have hadds : s₁.world.tree.Adds s₂.world.tree := by
      rcases hs.1 with ⟨hw,-⟩ | ⟨-,hw⟩ <;> rw [hw] <;> exact Tree.Adds.refl _
    obtain ⟨⟨h₂,hu₂⟩,hco⟩ := h₁.adds writers hu₁ hadds hs.2
    exact ⟨hco,h₂,.inl ⟨rfl,hu₂⟩⟩
  | ok temporary =>
    obtain ⟨m,hd,hco⟩ := h₁.draft hu₁ hs
    refine ⟨hco,withstands_bind (prepareTemporary_endures hd budget octets) (fun r s₃ h => ?_)⟩
    obtain ⟨b,hd,hfail,hdone⟩ := h
    cases r with
    | some result => exact hd.fails (hfail result rfl)
    | none =>
      obtain rfl := hdone rfl
      refine withstands_perform (fun s₄ hr r s₅ hs => ?_)
      have hd := hd.relies hr
      cases r with
      | error e =>
        obtain ⟨hd',hco⟩ := hd.same hs (failing_rename_error hs.1)
        exact ⟨hco,hd'.fails rfl⟩
      | ok u =>
        obtain ⟨⟨hsteady,ha⟩,hco⟩ := hd.rename hpath ho hs
        exact ⟨hco,hsteady,.inr ⟨rfl,ha⟩⟩

theorem writeAtomically_endures (h : Steady path writers i start none s) (hu : Unplaced path i s) :
    Endures path writers i start (Returned path writers i start)
      (writeAtomically (writers i).budget (writers i).appearance path) s := by
  unfold writeAtomically
  split
  · exact ⟨h,.inl ⟨rfl,hu⟩⟩
  · next hpath =>
    dsimp only
    split
    · exact ⟨h,.inl ⟨rfl,hu⟩⟩
    · next octets ho =>
      refine withstands_perform (fun s₁ hr r s₂ hs => ?_)
      have hadds : s₁.world.tree.Adds s₂.world.tree := by
        rcases hs.1 with hf | ⟨-,t,hmade,hw⟩
        · cases r with
          | ok u =>
            obtain ⟨m,t,hc,hw⟩ := hf
            rw [hw]
            exact Tree.createAbove_adds hc
          | error e =>
            obtain ⟨-,t,hmade,hw⟩ := hf
            rw [hw]
            exact hmade.adds
        · rw [hw]
          exact hmade.adds
      obtain ⟨⟨h₂,hu₂⟩,hco⟩ := (h.relies hr).adds writers (hu.relies hr) hadds hs.2
      refine ⟨hco,?_⟩
      cases r with
      | error e => exact ⟨h₂,.inl ⟨rfl,hu₂⟩⟩
      | ok u => exact replaceFile_endures h₂ hu₂ (fun he => hpath (.inr he)) ho _

/-! ### Many writers -/

section
variable (path) (writers)

def writes (i : ι) : Command (Result Path) := writeAtomically (writers i).budget (writers i).appearance path

/-- All the writers side by side, from a world on. -/
abbrev Runs (w : World) (p : ι → Command (Result Path)) (s : History ι) : Prop :=
  Pool.Run (writing writers) (Outsider path) ⟨writes path writers,⟨w,fun _ => []⟩⟩ ⟨p,s⟩

/-- What becomes of a destination: another program does as it likes, a writer makes a directory where
nothing was or puts all of its document there. -/
inductive Puts : Option ι → Option File → Option File → Prop
  | outside (before after : Option File) : Puts none before after
  | directory {i : ι} {after : Option File} (h : after.any File.isDirectory = true) : Puts (some i) none after
  | document {i : ι} {before after : Option File} (hb : before.any File.isDirectory = false)
    (h : Writes writers i after) : Puts (some i) before after

/-- A destination goes from one whole document to the next, and a writer that returns has told what it did. -/
structure Intact (w : World) (p : ι → Command (Result Path)) (s : History ι) : Prop where
  serial : ∀ q, IsDestination path q → Serial (Puts writers) (w.tree.file q) (s.changes q) (s.file q)
  told : ∀ i r, p i = .ret r → Told path writers i w.tree r s

/-- A writer that has returned has left nothing but directories and what is at a destination, and a temporary
file only where its removal failed. -/
def Tidied (p : ι → Command (Result Path)) (s : History ι) : Prop :=
  ∀ i r, p i = .ret r → ∀ q, Last (some i) (s.changes q) → s.file q ≠ none → ¬ IsDestination path q →
    (s.file q).any File.isDirectory = true ∨ ((writers i).removal ∧ IsTemporary path q)

end

variable {w : World} {p : ι → Command (Result Path)}

theorem writes_safe (h : NoLinks path w.tree) :
    Pool.Safe (writing writers) (fun i s c (_ : Call.Answer c) s' => Cooperates path writers i s s')
      (fun i => Relies path i w.tree) (fun i => Returned path writers i w.tree)
      ⟨writes path writers,⟨w,fun _ => []⟩⟩ := by
  intro i
  refine writeAtomically_endures ⟨h,fun q => rfl,fun q _ _ hlast _ => ?_⟩ (fun q _ e he => by cases he)
  obtain ⟨e,he,-⟩ := hlast
  cases he

theorem Runs.safe (h : NoLinks path w.tree) (hr : Runs path writers w p s) :
    Pool.Safe (writing writers) (fun i s c (_ : Call.Answer c) s' => Cooperates path writers i s s')
      (fun i => Relies path i w.tree) (fun i => Returned path writers i w.tree) ⟨p,s⟩ :=
  (writes_safe h).run (compatible w.tree) (fun _ _ _ _ hr hq => hq.relies hr) hr

omit [DecidableEq ι] in
theorem Cooperates.serial {q : List Name} (h : Cooperates path writers i s s') (hq : IsDestination path q)
    {f : Option File} (hs : Serial (Puts writers) f (s.changes q) (s.file q)) :
    Serial (Puts writers) f (s'.changes q) (s'.file q) := by
  rw [h.changes]
  dsimp only
  by_cases he : s'.file q = s.file q
  · rw [he,note_self]
    exact hs
  rw [note_of_ne he]
  refine hs.snoc ?_
  cases h.touches q he with
  | directory hn hd =>
    rw [hn]
    exact .directory hd
  | temporary ht _ => exact absurd hq (not_isDestination ht)
  | destination _ hd hw => exact .document hd hw

omit [DecidableEq ι] in
theorem Outsider.serial {q : List Name} (h : Outsider path s s') {f : Option File}
    (hs : Serial (Puts writers) f (s.changes q) (s.file q)) : Serial (Puts writers) f (s'.changes q) (s'.file q) := by
  rw [h.changes]
  dsimp only
  by_cases he : s'.file q = s.file q
  · rw [he,note_self]
    exact hs
  · rw [note_of_ne he]
    exact hs.snoc (.outside _ _)

/-- A destination goes from one whole document to the next. -/
theorem Runs.serial (h : NoLinks path w.tree) (hr : Runs path writers w p s) {q : List Name}
    (hq : IsDestination path q) : Serial (Puts writers) (w.tree.file q) (s.changes q) (s.file q) :=
  (writes_safe h).invariant (compatible w.tree) (fun _ _ _ _ hr hq => hq.relies hr)
    (I := fun s => Serial (Puts writers) (w.tree.file q) (s.changes q) (s.file q)) (.nil _)
    (fun _ _ _ _ _ hg => hg.serial hq) (fun _ _ ho => ho.serial) hr

/-- No reader ever finds part of a document, and nobody is told of one that never was there. -/
theorem writers_intact (h : NoLinks path w.tree) (hr : Runs path writers w p s) : Intact path writers w p s :=
  ⟨fun _ hq => hr.serial h hq,fun _ _ hi => ((hr.safe h).returned hi).2⟩

/-- No temporary file outlives its writer's call, unless its removal failed. -/
theorem writers_tidy (h : NoLinks path w.tree) (hr : Runs path writers w p s) : Tidied path writers p s :=
  fun _ _ hi q hlast hn hd => ((hr.safe h).returned hi).1.gone q (by simp) hd hlast hn

end
end Store
end HolonightConfig
