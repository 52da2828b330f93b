import HolonightConfig.Posix.Path

/-! A file system as a tree: files by location, and how a kernel walks a path through
directories and symbolic links. -/
namespace Posix
open Text

/-- The errors the model names; any other one is its text. -/
inductive Errno
  | noEntry | notDirectory | isDirectory | loop | exists_ | interrupted
  | other (text : Bytes)
  deriving DecidableEq

/-- What `strerror` says. -/
def Errno.message : Errno → Bytes
  | .noEntry => bytes "No such file or directory"
  | .notDirectory => bytes "Not a directory"
  | .isDirectory => bytes "Is a directory"
  | .loop => bytes "Too many levels of symbolic links"
  | .exists_ => bytes "File exists"
  | .interrupted => bytes "Interrupted system call"
  | .other text => text

/-- The part of `struct stat` that tells files apart; the mode has the type bits too. -/
structure Metadata where
  mode : ℕ
  inode : ℕ
  device : ℕ
  deriving DecidableEq

/-- `st_mode & 07777` -/
def Metadata.permissions (m : Metadata) : ℕ := m.mode % 4096

inductive File
  | directory (metadata : Metadata)
  | regular (metadata : Metadata) (bytes : Bytes)
  | symlink (target : Path)
  | special (metadata : Metadata)
  deriving DecidableEq

namespace File

def isDirectory : File → Bool
  | .directory _ => true
  | _ => false

def isSymlink : File → Bool
  | .symlink _ => true
  | _ => false

@[simp] theorem isDirectory_directory (m : Metadata) : (directory m).isDirectory = true := rfl
@[simp] theorem isDirectory_regular (m : Metadata) (b : Bytes) : (regular m b).isDirectory = false := rfl
@[simp] theorem isSymlink_directory (m : Metadata) : (directory m).isSymlink = false := rfl
@[simp] theorem isSymlink_regular (m : Metadata) (b : Bytes) : (regular m b).isSymlink = false := rfl

end File

/-- Files by location. Whatever is below a location makes that one a directory, and the
root is always one. -/
structure Tree where
  file : List Name → Option File
  root : (file []).any File.isDirectory = true
  closed : ∀ p n, (file (p ++ [n])).isSome = true → (file p).any File.isDirectory = true

namespace Tree

def isDirectory (t : Tree) (p : List Name) : Bool := (t.file p).any File.isDirectory
def isSymlink (t : Tree) (p : List Name) : Bool := (t.file p).any File.isSymlink

@[simp] theorem isDirectory_root (t : Tree) : t.isDirectory [] = true := t.root

theorem isDirectory_of_file {t : Tree} {p : List Name} {m : Metadata}
    (h : t.file p = some (.directory m)) : t.isDirectory p = true := by
  rw [isDirectory,h]
  rfl

theorem isDirectory_of_child {t : Tree} {p : List Name} {n : Name} (h : (t.file (p ++ [n])).isSome = true) :
    t.isDirectory p = true := t.closed p n h

/-- The entry of a directory is set, unless there is no such directory or the entry is a
directory itself. -/
def put (t : Tree) (directory : List Name) (name : Name) (f : Option File) : Tree :=
  if h : t.isDirectory directory = true ∧ t.isDirectory (directory ++ [name]) = false then
    { file := fun p => if p = directory ++ [name] then f else t.file p
      root := by
        rw [if_neg (by simp)]
        exact t.root
      closed := by
        intro p n hp
        have hne : ∀ q, t.isDirectory q = true → q ≠ directory ++ [name] := by
          intro q hq heq
          rw [heq,h.2] at hq
          cases hq
        split at hp
        · next heq =>
          obtain ⟨rfl,-⟩ := List.append_inj' heq rfl
          rw [if_neg (hne p h.1)]
          exact h.1
        · have hd := t.closed p n hp
          rw [if_neg (hne p hd)]
          exact hd }
  else t

section Put
variable {t : Tree} {directory : List Name} {name : Name}

theorem file_put_self (hd : t.isDirectory directory = true)
    (hn : t.isDirectory (directory ++ [name]) = false) (f : Option File) :
    (t.put directory name f).file (directory ++ [name]) = f := by
  simp [put,hd,hn]

theorem file_put_of_ne {p : List Name} (h : p ≠ directory ++ [name]) (f : Option File) :
    (t.put directory name f).file p = t.file p := by
  unfold put
  split
  · simp [h]
  · rfl

/-- Directories stay directories. -/
theorem isDirectory_put {p : List Name} (h : t.isDirectory p = true) (f : Option File) :
    (t.put directory name f).isDirectory p = true := by
  unfold put
  split
  · next hc =>
    have hne : p ≠ directory ++ [name] := by
      rintro rfl
      rw [hc.2] at h
      cases h
    simpa [isDirectory,hne] using h
  · exact h

end Put

/-- All locations above this one are directories. -/
def Opened (t : Tree) (p : List Name) : Prop := ∀ q, q <+: p → q ≠ p → t.isDirectory q = true

theorem opened_iff_parent (t : Tree) {p : List Name} (h : p ≠ []) :
    t.Opened p ↔ t.isDirectory p.dropLast = true := by
  constructor
  · intro ho
    refine ho _ (List.dropLast_prefix p) (fun heq => ?_)
    have := congrArg List.length heq
    rw [List.length_dropLast] at this
    have := List.length_pos_iff.mpr h
    omega
  · intro hd
    -- Up from the parent, every location has a child that exists.
    have hup : ∀ r q : List Name, t.isDirectory (q ++ r) = true → t.isDirectory q = true := by
      intro r
      induction r with
      | nil => intro q hq; simpa using hq
      | cons c r ih =>
        intro q hq
        have hc := ih (q ++ [c]) (by simpa using hq)
        refine isDirectory_of_child (n := c) ?_
        obtain ⟨f,hf,-⟩ := (Option.any_eq_true _ _).mp hc
        rw [hf]
        rfl
    intro q hq hne
    obtain ⟨r,rfl⟩ := hq
    have hr : r ≠ [] := by
      rintro rfl
      simp at hne
    refine hup r.dropLast q ?_
    rwa [List.dropLast_append_of_ne_nil hr] at hd

theorem opened_of_exists {t : Tree} {p : List Name} (h : (t.file p).isSome = true) : t.Opened p := by
  by_cases hp : p = []
  · intro q hq hne
    rw [hp] at hq hne
    exact absurd (List.prefix_nil.mp hq) hne
  · rw [opened_iff_parent t hp]
    refine isDirectory_of_child (n := p.getLast hp) ?_
    rwa [List.dropLast_append_getLast hp]

end Tree

/-! ### Walking -/

def maximumLinks : ℕ := 40

/-- Where a walk comes to rest: at a location in an existing directory, on an error, or
at a symbolic link it has to follow. -/
inductive Stop
  | at (location : List Name)
  | failed (errno : Errno)
  | link (here : List Name) (target : Path) (rest : List Name)

namespace Tree

/-- Walk until the first symbolic link that is to be followed; the last component's is
only where `follow` says so. -/
def stretch (t : Tree) (follow : Bool) (here : List Name) : List Name → Stop
  | [] => .at here
  | c :: rest =>
    if c = [] ∨ c = dot then stretch t follow here rest
    else if c = dotdot then stretch t follow here.dropLast rest
    else
      let next := here ++ [c]
      match t.file next with
      | some (.directory _) => stretch t follow next rest
      | some (.symlink target) =>
        if follow || !rest.isEmpty then .link here target rest else .at next
      | some _ => if rest = [] then .at next else .failed .notDirectory
      | none => if rest = [] then .at next else .failed .noEntry

def walk (t : Tree) (follow : Bool) : ℕ → List Name → List Name → Except Errno (List Name)
  | budget,here,rest =>
    match t.stretch follow here rest with
    | .at location => .ok location
    | .failed errno => .error errno
    | .link h target rest' =>
      match budget with
      | 0 => .error .loop
      | budget' + 1 =>
        walk t follow budget' (if target.isAbsolute then [] else h) (target.components ++ rest')

/-- The location an absolute path leads to. -/
def locate (t : Tree) (follow : Bool) (p : List Name) : Except Errno (List Name) :=
  t.walk follow maximumLinks [] p

/-- `lstat`, and with links followed `stat`. -/
def look (t : Tree) (follow : Bool) (p : List Name) : Except Errno File :=
  match t.locate follow p with
  | .error e => .error e
  | .ok location =>
    match t.file location with
    | some f => .ok f
    | none => .error .noEntry

/-- The directory and the name a path's last component stands for. -/
def entry (t : Tree) (p : List Name) : Except Errno (List Name × Name) :=
  match t.locate true p.dropLast with
  | .error e => .error e
  | .ok directory =>
    match t.file directory with
    | some (.directory _) => .ok (directory,p.getLast?.getD [])
    | some _ => .error .notDirectory
    | none => .error .noEntry

/-- A walk through directories only comes to rest where the names say. -/
theorem stretch_names {t : Tree} (follow : Bool) (here names : List Name) (hn : ∀ c ∈ names, IsName c)
    (ho : t.Opened (here ++ names)) (hl : follow = true → t.isSymlink (here ++ names) = false) :
    t.stretch follow here names = .at (here ++ names) := by
  induction names generalizing here with
  | nil => simp [stretch]
  | cons c rest ih =>
    rw [List.forall_mem_cons] at hn
    obtain ⟨⟨h₁,h₂,h₃⟩,hrest⟩ := hn
    have hassoc : here ++ c :: rest = (here ++ [c]) ++ rest := by simp
    rw [hassoc] at ho hl ⊢
    have hstep := ih (here ++ [c]) hrest ho hl
    simp only [stretch,h₁,h₂,h₃,or_self,if_false]
    by_cases hr : rest = []
    · subst hr
      simp only [List.append_nil] at hl hstep ⊢
      cases hf : t.file (here ++ [c]) with
      | none => rfl
      | some f =>
        cases f with
        | directory m => exact hstep
        | symlink target =>
          cases hfo : follow with
          | false => rfl
          | true =>
            have := hl hfo
            simp [isSymlink,hf,File.isSymlink] at this
        | regular m b => rfl
        | special m => rfl
    · have hd := ho (here ++ [c]) (List.prefix_append _ _) (by simpa using hr)
      obtain ⟨f,hf,hfd⟩ := (Option.any_eq_true _ _).mp hd
      cases f with
      | directory m => simp only [hf]; exact hstep
      | _ => cases hfd

theorem locate_names {t : Tree} {follow : Bool} {p : List Name} (hn : ∀ c ∈ p, IsName c) (ho : t.Opened p)
    (hl : follow = true → t.isSymlink p = false) : t.locate follow p = .ok p := by
  unfold locate
  rw [walk]
  have hs := stretch_names (t := t) follow [] p hn (by simpa using ho) (by simpa using hl)
  rw [List.nil_append] at hs
  rw [hs]

theorem look_names {t : Tree} {follow : Bool} {p : List Name} (hn : ∀ c ∈ p, IsName c) (ho : t.Opened p)
    (hl : follow = true → t.isSymlink p = false) :
    t.look follow p = match t.file p with
      | some f => .ok f
      | none => .error .noEntry := by
  unfold look
  rw [locate_names hn ho hl]

theorem entry_names {t : Tree} {p : List Name} (hn : ∀ c ∈ p, IsName c) (hp : p ≠ []) (ho : t.Opened p) :
    t.entry p = .ok (p.dropLast,p.getLast hp) := by
  have hd := (opened_iff_parent t hp).mp ho
  obtain ⟨f,hf,hfd⟩ := (Option.any_eq_true _ _).mp hd
  have hsym : t.isSymlink p.dropLast = false := by
    cases f with
    | directory m => simp [isSymlink,hf]
    | _ => cases hfd
  have hl := @locate_names t true p.dropLast
    (fun c hc => hn c (List.dropLast_subset p hc))
    (opened_of_exists (by rw [hf]; rfl)) (fun _ => hsym)
  unfold entry
  rw [hl]
  cases f with
  | directory m => simp only [hf,List.getLast?_eq_getLast_of_ne_nil hp,Option.getD_some]
  | _ => cases hfd

/-- Above this location there is nothing but directories, as far as there is anything. -/
def Clear (t : Tree) (p : List Name) : Prop :=
  ∀ q, q <+: p → q ≠ p → t.file q = none ∨ t.isDirectory q = true

theorem file_eq_none_below {t : Tree} {p : List Name} (h : t.file p = none) (r : List Name) :
    t.file (p ++ r) = none := by
  cases hf : t.file (p ++ r) with
  | none => rfl
  | some f =>
    by_cases hr : r = []
    · rw [hr,List.append_nil,h] at hf
      cases hf
    · have := opened_of_exists (t := t) (p := p ++ r) (by rw [hf]; rfl) p (List.prefix_append p r)
        (by simpa using hr)
      simp [isDirectory,h] at this

theorem stretch_clear {t : Tree} (here names : List Name) (hn : ∀ c ∈ names, IsName c)
    (hc : t.Clear (here ++ names)) :
    t.stretch false here names = .at (here ++ names) ∨
      (t.file (here ++ names) = none ∧ t.stretch false here names = .failed .noEntry) := by
  induction names generalizing here with
  | nil => exact .inl (by simp [stretch])
  | cons c rest ih =>
    rw [List.forall_mem_cons] at hn
    obtain ⟨⟨h₁,h₂,h₃⟩,hrest⟩ := hn
    have hassoc : here ++ c :: rest = (here ++ [c]) ++ rest := by simp
    rw [hassoc] at hc ⊢
    have hstep := ih (here ++ [c]) hrest hc
    simp only [stretch,h₁,h₂,h₃,or_self,if_false]
    by_cases hr : rest = []
    · subst hr
      simp only [List.append_nil] at hstep ⊢
      cases hf : t.file (here ++ [c]) with
      | none => exact .inl rfl
      | some f =>
        cases f with
        | directory m => rw [hf] at hstep; exact hstep
        | _ => exact .inl rfl
    · rcases hc (here ++ [c]) (List.prefix_append _ _) (by simpa using hr) with hf | hd
      · refine .inr ⟨file_eq_none_below hf rest,?_⟩
        simp only [hf,if_neg hr]
      · obtain ⟨f,hf,hfd⟩ := (Option.any_eq_true _ _).mp hd
        cases f with
        | directory m => simp only [hf]; exact hstep
        | _ => cases hfd

theorem look_clear {t : Tree} {p : List Name} (hn : ∀ c ∈ p, IsName c) (hc : t.Clear p) :
    t.look false p = match t.file p with
      | some f => .ok f
      | none => .error .noEntry := by
  unfold look locate
  rw [walk]
  rcases stretch_clear (t := t) [] p hn (by simpa using hc) with hs | ⟨hf,hs⟩
  · rw [List.nil_append] at hs
    rw [hs]
  · rw [List.nil_append] at hf
    rw [hs,hf]

/-! ### Changing the tree -/

/-- `mkdir` -/
def createDirectory (t : Tree) (m : Metadata) (p : List Name) : Except Errno Tree :=
  match t.entry p with
  | .error e => .error e
  | .ok (directory,name) =>
    match t.file (directory ++ [name]) with
    | some _ => .error .exists_
    | none => .ok (t.put directory name (some (.directory m)))

/-- `std::filesystem::create_directories` on a reversed path: below the deepest location
that exists, everything is made. -/
def createAbove (t : Tree) (m : Metadata) : List Name → Except Errno Tree
  | [] => .ok t
  | c :: up =>
    if c = [] then createAbove t m up
    else match t.look true (c :: up).reverse with
      | .ok (.directory _) => .ok t
      | .ok _ => .error .notDirectory
      | .error .noEntry =>
        match createAbove t m up with
        | .error e => .error e
        | .ok t' =>
          if c = dot ∨ c = dotdot then .ok t' else t'.createDirectory m (c :: up).reverse
      | .error e => .error e

def createDirectories (t : Tree) (m : Metadata) (p : List Name) : Except Errno Tree :=
  t.createAbove m p.reverse

/-- `rename` of what is no directory -/
def rename (t : Tree) (source target : List Name) : Except Errno Tree :=
  match t.entry source,t.entry target with
  | .error e,_ => .error e
  | _,.error e => .error e
  | .ok (d,n),.ok (d',n') =>
    match t.file (d ++ [n]) with
    | none => .error .noEntry
    | some f =>
      if t.isDirectory (d' ++ [n']) then .error .isDirectory
      else if d ++ [n] = d' ++ [n'] then .ok t
      else .ok ((t.put d' n' (some f)).put d n none)

/-- `unlink` -/
def unlink (t : Tree) (p : List Name) : Except Errno Tree :=
  match t.entry p with
  | .error e => .error e
  | .ok (d,n) =>
    match t.file (d ++ [n]) with
    | none => .error .noEntry
    | some f => if f.isDirectory then .error .isDirectory else .ok (t.put d n none)

/-- No link at this location or above it. -/
def Plain (t : Tree) (p : List Name) : Prop := ∀ q, q <+: p → t.isSymlink q = false

theorem Plain.above {t : Tree} {p q : List Name} (h : t.Plain p) (hq : q <+: p) : t.Plain q :=
  fun r hr => h r (hr.trans hq)

/-- Without links a walk of names ends where they say, or not at all. -/
theorem stretch_plain {t : Tree} (follow : Bool) (here names : List Name) (hn : ∀ c ∈ names, IsName c)
    (hp : t.Plain (here ++ names)) :
    t.stretch follow here names = .at (here ++ names) ∨ ∃ e, t.stretch follow here names = .failed e := by
  induction names generalizing here with
  | nil => exact .inl (by simp [stretch])
  | cons c rest ih =>
    rw [List.forall_mem_cons] at hn
    obtain ⟨⟨h₁,h₂,h₃⟩,hrest⟩ := hn
    have hassoc : here ++ c :: rest = (here ++ [c]) ++ rest := by simp
    rw [hassoc] at hp ⊢
    have hstep := ih (here ++ [c]) hrest hp
    have hlink := hp (here ++ [c]) (List.prefix_append _ _)
    simp only [stretch,h₁,h₂,h₃,or_self,if_false]
    cases hf : t.file (here ++ [c]) with
    | none =>
      by_cases hr : rest = []
      · simp [hr]
      · simp [hr]
    | some f =>
      cases f with
      | directory m => exact hstep
      | symlink target => simp [isSymlink,hf,File.isSymlink] at hlink
      | regular m b =>
        by_cases hr : rest = []
        · simp [hr]
        · simp [hr]
      | special m =>
        by_cases hr : rest = []
        · simp [hr]
        · simp [hr]

theorem look_plain {t : Tree} {follow : Bool} {p : List Name} (hn : ∀ c ∈ p, IsName c) (hp : t.Plain p)
    {f : File} (h : t.look follow p = .ok f) : t.file p = some f := by
  unfold look locate at h
  rw [walk] at h
  rcases stretch_plain (t := t) follow [] p hn (by simpa using hp) with hs | ⟨e,hs⟩
  · rw [List.nil_append] at hs
    rw [hs] at h
    dsimp only at h
    split at h
    · next g hg => cases h; exact hg
    · cases h
  · rw [hs] at h
    cases h

/-- One tree extends another by new directories at or above a location. -/
def Extends (t t' : Tree) (p : List Name) : Prop :=
  ∀ q, t'.file q = t.file q ∨ (t.file q = none ∧ q <+: p ∧ t'.isDirectory q = true)

theorem Extends.refl (t : Tree) (p : List Name) : t.Extends t p := fun _ => .inl rfl

theorem Extends.isDirectory {t t' : Tree} {p q : List Name} (h : t.Extends t' p)
    (hq : t.isDirectory q = true) : t'.isDirectory q = true := by
  rcases h q with he | ⟨hn,-,-⟩
  · simpa [Tree.isDirectory,he] using hq
  · simp [Tree.isDirectory,hn] at hq

theorem Extends.isSymlink {t t' : Tree} {p q : List Name} (h : t.Extends t' p) :
    t'.isSymlink q = t.isSymlink q := by
  rcases h q with he | ⟨hn,-,hd⟩
  · simp [Tree.isSymlink,he]
  · obtain ⟨f,hf,hfd⟩ := (Option.any_eq_true _ _).mp hd
    cases f with
    | directory m => simp [Tree.isSymlink,hn,hf]
    | _ => cases hfd

theorem Extends.mono {t t' : Tree} {p q : List Name} (h : t.Extends t' p) (hpq : p <+: q) :
    t.Extends t' q := by
  intro r
  rcases h r with he | ⟨hn,hp,hd⟩
  · exact .inl he
  · exact .inr ⟨hn,hp.trans hpq,hd⟩

/-- Making directories along names without links makes nothing else. -/
theorem createDirectories_plain {t t' : Tree} {m : Metadata} {p : List Name} (hn : ∀ c ∈ p, IsName c)
    (hp : t.Plain p) (h : t.createDirectories m p = .ok t') :
    t.Extends t' p ∧ t'.isDirectory p = true := by
  unfold createDirectories at h
  obtain ⟨r,rfl⟩ : ∃ r, p = r.reverse := ⟨p.reverse,by simp⟩
  rw [List.reverse_reverse] at h
  induction r generalizing t' with
  | nil =>
    cases h
    exact ⟨Extends.refl t _,t.isDirectory_root⟩
  | cons c up ih =>
    have hc : IsName c := hn c (by simp)
    have hup : up.reverse <+: (c :: up).reverse := by simp
    rw [createAbove,if_neg hc.1] at h
    split at h
    · next m' hl =>
      cases h
      have hf := look_plain hn hp hl
      exact ⟨Extends.refl t _,isDirectory_of_file hf⟩
    · cases h
    · split at h
      · cases h
      · next t₁ h₁ =>
        rw [if_neg (by simp [hc.2.1,hc.2.2])] at h
        obtain ⟨he,hd⟩ := ih (fun c' hc' => hn c' (hup.subset hc')) (hp.above hup) h₁
        have hne : (c :: up).reverse ≠ [] := by simp
        have hent := entry_names (t := t₁) hn hne ((opened_iff_parent t₁ hne).mpr (by simpa using hd))
        rw [createDirectory,hent] at h
        have hcat : (c :: up).reverse.dropLast ++ [(c :: up).reverse.getLast hne] = (c :: up).reverse :=
          List.dropLast_append_getLast hne
        simp only [hcat] at h
        split at h
        · cases h
        · next hnone =>
          cases h
          have hd' : t₁.isDirectory (c :: up).reverse.dropLast = true := by simpa using hd
          have hn' : t₁.isDirectory ((c :: up).reverse.dropLast ++ [(c :: up).reverse.getLast hne]) = false := by
            rw [hcat,isDirectory,hnone]
            rfl
          have hself := file_put_self hd' hn' (some (.directory m))
          rw [hcat] at hself
          refine ⟨fun q => ?_,isDirectory_of_file hself⟩
          by_cases hq : q = (c :: up).reverse
          · subst hq
            right
            rcases he (c :: up).reverse with h' | ⟨h',hpre,-⟩
            · exact ⟨by rw [← h',hnone],List.prefix_refl _,isDirectory_of_file hself⟩
            · exact ⟨h',List.prefix_refl _,isDirectory_of_file hself⟩
          · rw [file_put_of_ne (by rw [hcat]; exact hq)]
            rcases he q with h' | ⟨h',hpre,hdir⟩
            · exact .inl h'
            · exact .inr ⟨h',hpre.trans hup,isDirectory_put hdir _⟩
    · cases h

/-- Where there are all directories already, nothing is made. -/
theorem createDirectories_existing {t : Tree} {m : Metadata} {p : List Name} (hn : ∀ c ∈ p, IsName c)
    (hd : t.isDirectory p = true) : t.createDirectories m p = .ok t := by
  obtain ⟨f,hf,hfd⟩ := (Option.any_eq_true _ _).mp hd
  cases f with
  | directory m' =>
    have hl : t.look true p = .ok (.directory m') := by
      rw [look_names hn (opened_of_exists (by rw [hf]; rfl)) (fun _ => by simp [isSymlink,hf]),hf]
    unfold createDirectories
    cases hr : p.reverse with
    | nil => rfl
    | cons c up =>
      have hp : p = (c :: up).reverse := by rw [← hr,List.reverse_reverse]
      have hc : IsName c := hn c (by simp [hp])
      rw [hp] at hl
      rw [createAbove,if_neg hc.1,hl]
  | _ => cases hfd

@[ext] theorem ext {t t' : Tree} (h : ∀ p, t.file p = t'.file p) : t = t' := by
  cases t
  cases t'
  congr
  exact funext h

/-- Change a regular file in place; what is no regular file stays. -/
def modify (t : Tree) (directory : List Name) (name : Name) (g : Metadata → Bytes → Metadata × Bytes) : Tree :=
  match t.file (directory ++ [name]) with
  | some (.regular m b) => t.put directory name (some (.regular (g m b).1 (g m b).2))
  | _ => t

theorem file_modify_of_ne {t : Tree} {directory p : List Name} {name : Name} (h : p ≠ directory ++ [name])
    (g : Metadata → Bytes → Metadata × Bytes) : (t.modify directory name g).file p = t.file p := by
  unfold modify
  split
  · exact file_put_of_ne h _
  · rfl

theorem file_modify_self {t : Tree} {directory : List Name} {name : Name} {m : Metadata} {b : Bytes}
    (h : t.file (directory ++ [name]) = some (.regular m b)) (g : Metadata → Bytes → Metadata × Bytes) :
    (t.modify directory name g).file (directory ++ [name]) = some (.regular (g m b).1 (g m b).2) := by
  have hd : t.isDirectory directory = true := isDirectory_of_child (n := name) (by rw [h]; rfl)
  have hn : t.isDirectory (directory ++ [name]) = false := by rw [isDirectory,h]; rfl
  simp only [modify,h]
  exact file_put_self hd hn _

/-- Where a path without links above its last name stands. -/
theorem entry_plain {t : Tree} {p d : List Name} {n : Name} (hn : ∀ c ∈ p.dropLast, IsName c)
    (hp : t.Plain p.dropLast) (h : t.entry p = .ok (d,n)) :
    d = p.dropLast ∧ n = p.getLast?.getD [] ∧ t.isDirectory d = true := by
  unfold entry locate at h
  rw [walk] at h
  rcases stretch_plain (t := t) true [] p.dropLast hn (by simpa using hp) with hs | ⟨e,hs⟩
  · rw [List.nil_append] at hs
    rw [hs] at h
    dsimp only at h
    split at h
    · next m hf =>
      cases h
      exact ⟨rfl,rfl,isDirectory_of_file hf⟩
    · cases h
    · cases h
  · rw [hs] at h
    cases h

theorem entry_snoc {t : Tree} {directory d : List Name} {name n : Name}
    (hn : ∀ c ∈ directory, IsName c) (hp : t.Plain directory)
    (h : t.entry (directory ++ [name]) = .ok (d,n)) :
    d = directory ∧ n = name ∧ t.isDirectory directory = true := by
  obtain ⟨h₁,h₂,h₃⟩ := entry_plain (by simpa using hn) (by simpa using hp) h
  simp only [List.dropLast_concat,List.getLast?_concat,Option.getD_some] at h₁ h₂
  exact ⟨h₁,h₂,h₁ ▸ h₃⟩

/-- In a directory without links on its path every name is an entry. -/
theorem entry_directory {t : Tree} {directory : List Name} {name : Name} (hn : ∀ c ∈ directory, IsName c)
    (hd : t.isDirectory directory = true) : t.entry (directory ++ [name]) = .ok (directory,name) := by
  obtain ⟨f,hf,hfd⟩ := (Option.any_eq_true _ _).mp hd
  cases f with
  | directory m =>
    have hl := @locate_names t true directory hn (opened_of_exists (by rw [hf]; rfl))
      (fun _ => by simp [isSymlink,hf])
    unfold entry
    simp only [List.dropLast_concat,List.getLast?_concat,Option.getD_some,hl,hf]
  | _ => cases hfd

/-- A rename in one directory: the target is what the source was, and the source is gone. -/
theorem rename_file {t t' : Tree} {directory : List Name} {name name' : Name} {f : File}
    (hn : ∀ c ∈ directory, IsName c) (hne : name ≠ name')
    (hf : t.file (directory ++ [name]) = some f)
    (h : t.rename (directory ++ [name]) (directory ++ [name']) = .ok t') (hfd : f.isDirectory = false) :
    t'.file (directory ++ [name']) = some f ∧ t'.file (directory ++ [name]) = none ∧
      ∀ q, q ≠ directory ++ [name] → q ≠ directory ++ [name'] → t'.file q = t.file q := by
  have hd : t.isDirectory directory = true := isDirectory_of_child (n := name) (by rw [hf]; rfl)
  unfold rename at h
  rw [entry_directory hn hd,entry_directory hn hd] at h
  simp only [hf] at h
  have hne' : directory ++ [name] ≠ directory ++ [name'] := by simpa using hne
  split at h
  · cases h
  · next hdir =>
    cases h
    rw [Bool.not_eq_true] at hdir
    have hself := file_put_self hd hdir (some f)
    have hsource : (t.put directory name' (some f)).isDirectory (directory ++ [name]) = false := by
      rw [isDirectory,file_put_of_ne hne',hf]
      exact hfd
    refine ⟨?_,file_put_self (isDirectory_put hd _) hsource none,fun q h₁ h₂ => ?_⟩
    · rw [file_put_of_ne hne'.symm,hself]
    · rw [file_put_of_ne h₁,file_put_of_ne h₂]

theorem unlink_file {t t' : Tree} {directory : List Name} {name : Name} {f : File}
    (hn : ∀ c ∈ directory, IsName c) (hf : t.file (directory ++ [name]) = some f)
    (h : t.unlink (directory ++ [name]) = .ok t') :
    t'.file (directory ++ [name]) = none ∧ ∀ q, q ≠ directory ++ [name] → t'.file q = t.file q := by
  have hd : t.isDirectory directory = true := isDirectory_of_child (n := name) (by rw [hf]; rfl)
  unfold unlink at h
  rw [entry_directory hn hd] at h
  simp only [hf] at h
  split at h
  · cases h
  · next hfd =>
    cases h
    have hdir : t.isDirectory (directory ++ [name]) = false := by
      rw [isDirectory,hf]
      simpa using hfd
    exact ⟨file_put_self hd hdir none,fun q hq => file_put_of_ne hq none⟩

/-- A regular file can be unlinked. -/
theorem unlink_regular {t : Tree} {directory : List Name} {name : Name} {m : Metadata} {b : Bytes}
    (hn : ∀ c ∈ directory, IsName c) (hf : t.file (directory ++ [name]) = some (.regular m b)) :
    ∃ t', t.unlink (directory ++ [name]) = .ok t' := by
  have hd : t.isDirectory directory = true := isDirectory_of_child (n := name) (by rw [hf]; rfl)
  unfold unlink
  rw [entry_directory hn hd]
  simp [hf]

/-- Directories that are asked for may be made in part. -/
def Made (t : Tree) (p : List Name) (t' : Tree) : Prop :=
  ∃ m q, q <+: p ∧ t.createDirectories m q = .ok t'

theorem Made.extends {t t' : Tree} {p : List Name} (h : t.Made p t') (hn : ∀ c ∈ p, IsName c)
    (hp : t.Plain p) : t.Extends t' p := by
  obtain ⟨m,q,hq,hc⟩ := h
  exact (createDirectories_plain (fun c hc => hn c (hq.subset hc)) (hp.above hq) hc).1.mono hq

end Tree
end Posix
