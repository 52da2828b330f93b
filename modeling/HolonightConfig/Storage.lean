import HolonightConfig.DocumentStore.Resolve
import HolonightConfig.Program

/-! The system calls a store makes, what they do, and how they may fail. -/
namespace HolonightConfig
open Text Posix Program

/-- What a read of a configuration path finds. -/
inductive FileContent
  | missing
  | failed (message : Bytes)
  | content (octets : Bytes)
  deriving DecidableEq

namespace Storage

/-- When a path is resolved or read: before the lock is held, under it, or right before
the target is changed. -/
inductive Phase
  | before | locked | recheck
  deriving DecidableEq

/-- An open temporary file, by the location it was made at. -/
structure Descriptor where
  directory : List Name
  name : Name
  deriving DecidableEq

def Descriptor.location (d : Descriptor) : List Name := d.directory ++ [d.name]

structure Temporary where
  path : Path
  file : Descriptor
  deriving DecidableEq

inductive Call
  | resolve (phase : Phase) (path : Path)
  | read (phase : Phase) (path : Path)
  | createDirectories (path : Path)
  | openLock (path : Path)
  | flock (path : Path)
  | unlock (path : Path)
  | stat (path : Path)
  | mkstemp (directory : Path) (base : Name)
  | write (file : Descriptor) (octets : Bytes)
  | fchmod (file : Descriptor) (mode : ℕ)
  | fsync (file : Descriptor)
  | close (file : Descriptor)
  | openDirectory (path : Path)
  | fsyncDirectory (path : Path)
  | rename (source target : Path)
  | unlink (path : Path)
  | remove (path : Path)

def Call.Answer : Call → Type
  | resolve _ _ => Except Errno (List Name)
  | read _ _ => FileContent
  | stat _ => Except Errno Metadata
  | mkstemp _ _ => Except Errno Temporary
  | write _ _ => Except Errno ℕ
  | unlock _ => Unit
  | remove _ => Unit
  | _ => Except Errno Unit

/-- The file system and who holds which lock file. -/
structure World where
  tree : Tree
  holder : List Name → Option ℕ

structure Process where
  id : ℕ
  current : List Name

def World.on (w : World) (t : Tree) : World := { w with tree := t }

/-- Who holds one lock file is set. -/
def World.hold (w : World) (lock : List Name) (holder : Option ℕ) : World :=
  { w with holder := Function.update w.holder lock holder }

@[simp] theorem World.tree_hold (w : World) (l : List Name) (h : Option ℕ) : (w.hold l h).tree = w.tree := rfl
@[simp] theorem World.tree_on (w : World) (t : Tree) : (w.on t).tree = t := rfl
@[simp] theorem World.holder_on (w : World) (t : Tree) : (w.on t).holder = w.holder := rfl

def notRegular : Bytes := bytes "configuration is not a readable regular file"

/-- `std::filesystem::status`, the file's octets, and for a missing one whether a link
dangles. -/
def reading (t : Tree) (p : List Name) : FileContent :=
  match t.look true p with
  | .error .noEntry =>
    match t.look false p with
    | .ok (.symlink _) => .failed notRegular
    | _ => .missing
  | .error _ => .failed notRegular
  | .ok (.regular _ octets) => .content octets
  | .ok _ => .failed notRegular

/-- The octets `mkstemp` chooses from, and how many. -/
def isSuffix (suffix : Name) : Bool :=
  suffix.length = 6 ∧ suffix.all (fun c => (0x30 ≤ c && c ≤ 0x39) || (0x41 ≤ c && c ≤ 0x5A) ||
    (0x61 ≤ c && c ≤ 0x7A))

/-- `S_IFREG | 0600` -/
def temporaryMode : ℕ := 0o100600

def fileMetadata (f : File) : Metadata :=
  match f with
  | .directory m => m
  | .regular m _ => m
  | .special m => m
  | .symlink _ => ⟨0o120777,0,0⟩

section
variable (me : Process) (w : World)

/-- The calls as they work. A write may be short; which directories' and files' metadata
are made up is not said. -/
def Works : (c : Call) → c.Answer → World → Prop
  | .resolve _ path,r,w' => w' = w ∧ r = DocumentStore.resolveTarget w.tree me.current path
  | .read _ path,r,w' => w' = w ∧ r = reading w.tree (path.absolute me.current)
  | .createDirectories path,r,w' =>
    match r with
    | .ok () => ∃ m t, w.tree.createDirectories m (path.absolute me.current) = .ok t ∧ w' = w.on t
    | .error e => (∃ m, w.tree.createDirectories m (path.absolute me.current) = .error e) ∧
      ∃ t, w.tree.Made (path.absolute me.current) t ∧ w' = w.on t
  | .openLock path,r,w' =>
    match w.tree.entry (path.absolute me.current) with
    | .error e => r = .error e ∧ w' = w
    | .ok (d,n) =>
      match w.tree.file (d ++ [n]) with
      | none => ∃ m, r = .ok () ∧ w' = w.on (w.tree.put d n (some (.regular m [])))
      | some (.directory _) => r = .error .isDirectory ∧ w' = w
      | some (.symlink _) => r = .error .loop ∧ w' = w
      | some _ => r = .ok () ∧ w' = w
  | .flock path,r,w' => r = .ok () ∧ w.holder (path.absolute me.current) = none ∧
    w' = w.hold (path.absolute me.current) (some me.id)
  | .unlock path,_,w' =>
    w' = if w.holder (path.absolute me.current) = some me.id then w.hold (path.absolute me.current) none
      else w
  | .stat path,r,w' => w' = w ∧ r = (w.tree.look true (path.absolute me.current)).map fileMetadata
  | .mkstemp directory base,r,w' =>
    match r with
    | .error e => w' = w ∧
      ((∃ suffix, isSuffix suffix = true ∧
        w.tree.entry ((directory.child (base ++ suffix)).absolute me.current) = .error e) ∨
      (e = .exists_ ∧ ∀ suffix, isSuffix suffix = true → ∀ d n,
        w.tree.entry ((directory.child (base ++ suffix)).absolute me.current) = .ok (d,n) →
          (w.tree.file (d ++ [n])).isSome = true))
    | .ok temporary => ∃ suffix m, isSuffix suffix = true ∧ m.mode = temporaryMode ∧
      temporary.path = directory.child (base ++ suffix) ∧
      w.tree.entry (temporary.path.absolute me.current) =
        .ok (temporary.file.directory,temporary.file.name) ∧
      w.tree.file temporary.file.location = none ∧
      w' = w.on (w.tree.put temporary.file.directory temporary.file.name (some (.regular m [])))
  | .write file octets,r,w' => ∃ n, 0 < n ∧ n ≤ octets.length ∧ r = .ok n ∧
    w' = w.on (w.tree.modify file.directory file.name (fun m b => (m,b ++ octets.take n)))
  | .fchmod file mode,r,w' => r = .ok () ∧
    w' = w.on (w.tree.modify file.directory file.name
      (fun m b => ({ m with mode := m.mode - m.permissions + mode },b)))
  | .fsync _,r,w' => r = .ok () ∧ w' = w
  | .close _,r,w' => r = .ok () ∧ w' = w
  | .openDirectory path,r,w' => w' = w ∧
    r = match w.tree.look true (path.absolute me.current) with
      | .error e => .error e
      | .ok (.directory _) => .ok ()
      | .ok _ => .error .notDirectory
  | .fsyncDirectory _,r,w' => r = .ok () ∧ w' = w
  | .rename source target,r,w' =>
    match w.tree.rename (source.absolute me.current) (target.absolute me.current) with
    | .error e => r = .error e ∧ w' = w
    | .ok t => r = .ok () ∧ w' = w.on t
  | .unlink path,r,w' =>
    match w.tree.unlink (path.absolute me.current) with
    | .error e => r = .error e ∧ w' = w
    | .ok t => r = .ok () ∧ w' = w.on t
  | .remove path,_,w' =>
    match w.tree.unlink (path.absolute me.current) with
    | .error _ => w' = w
    | .ok t => w' = w.on t

/-- The calls as they may fail: with any error, and no effect but that some of the
directories asked for may be there. Whether removing a temporary file may fail is left open. -/
def Faults (removal : Prop) : (c : Call) → c.Answer → World → Prop
  | .resolve _ _,r,w' => (∃ e, r = .error e) ∧ w' = w
  | .read _ _,r,w' => (∃ message, r = .failed message) ∧ w' = w
  | .createDirectories path,r,w' => (∃ e, r = .error e) ∧
    ∃ t, w.tree.Made (path.absolute me.current) t ∧ w' = w.on t
  | .openLock _,r,w' => (∃ e, r = .error e) ∧ w' = w
  | .flock _,r,w' => (∃ e, r = .error e) ∧ w' = w
  | .unlock _,_,_ => False
  | .stat _,r,w' => (∃ e, r = .error e) ∧ w' = w
  | .mkstemp _ _,r,w' => (∃ e, r = .error e) ∧ w' = w
  | .write _ _,r,w' => ((∃ e, r = .error e) ∨ r = .ok 0) ∧ w' = w
  | .fchmod _ _,r,w' => (∃ e, r = .error e) ∧ w' = w
  | .fsync _,r,w' => (∃ e, r = .error e) ∧ w' = w
  | .close _,r,w' => (∃ e, r = .error e) ∧ w' = w
  | .openDirectory _,r,w' => (∃ e, r = .error e) ∧ w' = w
  | .fsyncDirectory _,r,w' => (∃ e, r = .error e) ∧ w' = w
  | .rename _ _,r,w' => (∃ e, r = .error e) ∧ w' = w
  | .unlink _,r,w' => (∃ e, r = .error e) ∧ w' = w
  | .remove _,_,w' => removal ∧ w' = w

end

/-- The calls of one process, none of which fails for no reason. -/
def faultless (me : Process) : Semantics Call Call.Answer World := fun w => Works me w

/-- The calls of one process under the schedules of faults in which removing a temporary file may fail,
or may not. -/
def failing (removal : Prop) (me : Process) : Semantics Call Call.Answer World :=
  fun w c r w' => Works me w c r w' ∨ Faults me w removal c r w'

/-- The calls of one process under every schedule of faults. -/
abbrev faulty (me : Process) : Semantics Call Call.Answer World := failing True me

section
variable {me : Process} {removal : Prop} {w w' : World} {e : Errno} {u : Unit}

theorem failing_rename_error {source target : Path} (h : failing removal me w (.rename source target) (.error e) w') :
    w' = w := by
  rcases h with h | ⟨-,h⟩
  · simp only [Works] at h
    split at h
    · exact h.2
    · cases h.1
  · exact h

theorem failing_rename_ok {source target : Path} (h : failing removal me w (.rename source target) (.ok u) w') :
    ∃ t, w.tree.rename (source.absolute me.current) (target.absolute me.current) = .ok t ∧ w' = w.on t := by
  rcases h with h | ⟨⟨e,he⟩,-⟩
  · simp only [Works] at h
    split at h
    · cases h.1
    · next t ht => exact ⟨t,ht,h.2⟩
  · cases he

theorem failing_unlink_error {path : Path} (h : failing removal me w (.unlink path) (.error e) w') : w' = w := by
  rcases h with h | ⟨-,h⟩
  · simp only [Works] at h
    split at h
    · exact h.2
    · cases h.1
  · exact h

theorem failing_unlink_ok {path : Path} (h : failing removal me w (.unlink path) (.ok u) w') :
    ∃ t, w.tree.unlink (path.absolute me.current) = .ok t ∧ w' = w.on t := by
  rcases h with h | ⟨⟨e,he⟩,-⟩
  · simp only [Works] at h
    split at h
    · cases h.1
    · next t ht => exact ⟨t,ht,h.2⟩
  · cases he

theorem failing_mkstemp_error {directory : Path} {base : Name}
    (h : failing removal me w (.mkstemp directory base) (.error e) w') : w' = w := by
  rcases h with ⟨h,-⟩ | ⟨-,h⟩ <;> exact h

theorem failing_mkstemp_ok {directory : Path} {base : Name} {temporary : Temporary}
    (h : failing removal me w (.mkstemp directory base) (.ok temporary) w') :
    Works me w (.mkstemp directory base) (.ok temporary) w' := by
  rcases h with h | ⟨⟨e,he⟩,-⟩
  · exact h
  · cases he

end

/-- The guarantee that says nothing. -/
def anyStep {σ : Type} : Semantics Call Call.Answer σ := fun _ _ _ _ => True

/-- The calls under any answers at all. -/
def arbitrary : Semantics Call Call.Answer Unit := fun _ _ _ _ => True

/-! ### Making the calls -/

abbrev Command := Prog Call Call.Answer

abbrev perform (c : Call) : Command c.Answer := Prog.perform c

def resolve (phase : Phase) (path : Path) : Command (Except Errno (List Name)) := perform (.resolve phase path)
def read (phase : Phase) (path : Path) : Command FileContent := perform (.read phase path)
def createDirectories (path : Path) : Command (Except Errno Unit) := perform (.createDirectories path)
def openLock (path : Path) : Command (Except Errno Unit) := perform (.openLock path)
def flock (path : Path) : Command (Except Errno Unit) := perform (.flock path)
def unlock (path : Path) : Command Unit := perform (.unlock path)
def stat (path : Path) : Command (Except Errno Metadata) := perform (.stat path)
def mkstemp (directory : Path) (base : Name) : Command (Except Errno Temporary) := perform (.mkstemp directory base)
def write (file : Descriptor) (octets : Bytes) : Command (Except Errno ℕ) := perform (.write file octets)
def fchmod (file : Descriptor) (mode : ℕ) : Command (Except Errno Unit) := perform (.fchmod file mode)
def fsync (file : Descriptor) : Command (Except Errno Unit) := perform (.fsync file)
def close (file : Descriptor) : Command (Except Errno Unit) := perform (.close file)
def openDirectory (path : Path) : Command (Except Errno Unit) := perform (.openDirectory path)
def fsyncDirectory (path : Path) : Command (Except Errno Unit) := perform (.fsyncDirectory path)
def rename (source target : Path) : Command (Except Errno Unit) := perform (.rename source target)
def unlink (path : Path) : Command (Except Errno Unit) := perform (.unlink path)
def remove (path : Path) : Command Unit := perform (.remove path)

end Storage
end HolonightConfig
