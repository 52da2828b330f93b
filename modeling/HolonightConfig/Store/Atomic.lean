import HolonightConfig.DocumentStore.Outcome
import HolonightConfig.Posix.Stable
import HolonightConfig.Store

/-! What writing and updating come to under every schedule of faults: all of it or nothing. -/
namespace HolonightConfig
open Text Posix Program

namespace Store
open Storage DocumentStore

/-- Every location with the destination's name holds what it held, or is a directory where
nothing was, or holds the whole new document. -/
def Whole (path : Path) (octets : Bytes) (w w' : World) : Prop :=
  ∀ directory, w'.tree.file (directory ++ [path.filename]) = w.tree.file (directory ++ [path.filename]) ∨
    (w.tree.file (directory ++ [path.filename]) = none ∧
      w'.tree.isDirectory (directory ++ [path.filename]) = true) ∨
    ∃ m, w'.tree.file (directory ++ [path.filename]) = some (.regular m octets)

theorem Whole.of_adds {path : Path} {octets : Bytes} {w w' : World} (h : w.tree.Adds w'.tree) :
    Whole path octets w w' := by
  intro directory
  rcases h (directory ++ [path.filename]) with h | h
  · exact .inl h
  · exact .inr (.inl h)

/-- The destination is in place, and nothing else is changed. -/
structure Put (me : Process) (path : Path) (octets : Bytes) (w w' : World) : Prop where
  put : ∃ directory m, w.tree.entry (path.absolute me.current) = .ok (directory,path.filename) ∧
    w'.tree.file (directory ++ [path.filename]) = some (.regular m octets) ∧
    ∀ q, q ≠ directory ++ [path.filename] → w'.tree.file q = w.tree.file q
  holder : w'.holder = w.holder

/-- The destination is in place, and nothing else is new but directories. -/
structure Placed (me : Process) (path : Path) (octets : Bytes) (w w' : World) : Prop where
  placed : ∃ t directory m, w.tree.Adds t ∧ t.entry (path.absolute me.current) = .ok (directory,path.filename) ∧
    w'.tree.file (directory ++ [path.filename]) = some (.regular m octets) ∧
    ∀ q, q ≠ directory ++ [path.filename] → w'.tree.file q = t.file q
  holder : w'.holder = w.holder

theorem Put.placed {me : Process} {path : Path} {octets : Bytes} {w w₁ w' : World} (h : Put me path octets w₁ w')
    (hadds : w.tree.Adds w₁.tree) (hholder : w₁.holder = w.holder) : Placed me path octets w w' := by
  obtain ⟨⟨directory,m,hentry,hself,hothers⟩,hh⟩ := h
  exact ⟨⟨w₁.tree,directory,m,hadds,hentry,hself,hothers⟩,hh.trans hholder⟩

/-- Where the temporary files of a destination go. -/
def IsTemporary (path : Path) (q : List Name) : Prop :=
  ∃ directory suffix, isSuffix suffix = true ∧ q = directory ++ [temporaryBase path ++ suffix]

/-- Nothing is new but directories, and the temporary file where removing it may fail. -/
def GivenUp (removal : Prop) (path : Path) (w w' : World) : Prop :=
  ∃ t, w.tree.Adds t ∧ CleanedUp removal (IsTemporary path) t w'.tree ∧ w'.holder = w.holder

theorem GivenUp.of_adds {removal : Prop} {path : Path} {w w' : World} (h : w.tree.Adds w'.tree)
    (hh : w'.holder = w.holder) : GivenUp removal path w w' := ⟨_,h,.inl rfl,hh⟩

section
variable {me : Process} {removal : Prop} {path : Path} {octets : Bytes} {w₀ w₁ : World}

theorem temporaryBase_ne (path : Path) (suffix : Name) : temporaryBase path ++ suffix ≠ path.filename :=
  DocumentStore.temporaryBase_ne [] path.filename suffix

theorem destination_not_temporary (path : Path) (directory : List Name) : ¬ IsTemporary path (directory ++ [path.filename]) := by
  rintro ⟨d,suffix,-,he⟩
  have := congrArg List.getLast? he
  rw [List.getLast?_concat,List.getLast?_concat] at this
  exact temporaryBase_ne path suffix (Option.some.inj this).symm

theorem GivenUp.whole {w w' : World} (h : GivenUp removal path w w') : Whole path octets w w' := by
  obtain ⟨t,hadds,hclean,-⟩ := h
  intro directory
  have hfile := hclean.file (destination_not_temporary path directory)
  rcases hadds (directory ++ [path.filename]) with he | ⟨hn,hd⟩
  · exact .inl (hfile.trans he)
  · refine .inr (.inl ⟨hn,?_⟩)
    rw [Tree.isDirectory,hfile]
    exact hd

theorem Whole.of_drafted {file : Descriptor} {m : Metadata} {b : Bytes} {w : World}
    (hadds : w₀.tree.Adds w₁.tree) (hname : file.name ≠ path.filename) (h : Drafted w₁ file m b w) :
    Whole path octets w₀ w := by
  intro directory
  have hne : directory ++ [path.filename] ≠ file.location := by
    intro he
    have := congrArg List.getLast? he
    simp only [Descriptor.location,List.getLast?_concat,Option.some.injEq] at this
    exact hname this.symm
  have hfile := h.others _ hne
  rcases hadds (directory ++ [path.filename]) with he | ⟨hn,hd⟩
  · exact .inl (hfile.trans he)
  · refine .inr (.inl ⟨hn,?_⟩)
    rw [Tree.isDirectory,hfile]
    exact hd

theorem writeAll_faulty {file : Descriptor} {m : Metadata} (hadds : w₀.tree.Adds w₁.tree)
    (hname : file.name ≠ path.filename) (budget : ℕ) (rest : Bytes) {b : Bytes} {w : World}
    (hd : Drafted w₁ file m b w) :
    Ensures (failing removal me) (fun _ _ _ w' => Whole path octets w₀ w')
      (fun r w' => ∃ b', Drafted w₁ file m b' w' ∧ (r = .ok () → b' = b ++ rest))
      (writeAll file budget rest) w := by
  induction budget generalizing rest b w with
  | zero =>
    cases rest with
    | nil => exact ⟨b,hd,by simp⟩
    | cons c rest => trivial
  | succ budget ih =>
    cases rest with
    | nil => exact ⟨b,hd,by simp⟩
    | cons c rest =>
      refine ensures_perform (fun r w' hs => ?_)
      rcases hs with ⟨k,hpos,hk,rfl,rfl⟩ | ⟨he,rfl⟩
      · have hd' := hd.modify (fun m b => (m,b ++ (c :: rest).take k))
        refine ⟨Whole.of_drafted hadds hname hd',?_⟩
        refine (ih ((c :: rest).drop k) hd').mono (fun r w' h => ?_)
        obtain ⟨b',hd',hr⟩ := h
        refine ⟨b',hd',fun h => ?_⟩
        rw [hr h,List.append_assoc,List.take_append_drop]
      · refine ⟨Whole.of_drafted hadds hname hd,?_⟩
        rcases he with ⟨e,rfl⟩ | rfl
        · cases e with
          | interrupted => exact ih (c :: rest) hd
          | _ => exact ⟨b,hd,by simp⟩
        · exact ih (c :: rest) hd

theorem prepareTemporary_faulty {file : Descriptor} {m : Metadata} (hadds : w₀.tree.Adds w₁.tree)
    (hname : file.name ≠ path.filename) (budget : ℕ) {w : World} (hd : Drafted w₁ file m [] w) :
    Ensures (failing removal me) (fun _ _ _ w' => Whole path octets w₀ w')
      (fun r w' => ∃ b, Drafted w₁ file m b w' ∧ (∀ result, r = some result → result.value = none) ∧
        (r = none → b = octets))
      (prepareTemporary budget path file octets) w := by
  refine ensures_bind (writeAll_faulty hadds hname budget octets hd) (fun r w' h => ?_)
  obtain ⟨b,hd',hr⟩ := h
  have hwhole : Whole path octets w₀ w' := Whole.of_drafted hadds hname hd'
  cases r with
  | error e =>
    refine ⟨b,hd',?_,by simp⟩
    rintro result ⟨rfl⟩
    rfl
  | ok u =>
    have hb := hr rfl
    rw [List.nil_append] at hb
    refine ensures_bind (P := fun r v => v = w') ?_ (fun r v hv => ?_)
    · refine ensures_perform (fun r v hs => ?_)
      have hsame : v = w' := by rcases hs with ⟨-,rfl⟩ | ⟨-,rfl⟩ <;> rfl
      subst hsame
      refine ⟨hwhole,?_⟩
      cases r with
      | error e => rfl
      | ok u =>
        refine ensures_perform (fun r v' hs => ?_)
        have hsame : v' = v := by rcases hs with ⟨-,rfl⟩ | ⟨-,rfl⟩ <;> rfl
        subst hsame
        exact ⟨hwhole,rfl⟩
    · subst hv
      cases r with
      | error e =>
        refine ⟨b,hd',?_,by simp⟩
        rintro result ⟨rfl⟩
        rfl
      | ok u => exact ⟨b,hd',by simp,fun _ => hb⟩

/-- A temporary file is no directory or link that a path could lead through. -/
theorem keeps_of_drafted {file : Descriptor} {m : Metadata} {b : Bytes} {w : World}
    (hfresh : w₁.tree.file file.location = none) (h : Drafted w₁ file m b w) :
    w₁.tree.Keeps w.tree ∧ w.tree.Keeps w₁.tree := by
  constructor
  · intro q hq
    refine h.others q ?_
    rintro rfl
    simp [Tree.isDirectory,Tree.isSymlink,hfresh] at hq
  · intro q hq
    refine (h.others q ?_).symm
    rintro rfl
    simp [Tree.isDirectory,Tree.isSymlink,h.written,File.isDirectory,File.isSymlink] at hq

/-- Removing the temporary file leaves the tree as it was before, where it does not fail. -/
theorem remove_drafted {file : Descriptor} {m : Metadata} {b : Bytes} {w w' : World} {temporary : Path}
    (hfresh : w₁.tree.file file.location = none)
    (hentry : w₁.tree.entry (temporary.absolute me.current) = .ok (file.directory,file.name))
    (htemporary : IsTemporary path file.location) (h : Drafted w₁ file m b w)
    (hs : failing removal me w (.remove temporary) () w') :
    CleanedUp removal (IsTemporary path) w₁.tree w'.tree ∧ w'.holder = w₁.holder := by
  have he := Tree.entry_keeps (keeps_of_drafted hfresh h).1 hentry
  have hdir := (Tree.entry_spec he).2.1
  rcases hs with hs | ⟨hr,rfl⟩
  · have hw := h.written
    rw [Descriptor.location] at hw
    have hfd : w.tree.isDirectory (file.directory ++ [file.name]) = false := by
      rw [Tree.isDirectory,hw]
      rfl
    simp only [Works,Tree.unlink,he,hw,File.isDirectory,Bool.false_eq_true,if_false] at hs
    rw [hs]
    refine ⟨.inl (Tree.ext (fun q => ?_)),h.holder⟩
    rw [World.tree_on]
    by_cases hq : q = file.directory ++ [file.name]
    · rw [hq,Tree.file_put_self hdir hfd]
      exact hfresh.symm
    · rw [Tree.file_put_of_ne hq]
      exact h.others q hq
  · exact ⟨h.cleanedUp hr htemporary hfresh,h.holder⟩

/-- A new temporary file of the destination, as `mkstemp` makes it. -/
structure Drawn (me : Process) (path : Path) (w : World) (temporary : Temporary) (m : Metadata) (w' : World) :
    Prop where
  entry : w.tree.entry (temporary.path.absolute me.current) = .ok (temporary.file.directory,temporary.file.name)
  named : ∃ suffix, isSuffix suffix = true ∧ temporary.file.name = temporaryBase path ++ suffix
  fresh : w.tree.file temporary.file.location = none
  made : w' = w.on (w.tree.put temporary.file.directory temporary.file.name (some (.regular m [])))

theorem mkstemp_drawn {directory : Path} {temporary : Temporary} {w w' : World}
    (h : failing removal me w (.mkstemp directory (temporaryBase path)) (.ok temporary) w') :
    ∃ m, Drawn me path w temporary m w' := by
  obtain ⟨suffix,m,hsuffix,-,htemp,hentry,hfresh,hw⟩ := failing_mkstemp_ok h
  refine ⟨m,hentry,⟨suffix,hsuffix,?_⟩,hfresh,hw⟩
  rw [(Tree.entry_spec hentry).2.2,htemp]
  unfold Path.child Path.absolute
  split <;> simp

section
variable {temporary : Temporary} {m : Metadata} {w : World}

theorem Drawn.ne (h : Drawn me path w₁ temporary m w) : temporary.file.name ≠ path.filename := by
  obtain ⟨suffix,-,hname⟩ := h.named
  rw [hname]
  exact temporaryBase_ne path suffix

theorem Drawn.isTemporary (h : Drawn me path w₁ temporary m w) : IsTemporary path temporary.file.location := by
  obtain ⟨suffix,hsuffix,hname⟩ := h.named
  exact ⟨_,suffix,hsuffix,by rw [Descriptor.location,hname]⟩

theorem Drawn.drafted (h : Drawn me path w₁ temporary m w) : Drafted w₁ temporary.file m [] w := by
  rw [h.made]
  refine ⟨Tree.file_put_self (Tree.entry_spec h.entry).2.1 ?_ _,fun q hq => Tree.file_put_of_ne hq _,rfl⟩
  rw [Tree.isDirectory]
  exact (congrArg (Option.any _) h.fresh).trans rfl

end

theorem filename_absolute {path : Path} {current : List Name} (h : path.filename ≠ []) :
    (path.absolute current).getLast?.getD [] = path.filename := by
  have hcs : path.components ≠ [] := by
    intro he
    rw [Path.filename,he] at h
    exact h rfl
  rw [Path.filename,Path.absolute]
  split
  · rfl
  · rw [List.getLast?_append_of_ne_nil _ hcs]

/-- The rename of a temporary file to the destination. -/
theorem rename_placed {file : Descriptor} {m : Metadata} {b : Bytes} {w w' : World} {temporary : Path} {u : Unit}
    (hpath : path.filename ≠ [])
    (hentry : w.tree.entry (temporary.absolute me.current) = .ok (file.directory,file.name))
    (ht : IsTemporary path file.location) (hwritten : w.tree.file file.location = some (.regular m b))
    (hs : failing removal me w (.rename temporary path) (.ok u) w') :
    ∃ directory, w.tree.isDirectory (directory ++ [path.filename]) = false ∧
      w'.tree.file (directory ++ [path.filename]) = some (.regular m b) ∧ w'.tree.file file.location = none ∧
      (∀ q, q ≠ file.location → q ≠ directory ++ [path.filename] → w'.tree.file q = w.tree.file q) ∧
      w.tree.entry (path.absolute me.current) = .ok (directory,path.filename) ∧ w'.holder = w.holder := by
  rw [Descriptor.location] at hwritten
  obtain ⟨t,hrename,rfl⟩ := failing_rename_ok hs
  simp only [Tree.rename,hentry] at hrename
  cases hto : w.tree.entry (path.absolute me.current) with
  | error e =>
    simp only [hto] at hrename
    cases hrename
  | ok x =>
    obtain ⟨directory,name⟩ := x
    obtain ⟨-,hdirectory,hlast⟩ := Tree.entry_spec hto
    obtain rfl : name = path.filename := by rw [hlast,filename_absolute hpath]
    have hlocation : file.directory ++ [file.name] ≠ directory ++ [path.filename] :=
      fun he => destination_not_temporary path directory (he ▸ ht)
    simp only [hto,hwritten,if_neg hlocation] at hrename
    split at hrename
    · cases hrename
    · next hnd =>
      rw [Bool.not_eq_true] at hnd
      cases hrename
      have hself := Tree.file_put_self hdirectory hnd (some (.regular m b))
      have hsource : (w.tree.put directory path.filename (some (.regular m b))).isDirectory
          (file.directory ++ [file.name]) = false := by
        rw [Tree.isDirectory,Tree.file_put_of_ne hlocation,hwritten]
        rfl
      refine ⟨directory,hnd,?_,?_,fun q h₁ h₂ => ?_,rfl,rfl⟩
      · rw [World.tree_on,Tree.file_put_of_ne hlocation.symm,hself]
      · exact Tree.file_put_self (Tree.isDirectory_put (Tree.entry_spec hentry).2.1 _) hsource none
      · rw [World.tree_on,Tree.file_put_of_ne h₁,Tree.file_put_of_ne h₂]

/-- The rename puts the temporary file at the destination, and nothing else is changed. -/
theorem rename_drafted {file : Descriptor} {m : Metadata} {b : Bytes} {w w' : World} {temporary : Path} {u : Unit}
    (hpath : path.filename ≠ []) (hfresh : w₁.tree.file file.location = none)
    (hentry : w₁.tree.entry (temporary.absolute me.current) = .ok (file.directory,file.name))
    (ht : IsTemporary path file.location) (h : Drafted w₁ file m b w)
    (hs : failing removal me w (.rename temporary path) (.ok u) w') :
    ∃ directory, w₁.tree.entry (path.absolute me.current) = .ok (directory,path.filename) ∧
      w'.tree.file (directory ++ [path.filename]) = some (.regular m b) ∧
      (∀ q, q ≠ directory ++ [path.filename] → w'.tree.file q = w₁.tree.file q) ∧ w'.holder = w₁.holder := by
  obtain ⟨hforth,hcounter⟩ := keeps_of_drafted hfresh h
  obtain ⟨directory,-,hself,hgone,hothers,hto,hholder⟩ :=
    rename_placed hpath (Tree.entry_keeps hforth hentry) ht h.written hs
  refine ⟨directory,Tree.entry_keeps hcounter hto,hself,fun q hq => ?_,hholder.trans h.holder⟩
  by_cases hq' : q = file.location
  · rw [hq',hgone,hfresh]
  · rw [hothers q hq' hq,h.others q hq']

section
variable {temporary : Temporary} {m : Metadata} {b : Bytes} {w₂ w : World}

/-- The temporary file is given up. -/
theorem giveUp_faulty (hadds : w₀.tree.Adds w₁.tree) (hholder : w₁.holder = w₀.holder)
    (hdrawn : Drawn me path w₁ temporary m w₂) (hd : Drafted w₁ temporary.file m b w) {r : Result Path}
    (hr : r.value = none) :
    Ensures (failing removal me) (fun _ _ _ w' => Whole path octets w₀ w')
      (fun r w' => r.value = none ∧ GivenUp removal path w₀ w') (do Storage.remove temporary.path; pure r) w := by
  refine ensures_perform (fun _ w' hrm => ?_)
  obtain ⟨hclean,hh⟩ := remove_drafted hdrawn.fresh hdrawn.entry hdrawn.isTemporary hd hrm
  have hback : GivenUp removal path w₀ w' := ⟨_,hadds,hclean,hh.trans hholder⟩
  exact ⟨hback.whole,hr,hback⟩

/-- The rename fails and the temporary file is given up, or it puts the text at the destination. -/
theorem renameTemporary_faulty (hadds : w₀.tree.Adds w₁.tree) (hholder : w₁.holder = w₀.holder)
    (hpath : path.filename ≠ []) (hdrawn : Drawn me path w₁ temporary m w₂)
    (hd : Drafted w₁ temporary.file m octets w) :
    Ensures (failing removal me) (fun _ _ _ w' => Whole path octets w₀ w')
      (fun r w' => (r.value = none ∧ GivenUp removal path w₀ w') ∨ (r.value = some path ∧ Put me path octets w₁ w'))
      (do
        match ← Storage.rename temporary.path path with
        | .error e =>
          Storage.remove temporary.path
          pure (writeError (bytes "failed to replace appearance file") e path)
        | .ok () => pure (.success path [])) w := by
  refine ensures_perform (fun r w' hren => ?_)
  cases r with
  | error e =>
    obtain rfl := failing_rename_error hren
    exact ⟨Whole.of_drafted hadds hdrawn.ne hd,
      (giveUp_faulty hadds hholder hdrawn hd rfl).mono (fun _ _ h => .inl h)⟩
  | ok u =>
    obtain ⟨directory,hentry,hself,hothers,hh⟩ := rename_drafted hpath hdrawn.fresh hdrawn.entry hdrawn.isTemporary hd hren
    refine ⟨fun d => ?_,.inr ⟨rfl,⟨directory,m,hentry,hself,hothers⟩,hh⟩⟩
    by_cases hq : d ++ [path.filename] = directory ++ [path.filename]
    · exact .inr (.inr ⟨m,hq ▸ hself⟩)
    · rw [Tree.isDirectory,hothers _ hq]
      rcases hadds (d ++ [path.filename]) with he | hnew
      · exact .inl he
      · exact .inr (.inl hnew)

end

theorem replaceFile_faulty (hadds : w₀.tree.Adds w₁.tree) (hholder : w₁.holder = w₀.holder)
    (hpath : path.filename ≠ []) (budget : ℕ) :
    Ensures (failing removal me) (fun _ _ _ w' => Whole path octets w₀ w')
      (fun r w' => (r.value = none ∧ GivenUp removal path w₀ w') ∨ (r.value = some path ∧ Put me path octets w₁ w'))
      (replaceFile budget path octets) w₁ := by
  refine ensures_perform (fun r w₂ hmk => ?_)
  cases r with
  | error e =>
    obtain rfl := failing_mkstemp_error hmk
    exact ⟨Whole.of_adds hadds,.inl ⟨rfl,.of_adds hadds hholder⟩⟩
  | ok temporary =>
    obtain ⟨m,hdrawn⟩ := mkstemp_drawn hmk
    refine ⟨Whole.of_drafted hadds hdrawn.ne hdrawn.drafted,?_⟩
    refine ensures_bind (prepareTemporary_faulty hadds hdrawn.ne budget hdrawn.drafted) (fun r w₃ h => ?_)
    obtain ⟨b,hd,hfail,hdone⟩ := h
    cases r with
    | some result => exact (giveUp_faulty hadds hholder hdrawn hd (hfail result rfl)).mono (fun _ _ h => .inl h)
    | none =>
      obtain rfl := hdone rfl
      exact renameTemporary_faulty hadds hholder hpath hdrawn hd

end

/-- Writing fails with nothing new but directories, if removing the temporary file does not fail, or puts the
document in place. -/
theorem writeAtomically_faulty (removal : Prop) (budget : ℕ) (me : Process) (appearance : Appearance) (path : Path) (w : World) :
    Ensures (failing removal me)
      (fun _ _ _ w' => ∀ octets, (Codec.serialize appearance).value = some octets → Whole path octets w w')
      (fun r w' => (r.value = none ∧ GivenUp removal path w w') ∨
        ∃ octets, (Codec.serialize appearance).value = some octets ∧ r.value = some path ∧
          Placed me path octets w w')
      (writeAtomically budget appearance path) w := by
  unfold writeAtomically
  split
  · exact .inl ⟨rfl,.of_adds (Tree.Adds.refl _) rfl⟩
  · next hpath =>
    dsimp only
    split
    · exact .inl ⟨rfl,.of_adds (Tree.Adds.refl _) rfl⟩
    · next octets hoctets =>
      have hwhole : ∀ {w'}, Whole path octets w w' → ∀ octets', (Codec.serialize appearance).value = some octets' →
          Whole path octets' w w' := by
        intro w' h octets' ho
        cases hoctets.symm.trans ho
        exact h
      refine ensures_perform (fun r w₁ hs => ?_)
      have hadds : w.tree.Adds w₁.tree ∧ w₁.holder = w.holder := by
        rcases hs with hs | ⟨-,t,hmade,rfl⟩
        · cases r with
          | ok u =>
            obtain ⟨m,t,hc,rfl⟩ := hs
            exact ⟨Tree.createAbove_adds hc,rfl⟩
          | error e =>
            obtain ⟨-,t,hmade,rfl⟩ := hs
            exact ⟨hmade.adds,rfl⟩
        · exact ⟨hmade.adds,rfl⟩
      refine ⟨hwhole (Whole.of_adds hadds.1),?_⟩
      cases r with
      | error e => exact .inl ⟨rfl,.of_adds hadds.1 hadds.2⟩
      | ok u =>
        have hname : path.filename ≠ [] := fun h => hpath (.inr h)
        have h := @replaceFile_faulty me removal path octets w w₁ hadds.1 hadds.2 hname budget
        refine (h.weaken (fun _ _ _ w' h => hwhole h)).mono (fun r w' h => ?_)
        rcases h with h | h
        · exact .inl h
        · exact .inr ⟨octets,hoctets,h.1,h.2.placed hadds.1 hadds.2⟩

end Store
end HolonightConfig
