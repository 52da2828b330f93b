import HolonightConfig.DocumentStore.Rollback
import HolonightConfig.Store.Concurrent

/-! Without faults a writer that finds the directory of its path, a name for a temporary file and no
directory in the way puts its document in place, however short the single writes are. -/
namespace HolonightConfig
open Text Posix Program

namespace Store
open Storage DocumentStore

/-- The path leads to a name in a directory that is there, where a document can be put. -/
structure Writable (me : Process) (path : Path) (directory : List Name) (t : Tree) : Prop where
  filename : path.filename ≠ []
  named : (directoryOf path).components.getLast? ≠ some []
  located : t.locate true ((directoryOf path).absolute me.current) = .ok directory
  entry : t.entry (path.absolute me.current) = .ok (directory,path.filename)
  destination : t.isDirectory (directory ++ [path.filename]) = false
  free : ∃ suffix, isSuffix suffix = true ∧ t.file (directory ++ [temporaryBase path ++ suffix]) = none

section
variable {me : Process} {path : Path} {directory : List Name} {t : Tree}

theorem Writable.isDirectory (h : Writable me path directory t) : t.isDirectory directory = true :=
  (Tree.entry_spec h.entry).2.1

theorem directoryOf_components (path : Path) (h : ¬ (directoryOf path).isAbsolute = true) :
    (directoryOf path).components ≠ [] := by
  intro hcs
  unfold directoryOf at hcs h
  split at hcs
  · cases hcs
  · next he =>
    rw [if_neg he] at h
    refine he ?_
    rw [Path.isEmpty,hcs]
    simpa using h

/-- The directories are there already. -/
theorem Writable.made (h : Writable me path directory t) (m : Metadata) :
    t.createDirectories m ((directoryOf path).absolute me.current) = .ok t := by
  obtain ⟨f,hf,hfd⟩ := (Option.any_eq_true _ _).mp h.isDirectory
  have hlook : t.look true ((directoryOf path).absolute me.current) = .ok f := by
    rw [Tree.look,h.located]
    simp only [hf]
  unfold Tree.createDirectories
  rcases List.eq_nil_or_concat' ((directoryOf path).absolute me.current) with hnil | ⟨up,c,hup⟩
  · rw [hnil]
    rfl
  have hc : c ≠ [] := by
    rintro rfl
    unfold Path.absolute at hup
    split at hup
    · exact h.named (by rw [hup,List.getLast?_concat])
    · next habs =>
      refine h.named ?_
      rw [← List.getLast?_append_of_ne_nil me.current (directoryOf_components path habs),hup,List.getLast?_concat]
  rw [hup] at hlook ⊢
  rw [List.reverse_concat,Tree.createAbove,if_neg hc]
  rw [show (c :: up.reverse).reverse = up ++ [c] by simp,hlook]
  cases f with
  | directory m => rfl
  | _ => cases hfd

/-- A name in the directory is an entry of it. -/
theorem Writable.child (h : Writable me path directory t) (name : Name) :
    t.entry (((directoryOf path).child name).absolute me.current) = .ok (directory,name) := by
  obtain ⟨f,hf,hfd⟩ := (Option.any_eq_true _ _).mp h.isDirectory
  have habs : ((directoryOf path).child name).absolute me.current =
      (directoryOf path).absolute me.current ++ [name] := by
    unfold Path.child Path.absolute
    dsimp only
    split <;> simp
  rw [habs,Tree.entry,List.dropLast_concat,h.located]
  simp only [hf,List.getLast?_concat,Option.getD_some]
  cases f with
  | directory m => rfl
  | _ => cases hfd

theorem writeAll_returns {G : Semantics Call Call.Answer World} (hG : ∀ w c r w', G w c r w') (file : Descriptor)
    {budget : ℕ} {octets : Bytes} (hb : octets.length ≤ budget) (w : World) :
    Returns (faultless me) G (fun r _ => r = .ok ()) (writeAll file budget octets) w := by
  induction budget generalizing octets w with
  | zero =>
    rw [Nat.le_zero,List.length_eq_zero_iff] at hb
    subst hb
    rfl
  | succ budget ih =>
    cases octets with
    | nil => rfl
    | cons c octets =>
      refine returns_perform ⟨.ok 1,_,1,Nat.one_pos,by simp,rfl,rfl⟩ (fun r w' hs => ⟨hG _ _ _ _,?_⟩)
      obtain ⟨n,hpos,hn,rfl,rfl⟩ := hs
      refine ih ?_ _
      rw [List.length_drop]
      omega

theorem prepareTemporary_returns (path : Path) (file : Descriptor) {budget : ℕ} {octets : Bytes}
    (hb : octets.length ≤ budget) (w : World) :
    Returns (faultless me) anyStep (fun r _ => r = none) (prepareTemporary budget path file octets) w := by
  refine returns_bind (writeAll_returns (fun _ _ _ _ => trivial) file hb w) (fun r w' hr => ?_)
  subst hr
  refine returns_bind (P := fun r _ => r = .ok ()) ?_ (fun r w' hr => ?_)
  · refine returns_perform ⟨_,_,rfl,rfl⟩ (fun r w' hs => ⟨trivial,?_⟩)
    rw [hs.1]
    refine returns_perform ⟨_,_,rfl,rfl⟩ (fun r w' hs => ⟨trivial,?_⟩)
    exact hs.1
  · rw [hr]
    exact rfl

/-- Where a name is free, a temporary file is made. -/
theorem mkstemp_returns {w : World} (h : Writable me path directory w.tree) :
    (∃ r w', faultless me w (.mkstemp (directoryOf path) (temporaryBase path)) r w') ∧
      ∀ r w', faultless me w (.mkstemp (directoryOf path) (temporaryBase path)) r w' → ∃ temporary, r = .ok temporary := by
  obtain ⟨suffix,hsuffix,hfree⟩ := h.free
  refine ⟨⟨.ok ⟨(directoryOf path).child (temporaryBase path ++ suffix),⟨directory,temporaryBase path ++ suffix⟩⟩,_,
    suffix,⟨temporaryMode,0,0⟩,hsuffix,rfl,rfl,h.child _,hfree,rfl⟩,fun r w' hs => ?_⟩
  cases r with
  | ok temporary => exact ⟨temporary,rfl⟩
  | error e =>
    rcases hs.2 with ⟨suffix',-,he⟩ | ⟨-,htaken⟩
    · rw [h.child] at he
      cases he
    · have hsome := htaken suffix hsuffix _ _ (h.child _)
      rw [hfree] at hsome
      cases hsome

/-- The rename goes through. -/
theorem rename_returns {w : World} (hentry : w.tree.entry (path.absolute me.current) = .ok (directory,path.filename))
    (hdestination : w.tree.isDirectory (directory ++ [path.filename]) = false) {source : Path} {file : Descriptor}
    (hsource : w.tree.entry (source.absolute me.current) = .ok (file.directory,file.name)) {m : Metadata} {b : Bytes}
    (hw : w.tree.file file.location = some (.regular m b)) :
    (∃ r w', faultless me w (.rename source path) r w') ∧
      ∀ r w', faultless me w (.rename source path) r w' → r = .ok () := by
  obtain ⟨t,ht⟩ : ∃ t, w.tree.rename (source.absolute me.current) (path.absolute me.current) = .ok t := by
    rw [Descriptor.location] at hw
    simp only [Tree.rename,hsource,hentry,hw,hdestination,Bool.false_eq_true,if_false]
    split <;> exact ⟨_,rfl⟩
  simp only [faultless,Works,ht]
  exact ⟨⟨_,_,rfl,rfl⟩,fun r w' hr => hr.1⟩

/-- A temporary file is not in the way. -/
theorem Writable.drafted {w₁ w : World} {file : Descriptor} {m : Metadata} {b : Bytes}
    (h : Writable me path directory w₁.tree) (ht : IsTemporary path file.location)
    (hfresh : w₁.tree.file file.location = none) (hd : Drafted w₁ file m b w) :
    w.tree.entry (path.absolute me.current) = .ok (directory,path.filename) ∧
      w.tree.isDirectory (directory ++ [path.filename]) = false := by
  obtain ⟨hforth,-⟩ := keeps_of_drafted hfresh hd
  refine ⟨Tree.entry_keeps hforth h.entry,?_⟩
  rw [Tree.isDirectory,hd.others]
  · exact h.destination
  · intro he
    exact destination_not_temporary path directory (he ▸ ht)

theorem replaceFile_succeeds {w : World} (h : Writable me path directory w.tree) {budget : ℕ} {octets : Bytes}
    (hb : octets.length ≤ budget) :
    Returns (faultless me) anyStep (fun r _ => r.value = some path) (replaceFile budget path octets) w := by
  obtain ⟨hmake,hmade⟩ := mkstemp_returns h
  refine returns_perform hmake (fun r w₂ hs => ⟨trivial,?_⟩)
  obtain ⟨temporary,rfl⟩ := hmade r w₂ hs
  obtain ⟨m,hdrawn⟩ := @mkstemp_drawn me True path _ temporary w w₂ (.inl hs)
  have hprepared := (prepareTemporary_returns path temporary.file hb _).and (fun _ _ _ _ => .inl)
    (@prepareTemporary_faulty me True path octets w w temporary.file m (Tree.Adds.refl w.tree) hdrawn.ne budget _
      hdrawn.drafted)
  refine returns_bind hprepared (fun r w₃ hr => ?_)
  obtain ⟨rfl,b,hd,-,-⟩ := hr
  obtain ⟨hforth,-⟩ := keeps_of_drafted hdrawn.fresh hd
  obtain ⟨hentry,hdestination⟩ := h.drafted hdrawn.isTemporary hdrawn.fresh hd
  obtain ⟨hrename,hrenamed⟩ := rename_returns hentry hdestination (Tree.entry_keeps hforth hdrawn.entry) hd.written
  refine returns_perform hrename (fun r w₄ hs => ⟨trivial,?_⟩)
  obtain rfl := hrenamed r w₄ hs
  rfl

/-- The document is in place, and nothing else is changed. -/
theorem replaceFile_returns {w : World} (h : Writable me path directory w.tree) {budget : ℕ} {octets : Bytes}
    (hb : octets.length ≤ budget) :
    Returns (faultless me) anyStep (fun r w' => r.value = some path ∧ Put me path octets w w')
      (replaceFile budget path octets) w := by
  have hfaulty := @replaceFile_faulty me True path octets w w (Tree.Adds.refl w.tree) rfl h.filename budget
  refine ((replaceFile_succeeds h hb).and (fun _ _ _ _ => .inl) hfaulty).mono (fun r w' hr => ?_)
  obtain ⟨hvalue,⟨hnone,-⟩ | hput⟩ := hr
  · rw [hvalue] at hnone
    cases hnone
  · exact hput

/-- Without faults a document gets to its destination, and nothing else is changed. -/
theorem writeAtomically_returns {w : World} (h : Writable me path directory w.tree) {appearance : Appearance}
    {octets : Bytes} (ho : (Codec.serialize appearance).value = some octets) {budget : ℕ}
    (hb : octets.length ≤ budget) :
    Returns (faultless me) anyStep (fun r w' => r.value = some path ∧
      (∃ m, w'.tree.file (directory ++ [path.filename]) = some (.regular m octets)) ∧
      (∀ q, q ≠ directory ++ [path.filename] → w'.tree.file q = w.tree.file q) ∧ w'.holder = w.holder)
      (writeAtomically budget appearance path) w := by
  have hpath : ¬ (path.isEmpty ∨ path.filename = []) := by
    rintro (he | he)
    · refine h.filename ?_
      simp only [Path.isEmpty,Bool.and_eq_true,List.isEmpty_iff] at he
      rw [Path.filename,he.2]
      rfl
    · exact h.filename he
  unfold writeAtomically
  rw [if_neg hpath]
  simp only [ho]
  have hmade := h.made
  refine returns_perform ⟨.ok (),w.on w.tree,⟨0,0,0⟩,w.tree,hmade _,rfl⟩ (fun r w₁ hs => ⟨trivial,?_⟩)
  cases r with
  | error e =>
    obtain ⟨⟨m,he⟩,-⟩ := hs
    rw [hmade] at he
    cases he
  | ok u =>
    obtain ⟨m,t,he,rfl⟩ := hs
    rw [hmade] at he
    cases he
    refine (replaceFile_returns h hb).mono (fun r w' hr => ?_)
    obtain ⟨hvalue,⟨⟨directory',m,hentry,hself,hothers⟩,hholder⟩⟩ := hr
    cases h.entry.symm.trans hentry
    exact ⟨hvalue,⟨m,hself⟩,hothers,hholder⟩

end

/-! ### Writers beside each other -/

section
variable {ι : Type} [DecidableEq ι] {path : Path} {writers : ι → Writer} {i : ι} {w w' : World}
  {q : Command (Result Path)}

/-- A run goes on with the calls of one writer. -/
theorem writer_onward {p : ι → Command (Result Path)} {s : History ι}
    (hr : Reaches (faultless (writers i).me) (p i) s.world q w') :
    ∃ s', Pool.Run (writing writers) (Outsider path) ⟨p,s⟩ ⟨Function.update p i q,s'⟩ ∧ s'.world = w' ∧
      ∀ l, ∀ e ∈ s'.changes l, e ∈ s.changes l ∨ e.who = some i := by
  induction hr with
  | start =>
    rw [Function.update_eq_self]
    exact ⟨s,.refl,rfl,fun _ _ => .inl⟩
  | @step c next r w₁ w₂ _ hs ih =>
    obtain ⟨s₁,hrun,rfl,hwho⟩ := ih
    have hcall : Function.update p i (.call c next) i = .call c next := Function.update_self _ _ _
    let s₂ : History ι := ⟨w₂,fun q => Change.note (some i) (s₁.file q) (w₂.tree.file q) (s₁.changes q)⟩
    have hstep : writing writers i s₁ c r s₂ := ⟨.inl hs,rfl⟩
    have hnext : Pool.Step (writing writers) (Outsider path) _ _ := .call i hcall hstep
    rw [Function.update_idem] at hnext
    refine ⟨s₂,hrun.tail hnext,rfl,fun l e he => ?_⟩
    unfold s₂ Change.note at he
    dsimp only at he
    split at he
    · exact hwho l e he
    · rcases List.mem_append.mp he with he | he
      · exact hwho l e he
      · rw [List.mem_singleton] at he
        rw [he]
        exact .inr rfl

/-- A run goes on with one writer from beginning to end, which puts its document in place. -/
theorem writer_finishes {p : ι → Command (Result Path)} {s : History ι} (hp : p i = writes path writers i)
    {directory : List Name} (h : Writable (writers i).me path directory s.world.tree) {octets : Bytes}
    (ho : (Codec.serialize (writers i).appearance).value = some octets) (hb : octets.length ≤ (writers i).budget) :
    ∃ r s', Pool.Run (writing writers) (Outsider path) ⟨p,s⟩ ⟨Function.update p i (.ret r),s'⟩ ∧ r.value = some path ∧
      (∃ m, s'.file (directory ++ [path.filename]) = some (.regular m octets)) ∧
      (∀ q, q ≠ directory ++ [path.filename] → s'.file q = s.file q) ∧
      ∀ l, ∀ e ∈ s'.changes l, e ∈ s.changes l ∨ e.who = some i := by
  obtain ⟨r,w',hreach,hvalue,hput,hothers,-⟩ := (writeAtomically_returns h ho hb).exists
  have hreach : Reaches (faultless (writers i).me) (p i) s.world (.ret r) w' := by
    rw [hp]
    exact hreach
  obtain ⟨s',hrun,rfl,hwho⟩ := @writer_onward ι _ path writers i w' (.ret r) p s hreach
  exact ⟨r,s',hrun,hvalue,hput,hothers,hwho⟩

end

/-- Any number of writers of the defaults, whose temporary files can be removed. -/
def homeWriters (i : ℕ) : Writer := ⟨⟨i,[]⟩,defaults,kMaximumDocumentBytes,False⟩

/-- Only the destination may be another than in the bare directory. -/
theorem home_writable {t : Tree} (h : ∀ q, q ≠ [configName] → t.file q = bareHome.tree.file q)
    (hd : t.isDirectory [configName] = false) (me : ℕ) : Writable ⟨me,[]⟩ (.ofLocation [configName]) [] t where
  filename := by decide
  named := by decide +kernel
  located := rfl
  entry := @Tree.entry_directory t [] configName (by simp) (by rw [Tree.isDirectory,h [] (by simp)]; rfl)
  destination := hd
  free := ⟨bytes "aaaaaa",by decide +kernel,by rw [h _ (by decide +kernel)]; rfl⟩

theorem bareHome_writable (me : ℕ) : Writable ⟨me,[]⟩ (.ofLocation [configName]) [] bareHome.tree :=
  home_writable (fun _ _ => rfl) rfl me

theorem bareHome_noLinks : NoLinks (.ofLocation [configName]) bareHome.tree := by
  rintro q ⟨directory,rfl⟩
  rw [Tree.isSymlink]
  change Option.any File.isSymlink (if _ = [] then _ else none) = false
  rw [if_neg (by simp)]
  rfl

theorem serialize_defaults : ∃ octets, (Codec.serialize defaults).value = some octets ∧
    octets.length ≤ kMaximumDocumentBytes := by
  have hfacts : (Codec.serialize defaults).value.any (fun octets => octets.length ≤ kMaximumDocumentBytes) = true := by
    decide +kernel
  obtain ⟨octets,ho,hle⟩ := (Option.any_eq_true _ _).mp hfacts
  exact ⟨octets,ho,by simpa using hle⟩

theorem writeAtomically_returns_home : ∃ octets, Returns (faultless ⟨0,[]⟩) anyStep
    (fun r w' => r.value = some (.ofLocation [configName]) ∧
      (∃ m, w'.tree.file [configName] = some (.regular m octets)) ∧
      (∀ q, q ≠ [configName] → w'.tree.file q = bareHome.tree.file q) ∧ w'.holder = bareHome.holder)
    (writeAtomically kMaximumDocumentBytes defaults (.ofLocation [configName])) bareHome := by
  obtain ⟨octets,ho,hle⟩ := serialize_defaults
  exact ⟨octets,writeAtomically_returns (bareHome_writable 0) ho hle⟩

/-- One of the writers has put its document in place. -/
theorem homeWriters_runs : ∃ p s r, Runs (.ofLocation [configName]) homeWriters bareHome p s ∧ p 0 = .ret r ∧
    r.value = some (.ofLocation [configName]) ∧ ∃ q m octets, IsDestination (.ofLocation [configName]) q ∧
      s.file q = some (.regular m octets) ∧ Change.Last (some 0) (s.changes q) ∧ ∀ e ∈ s.changes q, e.who ≠ none := by
  obtain ⟨octets,ho,hle⟩ := serialize_defaults
  obtain ⟨r,s,hrun,hvalue,⟨m,hfile⟩,-,hwho⟩ := @writer_finishes ℕ _ (.ofLocation [configName]) homeWriters 0 _
    ⟨bareHome,fun _ => []⟩ rfl _ (bareHome_writable 0) octets ho hle
  have halone : ∀ l, ∀ e ∈ s.changes l, e.who = some 0 := fun l e he => (hwho l e he).resolve_left (by simp)
  refine ⟨_,s,r,hrun,Function.update_self _ _ _,hvalue,_,m,octets,⟨[],rfl⟩,hfile,?_,
    fun e he => by simp [halone _ e he]⟩
  have hserial := Runs.serial bareHome_noLinks hrun ⟨[],rfl⟩
  cases hc : (s.changes ([] ++ [(Path.ofLocation [configName]).filename])).getLast? with
  | none =>
    have hstart := hserial.unchanged (List.getLast?_eq_none_iff.mp hc)
    rw [hfile] at hstart
    cases hstart
  | some e => exact ⟨e,hc,halone _ e (List.mem_of_getLast? hc)⟩

theorem writers_intact_home : ∃ p s r, Intact (.ofLocation [configName]) homeWriters bareHome p s ∧
    p 0 = .ret r ∧ r.value = some (.ofLocation [configName]) := by
  obtain ⟨p,s,r,hrun,hp,hvalue,-⟩ := homeWriters_runs
  exact ⟨p,s,r,writers_intact bareHome_noLinks hrun,hp,hvalue⟩

theorem writers_tidy_home : ∃ p s r, Tidied (.ofLocation [configName]) homeWriters p s ∧ p 0 = .ret r ∧
    r.value = some (.ofLocation [configName]) := by
  obtain ⟨p,s,r,hrun,hp,hvalue,-⟩ := homeWriters_runs
  exact ⟨p,s,r,writers_tidy bareHome_noLinks hrun,hp,hvalue⟩

end Store
end HolonightConfig
