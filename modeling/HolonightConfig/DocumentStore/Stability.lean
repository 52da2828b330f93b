import HolonightConfig.DocumentStore.Resolve

/-! A path leads to the same target after that target, or a file off the way, has been
written. -/
namespace HolonightConfig
open Text Posix

namespace DocumentStore

/-! ### Looking at names -/

theorem stretch_congr {t t' : Tree} (follow : Bool) (here names : List Name)
    (h : ∀ q, q <+: here ++ names → t'.file q = t.file q) (hn : ∀ c ∈ names, IsName c) :
    t'.stretch follow here names = t.stretch follow here names := by
  induction names generalizing here with
  | nil => rfl
  | cons c rest ih =>
    rw [List.forall_mem_cons] at hn
    obtain ⟨⟨h₁,h₂,h₃⟩,hrest⟩ := hn
    have hassoc : here ++ c :: rest = (here ++ [c]) ++ rest := by simp
    rw [hassoc] at h
    have hstep := ih (here ++ [c]) h hrest
    simp only [Tree.stretch,h₁,h₂,h₃,or_self,if_false,h _ (List.prefix_append _ _),hstep]

/-- Without links above it a name is looked up, or something is missing on the way. -/
theorem stretch_below {t : Tree} (here names : List Name) (hn : ∀ c ∈ names, IsName c)
    (hp : ∀ q, q <+: here ++ names → q ≠ here ++ names → t.isSymlink q = false) :
    t.stretch false here names = .at (here ++ names) ∨ ∃ e, t.stretch false here names = .failed e := by
  induction names generalizing here with
  | nil => exact .inl (by simp [Tree.stretch])
  | cons c rest ih =>
    rw [List.forall_mem_cons] at hn
    obtain ⟨⟨h₁,h₂,h₃⟩,hrest⟩ := hn
    have hassoc : here ++ c :: rest = (here ++ [c]) ++ rest := by simp
    rw [hassoc] at hp ⊢
    have hstep := ih (here ++ [c]) hrest hp
    simp only [Tree.stretch,h₁,h₂,h₃,or_self,if_false]
    by_cases hr : rest = []
    · subst hr
      rw [List.append_nil] at hstep ⊢
      cases hf : t.file (here ++ [c]) with
      | none => simp
      | some f =>
        cases f with
        | directory m => exact hstep
        | _ => simp
    · have hlink := hp (here ++ [c]) (List.prefix_append _ _) (by simpa using hr)
      cases hf : t.file (here ++ [c]) with
      | none => simp [hr]
      | some f =>
        cases f with
        | directory m => exact hstep
        | symlink target => simp [Tree.isSymlink,hf,File.isSymlink] at hlink
        | _ => simp [hr]

theorem look_congr {t t' : Tree} {p : List Name} (hn : ∀ c ∈ p, IsName c)
    (hp : ∀ q, q <+: p → q ≠ p → t.isSymlink q = false) (h : ∀ q, q <+: p → t'.file q = t.file q) :
    t'.look false p = t.look false p := by
  have hs : t'.stretch false [] p = t.stretch false [] p := stretch_congr false [] p (by simpa using h) hn
  unfold Tree.look Tree.locate
  rw [Tree.walk,Tree.walk,hs]
  rcases stretch_below (t := t) [] p hn (by simpa using hp) with hb | ⟨e,hb⟩
  · rw [List.nil_append] at hb
    rw [hb]
    dsimp only
    rw [h p (List.prefix_refl p)]
  · rw [hb]

/-- There is nothing below a regular file, and looking there says so. -/
theorem look_below_regular {t : Tree} {p : List Name} {c : Name} {m : Metadata} {b : Bytes}
    (hn : ∀ c ∈ p, IsName c) (hp : t.Plain p) (hf : t.file p = some (.regular m b)) :
    t.look false (p ++ [c]) = .error .notDirectory := by
  have hopen := Tree.opened_of_exists (t := t) (p := p) (by rw [hf]; rfl)
  have hne : p ≠ [] := by
    rintro rfl
    have := t.isDirectory_root
    rw [Tree.isDirectory,hf] at this
    cases this
  suffices hs : ∀ (names here : List Name), here ++ names = p → names ≠ [] → (∀ c ∈ names, IsName c) →
      t.stretch false here (names ++ [c]) = .failed .notDirectory by
    unfold Tree.look Tree.locate
    rw [Tree.walk,hs p [] rfl hne hn]
  intro names
  induction names with
  | nil => exact fun _ _ h => absurd rfl h
  | cons c' rest ih =>
    intro here hp _ hn
    rw [List.forall_mem_cons] at hn
    obtain ⟨⟨h₁,h₂,h₃⟩,hrest⟩ := hn
    simp only [List.cons_append,Tree.stretch,h₁,h₂,h₃,or_self,if_false]
    by_cases hr : rest = []
    · subst hr
      rw [hp,hf]
      simp
    · have hd := hopen (here ++ [c']) (by rw [← hp]; simp) (by rw [← hp]; simpa using Ne.symm hr)
      obtain ⟨f,hf',hfd⟩ := (Option.any_eq_true _ _).mp hd
      cases f with
      | directory m' =>
        rw [hf']
        exact ih (here ++ [c']) (by rw [← hp]; simp) hr hrest
      | _ => cases hfd

/-! ### One file written -/

/-- One location is a regular file now that was one or was missing. -/
structure Written (x : List Name) (t t' : Tree) : Prop where
  others : ∀ q, q ≠ x → t'.file q = t.file q
  old : t.file x = none ∨ ∃ m b, t.file x = some (.regular m b)
  new : ∃ m b, t'.file x = some (.regular m b)

section
variable {t t' : Tree} {x : List Name}

theorem Written.not_isDirectory (h : Written x t t') : t.isDirectory x = false := by
  rcases h.old with hf | ⟨m,b,hf⟩ <;> rw [Tree.isDirectory,hf] <;> rfl

theorem Written.physical (h : Written x t t') {p : List Name} (hx : ¬ x <+: p) (hp : Physical t p) :
    Physical t' p := by
  refine ⟨hp.names,fun q hq => ?_⟩
  rw [Tree.isSymlink,h.others q (fun he => hx (he ▸ hq))]
  exact hp.plain q hq

/-- Behind what is no directory there are only empty components. -/
theorem resolveComponents_leaf (h : Written x t t') (hp : Physical t x) {pending : List Name} :
    (resolveComponents t x pending).Within (fun r => r = x → ∀ c ∈ pending, c = []) (fun _ => False) := by
  rcases h.old with hf | ⟨m,b,hf⟩
  · induction pending with
    | nil => exact fun _ => by simp
    | cons c pending ih =>
      rcases resolveComponents_cons t x c pending with ⟨hc,he⟩ | ⟨e,he⟩ | ⟨-,hd,he⟩ | ⟨hc,hl,-,he⟩ |
        ⟨hc,target,hl,he⟩
      · rw [he]
        revert ih
        cases resolveComponents t x pending with
        | done r => exact fun ih hr => List.forall_mem_cons.mpr ⟨hc,ih hr⟩
        | failed e => exact id
        | link r target rest => exact id
      · rw [he]
        trivial
      · rw [requireDirectory_ok hp,h.not_isDirectory] at hd
        cases hd
      · have hm := resolveComponents_missing (hp.snoc hc hl) (Tree.file_eq_none_below hf [c]) pending
        rw [he]
        revert hm
        cases resolveComponents t (x ++ [c]) pending with
        | done r =>
          rintro hm rfl
          have hlen := List.IsPrefix.length_le hm
          rw [List.length_append,List.length_singleton] at hlen
          omega
        | failed e => exact id
        | link r target rest => exact id
      · have hm := resolveComponents_missing hp hf (c :: pending)
        rw [he] at hm
        exact hm.elim
  · induction pending with
    | nil => exact fun _ => by simp
    | cons c pending ih =>
      rcases resolveComponents_cons t x c pending with ⟨hc,he⟩ | ⟨e,he⟩ | ⟨-,hd,he⟩ | ⟨hc,hl,hno,he⟩ |
        ⟨hc,target,hl,he⟩
      · rw [he]
        revert ih
        cases resolveComponents t x pending with
        | done r => exact fun ih hr => List.forall_mem_cons.mpr ⟨hc,ih hr⟩
        | failed e => exact id
        | link r target rest => exact id
      · rw [he]
        trivial
      · rw [requireDirectory_ok hp,h.not_isDirectory] at hd
        cases hd
      · cases hno _ (look_below_regular hp.names hp.plain hf)
      · rw [look_below_regular hp.names hp.plain hf] at hl
        cases hl

theorem resolveComponents_empty (t : Tree) (p : List Name) {pending : List Name} (h : ∀ c ∈ pending, c = []) :
    resolveComponents t p pending = .done p := by
  induction pending with
  | nil => rfl
  | cons c pending ih =>
    rw [List.forall_mem_cons] at h
    rw [resolveComponents,if_pos h.1,ih h.2]

section
variable {pending resolved : List Name} {c : Name}

/-- A component that is no link, or missing, is gone on from. -/
theorem resolveComponents_onward (hc : IsName c) (hl : ∀ link, t.look false (resolved ++ [c]) ≠ .ok (.symlink link))
    (hno : ∀ e, t.look false (resolved ++ [c]) = .error e → e = .noEntry) :
    resolveComponents t resolved (c :: pending) = resolveComponents t (resolved ++ [c]) pending := by
  rw [resolveComponents,if_neg hc.1,if_neg (by simp [hc.2.1,hc.2.2])]
  dsimp only
  cases hlook : t.look false (resolved ++ [c]) with
  | error e => rw [hno e hlook]
  | ok f =>
    cases f with
    | symlink link => exact absurd hlook (hl link)
    | _ => rfl

theorem resolveComponents_stop (hc : IsName c) {link : Path} (hl : t.look false (resolved ++ [c]) = .ok (.symlink link)) :
    resolveComponents t resolved (c :: pending) = .link resolved link pending := by
  rw [resolveComponents,if_neg hc.1,if_neg (by simp [hc.2.1,hc.2.2])]
  dsimp only
  rw [hl]

/-- A link is never what is written. -/
theorem Written.off_link (h : Written x t t') (hp : Physical t resolved) (hr : ¬ x <+: resolved) (hc : IsName c)
    {link : Path} (hl : t.look false (resolved ++ [c]) = .ok (.symlink link)) :
    ¬ x <+: resolved ++ [c] ∧ t'.look false (resolved ++ [c]) = .ok (.symlink link) := by
  have hnames : ∀ c' ∈ resolved ++ [c], IsName c' := by
    intro c' hc'
    rcases List.mem_append.mp hc' with h' | h'
    · exact hp.names c' h'
    · rw [List.mem_singleton.mp h']
      exact hc
  have hupper : ∀ q, q <+: resolved ++ [c] → q ≠ resolved ++ [c] → t.isSymlink q = false :=
    fun q hq hne => hp.plain q ((List.prefix_concat_iff.mp hq).resolve_left hne)
  have hxc : ¬ x <+: resolved ++ [c] := by
    intro hxc
    have hxe : x = resolved ++ [c] := (List.prefix_concat_iff.mp hxc).resolve_right hr
    subst hxe
    have hplain : t.Plain (resolved ++ [c]) := by
      intro q hq
      by_cases hq' : q = resolved ++ [c]
      · subst hq'
        rcases h.old with hf | ⟨m,b,hf⟩ <;> rw [Tree.isSymlink,hf] <;> rfl
      · exact hupper q hq hq'
    have hf := Tree.look_plain hnames hplain hl
    rcases h.old with hf' | ⟨m,b,hf'⟩ <;> rw [hf'] at hf <;> cases hf
  refine ⟨hxc,?_⟩
  rw [← hl]
  exact look_congr hnames hupper (fun q hq => h.others q (fun heq => hxc (heq ▸ hq)))

/-- Up from a directory, or on in it, the write changes nothing. -/
theorem Written.dots (h : Written x t t') (hp : Physical t resolved) (hr : ¬ x <+: resolved)
    (hdots : c = dot ∨ c = dotdot) (hd : requireDirectory t resolved = .ok ()) :
    resolveComponents t' resolved (c :: pending) =
      resolveComponents t' (if c = dotdot then resolved.dropLast else resolved) pending := by
  have hne : resolved ≠ x := fun h' => hr (h' ▸ List.prefix_refl _)
  have hd' : requireDirectory t' resolved = .ok () := by
    rw [requireDirectory_ok (h.physical hr hp),Tree.isDirectory,h.others resolved hne]
    exact (requireDirectory_ok hp).mp hd
  have hne' : c ≠ [] := by rcases hdots with rfl | rfl <;> decide
  rw [resolveComponents,if_neg hne',if_pos hdots,hd']

/-- Where the written file is on the way, it is the target, or was missing and ends the way. -/
theorem Written.reached (h : Written (resolved ++ [c]) t t') {target : List Name}
    (hx : resolved ++ [c] = target ∨ (t.file (resolved ++ [c]) = none ∧ ¬ resolved ++ [c] <+: target))
    (hp : Physical t (resolved ++ [c])) :
    match resolveComponents t (resolved ++ [c]) pending with
    | .done r => r = target → resolveComponents t' (resolved ++ [c]) pending = .done r
    | .failed _ => True
    | .link _ _ _ => False := by
  rcases hx with rfl | ⟨hnone,hoff⟩
  · have hleaf : (resolveComponents t (resolved ++ [c]) pending).Within
        (fun r => r = resolved ++ [c] → ∀ c ∈ pending, c = []) (fun _ => False) :=
      resolveComponents_leaf h hp
    revert hleaf
    cases resolveComponents t (resolved ++ [c]) pending with
    | done r =>
      rintro hleaf rfl
      exact resolveComponents_empty t' _ (hleaf rfl)
    | failed e => exact fun _ => trivial
    | link r link rest => exact id
  · have hm := resolveComponents_missing hp hnone pending
    revert hm
    cases resolveComponents t (resolved ++ [c]) pending with
    | done r =>
      rintro hm rfl
      exact absurd hm hoff
    | failed e => exact fun _ => trivial
    | link r link rest => exact id

end

/-- One stretch of components after the write: the target is the same, and so is the next link. -/
theorem resolveComponents_written (h : Written x t t') {target : List Name}
    (hx : x = target ∨ (t.file x = none ∧ ¬ x <+: target)) {resolved : List Name}
    (hp : Physical t resolved) (hr : ¬ x <+: resolved) (pending : List Name) :
    match resolveComponents t resolved pending with
    | .done r => r = target → resolveComponents t' resolved pending = .done r
    | .failed _ => True
    | .link r link rest => resolveComponents t' resolved pending = .link r link rest ∧ ¬ x <+: r := by
  induction pending generalizing resolved with
  | nil => exact fun _ => rfl
  | cons c pending ih =>
    rcases resolveComponents_cons t resolved c pending with ⟨hc,he⟩ | ⟨e,he⟩ | ⟨hdots,hd,he⟩ |
      ⟨hc,hl,hno,he⟩ | ⟨hc,link,hl,he⟩
    · have he' : resolveComponents t' resolved (c :: pending) = resolveComponents t' resolved pending := by
        rw [resolveComponents,if_pos hc]
      rw [he,he']
      exact ih hp hr
    · rw [he]
      trivial
    · rw [he,h.dots hp hr hdots hd]
      by_cases hup : c = dotdot
      · rw [if_pos hup]
        exact ih (hp.above (List.dropLast_prefix _)) (fun h' => hr (h'.trans (List.dropLast_prefix _)))
      · rw [if_neg hup]
        exact ih hp hr
    · have hsnoc := hp.snoc hc hl
      by_cases hxc : x <+: resolved ++ [c]
      · have hxe : x = resolved ++ [c] := (List.prefix_concat_iff.mp hxc).resolve_right hr
        subst hxe
        obtain ⟨m,b,hf⟩ := h.new
        have hlook : t'.look false (resolved ++ [c]) = .ok (.regular m b) := by
          rw [Tree.look_names hsnoc.names (Tree.opened_of_exists (by rw [hf]; rfl)) (by simp),hf]
        have hreached := @Written.reached t t' pending resolved c h target hx hsnoc
        have hnext : resolveComponents t' resolved (c :: pending) = resolveComponents t' (resolved ++ [c]) pending :=
          resolveComponents_onward hc (by simp [hlook]) (by simp [hlook])
        rw [hnext,he]
        revert hreached
        cases resolveComponents t (resolved ++ [c]) pending with
        | link r link rest => exact fun h => h.elim
        | _ => exact id
      · have hlook : t'.look false (resolved ++ [c]) = t.look false (resolved ++ [c]) :=
          look_congr hsnoc.names (fun q hq _ => hsnoc.plain q hq)
            (fun q hq => h.others q (fun heq => hxc (heq ▸ hq)))
        have hnext : resolveComponents t' resolved (c :: pending) = resolveComponents t' (resolved ++ [c]) pending :=
          resolveComponents_onward hc (by rw [hlook]; exact hl) (by rw [hlook]; exact hno)
        rw [hnext,he]
        exact ih hsnoc hxc
    · obtain ⟨-,hlook⟩ := h.off_link hp hr hc hl
      rw [he]
      exact ⟨resolveComponents_stop hc hlook,hr⟩

theorem resolveLinks_written (h : Written x t t') {target : List Name}
    (hx : x = target ∨ (t.file x = none ∧ ¬ x <+: target)) {links : ℕ} {resolved pending : List Name}
    (hp : Physical t resolved) (hr : ¬ x <+: resolved)
    (hok : resolveLinks t links resolved pending = .ok target) :
    resolveLinks t' links resolved pending = .ok target := by
  have hroot : ¬ x <+: [] := by
    intro hx'
    have hd := h.not_isDirectory
    rw [List.prefix_nil.mp hx',t.isDirectory_root] at hd
    cases hd
  induction links generalizing resolved pending with
  | zero =>
    have hs := resolveComponents_written h hx hp hr pending
    rw [resolveLinks] at hok ⊢
    revert hs hok
    cases resolveComponents t resolved pending with
    | done r =>
      rintro hok hs
      cases hok
      rw [hs rfl]
    | failed e =>
      intro hok
      cases hok
    | link r link rest =>
      intro hok
      cases hok
  | succ links ih =>
    have hs := resolveComponents_written h hx hp hr pending
    have hphys := resolveComponents_physical hp pending
    rw [resolveLinks] at hok ⊢
    revert hs hok hphys
    cases resolveComponents t resolved pending with
    | done r =>
      rintro hok hs -
      cases hok
      rw [hs rfl]
    | failed e =>
      intro hok
      cases hok
    | link r link rest =>
      rintro hok ⟨hs,hr'⟩ hphys
      rw [hs]
      refine ih ?_ ?_ hok
      · split
        · exact Physical.nil t
        · exact hphys
      · split
        · exact hroot
        · exact hr'

/-- The target of a path is the same once it, or a new file that is not above it, has been written. -/
theorem resolveTarget_written (h : Written x t t') {current target : List Name} {path : Path}
    (hx : x = target ∨ (t.file x = none ∧ ¬ x <+: target))
    (hok : resolveTarget t current path = .ok target) : resolveTarget t' current path = .ok target := by
  unfold resolveTarget at hok ⊢
  split at hok
  · cases hok
  · rename_i hpath
    rw [if_neg hpath]
    refine resolveLinks_written h hx (Physical.nil t) ?_ hok
    intro hx'
    have hd := h.not_isDirectory
    rw [List.prefix_nil.mp hx',t.isDirectory_root] at hd
    cases hd

end
end DocumentStore
end HolonightConfig
