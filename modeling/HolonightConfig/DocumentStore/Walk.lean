import HolonightConfig.DocumentStore
import HolonightConfig.Posix.Stable

/-! The loop that resolves a target, step by step, and the kernel's walk it agrees with. -/
namespace HolonightConfig
open Text Posix

namespace DocumentStore

/-! ### The loop -/

/-- What the loop keeps: the prefix, the components to go, and the links counted. -/
structure Walk where
  resolved : List Name
  pending : List Name
  links : ℕ

inductive Walk.Next
  | again (w : Walk)
  | stop (result : Except Errno (List Name))

/-- One round of `while (!pending.empty())`. -/
def Walk.next (t : Tree) (w : Walk) : Walk.Next :=
  match w.pending with
  | [] => .stop (.ok w.resolved)
  | component :: pending =>
    if component = [] then .again { w with pending := pending }
    else if component = dot ∨ component = dotdot then
      match requireDirectory t w.resolved with
      | .error e => .stop (.error e)
      | .ok () =>
        .again ⟨if component = dotdot then w.resolved.dropLast else w.resolved,pending,w.links⟩
    else
      let candidate := w.resolved ++ [component]
      match t.look false candidate with
      | .error .noEntry => .again ⟨candidate,pending,w.links⟩
      | .error e => .stop (.error e)
      | .ok (.symlink target) =>
        if kMaximumLinks < w.links + 1 then .stop (.error .loop)
        else .again ⟨if target.isAbsolute then [] else w.resolved,target.components ++ pending,w.links + 1⟩
      | .ok _ => .again ⟨candidate,pending,w.links⟩

/-- Rounds until the loop stops, if so many suffice. -/
def Walk.run (t : Tree) : ℕ → Walk → Option (Except Errno (List Name))
  | 0,_ => none
  | n + 1,w =>
    match w.next t with
    | .stop r => some r
    | .again w' => run t n w'

def Walk.start (current : List Name) (path : Path) : Walk := ⟨[],path.absolute current,0⟩

/-- The rounds a walk comes by. -/
inductive Walk.Reaches (t : Tree) (w : Walk) : Walk → Prop
  | refl : Reaches t w w
  | step {w₁ w₂ : Walk} (h : Reaches t w w₁) (hn : w₁.next t = .again w₂) : Reaches t w w₂

/-- What the loop will return. -/
def Walk.outcome (t : Tree) (w : Walk) : Except Errno (List Name) :=
  resolveLinks t (kMaximumLinks - w.links) w.resolved w.pending

theorem Walk.outcome_start (t : Tree) (current : List Name) {path : Path} (h : path.isEmpty = false) :
    (start current path).outcome t = resolveTarget t current path := by
  rw [resolveTarget,if_neg (by simp [h])]
  rfl

theorem resolveLinks_congr {t : Tree} (links : ℕ) {r r' p p' : List Name}
    (h : resolveComponents t r p = resolveComponents t r' p') :
    resolveLinks t links r p = resolveLinks t links r' p' := by
  cases links <;> rw [resolveLinks,resolveLinks,h]

theorem resolveLinks_done {t : Tree} (links : ℕ) {r p x : List Name} (h : resolveComponents t r p = .done x) :
    resolveLinks t links r p = .ok x := by
  cases links <;> rw [resolveLinks,h]

theorem resolveLinks_failed {t : Tree} (links : ℕ) {r p : List Name} {e : Errno}
    (h : resolveComponents t r p = .failed e) : resolveLinks t links r p = .error e := by
  cases links <;> rw [resolveLinks,h]

theorem resolveLinks_loop {t : Tree} {r p l rest : List Name} {target : Path}
    (h : resolveComponents t r p = .link l target rest) : resolveLinks t 0 r p = .error .loop := by
  rw [resolveLinks,h]

theorem resolveLinks_link {t : Tree} (links : ℕ) {r p l rest : List Name} {target : Path}
    (h : resolveComponents t r p = .link l target rest) : resolveLinks t (links + 1) r p =
      resolveLinks t links (if target.isAbsolute then [] else l) (target.components ++ rest) := by
  rw [resolveLinks,h]

/-- A round beside the stretch it is part of. -/
theorem Walk.next_cons (t : Tree) (resolved : List Name) (c : Name) (pending : List Name) (links : ℕ) :
    (∃ r, next t ⟨resolved,c :: pending,links⟩ = .again ⟨r,pending,links⟩ ∧
      resolveComponents t resolved (c :: pending) = resolveComponents t r pending) ∨
    (∃ e, next t ⟨resolved,c :: pending,links⟩ = .stop (.error e) ∧
      resolveComponents t resolved (c :: pending) = .failed e) ∨
    (∃ target, resolveComponents t resolved (c :: pending) = .link resolved target pending ∧
      next t ⟨resolved,c :: pending,links⟩ =
        if kMaximumLinks < links + 1 then .stop (.error .loop)
        else .again ⟨if target.isAbsolute then [] else resolved,target.components ++ pending,links + 1⟩) := by
  rw [next,resolveComponents]
  dsimp only
  by_cases h₁ : c = []
  · rw [if_pos h₁,if_pos h₁]
    exact Or.inl ⟨_,rfl,rfl⟩
  rw [if_neg h₁,if_neg h₁]
  by_cases h₂ : c = dot ∨ c = dotdot
  · rw [if_pos h₂,if_pos h₂]
    cases requireDirectory t resolved with
    | error e => exact Or.inr (Or.inl ⟨e,rfl,rfl⟩)
    | ok u => exact Or.inl ⟨_,rfl,rfl⟩
  rw [if_neg h₂,if_neg h₂]
  cases t.look false (resolved ++ [c]) with
  | error e =>
    cases e with
    | noEntry => exact Or.inl ⟨_,rfl,rfl⟩
    | _ => exact Or.inr (Or.inl ⟨_,rfl,rfl⟩)
  | ok f =>
    cases f with
    | symlink target => exact Or.inr (Or.inr ⟨target,rfl,rfl⟩)
    | _ => exact Or.inl ⟨_,rfl,rfl⟩

/-- A round keeps what will be returned. -/
theorem Walk.next_outcome {t : Tree} {w : Walk} (h : w.links ≤ kMaximumLinks) :
    (∀ r, w.next t = .stop r → w.outcome t = r) ∧
    ∀ w', w.next t = .again w' → w.outcome t = w'.outcome t ∧ w'.links ≤ kMaximumLinks := by
  obtain ⟨resolved,pending,links⟩ := w
  unfold outcome
  cases pending with
  | nil =>
    refine ⟨fun r hr => ?_,fun w' hw => by cases hw⟩
    cases hr
    exact resolveLinks_done _ rfl
  | cons c pending =>
    rcases next_cons t resolved c pending links with ⟨r,hn,hc⟩ | ⟨e,hn,hc⟩ | ⟨target,hc,hn⟩ <;> rw [hn]
    · refine ⟨(fun r' hr => by cases hr),fun w' hw => ?_⟩
      cases hw
      exact ⟨resolveLinks_congr _ hc,h⟩
    · refine ⟨fun r' hr => ?_,fun w' hw => by cases hw⟩
      cases hr
      exact resolveLinks_failed _ hc
    · dsimp only at h ⊢
      by_cases hl : kMaximumLinks < links + 1
      · rw [if_pos hl,show kMaximumLinks - links = 0 by omega]
        refine ⟨fun r' hr => ?_,fun w' hw => by cases hw⟩
        cases hr
        exact resolveLinks_loop hc
      · rw [if_neg hl]
        refine ⟨(fun r' hr => by cases hr),fun w' hw => ?_⟩
        cases hw
        rw [show kMaximumLinks - links = kMaximumLinks - (links + 1) + 1 by omega]
        exact ⟨resolveLinks_link _ hc,Nat.not_lt.mp hl⟩

/-- What a walk comes by has its outcome. -/
theorem Walk.Reaches.outcome {t : Tree} {w w' : Walk} (h : w.Reaches t w') (hl : w.links ≤ kMaximumLinks) :
    w.outcome t = w'.outcome t ∧ w'.links ≤ kMaximumLinks := by
  induction h with
  | refl => exact ⟨rfl,hl⟩
  | step _ hn ih =>
    obtain ⟨ho,hl'⟩ := ih
    obtain ⟨ho',hl''⟩ := (next_outcome hl').2 _ hn
    exact ⟨ho.trans ho',hl''⟩

theorem Walk.run_of_next {t : Tree} {w : Walk} (hl : w.links ≤ kMaximumLinks)
    (h : ∀ w', w.next t = .again w' → ∃ n, w'.run t n = some (w'.outcome t)) :
    ∃ n, w.run t n = some (w.outcome t) := by
  cases hn : w.next t with
  | stop r => exact ⟨1,by rw [run,hn,(next_outcome hl).1 r hn]⟩
  | again w' =>
    obtain ⟨n,hr⟩ := h w' hn
    exact ⟨n + 1,by rw [run,hn,((next_outcome hl).2 w' hn).1]; exact hr⟩

/-- The loop stops: a round takes a component off, and links put new ones there so many times only. -/
theorem Walk.run_total (t : Tree) (more : ℕ) (resolved pending : List Name) (links : ℕ) (hl : links + more = kMaximumLinks) :
    ∃ n, (Walk.mk resolved pending links).run t n = some ((Walk.mk resolved pending links).outcome t) := by
  induction more generalizing resolved pending links with
  | zero =>
    induction pending generalizing resolved with
    | nil => exact run_of_next hl.le (fun w' hw => by cases hw)
    | cons c pending ih =>
      refine run_of_next hl.le (fun w' hw => ?_)
      rcases next_cons t resolved c pending links with ⟨r,hn,-⟩ | ⟨e,hn,-⟩ | ⟨target,-,hn⟩ <;> rw [hn] at hw
      · cases hw
        exact ih r
      · cases hw
      · rw [if_pos (by omega)] at hw
        cases hw
  | succ more ihlinks =>
    induction pending generalizing resolved with
    | nil => exact run_of_next (by dsimp only; omega) (fun w' hw => by cases hw)
    | cons c pending ih =>
      refine run_of_next (by dsimp only; omega) (fun w' hw => ?_)
      rcases next_cons t resolved c pending links with ⟨r,hn,-⟩ | ⟨e,hn,-⟩ | ⟨target,-,hn⟩ <;> rw [hn] at hw
      · cases hw
        exact ih r
      · cases hw
      · rw [if_neg (by omega)] at hw
        cases hw
        exact ihlinks _ _ _ (by omega)

/-! ### Prefixes -/

/-- Names without a link among them, and without a file above the last. -/
structure Rooted (t : Tree) (p : List Name) : Prop where
  physical : Physical t p
  clear : t.Clear p

theorem Rooted.nil (t : Tree) : Rooted t [] where
  physical := Physical.nil t
  clear := fun _ hq hne => absurd (List.prefix_nil.mp hq) hne

theorem Rooted.above {t : Tree} {p q : List Name} (h : Rooted t p) (hq : q <+: p) : Rooted t q where
  physical := h.physical.above hq
  clear := fun r hr hne => h.clear r (hr.trans hq) (fun he => hne (by
    rw [he] at hr ⊢
    exact (hq.eq_of_length_le hr.length_le).symm))

/-- Where a component may be looked for. -/
def Passable (t : Tree) (p : List Name) : Prop := t.file p = none ∨ t.isDirectory p = true

theorem clear_snoc {t : Tree} {p : List Name} (h : t.Clear p) (hp : Passable t p) (c : Name) :
    t.Clear (p ++ [c]) := by
  intro q hq hne
  rcases List.prefix_concat_iff.mp hq with rfl | hq
  · exact absurd rfl hne
  · by_cases he : q = p
    · rw [he]
      exact hp
    · exact h q hq he

theorem names_snoc {t : Tree} {p : List Name} (h : Physical t p) {c : Name} (hc : IsName c) :
    ∀ c' ∈ p ++ [c], IsName c' := by
  intro c' hc'
  rcases List.mem_append.mp hc' with h' | h'
  · exact h.names c' h'
  · rw [List.mem_singleton.mp h']
    exact hc

/-- Behind a directory, or nothing, a component is what the tree has there. -/
theorem look_passable {t : Tree} {p : List Name} (h : Rooted t p) (hp : Passable t p) {c : Name}
    (hc : IsName c) : t.look false (p ++ [c]) = (t.file (p ++ [c])).elim (.error .noEntry) .ok := by
  rw [Tree.look_clear (names_snoc h.physical hc) (clear_snoc h.clear hp c)]
  cases t.file (p ++ [c]) <;> rfl

theorem isDirectory_above {t : Tree} {p q : List Name} (h : t.isDirectory p = true) (hq : q <+: p) :
    t.isDirectory q = true := by
  by_cases he : q = p
  · rw [he]
    exact h
  · obtain ⟨f,hf,-⟩ := (Option.any_eq_true _ _).mp h
    exact Tree.opened_of_exists (by rw [hf]; rfl) q hq he

/-- A walk of names through directories goes on behind them. -/
theorem stretch_through {t : Tree} (follow : Bool) (here names tail : List Name) (hn : ∀ c ∈ names, IsName c)
    (hd : t.isDirectory (here ++ names) = true) :
    t.stretch follow here (names ++ tail) = t.stretch follow (here ++ names) tail := by
  induction names generalizing here with
  | nil => rw [List.nil_append,List.append_nil]
  | cons c names ih =>
    rw [List.forall_mem_cons] at hn
    obtain ⟨⟨h₁,h₂,h₃⟩,hrest⟩ := hn
    have hassoc : here ++ c :: names = (here ++ [c]) ++ names := by simp
    rw [hassoc] at hd ⊢
    obtain ⟨f,hf,hfd⟩ := (Option.any_eq_true _ _).mp (isDirectory_above hd (List.prefix_append _ _))
    cases f with
    | directory m =>
      rw [← ih (here ++ [c]) hrest hd]
      simp only [List.cons_append,Tree.stretch,h₁,h₂,h₃,or_self,if_false,hf]
    | _ => cases hfd

/-- Behind a file that is no directory there is nothing. -/
theorem look_file {t : Tree} {p : List Name} (h : Rooted t p) (hp : ¬ Passable t p) (c : Name) :
    t.look false (p ++ [c]) = .error .notDirectory := by
  obtain ⟨hne,hnd⟩ := not_or.mp hp
  obtain ⟨f,hf⟩ := Option.ne_none_iff_exists'.mp hne
  rcases List.eq_nil_or_concat p with rfl | ⟨d,x,rfl⟩
  · exact absurd t.isDirectory_root hnd
  rw [List.concat_eq_append] at *
  have hd : t.isDirectory d = true := t.closed d x (by rw [hf]; rfl)
  have hx := h.physical.names x (by simp)
  have hs : t.stretch false [] (d ++ [x] ++ [c]) = .failed .notDirectory := by
    rw [List.append_assoc,stretch_through false [] d _ (fun c' hc' => h.physical.names c' (by simp [hc'])) hd,
      List.nil_append]
    simp only [List.singleton_append,Tree.stretch,hx.1,hx.2.1,hx.2.2,or_self,if_false,hf]
    cases f with
    | directory m => exact absurd (by rw [Tree.isDirectory,hf]; rfl) hnd
    | symlink target =>
      have := h.physical.plain _ (List.prefix_refl _)
      rw [Tree.isSymlink,hf] at this
      cases this
    | _ => rfl
  rw [Tree.look,Tree.locate,Tree.walk,hs]

theorem rooted_snoc {t : Tree} {p : List Name} (h : Rooted t p) (hp : Passable t p) {c : Name} (hc : IsName c)
    (hl : t.isSymlink (p ++ [c]) = false) : Rooted t (p ++ [c]) where
  physical := by
    refine ⟨names_snoc h.physical hc,fun q hq => ?_⟩
    rcases List.prefix_concat_iff.mp hq with rfl | hq
    · exact hl
    · exact h.physical.plain q hq
  clear := clear_snoc h.clear hp c

/-- What a component does behind a rooted prefix. -/
theorem rooted_cons {t : Tree} {p : List Name} (h : Rooted t p) {c : Name} (hc : c ≠ []) (pending : List Name) :
    ((∃ e, resolveComponents t p (c :: pending) = .failed e) ∧ t.isDirectory p = false ∧
      (IsName c → ¬ Passable t p)) ∨
    ((c = dot ∨ c = dotdot) ∧ t.isDirectory p = true ∧ Rooted t (if c = dotdot then p.dropLast else p) ∧
      resolveComponents t p (c :: pending) =
        resolveComponents t (if c = dotdot then p.dropLast else p) pending) ∨
    (IsName c ∧ Passable t p ∧ t.isSymlink (p ++ [c]) = false ∧ Rooted t (p ++ [c]) ∧
      resolveComponents t p (c :: pending) = resolveComponents t (p ++ [c]) pending) ∨
    (IsName c ∧ ∃ target, t.file (p ++ [c]) = some (.symlink target) ∧
      resolveComponents t p (c :: pending) = .link p target pending) := by
  rw [resolveComponents,if_neg hc]
  by_cases h₂ : c = dot ∨ c = dotdot
  · rw [if_pos h₂]
    cases hr : requireDirectory t p with
    | error e =>
      refine Or.inl ⟨⟨e,rfl⟩,?_,fun hn => absurd h₂ (not_or.mpr hn.2)⟩
      cases hd : t.isDirectory p with
      | false => rfl
      | true => rw [(requireDirectory_ok h.physical).mpr hd] at hr; cases hr
    | ok u =>
      refine Or.inr (Or.inl ⟨h₂,(requireDirectory_ok h.physical).mp hr,?_,rfl⟩)
      split
      · exact h.above (List.dropLast_prefix p)
      · exact h
  rw [if_neg h₂]
  have hname : IsName c := ⟨hc,fun he => h₂ (Or.inl he),fun he => h₂ (Or.inr he)⟩
  dsimp only
  by_cases hp : Passable t p
  · rw [look_passable h hp hname]
    have hrooted := rooted_snoc h hp hname
    cases hf : t.file (p ++ [c]) with
    | none =>
      have hl : t.isSymlink (p ++ [c]) = false := by rw [Tree.isSymlink,hf]; rfl
      exact Or.inr (Or.inr (Or.inl ⟨hname,hp,hl,hrooted hl,rfl⟩))
    | some f =>
      cases f with
      | symlink target => exact Or.inr (Or.inr (Or.inr ⟨hname,target,rfl,rfl⟩))
      | _ =>
        have hl : t.isSymlink (p ++ [c]) = false := by rw [Tree.isSymlink,hf]; rfl
        exact Or.inr (Or.inr (Or.inl ⟨hname,hp,hl,hrooted hl,rfl⟩))
  · rw [look_file h hp]
    refine Or.inl ⟨⟨_,rfl⟩,?_,fun _ => hp⟩
    cases hd : t.isDirectory p with
    | false => rfl
    | true => exact absurd (Or.inr hd) hp

/-! ### Beside the kernel's walk -/

def NoEmpty (names : List Name) : Prop := ∀ c ∈ names, c ≠ []

/-- No link of the tree ends in a separator. -/
def NoSlash (t : Tree) : Prop := ∀ p target, t.file p = some (.symlink target) → NoEmpty target.components

theorem NoEmpty.cons {c : Name} {pending : List Name} (h : NoEmpty (c :: pending)) : c ≠ [] ∧ NoEmpty pending :=
  List.forall_mem_cons.mp h

theorem isDirectory_of_some {t : Tree} {p : List Name} {c : Name} {f : File} (h : t.file (p ++ [c]) = some f) :
    t.isDirectory p = true := t.closed p c (by rw [h]; rfl)

/-- Where a link's target is walked from. -/
theorem rooted_from {t : Tree} {l : List Name} (h : Rooted t l) (hd : t.isDirectory l = true) (target : Path) :
    Rooted t (if target.isAbsolute then [] else l) ∧
      t.isDirectory (if target.isAbsolute then [] else l) = true := by
  split
  · exact ⟨Rooted.nil t,t.isDirectory_root⟩
  · exact ⟨h,hd⟩

/-- Where there is no directory only names can follow. -/
theorem done_missing {t : Tree} {p pending r : List Name} (h : Rooted t p) (hd : t.isDirectory p = false)
    (hne : NoEmpty pending) (hr : resolveComponents t p pending = .done r) : r = p ++ pending := by
  induction pending generalizing p with
  | nil =>
    cases hr
    rw [List.append_nil]
  | cons c pending ih =>
    obtain ⟨hc,hne⟩ := hne.cons
    rcases rooted_cons h hc pending with ⟨⟨e,he⟩,-⟩ | ⟨-,hd',-,-⟩ | ⟨-,hp,-,hs,he⟩ | ⟨-,target,hf,-⟩
    · rw [he] at hr
      cases hr
    · rw [hd] at hd'
      cases hd'
    · rw [he] at hr
      have hnone : t.file p = none := hp.resolve_right (by rw [hd]; exact Bool.false_ne_true)
      have hd' : t.isDirectory (p ++ [c]) = false := by
        rw [Tree.isDirectory,Tree.file_eq_none_below hnone [c]]
        rfl
      rw [ih hs hd' hne hr,List.append_assoc,List.singleton_append]
    · rw [isDirectory_of_some hf] at hd
      cases hd

/-- A link is found behind directories only. -/
theorem isDirectory_of_link {t : Tree} {p pending l rest : List Name} {target : Path} (h : Rooted t p)
    (hne : NoEmpty pending) (hr : resolveComponents t p pending = .link l target rest) :
    t.isDirectory p = true := by
  induction pending generalizing p with
  | nil => cases hr
  | cons c pending ih =>
    obtain ⟨hc,hne⟩ := hne.cons
    rcases rooted_cons h hc pending with ⟨⟨e,he⟩,-⟩ | ⟨-,hd,-,-⟩ | ⟨-,-,-,hs,he⟩ | ⟨-,target',hf,-⟩
    · rw [he] at hr
      cases hr
    · exact hd
    · rw [he] at hr
      exact isDirectory_above (ih hs hne hr) (List.prefix_append _ _)
    · exact isDirectory_of_some hf

/-- A tree that has what the other has, and there more where the other ends. -/
structure Completes (t t' : Tree) (r : List Name) : Prop where
  keeps : ∀ p f, t.file p = some f → t'.file p = some f
  here : (t'.file r).isSome = true
  plain : t'.isSymlink r = false

theorem stretch_dots {t : Tree} {c : Name} (hc : c = dot ∨ c = dotdot) (follow : Bool) (p pending : List Name) :
    t.stretch follow p (c :: pending) = t.stretch follow (if c = dotdot then p.dropLast else p) pending := by
  rcases hc with rfl | rfl <;> rfl

theorem stretch_directory {t : Tree} {p : List Name} {c : Name} (hc : IsName c)
    (hd : t.isDirectory (p ++ [c]) = true) (follow : Bool) (pending : List Name) :
    t.stretch follow p (c :: pending) = t.stretch follow (p ++ [c]) pending := by
  have hs := @stretch_through t follow p [c] pending (List.forall_mem_singleton.mpr hc) hd
  rwa [List.singleton_append] at hs

theorem stretch_last {t : Tree} {p : List Name} {c : Name} (hc : IsName c) (hl : t.isSymlink (p ++ [c]) = false)
    (follow : Bool) : t.stretch follow p [c] = .at (p ++ [c]) := by
  cases hf : t.file (p ++ [c]) with
  | none => simp only [Tree.stretch,hc.1,hc.2.1,hc.2.2,or_self,if_false,hf,if_true]
  | some f =>
    cases f with
    | symlink target => rw [Tree.isSymlink,hf] at hl; cases hl
    | _ => simp only [Tree.stretch,hc.1,hc.2.1,hc.2.2,or_self,if_false,hf,if_true]

theorem stretch_stuck {t : Tree} {p : List Name} {c : Name} (hc : IsName c)
    (hl : t.isSymlink (p ++ [c]) = false) (hd : ¬ t.isDirectory (p ++ [c]) = true) (c' : Name)
    (pending : List Name) : ∃ e, t.stretch true p (c :: c' :: pending) = .failed e := by
  simp only [Tree.stretch,hc.1,hc.2.1,hc.2.2,or_self,if_false]
  cases hf : t.file (p ++ [c]) with
  | none => exact ⟨.noEntry,rfl⟩
  | some f =>
    cases f with
    | directory m => exact absurd (Tree.isDirectory_of_file hf) hd
    | symlink target => rw [Tree.isSymlink_of_file hf] at hl; cases hl
    | _ => exact ⟨.notDirectory,rfl⟩

theorem stretch_symlink {t : Tree} {p : List Name} {c : Name} (hc : IsName c) {target : Path}
    (hf : t.file (p ++ [c]) = some (.symlink target)) (pending : List Name) :
    t.stretch true p (c :: pending) = .link p target pending := by
  simp only [Tree.stretch,hc.1,hc.2.1,hc.2.2,or_self,if_false,hf,Bool.true_or,if_true]

/-- The loop's stretch is the kernel's, where what the loop ends with is there. -/
theorem stretch_of_done {t t' : Tree} {p pending r : List Name} (h : Rooted t p) (hne : NoEmpty pending)
    (hr : resolveComponents t p pending = .done r) (hc : Completes t t' r) :
    t'.stretch true p pending = .at r := by
  induction pending generalizing p with
  | nil =>
    cases hr
    rfl
  | cons c pending ih =>
    obtain ⟨hcne,hne⟩ := hne.cons
    rcases rooted_cons h hcne pending with ⟨⟨e,he⟩,-⟩ | ⟨hdot,-,hs,he⟩ | ⟨hname,-,-,hs,he⟩ | ⟨-,target,-,he⟩ <;>
      rw [he] at hr
    · cases hr
    · rw [stretch_dots hdot]
      exact ih hs hne hr
    · have hgo := ih hs hne hr
      by_cases hd : t'.isDirectory (p ++ [c]) = true
      · rw [stretch_directory hname hd]
        exact hgo
      have hd' : t.isDirectory (p ++ [c]) = false := by
        cases hdt : t.isDirectory (p ++ [c]) with
        | false => rfl
        | true =>
          obtain ⟨f,hf,hfd⟩ := (Option.any_eq_true _ _).mp hdt
          exact absurd (by rw [Tree.isDirectory,hc.keeps _ f hf]; exact hfd) hd
      have hend := done_missing hs hd' hne hr
      have hnil : pending = [] := by
        by_contra hpend
        have hopen := Tree.opened_of_exists hc.here (p ++ [c]) (by rw [hend]; exact List.prefix_append _ _)
          (by rw [hend]; simpa using hpend)
        exact hd hopen
      rw [hnil,List.append_nil] at hend
      rw [hnil,hend]
      exact stretch_last hname (by rw [← hend]; exact hc.plain) true
    · cases hr

theorem stretch_of_link {t t' : Tree} {p pending l rest : List Name} {target : Path} (h : Rooted t p)
    (hslash : NoSlash t) (hne : NoEmpty pending) (hr : resolveComponents t p pending = .link l target rest)
    (hk : ∀ p f, t.file p = some f → t'.file p = some f) :
    t'.stretch true p pending = .link l target rest ∧ Rooted t l ∧ t.isDirectory l = true ∧
      NoEmpty (target.components ++ rest) := by
  induction pending generalizing p with
  | nil => cases hr
  | cons c pending ih =>
    obtain ⟨hcne,hne⟩ := hne.cons
    rcases rooted_cons h hcne pending with ⟨⟨e,he⟩,-⟩ | ⟨hdot,-,hs,he⟩ | ⟨hname,-,-,hs,he⟩ | ⟨hname,target',hf,he⟩ <;>
      rw [he] at hr
    · cases hr
    · rw [stretch_dots hdot]
      exact ih hs hne hr
    · obtain ⟨f,hf,hfd⟩ := (Option.any_eq_true _ _).mp (isDirectory_of_link hs hne hr)
      rw [stretch_directory hname (by rw [Tree.isDirectory,hk _ f hf]; exact hfd)]
      exact ih hs hne hr
    · cases hr
      exact ⟨stretch_symlink hname (hk _ _ hf) _,h,isDirectory_of_some hf,
        List.forall_mem_append.mpr ⟨hslash _ _ hf,hne⟩⟩

theorem rooted_of_done {t : Tree} {p pending r : List Name} (h : Rooted t p) (hne : NoEmpty pending)
    (hr : resolveComponents t p pending = .done r) : Rooted t r := by
  induction pending generalizing p with
  | nil =>
    cases hr
    exact h
  | cons c pending ih =>
    obtain ⟨hcne,hne⟩ := hne.cons
    rcases rooted_cons h hcne pending with ⟨⟨e,he⟩,-⟩ | ⟨-,-,hs,he⟩ | ⟨-,-,-,hs,he⟩ | ⟨-,target,-,he⟩ <;>
      rw [he] at hr
    · cases hr
    · exact ih hs hne hr
    · exact ih hs hne hr
    · cases hr

/-- A target that is found is where the kernel ends, once it is there. -/
theorem walk_of_resolveLinks {t t' : Tree} (hslash : NoSlash t) {links : ℕ} {p pending r : List Name}
    (h : Rooted t p) (hne : NoEmpty pending) (hr : resolveLinks t links p pending = .ok r) :
    Rooted t r ∧ (Completes t t' r → t'.walk true links p pending = .ok r) := by
  induction links generalizing p pending with
  | zero =>
    rw [resolveLinks] at hr
    split at hr
    · next x hx =>
      cases hr
      refine ⟨rooted_of_done h hne hx,fun hc => ?_⟩
      rw [Tree.walk,stretch_of_done h hne hx hc]
    · cases hr
    · cases hr
  | succ links ih =>
    rw [resolveLinks] at hr
    split at hr
    · next x hx =>
      cases hr
      refine ⟨rooted_of_done h hne hx,fun hc => ?_⟩
      rw [Tree.walk,stretch_of_done h hne hx hc]
    · cases hr
    · next l target rest hx =>
      obtain ⟨-,hl,hd,hrest⟩ := stretch_of_link h hslash hne hx (fun _ _ => id)
      obtain ⟨hs,hw⟩ := ih (rooted_from hl hd target).1 hrest hr
      refine ⟨hs,fun hc => ?_⟩
      rw [Tree.walk,(stretch_of_link h hslash hne hx hc.keeps).1]
      exact hw hc

/-- The kernel's stretch from a directory is the loop's. -/
theorem resolveComponents_of_stretch {t : Tree} {p pending : List Name} (h : Rooted t p)
    (hd : t.isDirectory p = true) (hne : NoEmpty pending) :
    (∀ x, t.stretch true p pending = .at x → resolveComponents t p pending = .done x) ∧
    ∀ l target rest, t.stretch true p pending = .link l target rest →
      resolveComponents t p pending = .link l target rest := by
  induction pending generalizing p with
  | nil =>
    refine ⟨fun x hx => ?_,fun l target rest hl => by cases hl⟩
    cases hx
    rfl
  | cons c pending ih =>
    obtain ⟨hcne,hne⟩ := hne.cons
    rcases rooted_cons h hcne pending with ⟨-,hd',-⟩ | ⟨hdot,-,hs,he⟩ | ⟨hname,-,hl,hs,he⟩ | ⟨hname,target,hf,he⟩
    · rw [hd] at hd'
      cases hd'
    · rw [he,stretch_dots hdot]
      refine ih hs ?_ hne
      split
      · exact isDirectory_above hd (List.dropLast_prefix p)
      · exact hd
    · rw [he]
      by_cases hnext : t.isDirectory (p ++ [c]) = true
      · rw [stretch_directory hname hnext]
        exact ih hs hnext hne
      · cases pending with
        | nil =>
          rw [stretch_last hname hl]
          refine ⟨fun x hx => ?_,fun l target rest hl => by cases hl⟩
          cases hx
          rfl
        | cons c' pending =>
          obtain ⟨e,hs⟩ := stretch_stuck hname hl hnext c' pending
          rw [hs]
          exact ⟨(fun x hx => by cases hx),fun l target rest hl => by cases hl⟩
    · rw [he,stretch_symlink hname hf]
      refine ⟨(fun x hx => by cases hx),fun l target' rest hl => ?_⟩
      cases hl
      rfl

/-- Where the kernel ends is the target. -/
theorem resolveLinks_of_walk {t : Tree} (hslash : NoSlash t) {links : ℕ} {p pending r : List Name}
    (h : Rooted t p) (hd : t.isDirectory p = true) (hne : NoEmpty pending)
    (hr : t.walk true links p pending = .ok r) : resolveLinks t links p pending = .ok r := by
  have hs := resolveComponents_of_stretch h hd hne
  induction links generalizing p pending with
  | zero =>
    rw [Tree.walk] at hr
    split at hr
    · next x hx =>
      cases hr
      exact resolveLinks_done 0 (hs.1 r hx)
    · cases hr
    · cases hr
  | succ links ih =>
    rw [Tree.walk] at hr
    split at hr
    · next x hx =>
      cases hr
      exact resolveLinks_done _ (hs.1 r hx)
    · cases hr
    · next l target rest hx =>
      have hlink := hs.2 l target rest hx
      obtain ⟨-,hl,hdl,hrest⟩ := stretch_of_link h hslash hne hlink (fun _ _ => id)
      obtain ⟨hl',hd'⟩ := rooted_from hl hdl target
      rw [resolveLinks_link links hlink]
      exact ih hl' hd' hrest hr (resolveComponents_of_stretch hl' hd' hrest)

/-- A rooted location is its own target. -/
theorem resolveLinks_rooted {t : Tree} (links : ℕ) {r : List Name} (h : Rooted t r) :
    resolveLinks t links [] r = .ok r := by
  refine resolveLinks_done links ?_
  suffices hall : ∀ p names, p ++ names = r → resolveComponents t p names = .done r from hall [] r rfl
  intro p names
  induction names generalizing p with
  | nil =>
    intro he
    rw [← he,List.append_nil]
    rfl
  | cons c names ih =>
    intro he
    have hsub : p ++ [c] <+: r := by rw [← he]; exact ⟨names,by simp⟩
    have hname : IsName c := h.physical.names c (hsub.subset (by simp))
    have hp : Rooted t p := h.above ((List.prefix_append p [c]).trans hsub)
    rcases rooted_cons hp hname.1 names with ⟨-,-,hno⟩ | ⟨hdot,-,-,-⟩ | ⟨-,-,-,-,hgo⟩ | ⟨-,target,hf,-⟩
    · refine absurd (h.clear p ((List.prefix_append p [c]).trans hsub) fun hp => ?_) (hno hname)
      rw [← he] at hp
      exact List.cons_ne_nil c names (List.self_eq_append_right.mp hp)
    · rcases hdot with hdot | hdot
      · exact absurd hdot hname.2.1
      · exact absurd hdot hname.2.2
    · rw [hgo]
      exact ih _ (by rw [← he]; simp)
    · have := h.physical.plain _ hsub
      rw [Tree.isSymlink_of_file hf] at this
      cases this

/-- Every round starts from a rooted prefix. -/
theorem Walk.next_rooted {t : Tree} (hslash : NoSlash t) {w w' : Walk} (h : Rooted t w.resolved)
    (hne : NoEmpty w.pending) (hn : w.next t = .again w') : Rooted t w'.resolved ∧ NoEmpty w'.pending := by
  obtain ⟨p,pending,links⟩ := w
  cases pending with
  | nil => cases hn
  | cons c pending =>
    obtain ⟨hcne,hne⟩ := hne.cons
    rw [next] at hn
    dsimp only at hn h
    rw [if_neg hcne] at hn
    by_cases hdot : c = dot ∨ c = dotdot
    · rw [if_pos hdot] at hn
      cases hr : requireDirectory t p with
      | error e => rw [hr] at hn; cases hn
      | ok u =>
        rw [hr] at hn
        cases hn
        refine ⟨?_,hne⟩
        dsimp only
        split
        · exact h.above (List.dropLast_prefix p)
        · exact h
    rw [if_neg hdot] at hn
    have hname : IsName c := ⟨hcne,(fun he => hdot (Or.inl he)),fun he => hdot (Or.inr he)⟩
    by_cases hp : Passable t p
    · rw [look_passable h hp hname] at hn
      cases hf : t.file (p ++ [c]) with
      | none =>
        rw [hf] at hn
        cases hn
        exact ⟨rooted_snoc h hp hname (by rw [Tree.isSymlink,hf]; rfl),hne⟩
      | some f =>
        rw [hf] at hn
        cases f with
        | symlink target =>
          change (if kMaximumLinks < links + 1 then Next.stop (.error .loop) else
            .again ⟨if target.isAbsolute then [] else p,target.components ++ pending,links + 1⟩) = _ at hn
          split at hn
          · cases hn
          · cases hn
            refine ⟨?_,List.forall_mem_append.mpr ⟨hslash _ _ hf,hne⟩⟩
            exact (rooted_from h (isDirectory_of_some hf) target).1
        | _ =>
          cases hn
          exact ⟨rooted_snoc h hp hname (by rw [Tree.isSymlink,hf]; rfl),hne⟩
    · rw [look_file h hp] at hn
      cases hn

theorem Walk.Reaches.rooted {t : Tree} (hslash : NoSlash t) {w w' : Walk} (hw : w.Reaches t w')
    (h : Rooted t w.resolved) (hne : NoEmpty w.pending) : Rooted t w'.resolved ∧ NoEmpty w'.pending := by
  induction hw with
  | refl => exact ⟨h,hne⟩
  | step _ hn ih => exact next_rooted hslash ih.1 ih.2 hn

/-! ### Resolving -/

/-- What resolving a path is for. -/
structure Resolves (t : Tree) (current : List Name) (path : Path) : Prop where
  /-- The loop stops. -/
  stops : ∃ n, (Walk.start current path).run t n = some (resolveTarget t current path)
  /-- Names without a link. -/
  physical : ∀ r, resolveTarget t current path = .ok r → Physical t r
  again : ∀ r current', resolveTarget t current path = .ok r →
    resolveTarget t current' (.ofLocation r) = .ok r
  /-- The kernel ends there too, once the target is there. -/
  leads : ∀ r t', resolveTarget t current path = .ok r → Completes t t' r →
    t'.locate true (path.absolute current) = .ok r
  /-- Where the kernel ends is the target. -/
  found : ∀ r, t.locate true (path.absolute current) = .ok r → resolveTarget t current path = .ok r
  /-- One more link than the limit. -/
  limited : ∀ w, (Walk.start current path).Reaches t w → w.links = kMaximumLinks → ∀ c pending target,
    w.pending = c :: pending → resolveComponents t w.resolved w.pending = .link w.resolved target pending →
      resolveTarget t current path = .error .loop
  /-- A dot where there is no directory. -/
  dots : ∀ w, (Walk.start current path).Reaches t w → ∀ c pending, w.pending = c :: pending →
    c = dot ∨ c = dotdot → t.isDirectory w.resolved = false → ∃ e, resolveTarget t current path = .error e

theorem resolves {t : Tree} {current : List Name} {path : Path} (hslash : NoSlash t)
    (hpath : path.isEmpty = false) (hne : NoEmpty (path.absolute current)) : Resolves t current path where
  stops := by
    obtain ⟨n,hn⟩ := Walk.run_total t kMaximumLinks [] (path.absolute current) 0 (Nat.zero_add _)
    refine ⟨n,hn.trans ?_⟩
    rw [← Walk.outcome_start t current hpath]
    rfl
  physical := fun r h => resolveTarget_physical h
  again := by
    intro r current' hr
    rw [resolveTarget,if_neg (by simp [hpath])] at hr
    rw [resolveTarget,if_neg (by simp)]
    exact resolveLinks_rooted _ (@walk_of_resolveLinks t t hslash _ _ _ _ (Rooted.nil t) hne hr).1
  leads := by
    intro r t' hr hc
    rw [resolveTarget,if_neg (by simp [hpath])] at hr
    exact (walk_of_resolveLinks hslash (Rooted.nil t) hne hr).2 hc
  found := by
    intro r hr
    rw [resolveTarget,if_neg (by simp [hpath])]
    exact resolveLinks_of_walk hslash (Rooted.nil t) t.isDirectory_root hne hr
  limited := by
    intro w hw hl c pending target hp hc
    obtain ⟨ho,-⟩ := hw.outcome (Nat.zero_le _)
    rw [← Walk.outcome_start t current hpath,ho,Walk.outcome,hl,Nat.sub_self]
    exact resolveLinks_loop hc
  dots := by
    intro w hw c pending hp hdot hd
    obtain ⟨ho,-⟩ := hw.outcome (Nat.zero_le _)
    obtain ⟨hs,hnew⟩ := hw.rooted hslash (Rooted.nil t) hne
    rw [hp] at hnew
    rw [← Walk.outcome_start t current hpath,ho,Walk.outcome,hp]
    rcases rooted_cons hs hnew.cons.1 pending with ⟨⟨e,he⟩,-,-⟩ | ⟨-,hd',-,-⟩ | ⟨hname,-,-,-,-⟩ | ⟨hname,-,-,-⟩
    · exact ⟨e,resolveLinks_failed _ he⟩
    · rw [hd] at hd'
      cases hd'
    · exact absurd hdot (not_or.mpr hname.2)
    · exact absurd hdot (not_or.mpr hname.2)

/-- Two paths to one file have one target, there or not, and one lock file. -/
structure SameTarget (t : Tree) (current : List Name) (path : Path) (current' : List Name) (path' : Path) : Prop where
  existing : ∀ r, t.locate true (path.absolute current) = .ok r → t.locate true (path'.absolute current') = .ok r →
    (resolveTarget t current path).map lockPath = .ok (lockPath r) ∧
      resolveTarget t current path = resolveTarget t current' path'
  missing : ∀ r r' t', resolveTarget t current path = .ok r → resolveTarget t current' path' = .ok r' →
    Completes t t' r → Completes t t' r' →
    t'.locate true (path.absolute current) = t'.locate true (path'.absolute current') → r = r'

theorem sameTarget {t : Tree} {current current' : List Name} {path path' : Path} (h : Resolves t current path)
    (h' : Resolves t current' path') : SameTarget t current path current' path' where
  existing := by
    intro r hr hr'
    rw [h.found r hr,h'.found r hr']
    exact ⟨rfl,rfl⟩
  missing := by
    intro r r' t' hr hr' hc hc' heq
    rw [h.leads r t' hr hc,h'.leads r' t' hr' hc'] at heq
    cases heq
    rfl

theorem noEmpty_absolute {current : List Name} {path : Path} (hc : NoEmpty current) (hp : NoEmpty path.components) :
    NoEmpty (path.absolute current) := by
  unfold Path.absolute
  split
  · exact hp
  · exact List.forall_mem_append.mpr ⟨hc,hp⟩

/-- Resolving is a walk that ends, at what the kernel's walk leads to. -/
theorem resolveTarget_correct {t : Tree} (hslash : NoSlash t) {current current' : List Name} {path path' : Path}
    (hcurrent : NoEmpty current) (hcurrent' : NoEmpty current') (hpath : path.isEmpty = false)
    (hpath' : path'.isEmpty = false) (hne : NoEmpty path.components) (hne' : NoEmpty path'.components) :
    Resolves t current path ∧ SameTarget t current path current' path' := by
  have h := resolves hslash hpath (noEmpty_absolute hcurrent hne)
  exact ⟨h,sameTarget h (resolves hslash hpath' (noEmpty_absolute hcurrent' hne'))⟩

/-- A directory `d` and a link `l` to it. -/
def linkedTree : Tree where
  file p := if p = [] ∨ p = [[0x64]] then some (.directory ⟨0o40755,0,0⟩)
    else if p = [[0x6C]] then some (.symlink ⟨false,[[0x64]]⟩) else none
  root := by decide
  closed := by
    intro p n h
    have hp : p = [] := by
      by_contra hne
      have hlong : p ++ [n] ≠ [] ∧ p ++ [n] ≠ [[0x64]] ∧ p ++ [n] ≠ [[0x6C]] := by
        obtain ⟨c,p,rfl⟩ := List.exists_cons_of_ne_nil hne
        simp
      rw [if_neg (not_or.mpr ⟨hlong.1,hlong.2.1⟩),if_neg hlong.2.2] at h
      cases h
    rw [hp]
    decide

theorem noSlash_linkedTree : NoSlash linkedTree := by
  intro p target h
  change (if p = [] ∨ p = [[0x64]] then some (File.directory ⟨0o40755,0,0⟩)
    else if p = [[0x6C]] then some (File.symlink ⟨false,[[0x64]]⟩) else none) = _ at h
  split at h
  · cases h
  · split at h
    · cases h
      exact List.forall_mem_singleton.mpr (List.cons_ne_nil _ _)
    · cases h

/-- A new file behind the link, and by its own name. -/
theorem resolveTarget_linked : Resolves linkedTree [] ⟨true,[[0x6C],[0x66]]⟩ ∧
    SameTarget linkedTree [] ⟨true,[[0x6C],[0x66]]⟩ [[0x64]] ⟨false,[[0x66]]⟩ :=
  resolveTarget_correct noSlash_linkedTree (List.forall_mem_nil _) (List.forall_mem_singleton.mpr (List.cons_ne_nil _ _))
    rfl rfl (by simp [NoEmpty]) (by simp [NoEmpty])

end DocumentStore
end HolonightConfig
