import HolonightConfig.AppearanceDocument.Sparse

/-! The unknown paths of a sparse document, and documents that differ in nothing else. -/
namespace HolonightConfig
open Text Toml Posix

namespace Sparse
variable {σ : Type} {root : Entries σ}

/-! ### Unknown paths -/

def IsKnown (p : KeyPath) : Prop :=
  p = [bytes "version"] ∨ (∃ s ∈ sections, p = [s]) ∨
    ∃ s ∈ sections, ∃ k, p = [s,k] ∧ (kindOf s k).isSome = true

/-- A path that is unknown while every path above it is known. -/
structure MaximalUnknown (root : Entries σ) (p : KeyPath) : Prop where
  present : (root.find p).isSome = true
  unknown : ¬ IsKnown p
  above : ∀ q, q ≠ [] → q ≠ p → q <+: p → IsKnown q

theorem isKnown_one (k : Bytes) : IsKnown [k] ↔ k = bytes "version" ∨ k ∈ sections := by
  simp [IsKnown]

theorem isKnown_two (s k : Bytes) : IsKnown [s,k] ↔ s ∈ sections ∧ (kindOf s k).isSome = true := by
  simp [IsKnown]

theorem mem_unknownPaths_one {k : Bytes} :
    [k] ∈ unknownPaths root ↔ k ≠ bytes "version" ∧ k ∉ sections ∧ k ∈ root.map Prod.fst := by
  unfold unknownPaths
  rw [List.mem_flatMap]
  constructor
  · rintro ⟨e,he,hp⟩
    split_ifs at hp with hv hs
    · cases hp
    · simp at hp
    · simp only [List.mem_singleton,List.cons.injEq,and_true] at hp
      subst hp
      exact ⟨hv,hs,List.mem_map_of_mem he⟩
  · rintro ⟨hv,hs,hk⟩
    obtain ⟨e,he,rfl⟩ := List.mem_map.mp hk
    exact ⟨e,he,by simp [hv,hs]⟩

theorem mem_unknownPaths_two (hd : DistinctKeys root) {s k : Bytes} :
    [s,k] ∈ unknownPaths root ↔
      s ∈ sections ∧ kindOf s k = none ∧ (root.find [s,k]).isSome = true := by
  have hfind : (root.find [s,k]).isSome = true ↔
      ∃ n, (s,n) ∈ root ∧ ∃ es, n.asTable = some es ∧ ∃ m, (k,m) ∈ es := by
    simp only [Entries.find]
    constructor
    · intro h
      obtain ⟨m,hm⟩ := Option.isSome_iff_exists.mp h
      obtain ⟨es,he,hm⟩ := Option.bind_eq_some_iff.mp hm
      obtain ⟨n,hn,he⟩ := Option.bind_eq_some_iff.mp he
      exact ⟨n,mem_of_lookup hn,es,he,m,mem_of_lookup hm⟩
    · rintro ⟨n,hn,es,he,m,hm⟩
      rw [show root.get s = some n from hd.lookup_of_mem hn,Option.bind_some,he,Option.bind_some]
      cases hg : Entries.get es k with
      | some m' => rfl
      | none =>
        rw [Entries.get,List.lookup_eq_none_iff] at hg
        simpa using hg _ hm
  rw [hfind]
  unfold unknownPaths
  rw [List.mem_flatMap]
  constructor
  · rintro ⟨e,he,hp⟩
    split_ifs at hp with hv hs
    · cases hp
    · obtain ⟨m,hm,heq⟩ := List.mem_map.mp hp
      simp only [List.cons.injEq,and_true] at heq
      obtain ⟨rfl,rfl⟩ := heq
      obtain ⟨hm,hk⟩ := List.mem_filter.mp hm
      refine ⟨hs,by simpa using hk,e.2,he,?_⟩
      cases ht : e.2.asTable with
      | none => simp [ht] at hm
      | some es => exact ⟨es,rfl,m.2,by simpa [ht] using hm⟩
    · simp at hp
  · rintro ⟨hs,hk,n,hn,es,he,m,hm⟩
    refine ⟨(s,n),hn,?_⟩
    have hv : s ≠ bytes "version" := fun h => version_notMem_sections (h ▸ hs)
    rw [if_neg hv,if_pos hs]
    exact List.mem_map.mpr ⟨(k,m),List.mem_filter.mpr ⟨by simpa [he] using hm,by simp [hk]⟩,rfl⟩

theorem length_unknownPaths {p : KeyPath} (h : p ∈ unknownPaths root) : p.length = 1 ∨ p.length = 2 := by
  unfold unknownPaths at h
  obtain ⟨e,-,hp⟩ := List.mem_flatMap.mp h
  split_ifs at hp
  · cases hp
  · obtain ⟨m,-,rfl⟩ := List.mem_map.mp hp
    exact .inr rfl
  · simp only [List.mem_singleton] at hp
    exact .inl (by rw [hp]; rfl)

theorem mem_keys_iff {k : Bytes} : k ∈ root.map Prod.fst ↔ (root.get k).isSome = true := by
  rw [← not_iff_not,Option.not_isSome_iff_eq_none,Entries.get,List.lookup_eq_none_iff]
  simp only [List.mem_map,not_exists,not_and,bne_iff_ne,ne_eq]
  exact ⟨fun h e he heq => h e he heq.symm,fun h e he heq => h e he heq.symm⟩

/-- The listed paths are the maximal unknown ones. -/
theorem mem_unknownPaths (hd : DistinctKeys root) (ht : TypesOk root) {version : Scalar} {src : σ}
    (hv : root.get (bytes "version") = some (.scalar src version)) (p : KeyPath) :
    p ∈ unknownPaths root ↔ MaximalUnknown root p := by
  match p with
  | [] =>
    constructor
    · intro h
      rcases length_unknownPaths h with h | h <;> simp at h
    · intro h
      simpa [Entries.find] using h.present
  | [k] =>
    rw [mem_unknownPaths_one,mem_keys_iff]
    constructor
    · rintro ⟨h₁,h₂,h₃⟩
      refine ⟨h₃,by simp [isKnown_one,h₁,h₂],fun q hq hne hp => ?_⟩
      rcases List.prefix_cons_iff.mp hp with rfl | ⟨t,rfl,ht⟩
      · exact absurd rfl hq
      · rw [List.prefix_nil.mp ht] at hne
        exact absurd rfl hne
    · rintro ⟨h₁,h₂,-⟩
      rw [isKnown_one,not_or] at h₂
      exact ⟨h₂.1,h₂.2,h₁⟩
  | [s,k] =>
    rw [mem_unknownPaths_two hd]
    constructor
    · rintro ⟨h₁,h₂,h₃⟩
      refine ⟨h₃,by simp [isKnown_two,h₂],fun q hq hne hp => ?_⟩
      rcases List.prefix_cons_iff.mp hp with rfl | ⟨t,rfl,ht⟩
      · exact absurd rfl hq
      · rcases List.prefix_cons_iff.mp ht with rfl | ⟨u,rfl,hu⟩
        · exact (isKnown_one s).mpr (.inr h₁)
        · rw [List.prefix_nil.mp hu] at hne
          exact absurd rfl hne
    · rintro ⟨h₁,h₂,h₃⟩
      have hs := (isKnown_one s).mp (h₃ [s] (by simp) (by simp) (by simp))
      rcases hs with rfl | hs
      · simp [Entries.find,hv,Node.asTable] at h₁
      · simp only [isKnown_two,not_and,Bool.not_eq_true,Option.isSome_eq_false_iff,
          Option.isNone_iff_eq_none] at h₂
        exact ⟨hs,h₂ hs,h₁⟩
  | s :: k :: j :: r =>
    constructor
    · intro h
      rcases length_unknownPaths h with h | h <;> simp at h
    · rintro ⟨h₁,-,h₃⟩
      obtain ⟨hs,hk⟩ := (isKnown_two s k).mp (h₃ [s,k] (by simp) (by simp) (by simp))
      obtain ⟨kind,hk⟩ := Option.isSome_iff_exists.mp hk
      exfalso
      -- Below a known field there is nothing: fields of the right type are no tables.
      have hfind : root.find (s :: k :: j :: r) =
          ((root.find [s,k]).bind Node.asTable).bind (Entries.find · (j :: r)) := by
        simp only [Entries.find]
        cases (root.get s).bind Node.asTable <;> rfl
      rw [hfind] at h₁
      cases hf : root.find [s,k] with
      | none => simp [hf] at h₁
      | some n =>
        have ha := ht.2 s hs k kind hk n hf
        cases n with
        | table src i es => cases kind <;> simp [Kind.admits] at ha
        | _ => simp [hf,Node.asTable] at h₁

theorem nodup_unknownPaths (hd : DistinctKeys root)
    (hm : ∀ s n es, root.get s = some n → n.asTable = some es → DistinctKeys es) :
    (unknownPaths root).Nodup := by
  have hhead : ∀ e : Bytes × Node σ, ∀ p ∈ (if e.1 = bytes "version" then []
      else if e.1 ∈ sections then
        ((e.2.asTable.getD []).filter (fun m => (kindOf e.1 m.1).isNone)).map (fun m => [e.1,m.1])
      else [[e.1]] : List KeyPath), p.head? = some e.1 := by
    intro e p hp
    split_ifs at hp
    · cases hp
    · obtain ⟨m,-,rfl⟩ := List.mem_map.mp hp
      rfl
    · rw [List.mem_singleton.mp hp]
      rfl
  unfold unknownPaths
  rw [List.nodup_flatMap]
  constructor
  · intro e he
    split_ifs with hv hs
    · exact List.nodup_nil
    · cases ht : e.2.asTable with
      | none => simp
      | some es =>
        have hk : DistinctKeys es := hm e.1 e.2 es (hd.lookup_of_mem he) ht
        have hp : (es.filter (fun m => (kindOf e.1 m.1).isNone)).Pairwise (fun m m' => m.1 ≠ m'.1) :=
          (List.pairwise_map.mp hk).filter _
        exact List.pairwise_map.mpr (hp.imp (fun h heq => h (by simpa using heq)))
    · exact List.nodup_singleton _
  · refine (List.pairwise_map.mp hd).imp (fun {e e'} hne => ?_)
    intro p hp hp'
    have h₁ := hhead e p hp
    rw [hhead e' p hp'] at h₁
    exact hne (Option.some.inj h₁).symm

/-! ### Documents alike in what is known -/

/-- The same sections, with the same values of the known fields. -/
def SameKnown (root root' : Entries σ) : Prop :=
  (∀ s ∈ sections, (root.get s).map Node.isTable = (root'.get s).map Node.isTable) ∧
  ∀ s ∈ sections, ∀ k, (kindOf s k).isSome = true →
    (root.find [s,k]).map Node.erase = (root'.find [s,k]).map Node.erase

theorem SameKnown.symm {root root' : Entries σ} (h : SameKnown root root') : SameKnown root' root :=
  ⟨fun s hs => (h.1 s hs).symm,fun s hs k hk => (h.2 s hs k hk).symm⟩

theorem SameKnown.typesOk {root root' : Entries σ} (h : SameKnown root root') (ht : TypesOk root) :
    TypesOk root' := by
  constructor
  · intro s hs n hn
    have := h.1 s hs
    rw [hn] at this
    obtain ⟨m,hm,he⟩ := Option.map_eq_some_iff.mp this
    rw [← he]
    exact ht.1 s hs m hm
  · intro s hs k kind hk n hn
    have := h.2 s hs k (by rw [hk]; rfl)
    rw [hn] at this
    obtain ⟨m,hm,he⟩ := Option.map_eq_some_iff.mp this
    rw [← Node.type_erase,← he,Node.type_erase]
    exact ht.2 s hs k kind hk m hm

theorem SameKnown.projection {root root' : Entries σ} (h : SameKnown root root') :
    projection root = projection root' := by
  unfold Sparse.projection
  apply List.map_congr_left
  rintro ⟨s,n⟩ he
  dsimp only
  congr 1
  cases n with
  | table u i t =>
    simp only [projectNode]
    congr 1
    unfold projectSection
    refine List.foldl_ext _ _ _ (fun t k hk => ?_)
    have hs : s ∈ sections := by
      obtain ⟨f,hf,-⟩ := List.mem_map.mp hk
      have hall : fields.all (fun f => sections.contains f.section_) = true := by decide +kernel
      have hf := List.mem_filter.mp hf
      have := List.all_eq_true.mp hall f hf.1
      simp only [beq_iff_eq] at hf
      simpa [hf.2] using this
    simp only [assign,h.2 s hs k ((kindOf_isSome s k).mpr hk)]
  | _ => rfl

end Sparse
end HolonightConfig
