import HolonightConfig.AppearanceDocument
import HolonightConfig.Document.Overrides

/-! What laying one table over another does: each incoming key is settled by itself. -/
namespace HolonightConfig
open Text Toml Posix

namespace AppearanceDocument
variable {snapshot : DocumentSnapshot}

/-! ### One key -/

theorem overlayField_get_of_ne {k key : Bytes} (h : k ≠ key) (effective : Entries Region) (pre : Bytes)
    (node : Node Region) :
    (overlayField snapshot effective pre key node).1.get k = effective.get k := by
  unfold overlayField
  dsimp only
  split_ifs
  · rfl
  · rfl
  · rfl
  · exact Entries.lookup_insertOrAssign_of_ne h node effective

theorem overlayField_get_self {effective effective' : Entries Region} {key : Bytes}
    (h : effective.get key = effective'.get key) (pre : Bytes) (node : Node Region) :
    (overlayField snapshot effective pre key node).1.get key =
        (overlayField snapshot effective' pre key node).1.get key ∧
      (overlayField snapshot effective pre key node).2 = (overlayField snapshot effective' pre key node).2 := by
  unfold overlayField
  simp only [h]
  split_ifs
  · exact ⟨h,rfl⟩
  · exact ⟨h,rfl⟩
  · exact ⟨h,rfl⟩
  · simp [Entries.get]

theorem overlayField_sorted {effective : Entries Region} (h : SortedKeys effective) (pre key : Bytes)
    (node : Node Region) : SortedKeys (overlayField snapshot effective pre key node).1 := by
  unfold overlayField
  dsimp only
  split_ifs
  · exact h
  · exact h
  · exact h
  · exact h.insertOrAssign key node

/-- A table meets a table by laying it over that one; anything else is a field. -/
theorem overlayNode_cases (effective : Entries Region) (pre key : Bytes) (node : Node Region) :
    (∃ s i known incoming, effective.get key = some (.table s i known) ∧ node.asTable = some incoming ∧
      overlayNode snapshot effective pre key node =
        (Entries.replace key (.table s i (overlay snapshot known (pre ++ key ++ bytes ".") incoming).1)
            effective,
          (overlay snapshot known (pre ++ key ++ bytes ".") incoming).2)) ∨
    (((effective.get key).bind Node.asTable = none ∨ node.asTable = none) ∧
      overlayNode snapshot effective pre key node = overlayField snapshot effective pre key node) := by
  cases node with
  | scalar s v => exact .inr ⟨.inr rfl,rfl⟩
  | array s items => exact .inr ⟨.inr rfl,rfl⟩
  | table s i incoming =>
    cases hk : effective.get key with
    | none => exact .inr ⟨.inl rfl,by simp only [overlayNode,hk]⟩
    | some known =>
      cases known with
      | scalar s' v => exact .inr ⟨.inl rfl,by simp only [overlayNode,hk]⟩
      | array s' items => exact .inr ⟨.inl rfl,by simp only [overlayNode,hk]⟩
      | table s' i' known => exact .inl ⟨s',i',known,incoming,rfl,rfl,by simp only [overlayNode,hk]⟩

theorem overlayNode_get_of_ne {k key : Bytes} (h : k ≠ key) (effective : Entries Region) (pre : Bytes)
    (node : Node Region) :
    (overlayNode snapshot effective pre key node).1.get k = effective.get k := by
  rcases @overlayNode_cases snapshot effective pre key node with
    ⟨s,i,known,incoming,-,-,he⟩ | ⟨-,he⟩
  · rw [he]
    exact Entries.lookup_replace_of_ne h _ _
  · rw [he]
    exact overlayField_get_of_ne h effective pre node

theorem overlayNode_get_self {effective effective' : Entries Region} {key : Bytes}
    (h : effective.get key = effective'.get key) (pre : Bytes) (node : Node Region) :
    (overlayNode snapshot effective pre key node).1.get key =
        (overlayNode snapshot effective' pre key node).1.get key ∧
      (overlayNode snapshot effective pre key node).2 = (overlayNode snapshot effective' pre key node).2 := by
  rcases @overlayNode_cases snapshot effective pre key node with
    ⟨s,i,known,incoming,hk,hn,he⟩ | ⟨hf,he⟩
  · rcases @overlayNode_cases snapshot effective' pre key node with
      ⟨s',i',known',incoming',hk',hn',he'⟩ | ⟨hf',-⟩
    · rw [← h,hk] at hk'
      rw [hn] at hn'
      cases hk'
      cases hn'
      rw [he,he']
      refine ⟨?_,rfl⟩
      rw [Entries.get,Entries.get,Entries.lookup_replace_self key _ hk,
        Entries.lookup_replace_self key _ (h ▸ hk)]
    · rw [← h,hk,hn] at hf'
      simp [Node.asTable] at hf'
  · rcases @overlayNode_cases snapshot effective' pre key node with
      ⟨s',i',known',incoming',hk',hn',-⟩ | ⟨-,he'⟩
    · rw [h,hk',hn'] at hf
      simp [Node.asTable] at hf
    · rw [he,he']
      exact overlayField_get_self h pre node

theorem overlayNode_sorted {effective : Entries Region} (h : SortedKeys effective) (pre key : Bytes)
    (node : Node Region) : SortedKeys (overlayNode snapshot effective pre key node).1 := by
  rcases @overlayNode_cases snapshot effective pre key node with
    ⟨s,i,known,incoming,-,-,he⟩ | ⟨-,he⟩
  · rw [he]
    exact h.replace key _
  · rw [he]
    exact overlayField_sorted h pre key node

/-! ### All keys -/

def isReserved (pre key : Bytes) : Prop := pre = [] ∧ key = bytes "version"

instance (pre key : Bytes) : Decidable (isReserved pre key) := inferInstanceAs (Decidable (_ ∧ _))

theorem overlay_sorted {effective : Entries Region} (h : SortedKeys effective) (pre : Bytes)
    (incoming : Entries Region) : SortedKeys (overlay snapshot effective pre incoming).1 := by
  induction incoming generalizing effective with
  | nil => exact h
  | cons e incoming ih =>
    obtain ⟨key,node⟩ := e
    rw [overlay]
    split
    · exact ih h
    · exact ih (overlayNode_sorted h pre key node)

/-- Keys that are not incoming stay as they are. -/
theorem overlay_get_of_notMem {k : Bytes} (effective : Entries Region) (pre : Bytes)
    {incoming : Entries Region} (h : k ∉ incoming.map Prod.fst) :
    (overlay snapshot effective pre incoming).1.get k = effective.get k := by
  induction incoming generalizing effective with
  | nil => rfl
  | cons e incoming ih =>
    obtain ⟨key,node⟩ := e
    simp only [List.map_cons,List.mem_cons,not_or] at h
    rw [overlay]
    split
    · exact ih effective h.2
    · exact (ih _ h.2).trans (overlayNode_get_of_ne h.1 effective pre node)

/-- An incoming key is settled as if it were the only one. -/
theorem overlay_get (effective : Entries Region) (pre k : Bytes) {incoming : Entries Region}
    (hd : DistinctKeys incoming) :
    (overlay snapshot effective pre incoming).1.get k =
      match incoming.get k with
      | none => effective.get k
      | some node =>
        if isReserved pre k then effective.get k else (overlayNode snapshot effective pre k node).1.get k := by
  induction incoming generalizing effective with
  | nil => rfl
  | cons e incoming ih =>
    obtain ⟨key,node⟩ := e
    simp only [DistinctKeys,List.map_cons,List.nodup_cons] at hd
    rw [overlay]
    by_cases hk : k = key
    · subst hk
      have hg : Entries.get ((k,node) :: incoming) k = some node := by simp [Entries.get]
      simp only [hg]
      by_cases hr : isReserved pre k
      · rw [if_pos hr,if_pos (show _ ∧ _ from hr)]
        exact overlay_get_of_notMem effective pre hd.1
      · rw [if_neg hr,if_neg (show ¬(_ ∧ _) from hr)]
        exact overlay_get_of_notMem _ pre hd.1
    · have hb : (k == key) = false := by simpa using hk
      have hg : Entries.get ((key,node) :: incoming) k = Entries.get incoming k := by
        simp [Entries.get,List.lookup_cons,hb]
      rw [hg]
      split
      · exact ih effective hd.2
      · refine (ih _ hd.2).trans ?_
        have hs := @overlayNode_get_of_ne snapshot _ _ hk effective pre node
        cases Entries.get incoming k with
        | none => exact hs
        | some node' =>
          dsimp only
          rw [hs,(overlayNode_get_self hs pre node').1]

/-- The notes are those of the incoming keys, one after the other. -/
theorem overlay_notes (effective : Entries Region) (pre : Bytes) {incoming : Entries Region}
    (hd : DistinctKeys incoming) :
    (overlay snapshot effective pre incoming).2 = incoming.flatMap (fun e =>
      if isReserved pre e.1 then [] else (overlayNode snapshot effective pre e.1 e.2).2) := by
  -- Earlier keys leave the later ones alone, so their notes are those over the first table.
  suffices h : ∀ current : Entries Region, (∀ k ∈ incoming.map Prod.fst, current.get k = effective.get k) →
      (overlay snapshot current pre incoming).2 = incoming.flatMap (fun e =>
        if isReserved pre e.1 then [] else (overlayNode snapshot effective pre e.1 e.2).2) from
    h effective (fun _ _ => rfl)
  induction incoming with
  | nil => intro current _; rfl
  | cons e incoming ih =>
    obtain ⟨key,node⟩ := e
    intro current hc
    simp only [DistinctKeys,List.map_cons,List.nodup_cons] at hd
    simp only [List.map_cons,List.forall_mem_cons] at hc
    rw [overlay,List.flatMap_cons]
    by_cases hr : isReserved pre key
    · rw [if_pos (show _ ∧ _ from hr),if_pos hr]
      exact ih hd.2 current hc.2
    · rw [if_neg (show ¬(_ ∧ _) from hr),if_neg hr]
      have hrest := ih hd.2 (overlayNode snapshot current pre key node).1 (fun k hk => by
        have hne : k ≠ key := fun heq => hd.1 (heq ▸ hk)
        rw [overlayNode_get_of_ne hne,hc.2 k hk])
      dsimp only
      rw [hrest,(overlayNode_get_self hc.1 pre node).2]

end AppearanceDocument
end HolonightConfig
