import HolonightConfig.Store

/-! The two loops that write a content, on every sequence of results of `write`. -/
namespace HolonightConfig
open Text Posix Program

namespace Storage

/-- What `write` returns call after call; interruptions come to an end. -/
structure WriteResults where
  result : ℕ → Except Errno ℕ
  settles : ∃ i, ∀ j, i ≤ j → result j ≠ .error .interrupted

/-- The octets a result says were written. -/
def written : Except Errno ℕ → ℕ
  | .ok n => n
  | .error _ => 0

/-- The octets written before a call. -/
def WriteResults.before (s : WriteResults) : ℕ → ℕ
  | 0 => 0
  | i + 1 => s.before i + written (s.result i)

/-- The calls are answered in order, no count being more than was asked for; a state is the
number of calls made and what the file was handed. -/
def WriteResults.Plays (s : WriteResults) : Semantics Call Call.Answer (ℕ × Bytes)
  | v,.write _ octets,r,v' => r = (s.result v.1).map (min · octets.length) ∧
    v' = (v.1 + 1,v.2 ++ octets.take (written (s.result v.1)))
  | _,_,_,_ => False

/-- With budget enough a loop comes to its end on the results. -/
def WriteResults.Ends (s : WriteResults) (loop : ℕ → Bytes → Command (Except Errno Unit))
    (content : Bytes) (outcome : Except Errno Unit) (handed : Bytes) : Prop :=
  ∃ budget calls, Reaches s.Plays (loop budget content) (0,[]) (.ret outcome) (calls,handed)

def WriteResults.Total (s : WriteResults) (loop : ℕ → Bytes → Command (Except Errno Unit))
    (content : Bytes) : Prop := ∃ outcome handed, s.Ends loop content outcome handed

/-- A loop that succeeds has handed over the content. -/
def WriteResults.Exact (s : WriteResults) (loop : ℕ → Bytes → Command (Except Errno Unit))
    (content : Bytes) : Prop := ∀ handed, s.Ends loop content (.ok ()) handed → handed = content

/-- A write of nothing before the content is complete comes after a failure. -/
def WriteResults.NothingLate (s : WriteResults) (content : Bytes) : Prop :=
  ∀ i, s.result i = .ok 0 → s.before i < content.length → ∃ j e, j < i ∧ s.result j = .error e ∧ e ≠ .interrupted

/-- Both loops succeed or neither does, and with the same error where no write of nothing comes first. -/
def WriteResults.Alike (s : WriteResults) (loop loop' : ℕ → Bytes → Command (Except Errno Unit))
    (content : Bytes) : Prop := ∀ r r' h h', s.Ends loop content r h → s.Ends loop' content r' h' →
  (r = .ok () ↔ r' = .ok ()) ∧ (s.NothingLate content → r = r')

/-! ### Both loops -/

/-- A loop by the results that end it. -/
def writeLoop (settle : Except Errno ℕ → Option Errno) (file : Descriptor) :
    ℕ → Bytes → Command (Except Errno Unit)
  | _,[] => pure (.ok ())
  | 0,_ :: _ => .exhausted
  | budget + 1,c :: octets => do
    let r ← Storage.write file (c :: octets)
    (settle r).elim (writeLoop settle file budget ((c :: octets).drop (written r))) (fun e => pure (.error e))

def failure : Except Errno ℕ → Option Errno
  | .error .interrupted => none
  | .error e => some e
  | .ok _ => none

def failureOrNothing : Except Errno ℕ → Option Errno
  | .ok 0 => some (.other [])
  | r => failure r

theorem writeAll_eq (file : Descriptor) (budget : ℕ) (octets : Bytes) :
    Store.writeAll file budget octets = writeLoop failure file budget octets := by
  induction budget generalizing octets with
  | zero => cases octets <;> rfl
  | succ budget ih =>
    cases octets with
    | nil => rfl
    | cons c octets =>
      simp only [Store.writeAll,writeLoop]
      congr 1
      funext r
      cases r with
      | ok n => exact ih _
      | error e => cases e <;> first | exact ih _ | rfl

theorem writeTemporary_eq (file : Descriptor) (budget : ℕ) (octets : Bytes) :
    DocumentStore.writeTemporary file budget octets = writeLoop failureOrNothing file budget octets := by
  induction budget generalizing octets with
  | zero => cases octets <;> rfl
  | succ budget ih =>
    cases octets with
    | nil => rfl
    | cons c octets =>
      simp only [DocumentStore.writeTemporary,writeLoop]
      congr 1
      funext r
      cases r with
      | ok n =>
        cases n with
        | zero => rfl
        | succ n => exact ih _
      | error e => cases e <;> first | exact ih _ | rfl

section
variable {s : WriteResults} {settle : Except Errno ℕ → Option Errno} {content : Bytes}
variable (hsettle : ∀ r m, 0 < m → settle (r.map (min · m)) = settle r)

theorem WriteResults.before_mono (s : WriteResults) {i j : ℕ} (h : i ≤ j) : s.before i ≤ s.before j := by
  induction h with
  | refl => exact Nat.le_refl _
  | step _ ih => exact ih.trans (Nat.le_add_right _ _)

theorem error_ne_ok {e : Errno} : (.error e : Except Errno Unit) ≠ .ok () := fun h => by cases h

theorem drop_written (r : Except Errno ℕ) (octets : Bytes) :
    octets.drop (written (r.map (min · octets.length))) = octets.drop (written r) := by
  cases r with
  | error e => rfl
  | ok n =>
    change octets.drop (min n octets.length) = octets.drop n
    rcases Nat.le_total n octets.length with h | h
    · rw [Nat.min_eq_left h]
    · rw [Nat.min_eq_right h,List.drop_length,List.drop_of_length_le h]

theorem drop_before (s : WriteResults) (content : Bytes) (i : ℕ) :
    (content.drop (s.before i)).drop (written (s.result i)) = content.drop (s.before (i + 1)) := by
  rw [List.drop_drop]
  rfl

theorem take_before (s : WriteResults) (content : Bytes) (i : ℕ) :
    content.take (s.before i) ++ (content.drop (s.before i)).take (written (s.result i)) =
      content.take (s.before (i + 1)) := (List.take_add ..).symm

theorem writeLoop_done (file : Descriptor) (budget : ℕ) {i : ℕ} (h : content.length ≤ s.before i) :
    writeLoop settle file budget (content.drop (s.before i)) = pure (.ok ()) := by
  rw [List.drop_of_length_le h]
  cases budget <;> rfl

theorem writeLoop_call (file : Descriptor) (budget : ℕ) {i : ℕ} (h : s.before i < content.length) :
    writeLoop settle file (budget + 1) (content.drop (s.before i)) =
      .call (.write file (content.drop (s.before i))) (fun r => (settle r).elim
        (writeLoop settle file budget ((content.drop (s.before i)).drop (written r)))
        (fun e => .ret (.error e))) := by
  cases hc : content.drop (s.before i) with
  | nil => exact absurd (List.drop_eq_nil_iff.mp hc) (Nat.not_le.mpr h)
  | cons c octets => rfl

/-- How a loop goes on from the answer to a call. -/
def WriteResults.goesOn (s : WriteResults) (settle : Except Errno ℕ → Option Errno) (file : Descriptor)
    (content : Bytes) (budget i : ℕ) : Command (Except Errno Unit) :=
  (settle (s.result i)).elim (writeLoop settle file budget (content.drop (s.before (i + 1))))
    (fun e => .ret (.error e))

include hsettle in
theorem next_call (file : Descriptor) (budget : ℕ) {i : ℕ} (h : s.before i < content.length) :
    ((settle ((s.result i).map (min · (content.drop (s.before i)).length))).elim
      (writeLoop settle file budget ((content.drop (s.before i)).drop
        (written ((s.result i).map (min · (content.drop (s.before i)).length)))))
      (fun e => (.ret (.error e) : Command (Except Errno Unit)))) =
    s.goesOn settle file content budget i := by
  have hl : 0 < (content.drop (s.before i)).length := by rw [List.length_drop]; omega
  rw [hsettle _ _ hl,drop_written,drop_before]
  rfl

include hsettle in
/-- What a call before the end of the content leads to. -/
theorem writeLoop_step (file : Descriptor) (budget : ℕ) {i : ℕ} (h : s.before i < content.length) :
    Reaches s.Plays (writeLoop settle file (budget + 1) (content.drop (s.before i)))
      (i,content.take (s.before i)) (s.goesOn settle file content budget i)
      (i + 1,content.take (s.before (i + 1))) := by
  rw [writeLoop_call file budget h,← next_call hsettle file budget h,← take_before]
  exact Reaches.step .start ⟨rfl,rfl⟩

include hsettle in
theorem writeLoop_ensures_step {guarantee : Semantics Call Call.Answer (ℕ × Bytes)}
    {Q : Except Errno Unit → ℕ × Bytes → Prop} (file : Descriptor) (budget : ℕ) {i : ℕ}
    (h : s.before i < content.length) (hG : ∀ v c r v', guarantee v c r v')
    (hQ : Ensures s.Plays guarantee Q (s.goesOn settle file content budget i)
      (i + 1,content.take (s.before (i + 1)))) :
    Ensures s.Plays guarantee Q (writeLoop settle file (budget + 1) (content.drop (s.before i)))
      (i,content.take (s.before i)) := by
  rw [writeLoop_call file budget h]
  rintro r v ⟨hr,hv⟩
  refine ⟨hG _ _ _ _,?_⟩
  rw [← next_call hsettle file budget h,← take_before] at hQ
  rw [hr,hv]
  exact hQ

include hsettle in
/-- A loop that is past the content at some call, or ended by its result, comes to an end. -/
theorem writeLoop_ends (file : Descriptor) (d i : ℕ)
    (h : content.length ≤ s.before (i + d) ∨ settle (s.result (i + d)) ≠ none) :
    ∃ outcome calls handed, Reaches s.Plays (writeLoop settle file (d + 1) (content.drop (s.before i)))
      (i,content.take (s.before i)) (.ret outcome) (calls,handed) := by
  induction d generalizing i with
  | zero =>
    rcases Nat.lt_or_ge (s.before i) content.length with hlt | hge
    · rw [Nat.add_zero] at h
      obtain ⟨e,he⟩ := Option.ne_none_iff_exists'.mp (h.resolve_left (Nat.not_le.mpr hlt))
      have hstep := writeLoop_step hsettle file 0 hlt
      rw [WriteResults.goesOn,he] at hstep
      exact ⟨_,_,_,hstep⟩
    · rw [writeLoop_done file _ hge]
      exact ⟨_,_,_,.start⟩
  | succ d ih =>
    rcases Nat.lt_or_ge (s.before i) content.length with hlt | hge
    · have hstep := writeLoop_step hsettle file (d + 1) hlt
      cases he : settle (s.result i) with
      | some e =>
        rw [WriteResults.goesOn,he] at hstep
        exact ⟨_,_,_,hstep⟩
      | none =>
        rw [WriteResults.goesOn,he] at hstep
        obtain ⟨outcome,calls,handed,hr⟩ := ih (i + 1) (by rwa [show i + 1 + d = i + (d + 1) by omega])
        exact ⟨outcome,calls,handed,hstep.trans hr⟩
    · rw [writeLoop_done file _ hge]
      exact ⟨_,_,_,.start⟩

/-- What a loop has made of the results when it returns. -/
def WriteResults.Outcome (s : WriteResults) (settle : Except Errno ℕ → Option Errno) (content : Bytes)
    (r : Except Errno Unit) (handed : Bytes) : Prop :=
  (r = .ok () ∧ handed = content ∧ ∃ i, content.length ≤ s.before i ∧
    ∀ j, j < i → settle (s.result j) = none) ∨
  (∃ e, r = .error e ∧ ∃ i, s.before i < content.length ∧ settle (s.result i) = some e ∧
    ∀ j, j < i → settle (s.result j) = none)

include hsettle in
theorem writeLoop_ensures (file : Descriptor) (budget i : ℕ) (hi : ∀ j, j < i → settle (s.result j) = none) :
    Ensures s.Plays (fun _ _ _ _ => True) (fun r v => s.Outcome settle content r v.2)
      (writeLoop settle file budget (content.drop (s.before i))) (i,content.take (s.before i)) := by
  induction budget generalizing i with
  | zero =>
    cases hc : content.drop (s.before i) with
    | nil =>
      have hle := List.drop_eq_nil_iff.mp hc
      exact Or.inl ⟨rfl,List.take_of_length_le hle,i,hle,hi⟩
    | cons c octets => trivial
  | succ budget ih =>
    rcases Nat.lt_or_ge (s.before i) content.length with hlt | hge
    · refine writeLoop_ensures_step hsettle file budget hlt (fun _ _ _ _ => trivial) ?_
      cases he : settle (s.result i) with
      | some e =>
        rw [WriteResults.goesOn,he]
        exact Or.inr ⟨e,rfl,i,hlt,he,hi⟩
      | none =>
        rw [WriteResults.goesOn,he]
        refine ih (i + 1) fun j hj => ?_
        rcases Nat.lt_succ_iff_lt_or_eq.mp hj with h | rfl
        · exact hi j h
        · exact he
    · rw [writeLoop_done file _ hge]
      exact Or.inl ⟨rfl,List.take_of_length_le hge,i,hge,hi⟩

include hsettle in
theorem WriteResults.Ends.outcome {file : Descriptor} {r : Except Errno Unit} {handed : Bytes}
    (h : s.Ends (writeLoop settle file) content r handed) : s.Outcome settle content r handed := by
  obtain ⟨budget,calls,hr⟩ := h
  exact (writeLoop_ensures hsettle file budget 0 (fun _ hj => absurd hj (Nat.not_lt_zero _))).returned hr

include hsettle in
theorem WriteResults.total_of_stop (file : Descriptor) {i : ℕ}
    (h : content.length ≤ s.before i ∨ settle (s.result i) ≠ none) : s.Total (writeLoop settle file) content := by
  obtain ⟨outcome,calls,handed,hr⟩ := writeLoop_ends hsettle file i 0 (by rwa [Nat.zero_add])
  exact ⟨outcome,handed,i + 1,calls,hr⟩

include hsettle in
theorem WriteResults.exact_writeLoop (file : Descriptor) : s.Exact (writeLoop settle file) content := by
  intro handed h
  rcases h.outcome hsettle with ⟨-,hh,-⟩ | ⟨e,he,-⟩
  · exact hh
  · cases he

end

section
variable {s : WriteResults} {content : Bytes}

/-- Where no call fails but by an interruption, nor writes nothing, the content comes to its end. -/
theorem WriteResults.stops (h : ∀ i, s.result i = .ok 0 → content.length ≤ s.before i) :
    ∃ i, content.length ≤ s.before i ∨ failure (s.result i) ≠ none := by
  by_contra hno
  have hgo : ∀ i, s.before i < content.length ∧ failure (s.result i) = none := fun i =>
    ⟨Nat.not_le.mp fun hle => hno ⟨i,Or.inl hle⟩,by_contra fun hne => hno ⟨i,Or.inr hne⟩⟩
  obtain ⟨n,hn⟩ := s.settles
  have hgrow : ∀ d, d ≤ s.before (n + d) := by
    intro d
    induction d with
    | zero => exact Nat.zero_le _
    | succ d ih =>
      have hb : s.before (n + (d + 1)) = s.before (n + d) + written (s.result (n + d)) := rfl
      have hpos : 0 < written (s.result (n + d)) := by
        have hf := (hgo (n + d)).2
        cases hr : s.result (n + d) with
        | error e =>
          rw [hr] at hf
          have hne := hn (n + d) (Nat.le_add_right _ _)
          rw [hr] at hne
          cases e <;> first | exact absurd rfl hne | exact absurd hf (Option.some_ne_none _)
        | ok k =>
          refine Nat.pos_of_ne_zero fun hk => ?_
          change k = 0 at hk
          rw [hk] at hr
          exact absurd (h _ hr) (Nat.not_le.mpr (hgo _).1)
      omega
  exact absurd (hgrow content.length) (Nat.not_le.mpr (hgo _).1)

theorem failure_capped (r : Except Errno ℕ) (m : ℕ) (_ : 0 < m) :
    failure (r.map (min · m)) = failure r := by
  cases r with
  | error e => rfl
  | ok n => rfl

theorem failureOrNothing_capped (r : Except Errno ℕ) (m : ℕ) (hm : 0 < m) :
    failureOrNothing (r.map (min · m)) = failureOrNothing r := by
  obtain ⟨m,rfl⟩ := Nat.exists_eq_add_one.mpr hm
  cases r with
  | error e => rfl
  | ok n =>
    cases n with
    | zero => simp [Except.map]
    | succ n =>
      change failureOrNothing (.ok (min (n + 1) (m + 1))) = _
      rw [Nat.succ_min_succ]
      rfl

theorem failureOrNothing_ne {r : Except Errno ℕ} (h : failureOrNothing r ≠ none) :
    r = .ok 0 ∨ failure r ≠ none := by
  cases r with
  | error e => exact Or.inr h
  | ok n =>
    cases n with
    | zero => exact Or.inl rfl
    | succ n => exact absurd rfl h

theorem failureOrNothing_none {r : Except Errno ℕ} (h : failureOrNothing r = none) :
    r ≠ .ok 0 ∧ failure r = none := by
  cases r with
  | error e => exact ⟨(by rintro ⟨⟩),h⟩
  | ok n =>
    cases n with
    | zero => exact absurd h (Option.some_ne_none _)
    | succ n => exact ⟨(by rintro ⟨⟩),rfl⟩

theorem failure_ne {r : Except Errno ℕ} : failure r ≠ none ↔ ∃ e, r = .error e ∧ e ≠ .interrupted := by
  cases r with
  | error e => cases e <;> simp [failure]
  | ok n => simp [failure]

/-- Past the content at one call, ended before it at another. -/
theorem WriteResults.lt_of_past {i j : ℕ} (hi : s.before i < content.length)
    (hj : content.length ≤ s.before j) : i < j := by
  by_contra hle
  have := s.before_mono (Nat.not_lt.mp hle)
  omega

theorem WriteResults.total_writeTemporary (file : Descriptor) :
    s.Total (writeLoop failureOrNothing file) content := by
  by_cases h : ∀ i, s.result i = .ok 0 → content.length ≤ s.before i
  · obtain ⟨i,hi⟩ := s.stops h
    refine total_of_stop failureOrNothing_capped file (i := i) ?_
    refine hi.imp_right fun hf hn => hf (failureOrNothing_none hn).2
  · push Not at h
    obtain ⟨i,hi,-⟩ := h
    exact total_of_stop failureOrNothing_capped file (i := i) (Or.inr (by rw [hi]; exact Option.some_ne_none _))

/-! ### Where they agree -/

/-- A call fails before the content is complete, or none before that writes nothing. -/
def WriteResults.Settled (s : WriteResults) (content : Bytes) : Prop :=
  (∃ i e, s.result i = .error e ∧ e ≠ .interrupted ∧ s.before i < content.length) ∨
  ∀ i, s.result i = .ok 0 → content.length ≤ s.before i

theorem WriteResults.total_writeAll (file : Descriptor) (h : s.Settled content) :
    s.Total (writeLoop failure file) content := by
  rcases h with ⟨i,e,hr,he,-⟩ | h
  · exact total_of_stop failure_capped file (i := i) (Or.inr (failure_ne.mpr ⟨e,hr,he⟩))
  · obtain ⟨i,hi⟩ := s.stops h
    exact total_of_stop failure_capped file hi

/-- The same call fails both loops. -/
theorem WriteResults.same_failure (hl : s.NothingLate content) {n m : ℕ} {e e' : Errno}
    (hf : failure (s.result n) = some e)
    (hbefore : ∀ j, j < n → failure (s.result j) = none) (hm : s.before m < content.length)
    (hf' : failureOrNothing (s.result m) = some e')
    (hbefore' : ∀ j, j < m → failureOrNothing (s.result j) = none) : e = e' := by
  have hfirst : failure (s.result m) ≠ none := by
    rcases failureOrNothing_ne (by rw [hf']; exact Option.some_ne_none _) with hnothing | hne
    · obtain ⟨j,e,hj,hr,he⟩ := hl m hnothing hm
      exact absurd (failureOrNothing_none (hbefore' j hj)).2 (failure_ne.mpr ⟨e,hr,he⟩)
    · exact hne
  rcases Nat.lt_trichotomy n m with h | rfl | h
  · have := (failureOrNothing_none (hbefore' n h)).2
    rw [hf] at this
    cases this
  · obtain ⟨e₁,hr,-⟩ := failure_ne.mp hfirst
    rw [hr] at hf hf'
    exact Option.some.inj (hf.symm.trans hf')
  · exact absurd (hbefore m h) hfirst

theorem WriteResults.alike (file file' : Descriptor) (h : s.Settled content) :
    s.Alike (writeLoop failure file) (writeLoop failureOrNothing file') content := by
  intro r r' g g' hr hr'
  rcases hr.outcome failure_capped with ⟨hok,-,n,hn,hbefore⟩ | ⟨e,rfl,n,hn,hfail,hbefore⟩
  · have hok' : r' = .ok () := by
      rcases hr'.outcome failureOrNothing_capped with ⟨hok',-,-⟩ | ⟨e',-,m,hm,hstop,-⟩
      · exact hok'
      · have hm0 : s.result m = .ok 0 := (failureOrNothing_ne (by rw [hstop]; exact Option.some_ne_none _)).resolve_right
          fun hf => hf (hbefore m (s.lt_of_past hm hn))
        rcases h with ⟨i,e,hi,he,hlt⟩ | h
        · exact absurd (hbefore i (s.lt_of_past hlt hn)) (failure_ne.mpr ⟨e,hi,he⟩)
        · exact absurd (h m hm0) (Nat.not_le.mpr hm)
    exact ⟨iff_of_true hok hok',fun _ => hok.trans hok'.symm⟩
  · rcases hr'.outcome failureOrNothing_capped with ⟨-,-,m,hm,hbefore'⟩ | ⟨e',rfl,m,hm,hstop,hbefore'⟩
    · have := (failureOrNothing_none (hbefore' n (s.lt_of_past hn hm))).2
      rw [hfail] at this
      cases this
    · refine ⟨iff_of_false error_ne_ok error_ne_ok,fun hl => ?_⟩
      rw [s.same_failure hl hfail hbefore hm hstop hbefore']

theorem WriteResults.settled_of_alike (file file' : Descriptor)
    (ht : s.Total (writeLoop failure file) content)
    (ha : s.Alike (writeLoop failure file) (writeLoop failureOrNothing file') content) :
    s.Settled content := by
  by_contra hno
  obtain ⟨hfail,hnothing⟩ := not_or.mp hno
  push Not at hnothing
  obtain ⟨i,hi,hlt⟩ := hnothing
  obtain ⟨r,g,hr⟩ := ht
  obtain ⟨r',g',hr'⟩ := @total_writeTemporary s content file'
  have hok : r = .ok () := by
    rcases hr.outcome failure_capped with ⟨hok,-⟩ | ⟨e',-,n,hn,hf,-⟩
    · exact hok
    · obtain ⟨e,he,hne⟩ := failure_ne.mp (by rw [hf]; exact Option.some_ne_none _)
      exact absurd ⟨n,e,he,hne,hn⟩ hfail
  rcases hr'.outcome failureOrNothing_capped with ⟨-,-,n,hn,hbefore⟩ | ⟨e',he',-⟩
  · exact (failureOrNothing_none (hbefore i (s.lt_of_past hlt hn))).1 hi
  · have hok' := (ha r r' g g' hr hr').1.mp hok
    rw [he'] at hok'
    exact error_ne_ok hok'

/-- Both loops end, succeed with the content only, and have the same outcome. -/
def WriteResults.TotalAndExact (s : WriteResults) (file file' : Descriptor) (content : Bytes) : Prop :=
  (s.Total (Store.writeAll file) content ∧ s.Total (DocumentStore.writeTemporary file') content) ∧
  (s.Exact (Store.writeAll file) content ∧ s.Exact (DocumentStore.writeTemporary file') content) ∧
  s.Alike (Store.writeAll file) (DocumentStore.writeTemporary file') content

/-- A write of nothing before the content is complete is tried again by one loop and a failure
to the other. -/
theorem writeLoops_totalAndExact (s : WriteResults) (file file' : Descriptor) (content : Bytes) :
    s.TotalAndExact file file' content ↔ s.Settled content := by
  have hAll : Store.writeAll file = writeLoop failure file := by
    funext budget octets
    exact writeAll_eq file budget octets
  have hTemporary : DocumentStore.writeTemporary file' = writeLoop failureOrNothing file' := by
    funext budget octets
    exact writeTemporary_eq file' budget octets
  rw [WriteResults.TotalAndExact,hAll,hTemporary]
  constructor
  · rintro ⟨⟨ht,-⟩,-,ha⟩
    exact WriteResults.settled_of_alike file file' ht ha
  · intro h
    exact ⟨⟨WriteResults.total_writeAll file h,WriteResults.total_writeTemporary file'⟩,
      ⟨WriteResults.exact_writeLoop failure_capped file,
        WriteResults.exact_writeLoop failureOrNothing_capped file'⟩,
      WriteResults.alike file file' h⟩

/-- Nothing is written once, then everything. -/
def onceNothing : WriteResults where
  result i := .ok (if i = 0 then 0 else 1)
  settles := ⟨0,fun _ _ h => by cases h⟩

theorem writeLoops_differ : ¬ ∀ (s : WriteResults) (file file' : Descriptor) (content : Bytes),
    s.TotalAndExact file file' content := by
  intro h
  let file : Descriptor := ⟨[],[0x74]⟩
  have hAll : onceNothing.Ends (Store.writeAll file) [0x61] (.ok ()) [0x61] :=
    ⟨2,2,by
      rw [writeAll_eq]
      exact (writeLoop_step failure_capped file 1 (i := 0) (by decide)).trans
        (writeLoop_step failure_capped file 0 (i := 1) (by decide))⟩
  have hTemporary : onceNothing.Ends (DocumentStore.writeTemporary file) [0x61] (.error (.other [])) [] :=
    ⟨2,1,by
      rw [writeTemporary_eq]
      exact writeLoop_step failureOrNothing_capped file 1 (i := 0) (by decide)⟩
  exact error_ne_ok (((h onceNothing file file [0x61]).2.2 _ _ _ _ hAll hTemporary).1.mp rfl)

end

end Storage
end HolonightConfig
