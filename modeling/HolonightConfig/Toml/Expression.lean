import HolonightConfig.Toml.Tables

/-! How the plain expressions of a document are read: headers of bare keys, and bare keys
assigned a single-line string or a bare token. -/
namespace Toml
namespace Syntax
open Text Lexical

theorem isBareKey_ne {c : UInt8} (h : isBareKey c = true) :
    c ≠ lineFeed ∧ c ≠ carriageReturn ∧ c ≠ 0x20 ∧ isBlank c = false ∧ isQuote c = false ∧ c ≠ 0x5B := by
  refine ⟨?_,?_,?_,?_,?_,?_⟩
  · rintro rfl; revert h; decide
  · rintro rfl; revert h; decide
  · rintro rfl; revert h; decide
  · cases hb : isBlank c with
    | false => rfl
    | true =>
      simp only [isBlank,Bool.or_eq_true,beq_iff_eq] at hb
      rcases hb with rfl | rfl <;> revert h <;> decide
  · cases hb : isQuote c with
    | false => rfl
    | true =>
      simp only [isQuote,Bool.or_eq_true,beq_iff_eq] at hb
      rcases hb with rfl | rfl <;> revert h <;> decide
  · rintro rfl; revert h; decide

theorem readerFuel_succ : ∃ n, readerFuel = n + 1 := ⟨1048575,rfl⟩

/-- A bare key with the blanks behind it, before an octet that does not go on with it. -/
theorem key_bare {k b r : Bytes} (hne : k ≠ []) (hk : ∀ c ∈ k, isBareKey c = true)
    (hb : ∀ c ∈ b, isBlank c = true) {d : UInt8}
    (hd : isBareKey d = false ∧ isBlank d = false ∧ d ≠ 0x2E ∧ d ≠ lineFeed ∧ d ≠ carriageReturn) :
    key (k ++ (b ++ d :: r)) = some (⟨k ++ b,[k]⟩,d :: r) := by
  obtain ⟨c,k',rfl⟩ := List.exists_cons_of_ne_nil hne
  have hc := isBareKey_ne (hk c (by simp))
  have hstop : ∀ e, (b ++ d :: r).head? = some e → isBareKey e = false := by
    intro e he
    cases b with
    | nil => cases he; exact hd.1
    | cons f b =>
      cases he
      cases hf : isBareKey e with
      | false => rfl
      | true => exact absurd (hb e (by simp)) (by simp [(isBareKey_ne hf).2.2.2.1])
  have hrun : Lexer.run isBareKey (c :: k' ++ (b ++ d :: r)) = some (c :: k',b ++ d :: r) :=
    Lexer.run_stop hk hstop
  have hblank : Lexer.run isBlank (b ++ d :: r) = some (b,d :: r) :=
    Lexer.run_stop hb (by intro e he; cases he; exact hd.2.1)
  have hs : simpleKey (c :: k' ++ (b ++ d :: r)) = some (c :: k',b ++ d :: r) := by
    simp only [simpleKey,Lexer.bind_apply,Lexer.look_apply,List.cons_append,
      peek_cons ⟨hc.1,hc.2.1,hc.2.2.1⟩,List.head?_cons,hc.2.2.2.2.1,hk c (by simp)]
    exact hrun
  have hpeek : peek (d :: r) = [d] := by
    refine peek_cons ⟨hd.2.2.2.1,hd.2.2.2.2,?_⟩ r
    rintro rfl
    exact absurd hd.2.1 (by decide)
  have hdot : dottedKey readerFuel (c :: k' ++ (b ++ d :: r)) = some ([c :: k'],d :: r) := by
    obtain ⟨n,hn⟩ := readerFuel_succ
    rw [hn]
    simp only [dottedKey,Lexer.bind_apply,hs,hblank,Lexer.look_apply,hpeek]
    rw [Lexer.ite_apply,if_neg (by simpa using hd.2.2.1)]
    rfl
  have hw := Lexer.withText_of_some (L := dottedKey readerFuel) (t := c :: k' ++ b) (r := d :: r)
    (a := [c :: k']) (by simpa using hdot)
  rw [List.append_assoc] at hw
  simp only [key,Lexer.bind_apply,hw,Lexer.pure_apply]

/-- An assignment is its value and what ends the line. -/
theorem line_key {c : UInt8} {u s : Bytes} {k : Key} (hc : c ≠ lineFeed ∧ c ≠ carriageReturn ∧ c ≠ 0x20)
    (hb : isBlank c = false) (ho : c ≠ 0x5B) (hk : (isQuote c || isBareKey c) = true)
    (hkey : key (c :: u ++ 0x20 :: 0x3D :: 0x20 :: s) = some (k,0x3D :: 0x20 :: s))
    (hs : ∀ d, s.head? = some d → isBlank d = false) :
    line (c :: u ++ 0x20 :: 0x3D :: 0x20 :: s) = (value readerFuel s).bind (fun x =>
      (tail x.2).map (fun y => (.assign [] k [0x3D,0x20] x.1 y.1,y.2))) := by
  have hlead : Lexer.run isBlank (c :: u ++ 0x20 :: 0x3D :: 0x20 :: s) =
      some ([],c :: u ++ 0x20 :: 0x3D :: 0x20 :: s) :=
    Lexer.run_none (by intro d hd; cases hd; exact hb)
  have hpeek : peek (c :: u ++ 0x20 :: 0x3D :: 0x20 :: s) = [c] := peek_cons hc _
  have hequals : equals (0x3D :: 0x20 :: s) = some ([0x3D,0x20],s) := by
    have hr : Lexer.run isBlank (0x20 :: s) = some ([0x20],s) :=
      Lexer.run_stop (t := [0x20]) (List.forall_mem_singleton.mpr rfl) hs
    simp [equals,Lexer.bind_apply,hr,Lexer.pure_apply]
  simp only [line,Lexer.bind_apply,hlead,Lexer.look_apply,hpeek]
  rw [Lexer.ite_apply,if_neg (by simpa using ho),Lexer.ite_apply,if_pos (by simpa using hk)]
  simp only [assignment,Lexer.bind_apply,hkey,hequals]
  cases value readerFuel s with
  | none => rfl
  | some x =>
    obtain ⟨v,r⟩ := x
    simp only [Option.bind_some]
    cases tail r with
    | none => rfl
    | some y => rfl

/-- An assignment to a bare key. -/
theorem line_bareKey {k : Bytes} (hne : k ≠ []) (hk : ∀ c ∈ k, isBareKey c = true) {s : Bytes}
    (hs : ∀ c, s.head? = some c → isBlank c = false) :
    line (k ++ 0x20 :: 0x3D :: 0x20 :: s) = (value readerFuel s).bind (fun x =>
      (tail x.2).map (fun y =>
        (.assign [] ⟨k ++ [0x20],[k]⟩ [0x3D,0x20] x.1 y.1,y.2))) := by
  have hkey := key_bare (b := [0x20]) (r := 0x20 :: s) (d := 0x3D) hne hk (List.forall_mem_singleton.mpr rfl) (by decide)
  rw [List.singleton_append] at hkey
  obtain ⟨c,k',rfl⟩ := List.exists_cons_of_ne_nil hne
  have hc := isBareKey_ne (hk c (by simp))
  have hbare : isBareKey c = true := hk c (by simp)
  exact line_key ⟨hc.1,hc.2.1,hc.2.2.1⟩ hc.2.2.2.1 hc.2.2.2.2.2 (by simp [hbare]) hkey hs

/-- A value that is neither an array nor an inline table. -/
theorem value_scalar {c : UInt8} (hc : c ≠ lineFeed ∧ c ≠ carriageReturn ∧ c ≠ 0x20)
    (ha : c ≠ 0x5B ∧ c ≠ 0x7B) (s : Bytes) :
    value readerFuel (c :: s) = (scalar.withText (c :: s)).map (fun x => (.scalar x.1.1 x.1.2,x.2)) := by
  obtain ⟨n,hn⟩ := readerFuel_succ
  rw [hn]
  simp only [value,Lexer.bind_apply,Lexer.look_apply,peek_cons hc]
  rw [Lexer.ite_apply,if_neg (by simpa using ha.1),Lexer.ite_apply,if_neg (by simpa using ha.2)]
  simp only [Lexer.bind_apply]
  cases scalar.withText (c :: s) with
  | none => rfl
  | some x => rfl

theorem tail_lineFeed (r : Bytes) : tail (lineFeed :: r) = some ([lineFeed],r) := by
  simp [tail,Lexer.token,Transducer.read,tailStep,isBlank,lineFeed]

/-- A bare token at the end of its line. -/
theorem scalar_bare {w : Bytes} (hne : w ≠ []) (hw : ∀ c ∈ w, isBareScalar c = true) (r : Bytes) :
    scalar (w ++ lineFeed :: r) = (bareValue w).map (fun v => (v,lineFeed :: r)) := by
  have hrun : Lexer.run isBareScalar (w ++ lineFeed :: r) = some (w,lineFeed :: r) :=
    Lexer.run_stop hw (by intro d hd; cases hd; decide)
  have hbare : bare (w ++ lineFeed :: r) = (bareValue w).map (fun v => (v,lineFeed :: r)) := by
    simp only [bare,Lexer.bind_apply,Lexer.ite_apply,hrun,Lexer.look_apply,peek_lineFeed]
    cases bareValue w <;> simp [Lexer.ofOption,Lexer.fail,Lexer.pure_apply]
  obtain ⟨c,w',rfl⟩ := List.exists_cons_of_ne_nil hne
  have hc : isBareScalar c = true := hw c (by simp)
  have hq : isQuote c = false := by
    cases hb : isQuote c with
    | false => rfl
    | true =>
      simp only [isQuote,Bool.or_eq_true,beq_iff_eq] at hb
      rcases hb with rfl | rfl <;> revert hc <;> decide
  have hp : c ≠ lineFeed ∧ c ≠ carriageReturn ∧ c ≠ 0x20 := by
    refine ⟨?_,?_,?_⟩ <;> (rintro rfl; revert hc; decide)
  simp only [scalar,Lexer.bind_apply,Lexer.ite_apply,Lexer.look_apply,List.cons_append,peek_cons hp,List.head?_cons,hq]
  exact hbare

theorem isBareScalar_ne {c : UInt8} (h : isBareScalar c = true) :
    (c ≠ lineFeed ∧ c ≠ carriageReturn ∧ c ≠ 0x20) ∧ (c ≠ 0x5B ∧ c ≠ 0x7B) ∧ isBlank c = false := by
  refine ⟨⟨?_,?_,?_⟩,⟨?_,?_⟩,?_⟩
  · rintro rfl; revert h; decide
  · rintro rfl; revert h; decide
  · rintro rfl; revert h; decide
  · rintro rfl; revert h; decide
  · rintro rfl; revert h; decide
  · cases hb : isBlank c with
    | false => rfl
    | true =>
      simp only [isBlank,Bool.or_eq_true,beq_iff_eq] at hb
      rcases hb with rfl | rfl <;> revert h <;> decide

/-- The line that assigns a bare token to a bare key. -/
def bareLine (k w : Bytes) (v : Scalar) : Line :=
  .assign [] ⟨k ++ [0x20],[k]⟩ [0x3D,0x20] (.scalar w v) [lineFeed]

theorem line_bare {k w : Bytes} (hne : k ≠ []) (hk : ∀ c ∈ k, isBareKey c = true)
    (hnw : w ≠ []) (hw : ∀ c ∈ w, isBareScalar c = true) {v : Scalar} (hv : bareValue w = some v)
    (r : Bytes) :
    line (k ++ 0x20 :: 0x3D :: 0x20 :: (w ++ lineFeed :: r)) = some (bareLine k w v,r) := by
  have hs := scalar_bare hnw hw r
  rw [hv,Option.map_some] at hs
  have hwt := Lexer.withText_of_some hs
  obtain ⟨c,w',rfl⟩ := List.exists_cons_of_ne_nil hnw
  obtain ⟨hc,ha,hb⟩ := isBareScalar_ne (hw c (by simp))
  rw [line_bareKey hne hk (by intro d hd; cases hd; exact hb),List.cons_append,value_scalar hc ha,
    ← List.cons_append,hwt]
  simp [tail_lineFeed,bareLine]

/-- A basic string behind its opening quote, if its text does not begin with another. -/
theorem scalar_basic {s : Bytes} (hs : s.head? ≠ some 0x22) :
    scalar (0x22 :: s) = (singleLine 0x22 s).map (fun x => (.string x.1,x.2)) := by
  have hp : (peek s).head? ≠ some 0x22 := by
    by_cases hl : atLineEnd s
    · rw [peek_eq_nil.mpr hl]; simp
    · rwa [peek_head hl]
  simp only [scalar,Lexer.bind_apply,Lexer.ite_apply,Lexer.look_apply,peek_cons (c := 0x22) (by decide),List.head?_cons,
    show isQuote 0x22 = true from rfl,if_true,Lexer.octet_cons,string,if_neg hp]
  cases singleLine 0x22 s with
  | none => rfl
  | some x => rfl

/-- The line that assigns a basic string to a bare key; `none` where the string is not
well formed. -/
theorem line_basic {k e : Bytes} (hne : k ≠ []) (hk : ∀ c ∈ k, isBareKey c = true)
    (he : e.head? ≠ some 0x22) (hn : e ≠ []) {o : Option Bytes}
    (hr : ∀ r, singleLine 0x22 (e ++ 0x22 :: r) = o.map (·,r)) (r : Bytes) :
    line (k ++ 0x20 :: 0x3D :: 0x20 :: (0x22 :: (e ++ 0x22 :: lineFeed :: r))) =
      o.map (fun s => (bareLine k (0x22 :: (e ++ [0x22])) (.string s),r)) := by
  have hh : (e ++ 0x22 :: lineFeed :: r).head? ≠ some 0x22 := by
    obtain ⟨c,e',rfl⟩ := List.exists_cons_of_ne_nil hn
    exact he
  rw [line_bareKey hne hk (by intro d hd; cases hd; decide),value_scalar (by decide) (by decide)]
  have hs := scalar_basic hh
  rw [hr (lineFeed :: r)] at hs
  cases o with
  | none =>
    have hw := Lexer.withText_of_none (L := scalar) (by simpa using hs)
    simp [hw]
  | some s =>
    have hw := Lexer.withText_of_some (L := scalar) (t := 0x22 :: (e ++ [0x22])) (r := lineFeed :: r)
      (a := .string s) (by simpa using hs)
    have ht : (0x22 :: (e ++ [0x22])) ++ lineFeed :: r = 0x22 :: (e ++ 0x22 :: lineFeed :: r) := by simp
    rw [ht] at hw
    simp [hw,tail_lineFeed,bareLine]

theorem line_header {k : Bytes} (hne : k ≠ []) (hk : ∀ c ∈ k, isBareKey c = true) (r : Bytes) :
    line (0x5B :: (k ++ 0x5D :: lineFeed :: r)) =
      some (.header false [] [] ⟨k,[k]⟩ [lineFeed],r) := by
  have hkey := key_bare (b := []) (r := lineFeed :: r) (d := 0x5D) hne hk (by simp) (by decide)
  rw [List.nil_append,List.append_nil] at hkey
  obtain ⟨c,k',rfl⟩ := List.exists_cons_of_ne_nil hne
  have hc := isBareKey_ne (hk c (by simp))
  have hlead : ∀ s, Lexer.run isBlank (0x5B :: s) = some ([],0x5B :: s) :=
    fun s => Lexer.run_none (by intro d hd; cases hd; decide)
  have hopen : Lexer.run isBlank (c :: k' ++ 0x5D :: lineFeed :: r) =
      some ([],c :: k' ++ 0x5D :: lineFeed :: r) :=
    Lexer.run_none (by intro d hd; cases hd; exact hc.2.2.2.1)
  have hpeek : peek (c :: k' ++ 0x5D :: lineFeed :: r) = [c] := peek_cons ⟨hc.1,hc.2.1,hc.2.2.1⟩ _
  simp only [line,Lexer.bind_apply,hlead,Lexer.look_apply,peek_cons (c := 0x5B) (by decide)]
  rw [Lexer.ite_apply,if_pos (by rfl)]
  simp only [Lexer.bind_apply,Lexer.octet_cons,Lexer.look_apply,hpeek]
  rw [Lexer.ite_apply,if_neg (by simpa using hc.2.2.2.2.2)]
  simp only [header,Lexer.bind_apply,hopen,hkey,Lexer.octet_cons]
  simp [Lexer.bind_apply,tail_lineFeed,Lexer.pure_apply]

theorem line_empty (r : Bytes) : line (lineFeed :: r) = some (.blank [lineFeed],r) := by
  have hlead : Lexer.run isBlank (lineFeed :: r) = some ([],lineFeed :: r) :=
    Lexer.run_none (by intro d hd; cases hd; decide)
  simp [line,Lexer.bind_apply,hlead,tail_lineFeed,Lexer.pure_apply]

/-! ### Documents line by line -/

/-- A line whose text is read as that line whatever follows, or refused if it is not to
be accepted. -/
def IsLine (accepted : Prop) (l : Line) : Prop :=
  l.text ≠ [] ∧ ∀ r, (accepted → line (l.text ++ r) = some (l,r)) ∧
    (¬ accepted → line (l.text ++ r) = none)

theorem lines_text {accepted : Line → Prop} {ls : List Line} (h : ∀ l ∈ ls, IsLine (accepted l) l)
    {fuel : ℕ} (hf : ls.length ≤ fuel) :
    ((∀ l ∈ ls, accepted l) → lines fuel (ls.flatMap Line.text) = some ls) ∧
    ((∃ l ∈ ls, ¬ accepted l) → lines fuel (ls.flatMap Line.text) = none) := by
  induction ls generalizing fuel with
  | nil => cases fuel <;> simp [lines]
  | cons l ls ih =>
    obtain ⟨ht,hl⟩ := h l (by simp)
    cases fuel with
    | zero => simp at hf
    | succ fuel =>
      obtain ⟨hall,hsome⟩ := @ih (fun m hm => h m (by simp [hm])) fuel (by simpa using hf)
      obtain ⟨hacc,hrej⟩ := hl (ls.flatMap Line.text)
      obtain ⟨c,t,hc⟩ := List.exists_cons_of_ne_nil ht
      rw [List.flatMap_cons]
      rw [hc,List.cons_append] at hacc hrej ⊢
      simp only [lines]
      by_cases ha : accepted l
      · rw [hacc ha]
        constructor
        · intro h'
          simp [hall (fun m hm => h' m (by simp [hm]))]
        · rintro ⟨m,hm,hn⟩
          rcases List.mem_cons.mp hm with rfl | hm
          · exact absurd ha hn
          · simp [hsome ⟨m,hm,hn⟩]
      · rw [hrej ha]
        exact ⟨fun h' => absurd (h' l (by simp)) ha,fun _ => rfl⟩

end Syntax
end Toml
