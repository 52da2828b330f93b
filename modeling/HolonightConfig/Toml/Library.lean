import HolonightConfig.Toml.Tables

/-! The TOML library a program is linked with, and what may be relied on in it. -/
namespace Toml
open Text

structure ParseError where
  description : Bytes
  begin : Position

/-- Parsing, printing of a node in the library's default format, and the converting
accessors `node::value<T>`. -/
structure Library where
  parse : Bytes → Except ParseError (Entries Region)
  format : Node Unit → Bytes
  toInt64 : Node Unit → Option ℤ
  toDouble : Node Unit → Option Binary64
  toText : Node Unit → Option Bytes

namespace Library

/-- The accessors convert a whole floating-point number or a boolean to an integer, and
an integer to a floating-point number. -/
structure Permissive (L : Library) : Prop where
  toInt64 : ∀ n, L.toInt64 n = match n with
    | .scalar _ (.integer i) => some i
    | .scalar _ (.floating d) => d.toInteger.filter (fun i => -2 ^ 63 ≤ i ∧ i < 2 ^ 63)
    | .scalar _ (.boolean b) => some (if b then 1 else 0)
    | _ => none
  toDouble : ∀ n, L.toDouble n = match n with
    | .scalar _ (.floating d) => some d
    | .scalar _ (.integer i) => some (.ofInteger i)
    | _ => none
  toText : ∀ n, L.toText n = match n with
    | .scalar _ (.string s) => some s
    | _ => none

/-- Texts within the bound are parsed as TOML 1.0 has it, and every value carries the
region of its text. -/
def Conforms (L : Library) (bound : ℕ) : Prop :=
  ∀ s : Bytes, s.length ≤ bound →
    ((L.parse s).toOption.map Node.withoutEntries) = (Toml.parse s).map Node.withoutEntries

/-- Printing a table and parsing the text gives the table back. -/
def ReadsBack (L : Library) (t : Entries Unit) : Prop :=
  ∃ root, L.parse (L.format (.table () false t)) = .ok root ∧ Node.eraseEntries root = t

theorem Conforms.ok {L : Library} {bound : ℕ} (h : L.Conforms bound) {s : Bytes}
    (hs : s.length ≤ bound) {root : Entries Region} (hp : L.parse s = .ok root) :
    ∃ t, Toml.parse s = some t ∧ Node.withoutEntries t = Node.withoutEntries root := by
  have he := h s hs
  rw [hp] at he
  exact Option.map_eq_some_iff.mp he.symm

theorem Conforms.parses {L : Library} {bound : ℕ} (h : L.Conforms bound) {s : Bytes}
    (hs : s.length ≤ bound) {t : Entries Region} (hp : Toml.parse s = some t) :
    ∃ root, L.parse s = .ok root ∧ Node.withoutEntries root = Node.withoutEntries t := by
  have he := h s hs
  rw [hp] at he
  obtain ⟨root,hr,hw⟩ := Option.map_eq_some_iff.mp he
  refine ⟨root,?_,hw⟩
  cases hl : L.parse s with
  | error e => simp [hl,Except.toOption] at hr
  | ok root' => simp [hl,Except.toOption] at hr; rw [hr]

theorem Conforms.erase {L : Library} {bound : ℕ} (h : L.Conforms bound) {s : Bytes}
    (hs : s.length ≤ bound) {root : Entries Region} (hp : L.parse s = .ok root) :
    (Toml.parse s).map Node.eraseEntries = some (Node.eraseEntries root) := by
  obtain ⟨t,ht,hw⟩ := h.ok hs hp
  rw [ht,Option.map_some,← Node.eraseEntries_withoutEntries t,hw,Node.eraseEntries_withoutEntries]

end Library
end Toml
