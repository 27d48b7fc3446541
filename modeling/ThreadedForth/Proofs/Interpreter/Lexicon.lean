
import ThreadedForth.Proofs.Dictionary.History
import ThreadedForth.Proofs.Interpreter.Source

/-!
# What a name means

The outer interpreter looks a word up among the entries of the dictionary: the newest one that is visible and
has the name, in any case. Code and data that are laid down above the headers change nothing about it.
-/

namespace ThreadedForth

open Dictionary Header

/-- The dictionary of the machine holds the entries. -/
abbrev Lexicon (entries : List Header) (m : Machine) : Prop :=
  Represents Layout.dictionaryEnd m.dictionary m.memory entries

/-- The entry that a name stands for. -/
def lookup (entries : List Header) (name : String) : Option Header :=
  entries.find? fun entry => entry.isVisible && sameName entry.name name

section Lookup

variable {entries : List Header} {entry : Header} {name other : String}

theorem mem_of_lookup (hlook : lookup entries name = some entry) : entry ∈ entries :=
  List.mem_of_find?_eq_some hlook

theorem lookup_cons_of_hidden (hhidden : entry.isVisible = false) : lookup (entry :: entries) name = lookup entries name := by
  rw [lookup, List.find?_cons, hhidden, Bool.false_and]
  rfl

theorem lookup_cons_of_name (hvisible : entry.isVisible = true) (hname : sameName entry.name name = true) :
    lookup (entry :: entries) name = some entry := by
  rw [lookup, List.find?_cons, hvisible, hname]
  rfl

theorem lookup_cons_of_other (hname : sameName entry.name name = false) :
    lookup (entry :: entries) name = lookup entries name := by
  rw [lookup, List.find?_cons, hname, Bool.and_false]
  rfl

theorem sameName_comm (name other : String) : sameName name other = sameName other name := by
  rw [sameName, sameName, Bool.beq_comm]

theorem sameName_congr (hname : sameName name other = true) (third : String) :
    sameName name third = sameName other third := by
  have hfold := beq_iff_eq.1 hname
  rw [sameName, sameName, hfold]

theorem lookup_congr (hname : sameName name other = true) (entries : List Header) :
    lookup entries name = lookup entries other := by
  have hsame : (fun entry : Header => entry.isVisible && sameName entry.name name) =
      fun entry => entry.isVisible && sameName entry.name other := by
    funext entry
    rw [sameName_comm entry.name name, sameName_congr hname, sameName_comm other]
  rw [lookup, lookup, hsame]

end Lookup

namespace Lexicon

variable {entries : List Header} {m : Machine}

theorem find?_eq (hlex : Lexicon entries m) (name : String) :
    m.dictionary.find? m.memory name = .ok ((lookup entries name).map Header.address) :=
  Represents.find?_eq hlex name

theorem findHeader?_eq (hlex : Lexicon entries m) (name : String) : m.findHeader? name = .ok (lookup entries name) := by
  rw [Machine.findHeader?, hlex.find?_eq]
  cases hlook : lookup entries name with
  | none => rfl
  | some entry =>
    change (Dictionary.header m.memory entry.address >>= fun header => pure (some header)) = _
    rw [Represents.header_eq hlex (mem_of_lookup hlook)]
    rfl

theorem readCell_eq (hlex : Lexicon entries m) {entry : Header} (hentry : entry ∈ entries) :
    m.memory.readCell entry.xt = .ok entry.code := by
  obtain ⟨_, _, _, hheld⟩ := hlex.held entry hentry
  obtain ⟨_, hend⟩ := Represents.inside hlex hentry
  have halign := hheld.isAligned
  rw [size] at hend
  rw [Memory.readCell_eq_ok (by rw [xt, token]; omega) (by rw [xt, token]; omega)]
  exact congrArg Except.ok hheld.code

theorem cellAt_eq (hlex : Lexicon entries m) {entry : Header} (hentry : entry ∈ entries) :
    m.memory.cellAt entry.xt = entry.code := by
  obtain ⟨_, _, _, hheld⟩ := hlex.held entry hentry
  exact hheld.code

theorem transfer (hlex : Lexicon entries m) {after : Machine} {area : Nat → Prop}
    (hdict : after.dictionary = m.dictionary) (hmem : Memory.SameOutside area m.memory after.memory)
    (harea : ∀ addr, area addr → addr < m.dictionary.start ∨ Layout.dictionaryEnd ≤ addr)
    (hhere : m.dictionary.here ≤ m.dictionary.names) : Lexicon entries after := by
  have hnames := hlex.names_le
  have hframe := @Represents.frame _ _ _ _ hlex m.dictionary.here _ _ hlex.start_le hhere
    (fun newest hnewest => (hlex.below newest (List.mem_of_mem_head? hnewest)).2) hmem
    (fun entry hentry addr hlow hhigh hin => ?_) fun addr hlow hhigh hin => ?_
  · rw [Lexicon, hdict]
    exact hframe
  · have hbelow := hlex.below entry hentry
    rcases harea addr hin with hout | hout <;> omega
  · have hstart := hlex.start_le
    rcases harea addr hin with hout | hout <;> omega

end Lexicon

end ThreadedForth
