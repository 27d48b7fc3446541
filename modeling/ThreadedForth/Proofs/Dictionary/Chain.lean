
import ThreadedForth.Dictionary.Basic
import ThreadedForth.Proofs.Memory.Frame
import ThreadedForth.Proofs.Text.Utf8RoundTrip

/-!
# Entries in memory

`Represents` says that memory holds a given list of entries: their headers lie below `here`, each
linked to the next older one, and their names lie above `names`. An entry is the `Header` that
reading gives. From this follows what every way of reading the chain answers: the list of headers,
the header at an address, the newest visible entry with a name, and whether a token belongs to an
entry.
-/

namespace ThreadedForth.Dictionary

open Utf8 Header List

/-! ### Names -/

/-- The names are equal up to the case of ASCII letters. -/
def sameName (left right : String) : Bool :=
  left.toList.map Char.toLower == right.toList.map Char.toLower

theorem foldCase_ofNat {n : Nat} (hn : n < 256) :
    foldCase (UInt8.ofNat n) = UInt8.ofNat (if 65 ≤ n ∧ n ≤ 90 then n + 32 else n) := by
  have hnat : (UInt8.ofNat n).toNat = n := UInt8.toNat_ofNat_of_lt' hn
  have hiff : (65 ≤ UInt8.ofNat n ∧ UInt8.ofNat n ≤ 90) ↔ 65 ≤ n ∧ n ≤ 90 := by
    rw [UInt8.le_iff_toNat_le, UInt8.le_iff_toNat_le, hnat]
    rfl
  rw [foldCase]
  by_cases hupper : 65 ≤ n ∧ n ≤ 90
  · rw [if_pos (hiff.2 hupper), if_pos hupper]
    apply UInt8.toNat_inj.1
    rw [UInt8.toNat_add, hnat, UInt8.toNat_ofNat_of_lt' (by rw [UInt8.size]; omega)]
    change (n + 32) % 256 = n + 32
    omega
  · rw [if_neg (mt hiff.1 hupper), if_neg hupper]

theorem toNat_toLower (c : Char) :
    c.toLower.val.toNat = if 65 ≤ c.val.toNat ∧ c.val.toNat ≤ 90 then c.val.toNat + 32 else c.val.toNat := by
  have hupper : (c.val ≥ 'A'.val ∧ c.val ≤ 'Z'.val) ↔ 65 ≤ c.val.toNat ∧ c.val.toNat ≤ 90 := by
    rw [ge_iff_le, UInt32.le_iff_toNat_le, UInt32.le_iff_toNat_le]
    rfl
  by_cases h : 65 ≤ c.val.toNat ∧ c.val.toNat ≤ 90
  · delta Char.toLower
    rw [if_pos h, dif_pos (hupper.2 h), UInt32.toNat_add]
    have : ('a'.val - 'A'.val).toNat = 32 := rfl
    rw [this]
    omega
  · delta Char.toLower
    rw [if_neg h, dif_neg (mt hupper.1 h)]

theorem map_foldCase_encodeChar (c : Char) :
    (String.utf8EncodeChar c).map foldCase = String.utf8EncodeChar c.toLower := by
  have hlower := toNat_toLower c
  have hlt : c.val.toNat < 0x110000 := by
    rcases c.valid with h | h
    · have : c.val.toNat < 0xd800 := h
      omega
    · exact h.2
  rw [String.utf8EncodeChar, String.utf8EncodeChar, hlower]
  generalize c.val.toNat = v at *
  by_cases hone : v ≤ 0x7f
  · by_cases hupper : 65 ≤ v ∧ v ≤ 90
    · rw [if_pos hone, if_pos hupper, if_pos (by omega), map_cons, map_nil, foldCase_ofNat (by omega), if_pos hupper]
    · rw [if_pos hone, if_neg hupper, if_pos hone, map_cons, map_nil, foldCase_ofNat (by omega), if_neg hupper]
  · have hhigh : ∀ n, 128 ≤ n → n < 256 → foldCase (UInt8.ofNat n) = UInt8.ofNat n := by
      intro n hn hbyte
      rw [foldCase_ofNat hbyte, if_neg (by omega)]
    rw [if_neg hone, if_neg (by omega : ¬ (65 ≤ v ∧ v ≤ 90)), if_neg hone]
    split
    · simp only [map_cons, map_nil]
      rw [hhigh _ (by omega) (by omega), hhigh _ (by omega) (by omega)]
    · split
      · simp only [map_cons, map_nil]
        rw [hhigh _ (by omega) (by omega), hhigh _ (by omega) (by omega), hhigh _ (by omega) (by omega)]
      · simp only [map_cons, map_nil]
        rw [hhigh _ (by omega) (by omega), hhigh _ (by omega) (by omega), hhigh _ (by omega) (by omega), hhigh _ (by omega) (by omega)]


theorem map_foldCase_encode (name : String) :
    (encode name).map foldCase = encode (String.ofList (name.toList.map Char.toLower)) := by
  rw [encode, encode, String.toList_ofList, map_flatMap, flatMap_map]
  congr 1
  funext c
  exact map_foldCase_encodeChar c

theorem sameName_iff (left right : String) :
    sameName left right = true ↔
      (encode left).map foldCase = (encode right).map foldCase := by
  rw [sameName, beq_iff_eq, map_foldCase_encode, map_foldCase_encode]
  constructor
  · intro hlower
    rw [hlower]
  · intro hencode
    exact String.ofList_injective (encode_injective hencode)

/-! ### Representation -/

/-- The entries follow one another by their links, from `latest` down to zero. -/
def Linked : Nat → List Header → Prop
  | latest, [] => latest = 0
  | latest, entry :: older => latest = entry.address ∧ Linked entry.link older

/-- Memory holds the entry, with its counted name at `nameAddress`. -/
structure HoldsEntry (memory : Memory) (nameAddress : Nat) (entry : Header) : Prop where
  isAligned : entry.address % 4 = 0
  link : Cell.toAddress (memory.cellAt (linkField entry.address)) = entry.link
  name : Cell.toAddress (memory.cellAt (nameField entry.address)) = nameAddress
  flags : memory.cellAt (flagsField entry.address) = entry.flags
  does : Cell.toAddress (memory.cellAt (doesField entry.address)) = entry.does
  code : memory.cellAt (Header.token entry.address) = entry.code
  length_le : (encode entry.name).length ≤ maxNameLength
  nameLength : memory.byteAt nameAddress = UInt8.ofNat (encode entry.name).length
  nameBytes : memory.bytesAt (nameAddress + 1) (encode entry.name).length =
    encode entry.name

/-- Memory holds the entries, newest first, in the dictionary that ends at `finish`. Headers grow
up from `start` and names down from `finish`, so neither can be laid over the other. -/
structure Represents (finish : Nat) (dictionary : Dictionary) (memory : Memory)
    (entries : List Header) : Prop where
  size_lt : memory.size < 2 ^ 31
  finish_le : finish ≤ memory.size
  names_le : dictionary.names ≤ finish
  start_pos : 0 < dictionary.start
  start_le : dictionary.start ≤ dictionary.here
  here_le : entries ≠ [] → dictionary.here ≤ dictionary.names
  linked : Linked dictionary.latest entries
  descending : entries.Pairwise fun newer older => older.address + size ≤ newer.address
  below : ∀ entry ∈ entries, dictionary.start ≤ entry.address ∧
    entry.address + size ≤ dictionary.here
  held : ∀ entry ∈ entries, ∃ nameAddress, dictionary.names ≤ nameAddress ∧
    nameAddress + ((encode entry.name).length + 1) ≤ finish ∧
      HoldsEntry memory nameAddress entry

/-- The entry survives a change of memory away from its header and its name. -/
theorem HoldsEntry.frame {area : Nat → Prop} {before after : Memory} {nameAddress : Nat}
    {entry : Header} (hentry : HoldsEntry before nameAddress entry) (hsame : Memory.SameOutside area before after)
    (hhdr : ∀ addr, entry.address ≤ addr → addr < entry.address + size →
      ¬ area addr)
    (hname : ∀ addr, nameAddress ≤ addr →
      addr < nameAddress + ((encode entry.name).length + 1) → ¬ area addr)
    (hrange : nameAddress + ((encode entry.name).length + 1) ≤ before.size) :
    HoldsEntry after nameAddress entry := by
  have hcell : ∀ offset, offset + 4 ≤ size →
      after.cellAt (entry.address + offset) = before.cellAt (entry.address + offset) := by
    intro offset hoff
    apply hsame.cellAt
    intro other hlow hhigh
    exact hhdr other (by omega) (by omega)
  constructor
  · exact hentry.isAligned
  · exact (congrArg Cell.toAddress (hcell 0 (by decide))).trans hentry.link
  · exact (congrArg Cell.toAddress (hcell 4 (by decide))).trans hentry.name
  · exact (hcell 8 (by decide)).trans hentry.flags
  · exact (congrArg Cell.toAddress (hcell 12 (by decide))).trans hentry.does
  · exact (hcell 16 (by decide)).trans hentry.code
  · exact hentry.length_le
  · rw [hsame.byteAt nameAddress (hname nameAddress (by omega) (by omega))]
    exact hentry.nameLength
  · rw [hsame.bytesAt (by omega) (fun other hlow hhigh => hname other (by omega) (by omega))]
    exact hentry.nameBytes

/-! ### Reading an entry -/

section Reading

variable {memory : Memory} {nameAddress : Nat} {entry : Header}

theorem HoldsEntry.readField (hentry : HoldsEntry memory nameAddress entry) {offset : Nat}
    (hrange : entry.address + size ≤ memory.size) (hoff : offset + 4 ≤ size) (halign : offset % 4 = 0) :
    memory.readCell (entry.address + offset) = .ok (memory.cellAt (entry.address + offset)) := by
  have haligned := hentry.isAligned
  exact Memory.readCell_eq_ok (by omega) (by omega)

variable (hentry : HoldsEntry memory nameAddress entry)

include hentry

theorem HoldsEntry.toNat_nameLength : (memory.byteAt nameAddress).toNat = (encode entry.name).length := by
  have hlen := hentry.length_le
  rw [maxNameLength] at hlen
  rw [hentry.nameLength, UInt8.toNat_ofNat_of_lt' (by rw [UInt8.size]; omega)]

theorem HoldsEntry.readCounted_eq (hname : nameAddress + ((encode entry.name).length + 1) ≤ memory.size) :
    memory.readCounted nameAddress = .ok entry.name := by
  have htext : memory.readText (nameAddress + 1) (encode entry.name).length = .ok entry.name := by
    rw [Memory.readText, Memory.readBytes_eq_ok (by omega), hentry.nameBytes]
    change Except.ok (decodeLossy (encode entry.name)) = _
    rw [decodeLossy_encode]
  rw [Memory.readCounted, Memory.readByte_eq_ok (by omega)]
  change memory.readText (nameAddress + 1) (memory.byteAt nameAddress).toNat = _
  rw [hentry.toNat_nameLength, htext]

theorem HoldsEntry.header_eq (hrange : entry.address + size ≤ memory.size)
    (hname : nameAddress + ((encode entry.name).length + 1) ≤ memory.size) :
    header memory entry.address = .ok entry := by
  have hfield := fun offset => @hentry.readField _ _ _ offset hrange
  have hcounted := hentry.readCounted_eq hname
  rw [header, nameField, hfield 4 (by decide) (by decide)]
  change (do
    let link := Cell.toAddress (← memory.readCell (entry.address + 0))
    let name ← memory.readCounted (Cell.toAddress (memory.cellAt (nameField entry.address)))
    let flags ← memory.readCell (entry.address + 8)
    let does := Cell.toAddress (← memory.readCell (entry.address + 12))
    let code ← memory.readCell (entry.address + 16)
    return ({ address := entry.address, link, name, flags, does, code } : Header)) = _
  rw [hentry.name, hcounted, hfield 0 (by decide) (by decide), hfield 8 (by decide) (by decide),
    hfield 12 (by decide) (by decide), hfield 16 (by decide) (by decide)]
  change Except.ok (Header.mk entry.address
    (Cell.toAddress (memory.cellAt (linkField entry.address))) entry.name
    (memory.cellAt (flagsField entry.address))
    (Cell.toAddress (memory.cellAt (doesField entry.address)))
    (memory.cellAt (Header.token entry.address))) = _
  rw [hentry.link, hentry.flags, hentry.does, hentry.code]

/-- An entry answers to a name if it is visible and its name is the same up to case. -/
theorem HoldsEntry.answersTo_eq (hrange : entry.address + size ≤ memory.size)
    (hname : nameAddress + ((encode entry.name).length + 1) ≤ memory.size) (name : String) :
    answersTo memory ((encode name).map foldCase) ((encode name).map foldCase).length
      entry.address = .ok (entry.isVisible && sameName entry.name name) := by
  have hfield := fun offset => @hentry.readField _ _ _ offset hrange
  rw [answersTo, flagsField, hfield 8 (by decide) (by decide)]
  change (if lacks (memory.cellAt (flagsField entry.address)) _ then _ else _) = _
  rw [hentry.flags]
  change (if entry.isVisible then _ else _) = _
  cases hvisible : entry.isVisible with
  | false => rfl
  | true =>
    rw [if_pos rfl, nameField, hfield 4 (by decide) (by decide)]
    change (do
      let length ← memory.readByte (Cell.toAddress (memory.cellAt (nameField entry.address)))
      if length.toNat = _ then (do
        memory.check (Cell.toAddress (memory.cellAt (nameField entry.address)) + 1) _
        return memory.agrees foldCase
          (Cell.toAddress (memory.cellAt (nameField entry.address)) + 1) _)
      else return false) = _
    rw [hentry.name, Memory.readByte_eq_ok (by omega)]
    change (if (memory.byteAt nameAddress).toNat = _ then _ else _) = _
    rw [hentry.toNat_nameLength, length_map, Bool.true_and]
    by_cases hlen : (encode entry.name).length = (encode name).length
    · rw [if_pos hlen, Memory.check_eq_ok (by omega)]
      change Except.ok (memory.agrees foldCase (nameAddress + 1) ((encode name).map foldCase)) = _
      have hbytes := hentry.nameBytes
      rw [Memory.agrees_eq _ _ _ _ (by rw [length_map]; omega), length_map, ← hlen, hbytes]
      rw [Bool.eq_iff_iff.2 ((sameName_iff entry.name name).trans beq_iff_eq.symm)]
    · rw [if_neg hlen]
      have hdifferent : sameName entry.name name = false := by
        rw [Bool.eq_false_iff, ne_eq, sameName_iff]
        intro hsame
        have hlengths := congrArg List.length hsame
        rw [length_map, length_map] at hlengths
        exact hlen hlengths
      rw [hdifferent]
      rfl

end Reading

/-! ### Walking the chain -/

section Walking

variable {memory : Memory} {entries : List Header}

/-- Every link of the chain can be read, and no header of it is at zero. -/
def Walkable (memory : Memory) (entries : List Header) : Prop :=
  ∀ entry ∈ entries, entry.address ≠ 0 ∧
    ∃ cell, memory.readCell (linkField entry.address) = .ok cell ∧
      Cell.toAddress cell = entry.link

variable {latest steps : Nat}

/-- A search gives the first answer among the entries, if it may make as many steps as there are
entries. -/
theorem searchFrom_eq {α : Type} {visit : Nat → Except Fault (Option α)} {answer : Header → Option α}
    (hwalk : Walkable memory entries) (hvisit : ∀ entry ∈ entries, visit entry.address = .ok (answer entry))
    (hlinked : Linked latest entries) (hsteps : entries.length ≤ steps) :
    searchFrom memory visit steps latest = .ok (entries.findSome? answer) := by
  induction entries generalizing latest steps with
  | nil =>
    cases steps with
    | zero => rfl
    | succ steps => exact if_pos hlinked
  | cons entry older ih =>
    obtain ⟨rfl, hrest⟩ := hlinked
    obtain ⟨hpos, cell, hread, hcell⟩ := hwalk entry mem_cons_self
    obtain ⟨steps, rfl⟩ : ∃ fewer, steps = fewer + 1 := ⟨steps - 1, by rw [length_cons] at hsteps; omega⟩
    have hanswer := hvisit entry mem_cons_self
    rw [searchFrom, if_neg hpos, findSome?_cons]
    cases hfound : answer entry with
    | some found =>
      rw [hanswer, hfound]
      rfl
    | none =>
      rw [hanswer, hfound, hread]
      change searchFrom memory visit steps (Cell.toAddress cell) = _
      rw [hcell]
      exact ih (fun other hother => hwalk other (mem_cons_of_mem _ hother))
        (fun other hother => hvisit other (mem_cons_of_mem _ hother)) hrest
        (by rw [length_cons] at hsteps; omega)

theorem chainFrom_eq (hwalk : Walkable memory entries)
    (hlinked : Linked latest entries) (hsteps : entries.length ≤ steps) (passed : Array Nat) :
    chainFrom memory steps latest passed = .ok (passed ++ entries.map Header.address) := by
  induction entries generalizing latest steps passed with
  | nil =>
    cases steps with
    | zero => simp [chainFrom]
    | succ steps =>
      rw [chainFrom]
      exact (if_pos hlinked).trans (by simp)
  | cons entry older ih =>
    obtain ⟨rfl, hrest⟩ := hlinked
    obtain ⟨hpos, cell, hread, hcell⟩ := hwalk entry mem_cons_self
    obtain ⟨steps, rfl⟩ : ∃ fewer, steps = fewer + 1 := ⟨steps - 1, by rw [length_cons] at hsteps; omega⟩
    rw [chainFrom, if_neg hpos, hread]
    change chainFrom memory steps (Cell.toAddress cell) (passed.push entry.address) = _
    rw [hcell, ih (fun other hother => hwalk other (mem_cons_of_mem _ hother)) hrest
      (by rw [length_cons] at hsteps; omega)]
    simp

/-- Headers do not overlap, so there is room for one entry in each `Header.size` bytes below `here`. -/
theorem length_mul_size_le {here : Nat}
    (hdesc : entries.Pairwise fun newer older => older.address + size ≤ newer.address)
    (hbelow : ∀ entry ∈ entries, entry.address + size ≤ here) :
    entries.length * size ≤ here := by
  induction entries generalizing here with
  | nil => simp
  | cons entry older ih =>
    rw [pairwise_cons] at hdesc
    have hrest := ih hdesc.2 hdesc.1
    have hentry := hbelow entry mem_cons_self
    rw [length_cons, Nat.add_mul, Nat.one_mul]
    omega

end Walking

namespace Represents

variable {finish : Nat} {dictionary : Dictionary} {memory : Memory} {entries : List Header}

theorem here_le_size (hrep : Represents finish dictionary memory entries)
    (hents : entries ≠ []) : dictionary.here ≤ memory.size := by
  have hhere := hrep.here_le hents
  have hnames := hrep.names_le
  have hfin := hrep.finish_le
  omega

variable {entry : Header}

variable (hrep : Represents finish dictionary memory entries)

include hrep

theorem inside (hentry : entry ∈ entries) :
    0 < entry.address ∧ entry.address + size ≤ dictionary.here ∧
      dictionary.here ≤ dictionary.names ∧ entry.address + size ≤ memory.size := by
  have hhere := hrep.here_le (ne_nil_of_mem hentry)
  have hsize := hrep.here_le_size (ne_nil_of_mem hentry)
  have hbelow := hrep.below entry hentry
  have hstart := hrep.start_pos
  exact ⟨by omega, hbelow.2, hhere, by omega⟩

theorem walkable : Walkable memory entries := by
  intro entry hentry
  obtain ⟨hpos, _, _, hrange⟩ := hrep.inside hentry
  obtain ⟨nameAddress, _, _, hheld⟩ := hrep.held entry hentry
  refine ⟨by omega, _, ?_, hheld.link⟩
  exact @hheld.readField _ _ _ 0 hrange (by decide) (by decide)

theorem length_le : entries.length ≤ memory.size := by
  have hlen := length_mul_size_le hrep.descending fun entry hentry =>
    (hrep.below entry hentry).2
  rw [size] at hlen
  by_cases hents : entries = []
  · rw [hents]
    exact Nat.zero_le _
  · have hsize := hrep.here_le_size hents
    omega

theorem headers_eq : dictionary.headers memory = .ok (entries.map Header.address) := by
  rw [headers, chainFrom_eq hrep.walkable hrep.linked hrep.length_le]
  change Except.ok _ = _
  simp

theorem header_eq (hentry : entry ∈ entries) : header memory entry.address = .ok entry := by
  obtain ⟨nameAddress, _, hname, hheld⟩ := hrep.held entry hentry
  have hfin := hrep.finish_le
  exact hheld.header_eq (hrep.inside hentry).2.2.2 (by omega)

theorem find?_eq (name : String) :
    dictionary.find? memory name =
      .ok ((entries.find? fun entry => entry.isVisible && sameName entry.name name).map
        Header.address) := by
  have hvisit : ∀ entry ∈ entries,
      (do
        let found ← answersTo memory ((encode name).map foldCase)
          ((encode name).map foldCase).length entry.address
        return if found then some entry.address else none) =
        Except.ok (if entry.isVisible && sameName entry.name name then some entry.address else none) := by
    intro entry hentry
    obtain ⟨nameAddress, _, hname, hheld⟩ := hrep.held entry hentry
    have hfin := hrep.finish_le
    rw [hheld.answersTo_eq (hrep.inside hentry).2.2.2 (by omega)]
    rfl
  have hguard : (fun entry : Header =>
      if entry.isVisible && sameName entry.name name then some entry.address else none) =
      Option.map Header.address ∘
        Option.guard fun entry => entry.isVisible && sameName entry.name name := by
    funext entry
    simp only [Function.comp_apply, Option.guard]
    split <;> rfl
  rw [find?, search]
  refine (searchFrom_eq hrep.walkable hvisit hrep.linked hrep.length_le).trans ?_
  rw [hguard, ← map_findSome?, findSome?_guard]

theorem containsToken_eq (token : Nat) :
    dictionary.containsToken memory token = .ok (entries.any fun entry => entry.xt == token) := by
  have hvisit : ∀ entry ∈ entries,
      (return if Header.token entry.address = token then some () else none : Except Fault (Option Unit)) =
        .ok (Option.guard (fun _ => entry.xt == token) ()) := by
    intro entry _
    simp only [Option.guard, beq_iff_eq]
    rfl
  rw [containsToken, search,
    searchFrom_eq hrep.walkable hvisit hrep.linked hrep.length_le]
  change Except.ok _ = _
  rw [isSome_findSome?]
  congr 2
  funext entry
  exact Option.isSome_guard

end Represents

end ThreadedForth.Dictionary
