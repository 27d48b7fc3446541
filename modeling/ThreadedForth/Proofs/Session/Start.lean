
import Mathlib.Data.List.Nodup
import ThreadedForth.Proofs.Compiler.Texts

/-!
# Starting

A session starts by entering the primitives, and every one of them is then found under its name.
-/

namespace ThreadedForth

open WordM Dictionary Layout Utf8 Header List Machine

variable {prim : Prim} {prims : List Prim} {held : List Header × Dictionary}

/-! ### Names of primitives -/

/-- A name as a number, the same in any case. -/
def nameKey (name : String) : Nat :=
  (name.toByteArray.data.toList.map foldCase).foldl (fun key byte => 256 * key + byte.toNat) 1

theorem Utf8.encode_eq (text : String) : encode text = text.toByteArray.data.toList := by
  rw [← String.utf8Encode_toList, List.utf8Encode, data_toByteArray, toList_toArray]
  rfl

variable {name token : String} {compiling : Bool}

theorem nameKey_eq {other : String} (hname : sameName name other = true) : nameKey name = nameKey other := by
  have hencode := (sameName_iff name other).1 hname
  rw [encode_eq, encode_eq] at hencode
  rw [nameKey, nameKey, hencode]

namespace Prim

/-- Digits and points, with a digit first. -/
def isNumeral (name : List Char) : Bool :=
  name.head?.any Char.isDigit && name.all fun char => char.isDigit || char == '.'

/-- The table of primitives: no two have the same name, none is hidden, and none is named like a number or called `w`. -/
theorem all_table : (all.map fun prim => nameKey prim.name).Nodup ∧
    (all.map fun prim => prim.name.toByteArray.size + 1).sum = 909 ∧
    ∀ prim ∈ all, (prim.name.toByteArray.size ≠ 0 ∧ prim.name.toByteArray.size ≤ maxNameLength) ∧
      lacks prim.entry.flags (Header.hidden ||| smudged) = true ∧
      isNumeral (prim.name.toList.map Char.toLower) = false ∧ nameKey prim.name ≠ nameKey "w" := by decide +kernel

theorem nodup_nameKey : (all.map fun prim => nameKey prim.name).Nodup := all_table.1

theorem size_name (prim : Prim) : prim.name.toByteArray.size ≠ 0 ∧ prim.name.toByteArray.size ≤ maxNameLength :=
  (all_table.2.2 prim prim.mem_all).1

theorem lacks_hidden (prim : Prim) : lacks prim.entry.flags (Header.hidden ||| smudged) = true :=
  (all_table.2.2 prim prim.mem_all).2.1

theorem length_name (prim : Prim) : (encode prim.name).length ≤ maxNameLength := by
  rw [encode_eq]
  exact prim.size_name.2

theorem isEmpty_name (prim : Prim) : prim.name.isEmpty = false := by
  cases hempty : prim.name.isEmpty with
  | false => rfl
  | true =>
    have hsize := prim.size_name.1
    rw [String.isEmpty_iff.1 hempty] at hsize
    exact (hsize rfl).elim

variable {name : String}

theorem sameName_of_nameKey (hname : ∀ prim ∈ all, nameKey prim.name ≠ nameKey name) (prim : Prim) :
    sameName prim.name name = false := by
  rw [← Bool.not_eq_true]
  exact fun hsame => hname prim prim.mem_all (nameKey_eq hsame)

theorem sameName_w (prim : Prim) : sameName prim.name "w" = false :=
  sameName_of_nameKey (fun prim hprim => (all_table.2.2 prim hprim).2.2.2) prim

theorem sameName_of_isNumeral (hname : isNumeral (name.toList.map Char.toLower) = true) (prim : Prim) :
    sameName prim.name name = false := by
  rw [← Bool.not_eq_true]
  intro hsame
  have hprim := (all_table.2.2 prim prim.mem_all).2.2.1
  rw [eq_of_beq hsame, hname] at hprim
  cases hprim

end Prim

/-! ### Entering primitives -/

/-- The entry of a primitive in a dictionary. -/
def Prim.headed (entries : List Header) (dictionary : Dictionary) (prim : Prim) : Header :=
  headedEntry entries dictionary prim.name prim.entry.flags (.prim prim)

/-- The entries and the cursors once some primitives were entered. -/
def install : List Prim → List Header × Dictionary → List Header × Dictionary
  | [], held => held
  | prim :: prims, held => install prims (prim.headed held.1 held.2 :: held.1, ThreadedForth.headed held.2 prim.name)

/-- There is room for some primitives: a header and a name of the greatest length for each. -/
structure PrimRoom (prims : List Prim) (dictionary : Dictionary) : Prop where
  isAligned : dictionary.here % 4 = 0
  room : dictionary.here + prims.length * (size + (maxNameLength + 1)) < dictionary.names

theorem PrimRoom.headerRoom {dictionary : Dictionary}
    (hroom : PrimRoom (prim :: prims) dictionary) : HeaderRoom prim.name dictionary := by
  have hlen := prim.length_name
  have hspace := hroom.room
  have haligned : aligned dictionary.here = dictionary.here := aligned_eq_self hroom.isAligned
  rw [length_cons, Nat.succ_mul] at hspace
  exact ⟨hlen, by omega⟩

theorem PrimRoom.tail {dictionary : Dictionary}
    (hroom : PrimRoom (prim :: prims) dictionary) : PrimRoom prims (headed dictionary prim.name) := by
  have hlen := prim.length_name
  have hspace := hroom.room
  have halign := hroom.isAligned
  have haligned : aligned dictionary.here = dictionary.here := aligned_eq_self halign
  have hsize : size = 20 := rfl
  rw [length_cons, Nat.succ_mul] at hspace
  refine ⟨?_, ?_⟩
  · change (aligned dictionary.here + size) % 4 = 0
    omega
  · change aligned dictionary.here + size + _ < dictionary.names - ((encode prim.name).length + 1)
    omega

/-- The primitives are entered one after the other. -/
theorem install_eq {m : Machine}
    (hb : m.Bounded) (hlex : Lexicon held.1 m) (hheld : m.dictionary = held.2)
    (hroom : PrimRoom prims held.2) :
    ∃ memory, prims.forM (fun prim => (Session.installPrimitive prim : RunM Unit)) m =
        .ok () { m with dictionary := (install prims held).2, memory } ∧
      Machine.Bounded { m with dictionary := (install prims held).2, memory } ∧
      Lexicon (install prims held).1 { m with dictionary := (install prims held).2, memory } ∧
      Memory.SameOutside dictionaryRegion.Holds m.memory memory := by
  induction prims generalizing held m with
  | nil =>
    rw [install, ← hheld]
    exact ⟨m.memory, rfl, hb, hlex, .refl _ _⟩
  | cons prim prims ih =>
    obtain ⟨memory, hcreate, hents, hent⟩ := create_eq prim.entry.flags (.prim prim) hb hlex
      prim.isEmpty_name (hheld ▸ hroom.headerRoom)
    have hstep : (Session.installPrimitive prim : RunM Unit) m =
        .ok () { m with dictionary := headed m.dictionary prim.name, memory } := run_of_ok (discard_of_ok hcreate)
    have hentering : Machine.Bounded { m with dictionary := headed m.dictionary prim.name, memory } :=
      Keeps.of_ok hb hcreate
    rw [hheld] at hstep hentering hents hent
    obtain ⟨last, hrest, hlast, hall, hmem⟩ := @ih
      (prim.headed held.1 held.2 :: held.1, headed held.2 prim.name) _ hentering hents rfl hroom.tail
    refine ⟨last, ?_, hlast, hall, (hent.mono fun addr hin => ?_).trans hmem⟩
    · exact (bind_of_ok hstep).trans hrest
    · have hstart := hb.dictionary.start_le
      have horigin := hb.dictionary.start_eq
      have hnames := hb.dictionary.names_le
      rw [hheld] at hstart horigin hnames
      rw [Region.holds_mk] at hin
      exact ⟨by omega, by omega⟩

/-! ### What is entered -/

/-- The entry is that of a primitive. -/
structure Enters (prim : Prim) (entry : Header) : Prop where
  name_eq : entry.name = prim.name
  flags_eq : entry.flags = prim.entry.flags
  code_eq : entry.code = (Code.prim prim).toCell
  token_eq : entry.xt = prim.token

theorem Enters.calls {entry : Header} {entries : List Header}
    (henters : Enters prim entry) (hlook : lookup entries token = some entry)
    (hflags : lacks prim.entry.flags (if compiling then immediate else compileOnly) = !compiling) :
    Calls entries token prim compiling := by
  refine ⟨entry, hlook, by rw [henters.code_eq, Code.ofCell?_toCell], ?_⟩
  cases compiling with
  | true => exact congrArg not (henters.flags_eq ▸ hflags)
  | false => exact congrArg not (henters.flags_eq ▸ hflags)

/-- The primitives of a list come one after the other in the order of all, from a place on. -/
def Ordered (prims : List Prim) (place : Nat) : Prop := prims.map Prim.index = List.range' place prims.length

theorem Ordered.head {place : Nat} (hordered : Ordered (prim :: prims) place) :
    prim.index = place ∧ Ordered prims (place + 1) := by
  rw [Ordered, map_cons, length_cons, range'_succ, cons_eq_cons] at hordered
  exact hordered

theorem install_entries {place : Nat}
    (hordered : Ordered prims place) (hhere : held.2.here = dictionaryStart + size * place) :
    (install prims held).2.here = dictionaryStart + size * (place + prims.length) ∧
      (∀ entry ∈ (install prims held).1, entry ∈ held.1 ∨ ∃ prim ∈ prims, Enters prim entry) ∧
      (∀ prim ∈ prims, ∃ entry ∈ (install prims held).1, Enters prim entry) ∧
      ∀ entry ∈ held.1, entry ∈ (install prims held).1 := by
  induction prims generalizing held place with
  | nil => exact ⟨hhere, fun entry hentry => .inl hentry, fun _ hprim => (by cases hprim), fun entry hentry => hentry⟩
  | cons prim prims ih =>
    obtain ⟨hindex, hrest⟩ := hordered.head
    have hstart : dictionaryStart % 4 = 0 := by decide
    have haligned : aligned held.2.here = held.2.here := aligned_eq_self (by rw [hhere, size]; omega)
    have hnext : (headed held.2 prim.name).here = dictionaryStart + size * (place + 1) := by
      change aligned held.2.here + size = _
      rw [haligned, hhere, size]
      omega
    have henters : Enters prim (prim.headed held.1 held.2) := by
      refine ⟨rfl, rfl, rfl, ?_⟩
      change Header.token (ofToken (Header.token (aligned held.2.here))) = _
      rw [haligned, hhere, Prim.token, hindex]
      rfl
    obtain ⟨hlast, honly, hall, hkept⟩ := @ih (prim.headed held.1 held.2 :: held.1, headed held.2 prim.name) _ hrest hnext
    rw [install]
    refine ⟨?_, fun entry hentry => ?_, fun other hother => ?_, fun entry hentry => ?_⟩
    · rw [hlast, length_cons, Nat.add_right_comm, Nat.add_assoc]
    · rcases honly entry hentry with hheld | ⟨other, hother, henter⟩
      · rcases List.mem_cons.1 hheld with rfl | hold
        · exact .inr ⟨prim, mem_cons_self, henters⟩
        · exact .inl hold
      · exact .inr ⟨other, mem_cons_of_mem _ hother, henter⟩
    · rcases List.mem_cons.1 hother with rfl | hlater
      · exact ⟨_, hkept _ mem_cons_self, henters⟩
      · exact hall other hlater
    · exact hkept entry (mem_cons_of_mem _ hentry)

theorem install_names (prims : List Prim) (held : List Header × Dictionary) :
    (install prims held).2.names = held.2.names - (prims.map fun prim => prim.name.toByteArray.size + 1).sum := by
  induction prims generalizing held with
  | nil => rfl
  | cons prim prims ih =>
    have hlen : (encode prim.name).length = prim.name.toByteArray.size := by
      rw [encode_eq]
      rfl
    rw [install, ih, map_cons, sum_cons, ← Nat.sub_sub, ← hlen]
    rfl

theorem Prim.length_all : all.length = count := by rw [← length_map index, map_index_all, length_range]

theorem Prim.ordered_all : Ordered all 0 := by rw [Ordered, map_index_all, range_eq_range', length_all]

/-- The entries and the cursors of a dictionary that holds the primitives and nothing else. -/
def builtin : List Header × Dictionary :=
  install Prim.all ([], new dictionaryStart dictionaryEnd)

theorem builtin_cursors : builtin.2.here = dictionaryStart + size * Prim.count ∧
    builtin.2.names = dictionaryEnd - 909 := by
  obtain ⟨hhere, _⟩ := @install_entries Prim.all
    ([], new dictionaryStart dictionaryEnd) 0 Prim.ordered_all (by decide)
  rw [Nat.zero_add, Prim.length_all] at hhere
  have hsum := Prim.all_table.2.1
  refine ⟨hhere, ?_⟩
  rw [builtin, install_names, hsum]
  rfl

theorem builtin_room {name : String} (hlen : (encode name).length ≤ maxNameLength) :
    HeaderRoom name builtin.2 ∧ (headed builtin.2 name).here + 2 ^ 16 ≤ (headed builtin.2 name).names := by
  obtain ⟨hhere, hnames⟩ := builtin_cursors
  have haligned : aligned builtin.2.here = builtin.2.here := aligned_eq_self (by rw [hhere]; decide)
  have hspace : builtin.2.here + size + 2 ^ 16 + (maxNameLength + 1) < builtin.2.names := by
    rw [hhere, hnames]
    decide
  generalize builtin.2 = dictionary at haligned hspace ⊢
  have hfst : (headed dictionary name).here = aligned dictionary.here + size := rfl
  have hlast : (headed dictionary name).names = dictionary.names - ((encode name).length + 1) := rfl
  exact ⟨⟨hlen, by omega⟩, by omega⟩

theorem builtin_entries : (∀ entry ∈ builtin.1, ∃ prim, Enters prim entry) ∧
    ∀ prim, ∃ entry ∈ builtin.1, Enters prim entry := by
  obtain ⟨_, honly, hall, _⟩ := @install_entries Prim.all
    ([], new dictionaryStart dictionaryEnd) 0 Prim.ordered_all (by decide)
  refine ⟨fun entry hentry => ?_, fun prim => hall prim prim.mem_all⟩
  rcases honly entry hentry with hnone | ⟨prim, _, henters⟩
  · cases hnone
  · exact ⟨prim, henters⟩

theorem lookup_builtin {name : String} (hname : sameName prim.name name = true) :
    ∃ entry, lookup builtin.1 name = some entry ∧ Enters prim entry := by
  obtain ⟨honly, hall⟩ := builtin_entries
  obtain ⟨entry, hentry, henters⟩ := hall prim
  have hvisible : (entry.isVisible && sameName entry.name name) = true := by
    rw [isVisible, henters.flags_eq, prim.lacks_hidden, henters.name_eq, hname]
    rfl
  cases hlook : lookup builtin.1 name with
  | none =>
    have hnone := find?_eq_none.1 hlook entry hentry
    exact (hnone hvisible).elim
  | some found =>
    obtain ⟨other, hother⟩ := honly found (mem_of_lookup hlook)
    have hfound := find?_some hlook
    simp only [Bool.and_eq_true] at hfound
    have hkey : nameKey other.name = nameKey prim.name := by
      rw [← hother.name_eq, nameKey_eq hfound.2, nameKey_eq hname]
    have hsame : other = prim :=
      inj_on_of_nodup_map Prim.nodup_nameKey other.mem_all prim.mem_all hkey
    exact ⟨found, rfl, hsame ▸ hother⟩

theorem calls_builtin (hname : sameName prim.name token = true)
    (hflags : lacks prim.entry.flags (if compiling then immediate else compileOnly) = !compiling) :
    Calls builtin.1 token prim compiling := by
  obtain ⟨entry, hlook, henters⟩ := lookup_builtin hname
  exact henters.calls hlook hflags

theorem lookup_builtin_none (hname : ∀ prim : Prim, sameName prim.name name = false) :
    lookup builtin.1 name = none := by
  refine find?_eq_none.2 fun entry hentry hfound => ?_
  obtain ⟨prim, henters⟩ := builtin_entries.1 entry hentry
  simp only [Bool.and_eq_true] at hfound
  rw [henters.name_eq, hname prim] at hfound
  exact Bool.false_ne_true hfound.2

/-! ### The machine at the start -/

/-- The machine holds the entries, rests on an empty stack, reads numbers in base ten, and has not been asked to end. -/
structure Fresh (entries : List Header) (m : Machine) : Prop where
  idle : Idle entries m
  empty : m.data.top = m.data.base
  returned : m.returns.top = m.returns.base
  base_eq : m.base = .ok 10
  exiting_eq : m.exiting = false

/-- The machine holds just these entries, with the cursors. -/
structure Holds (held : List Header × Dictionary) (m : Machine) : Prop where
  fresh : Fresh held.1 m
  dictionary_eq : m.dictionary = held.2

theorem Holds.readOn {before after : Machine} (hholds : Holds held before)
    (hreadOn : ReadOn before after) : Holds held after := by
  have hsame := hreadOn.undisturbed 0
  refine ⟨⟨hreadOn.idle hholds.fresh.idle, ?_, ?_, hsame.base_eq.trans hholds.fresh.base_eq,
    hsame.exiting_eq.trans hholds.fresh.exiting_eq⟩, ?_⟩
  · rw [hreadOn.machine]
    exact hholds.fresh.empty
  · rw [hreadOn.machine]
    exact hholds.fresh.returned
  · rw [hreadOn.machine]
    exact hholds.dictionary_eq

theorem Machine.cellAt_initialMemory_base : initialMemory.cellAt Layout.base = 10 := by
  have hsize : Layout.base + 4 ≤ (Memory.ofSize memorySize).size := by
    rw [Memory.ofSize, Memory.size, Array.size_replicate]
    decide
  have hregions (memory : Memory) (low high : Nat) :
      Memory.cellAt { memory with low, high } Layout.base = memory.cellAt Layout.base := rfl
  rw [initialMemory, hregions, Memory.cellAt_setCell_of_apart _ _ (.inl (by decide)), Memory.cellAt_setCell _ _ _ hsize]

theorem Machine.base_of_cell {m : Machine} (hb : m.Bounded)
    (hcell : m.memory.cellAt Layout.base = 10) : m.base = .ok 10 := by
  rw [Machine.base, Memory.readCell_eq_ok (by rw [hb.size_eq]; decide) (by decide), hcell]
  rfl

/-- A machine that was started without the prelude holds the primitives. -/
theorem Session.start_eq (disk : Disk) (verbose : Bool) :
    ∃ m, (∀ fuel, Session.start fuel false (new disk verbose) = .ok () m) ∧
      Holds builtin m := by
  have hnew := bounded_new disk verbose
  have hempty : Lexicon [] (new disk verbose) :=
    Represents.new (by decide) (by rw [hnew.size_eq]; decide) (by rw [hnew.size_eq]; decide)
  have hroom : PrimRoom Prim.all (new dictionaryStart dictionaryEnd) := by
    refine ⟨by decide, ?_⟩
    rw [Prim.length_all]
    decide
  obtain ⟨memory, hinstall, hb, hlex, hmem⟩ := @install_eq Prim.all
    ([], new dictionaryStart dictionaryEnd) _ hnew hempty rfl hroom
  have hset := Memory.sameOutside_setCell memory state 0
  have hrests := writeCell_of_low hb (Cell.ofBool false) (by decide : state + 4 ≤ _) (by decide)
  have hstarted := hb.withMemory hset.size
  have horder := order
  refine ⟨_, fun fuel => (bind_of_ok hinstall).trans (bind_of_ok (run_of_ok hrests)), ⟨⟨hstarted, ?_, rfl, ?_⟩, rfl, rfl, ?_, rfl⟩, rfl⟩
  · refine hlex.transfer rfl hset (fun addr hin => .inl ?_) hb.dictionary.here_le
    rw [hb.dictionary.start_eq]
    rw [Region.holds_mk] at hin
    change addr < dictionaryStart
    omega
  · rw [Machine.Compiling, Memory.cellAt_setCell _ _ _ (by rw [hb.size_eq]; decide)]
    exact not_not_intro rfl
  · refine base_of_cell hstarted ?_
    change Memory.cellAt (memory.setCell state 0) Layout.base = 10
    rw [Memory.cellAt_setCell_of_apart _ _ (.inr (by decide)), hmem.cellAt fun other _ hother hin => ?_]
    · exact cellAt_initialMemory_base
    · have hstart : dictionaryRegion.start = dictionaryStart := rfl
      have hfst := hin.1
      omega

end ThreadedForth
