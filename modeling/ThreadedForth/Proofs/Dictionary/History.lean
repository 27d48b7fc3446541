
import ThreadedForth.Proofs.Dictionary.Writes

/-!
# Histories of a dictionary

Any sequence of changes keeps the dictionary in step with the list of entries that were created,
newest first, each with the flags, code and address it was last given. A change that fails leaves the
cursors and every byte as they were.
-/

namespace ThreadedForth.Dictionary

open Utf8 Header List Region
open Memory (SameOutside cellAt_setCell cellAt_setCell_of_apart sameOutside_setByte sameOutside_setCell size_setCell)

/-! ### Changes -/

/-- An operation on a dictionary. -/
inductive Change where
  | create (name : String) (flags code : Cell)
  | createNameless (code : Cell)
  | setFlag (header : Nat) (flag : Cell)
  | clearFlag (header : Nat) (flag : Cell)
  | setDoes (header : Nat) (code : Cell) (does : Nat)
  | comma (value : Cell)
  | commaByte (value : UInt8)
  | align
  | allot (amount : Cell)
  deriving DecidableEq, Repr

/-- An address as a header keeps it, in one cell. -/
def keptAddress (address : Nat) : Nat := Cell.toAddress (Cell.ofNat address)

theorem keptAddress_eq {addr : Nat} (haddr : addr < 2 ^ 31) : keptAddress addr = addr :=
  Cell.toAddress_ofNat haddr

/-- Change the entry whose header is at an address. -/
def revise (header : Nat) (change : Header → Header) (entries : List Header) : List Header :=
  entries.map fun entry => if entry.address = header then change entry else entry

namespace Change

/-- Do the operation. The answer is the execution token of the word it creates, if it creates one. -/
def apply : Change → EStateM Fault (Dictionary × Memory) (Option Nat)
  | create name flags code => entering (·.create name flags code)
  | createNameless code => entering (·.createNameless code)
  | setFlag header flag => rewriting (Dictionary.setFlag header flag)
  | clearFlag header flag => rewriting (Dictionary.clearFlag header flag)
  | setDoes header code does => rewriting (Dictionary.setDoes header code does)
  | comma value => extending (·.comma value)
  | commaByte value => extending (·.commaByte value)
  | align => moving Dictionary.align
  | allot amount => moving (·.allot amount)
where
  entering (step : Dictionary → MemoryM (Nat × Dictionary)) :
      EStateM Fault (Dictionary × Memory) (Option Nat) := fun (dictionary, memory) =>
    match step dictionary memory with
    | .ok (token, dictionary) memory => .ok (some token) (dictionary, memory)
    | .error fault memory => .error fault (dictionary, memory)
  rewriting (step : MemoryM Unit) : EStateM Fault (Dictionary × Memory) (Option Nat) :=
    fun (dictionary, memory) =>
    match step memory with
    | .ok _ memory => .ok none (dictionary, memory)
    | .error fault memory => .error fault (dictionary, memory)
  extending (step : Dictionary → MemoryM Dictionary) :
      EStateM Fault (Dictionary × Memory) (Option Nat) := fun (dictionary, memory) =>
    match step dictionary memory with
    | .ok dictionary memory => .ok none (dictionary, memory)
    | .error fault memory => .error fault (dictionary, memory)
  moving (step : Dictionary → Except Fault Dictionary) :
      EStateM Fault (Dictionary × Memory) (Option Nat) := fun (dictionary, memory) =>
    match step dictionary with
    | .ok dictionary => .ok none (dictionary, memory)
    | .error fault => .error fault (dictionary, memory)

/-- The operation only touches headers of entries, and does not take back the newest of them. -/
def Allowed (dictionary : Dictionary) (entries : List Header) : Change → Prop
  | setFlag header _ | clearFlag header _ | setDoes header _ _ => header ∈ entries.map Header.address
  | allot amount => ∀ moved, dictionary.allot amount = .ok moved →
      ∀ newest ∈ entries.head?, newest.address + size ≤ moved.here
  | _ => True

/-- A new entry in front of the older ones. -/
def newest (entries : List Header) (token : Nat) (name : String) (flags code : Cell) : Header where
  address := ofToken token
  link := (entries.head?.map Header.address).getD 0
  name
  flags
  does := 0
  code

/-- The entries after the operation has succeeded with an answer. -/
def record (entries : List Header) : Change → Option Nat → List Header
  | create name flags code, some token => newest entries token name flags code :: entries
  | createNameless code, some token => newest entries token "" Header.hidden code :: entries
  | setFlag header flag, _ => revise header (fun entry => { entry with flags := entry.flags ||| flag }) entries
  | clearFlag header flag, _ => revise header (fun entry => { entry with flags := entry.flags &&& ~~~flag }) entries
  | setDoes header code does, _ => revise header (fun entry => { entry with code, does := keptAddress does }) entries
  | _, _ => entries

end Change

/-- The states of a dictionary over the region up to `finish`, each with the entries created so far,
after any operations that are allowed, whether or not they succeed. -/
inductive Reached (finish : Nat) : Dictionary × Memory → List Header → Prop where
  | new {start : Nat} {memory : Memory} (hstart : 0 < start) (hfin : finish ≤ memory.size)
      (hsize : memory.size < 2 ^ 31) : Reached finish (Dictionary.new start finish, memory) []
  | done {state after : Dictionary × Memory} {entries : List Header} {change : Change}
      {answer : Option Nat} (hstate : Reached finish state entries)
      (hallowed : change.Allowed state.1 entries) (happly : change.apply state = .ok answer after) :
      Reached finish after (change.record entries answer)
  | failed {state after : Dictionary × Memory} {entries : List Header} {change : Change}
      {fault : Fault} (hstate : Reached finish state entries)
      (hallowed : change.Allowed state.1 entries) (happly : change.apply state = .error fault after) :
      Reached finish after entries

/-! ### How an operation ends -/

namespace Change

/-- There is room for what the operation lays down. -/
def Fits (dictionary : Dictionary) : Change → Prop
  | create name _ _ => hasRoom (encode name)
  | createNameless _ => hasRoom []
  | setFlag .. | clearFlag .. | setDoes .. => True
  | comma _ => dictionary.here + 4 ≤ dictionary.names
  | commaByte _ => dictionary.here + 1 ≤ dictionary.names
  | align => aligned dictionary.here ≤ dictionary.names
  | allot amount => dictionary.start ≤ dictionary.here + amount.toInt ∧ dictionary.here + amount.toInt ≤ dictionary.names
where
  hasRoom (name : List UInt8) : Prop :=
    name.length ≤ maxNameLength ∧ name.length + 1 ≤ dictionary.names ∧
      aligned dictionary.here + size < dictionary.names - (name.length + 1)

/-- The answer of the operation, if it succeeds. -/
def answer (dictionary : Dictionary) : Change → Option Nat
  | create .. | createNameless _ => some (Header.token (aligned dictionary.here))
  | _ => none

/-- The state after the operation, if it succeeds. -/
def outcome (dictionary : Dictionary) (memory : Memory) : Change → Dictionary × Memory
  | create name flags code => entry (encode name) flags code
  | createNameless code => entry [] Header.hidden code
  | setFlag header flag => (dictionary, reflagged header (· ||| flag))
  | clearFlag header flag => (dictionary, reflagged header (· &&& ~~~flag))
  | setDoes header code does =>
    (dictionary, (memory.setCell (Header.token header) code).setCell (doesField header) (Cell.ofNat does))
  | comma value => ({ dictionary with here := dictionary.here + 4 }, memory.setCell dictionary.here value)
  | commaByte value => ({ dictionary with here := dictionary.here + 1 }, memory.setByte dictionary.here value)
  | align => ({ dictionary with here := aligned dictionary.here }, memory)
  | allot amount => ({ dictionary with here := (dictionary.here + amount.toInt).toNat }, memory)
where
  entry (name : List UInt8) (flags code : Cell) : Dictionary × Memory :=
    ({ dictionary with
        here := aligned dictionary.here + size
        names := dictionary.names - (name.length + 1)
        latest := aligned dictionary.here },
      entered memory (aligned dictionary.here) (dictionary.names - (name.length + 1)) dictionary.latest name flags code)
  reflagged (header : Nat) (change : Cell → Cell) : Memory :=
    memory.setCell (flagsField header) (change (memory.cellAt (flagsField header)))

variable {dictionary : Dictionary} {memory : Memory} {change : Change}

theorem apply.entering_cases (step : Dictionary → MemoryM (Nat × Dictionary)) {name : List UInt8} {flags code : Cell}
    (hnames : dictionary.names ≤ memory.size)
    (hstep : step dictionary memory = dictionary.enter name flags code memory) :
    (∃ fault, apply.entering step (dictionary, memory) = .error fault (dictionary, memory)) ∨
      Fits.hasRoom dictionary name ∧ apply.entering step (dictionary, memory) =
        .ok (some (Header.token (aligned dictionary.here))) (outcome.entry dictionary memory name flags code) := by
  rw [apply.entering, hstep]
  rcases enter_cases dictionary name flags code hnames with ⟨fault, hfault⟩ | ⟨hlen, hroom, hmeet, hok⟩
  · exact .inl ⟨fault, by rw [hfault]⟩
  · exact .inr ⟨⟨hlen, hroom, hmeet⟩, by rw [hok]; rfl⟩

theorem apply.rewriting_cases {step : MemoryM Unit} {after : Memory}
    (hstep : (∃ fault, step memory = .error fault memory) ∨ step memory = .ok () after) :
    (∃ fault, apply.rewriting step (dictionary, memory) = .error fault (dictionary, memory)) ∨
      True ∧ apply.rewriting step (dictionary, memory) = .ok none (dictionary, after) := by
  rcases hstep with ⟨fault, hfault⟩ | hok
  · exact .inl ⟨fault, by rw [apply.rewriting, hfault]⟩
  · exact .inr ⟨trivial, by rw [apply.rewriting, hok]⟩

theorem apply.extending_cases (step : Dictionary → MemoryM Dictionary) {moved : Dictionary} {after : Memory} {room : Prop}
    (hstep : (∃ fault, step dictionary memory = .error fault memory) ∨
      room ∧ step dictionary memory = .ok moved after) :
    (∃ fault, apply.extending step (dictionary, memory) = .error fault (dictionary, memory)) ∨
      room ∧ apply.extending step (dictionary, memory) = .ok none (moved, after) := by
  rcases hstep with ⟨fault, hfault⟩ | ⟨hroom, hok⟩
  · exact .inl ⟨fault, by rw [apply.extending, hfault]⟩
  · exact .inr ⟨hroom, by rw [apply.extending, hok]⟩

/-- An operation fails without a change, or has room for what it does. -/
theorem apply_cases (change : Change) (hnames : dictionary.names ≤ memory.size) :
    (∃ fault, change.apply (dictionary, memory) = .error fault (dictionary, memory)) ∨
      change.Fits dictionary ∧
        change.apply (dictionary, memory) = .ok (change.answer dictionary) (change.outcome dictionary memory) := by
  cases change with
  | create name flags code =>
    by_cases hempty : name.isEmpty
    · have hcreate : dictionary.create name flags code memory = .error .emptyName memory := by
        rw [Dictionary.create, if_pos hempty]
        rfl
      exact .inl ⟨.emptyName, by rw [apply, apply.entering, hcreate]⟩
    · exact apply.entering_cases (·.create name flags code) hnames (by rw [Dictionary.create, if_neg hempty])
  | createNameless code => exact apply.entering_cases (·.createNameless code) hnames rfl
  | setFlag header flag => exact apply.rewriting_cases (reflag_cases header (· ||| flag) memory)
  | clearFlag header flag => exact apply.rewriting_cases (reflag_cases header (· &&& ~~~flag) memory)
  | setDoes header code does => exact apply.rewriting_cases (setDoes_cases header code does memory)
  | comma value => exact apply.extending_cases (·.comma value) (dictionary.comma_cases value memory)
  | commaByte value => exact apply.extending_cases (·.commaByte value) (dictionary.commaByte_cases value memory)
  | align =>
    by_cases hroom : dictionary.names < aligned dictionary.here
    · exact .inl ⟨_, by rw [apply, apply.moving, Dictionary.align, if_pos hroom]⟩
    · exact .inr ⟨Nat.le_of_not_lt hroom, by rw [apply, apply.moving, Dictionary.align, if_neg hroom]; rfl⟩
  | allot amount =>
    by_cases hout : dictionary.here + amount.toInt < dictionary.start ∨ dictionary.names < dictionary.here + amount.toInt
    · exact .inl ⟨_, by rw [apply, apply.moving, Dictionary.allot, if_pos hout]⟩
    · exact .inr ⟨⟨by omega, by omega⟩, by rw [apply, apply.moving, Dictionary.allot, if_neg hout]; rfl⟩

theorem of_apply_eq_ok {state after : Dictionary × Memory} {answer : Option Nat}
    (hnames : state.1.names ≤ state.2.size) (happly : change.apply state = .ok answer after) :
    change.Fits state.1 ∧ change.answer state.1 = answer ∧ change.outcome state.1 state.2 = after := by
  rcases change.apply_cases hnames with ⟨fault, hfault⟩ | ⟨hfits, hok⟩
  · cases happly.symm.trans hfault
  · exact ⟨hfits, EStateM.Result.ok.inj (hok.symm.trans happly)⟩

theorem of_apply_eq_error {state after : Dictionary × Memory} {fault : Fault}
    (hnames : state.1.names ≤ state.2.size) (happly : change.apply state = .error fault after) : after = state := by
  rcases change.apply_cases hnames with ⟨other, hfault⟩ | ⟨_, hok⟩
  · exact (EStateM.Result.error.inj (happly.symm.trans hfault)).2
  · cases happly.symm.trans hok

end Change

/-! ### What each operation keeps -/

theorem Linked.map {latest : Nat} {entries : List Header} (hlinked : Linked latest entries) {change : Header → Header}
    (hkeeps : ∀ entry, (change entry).address = entry.address ∧ (change entry).link = entry.link) :
    Linked latest (entries.map change) := by
  induction entries generalizing latest with
  | nil => exact hlinked
  | cons entry older ih =>
    obtain ⟨hlatest, hrest⟩ := hlinked
    refine ⟨hlatest.trans (hkeeps entry).1.symm, ?_⟩
    rw [(hkeeps entry).2]
    exact ih hrest

/-- The entry with the flags, address and code that stand in its header now. -/
def rereadTail (memory : Memory) (entry : Header) : Header :=
  { entry with
    flags := memory.cellAt (flagsField entry.address)
    does := Cell.toAddress (memory.cellAt (doesField entry.address))
    code := memory.cellAt (Header.token entry.address) }

variable {entry : Header}

theorem HoldsEntry.reread {before after : Memory} {nameAddress : Nat} (hentry : HoldsEntry before nameAddress entry)
    (hsame : SameOutside
      (Region.mk (flagsField entry.address) (entry.address + Header.size)).Holds before after)
    (hhdr : entry.address + Header.size ≤ nameAddress)
    (hname : nameAddress + ((encode entry.name).length + 1) ≤ before.size) :
    HoldsEntry after nameAddress (rereadTail after entry) := by
  have hcell : ∀ addr, addr + 4 ≤ flagsField entry.address →
      after.cellAt addr = before.cellAt addr := by
    intro addr hbelow
    apply hsame.cellAt
    intro other _ hhigh hin
    rw [holds_mk] at hin
    omega
  have habove : ∀ addr, nameAddress ≤ addr →
      ¬ (Region.mk (flagsField entry.address) (entry.address + Header.size)).Holds addr := by
    intro addr hlow hin
    rw [Region.holds_mk] at hin
    omega
  constructor
  · exact hentry.isAligned
  · exact (congrArg Cell.toAddress (hcell _ (Nat.add_le_add_left (by decide) entry.address))).trans hentry.link
  · exact (congrArg Cell.toAddress (hcell _ (Nat.le_refl _))).trans hentry.name
  · rfl
  · rfl
  · rfl
  · exact hentry.length_le
  · rw [hsame.byteAt nameAddress (habove nameAddress (Nat.le_refl _))]
    exact hentry.nameLength
  · change after.bytesAt (nameAddress + 1) (encode entry.name).length = _
    rw [hsame.bytesAt (by omega) (fun other hlow _ => habove other (by omega))]
    exact hentry.nameBytes

theorem sameOutside_setDoes (header : Nat) (code does : Cell) (memory : Memory) :
    SameOutside (Region.mk (doesField header) (header + Header.size)).Holds memory
      ((memory.setCell (Header.token header) code).setCell (doesField header) does) := by
  refine ((sameOutside_setCell memory _ code).mono fun addr hin => ?_).trans
    ((sameOutside_setCell _ _ does).mono fun addr hin => ?_)
  all_goals
    simp only [Region.holds_mk, doesField, Header.token, Header.size] at hin ⊢
    omega

theorem rereadTail_setDoes {memory : Memory} (hflags : memory.cellAt (flagsField entry.address) = entry.flags)
    (hins : entry.address + Header.size ≤ memory.size) (code : Cell) (does : Nat) :
    rereadTail ((memory.setCell (Header.token entry.address) code).setCell (doesField entry.address)
        (Cell.ofNat does)) entry = { entry with code, does := keptAddress does } := by
  rw [size] at hins
  rw [rereadTail, flagsField, doesField, Header.token]
  rw [cellAt_setCell _ (entry.address + 12) _ (by rw [size_setCell]; omega),
    cellAt_setCell_of_apart _ _ (.inl (by omega) : entry.address + 8 + 4 ≤ entry.address + 12 ∨ _),
    cellAt_setCell_of_apart _ _ (.inl (by omega) : entry.address + 8 + 4 ≤ entry.address + 16 ∨ _),
    cellAt_setCell_of_apart _ _ (.inr (by omega) : _ ∨ entry.address + 12 + 4 ≤ entry.address + 16),
    cellAt_setCell _ (entry.address + 16) _ (by omega)]
  rw [show memory.cellAt (entry.address + 8) = entry.flags from hflags, keptAddress]

namespace Represents

variable {finish : Nat} {dictionary : Dictionary} {memory : Memory} {entries : List Header}

theorem new {start : Nat} (hstart : 0 < start) (hfin : finish ≤ memory.size)
    (hsize : memory.size < 2 ^ 31) : Represents finish (Dictionary.new start finish) memory [] where
  size_lt := hsize
  finish_le := hfin
  names_le := Nat.le_refl finish
  start_pos := Nat.lt_of_lt_of_le hstart (le_aligned start)
  start_le := Nat.le_refl _
  here_le := fun hents => absurd rfl hents
  linked := rfl
  descending := List.Pairwise.nil
  below := fun _ hentry => by cases hentry
  held := fun _ hentry => by cases hentry

theorem latest_eq (hrep : Represents finish dictionary memory entries) :
    dictionary.latest = (entries.head?.map Header.address).getD 0 := by
  have hlinked := hrep.linked
  cases entries with
  | nil => exact hlinked
  | cons entry older => exact hlinked.1

theorem latest_lt (hrep : Represents finish dictionary memory entries) : dictionary.latest < 2 ^ 31 := by
  have hsize := hrep.size_lt
  have hlinked := hrep.linked
  cases entries with
  | nil => rw [hlinked]; omega
  | cons entry older =>
    have hins := hrep.inside (@mem_cons_self _ entry older)
    rw [hlinked.1]
    omega

variable {entry : Header} {after : Memory} {header : Nat}

theorem apart_of_ne (hrep : Represents finish dictionary memory entries) {other : Header}
    (hentry : entry ∈ entries) (hother : other ∈ entries) (hne : entry.address ≠ other.address) :
    entry.address + size ≤ other.address ∨ other.address + size ≤ entry.address := by
  have hpair : ∀ {newer older : Header}, older.address + size ≤ newer.address →
      newer.address ≠ older.address → newer.address + size ≤ older.address ∨
        older.address + size ≤ newer.address := fun hbefore _ => .inr hbefore
  have hdesc := hrep.descending
  exact (hdesc.imp hpair).forall_of_forall_of_flip (fun _ _ heq => absurd rfl heq)
    (hdesc.imp fun hbefore _ => .inl hbefore) hentry hother hne

theorem below_of_newest (hrep : Represents finish dictionary memory entries) {here : Nat}
    (hnewest : ∀ newest ∈ entries.head?, newest.address + size ≤ here)
    (hentry : entry ∈ entries) : entry.address + size ≤ here := by
  have hdesc := hrep.descending
  cases entries with
  | nil => cases hentry
  | cons newest older =>
    have hhere := hnewest newest rfl
    rw [pairwise_cons] at hdesc
    rcases List.mem_cons.1 hentry with rfl | holder
    · exact hhere
    · have hbefore := hdesc.1 entry holder
      omega

/-- Changing memory away from every header and from the names, and moving `here` above the newest header. -/
theorem frame (hrep : Represents finish dictionary memory entries) {here : Nat} {after : Memory}
    {area : Nat → Prop} (hstart : dictionary.start ≤ here) (hnames : here ≤ dictionary.names)
    (hnewest : ∀ newest ∈ entries.head?, newest.address + size ≤ here)
    (hsame : SameOutside area memory after)
    (hheaders : ∀ entry ∈ entries, ∀ addr, entry.address ≤ addr → addr < entry.address + size →
      ¬ area addr) (harea : ∀ addr, dictionary.names ≤ addr → addr < finish → ¬ area addr) :
    Represents finish { dictionary with here } after entries where
  size_lt := by rw [hsame.size]; exact hrep.size_lt
  finish_le := by rw [hsame.size]; exact hrep.finish_le
  names_le := hrep.names_le
  start_pos := hrep.start_pos
  start_le := hstart
  here_le := fun _ => hnames
  linked := hrep.linked
  descending := hrep.descending
  below := fun entry hentry =>
    ⟨(hrep.below entry hentry).1, hrep.below_of_newest hnewest hentry⟩
  held := by
    intro entry hentry
    obtain ⟨nameAddress, hname, hend, hheld⟩ := hrep.held entry hentry
    have hfin := hrep.finish_le
    refine ⟨nameAddress, hname, hend, hheld.frame hsame (hheaders entry hentry) ?_ (by omega)⟩
    intro addr hlow hhigh
    exact harea addr (by omega) (by omega)

theorem move (hrep : Represents finish dictionary memory entries) {here : Nat} {after : Memory}
    (hstart : dictionary.start ≤ here) (hnames : here ≤ dictionary.names)
    (hnewest : ∀ newest ∈ entries.head?, newest.address + Header.size ≤ here)
    (hsame : SameOutside (Region.mk dictionary.here dictionary.names).Holds memory after) :
    Represents finish { dictionary with here } after entries := by
  refine hrep.frame hstart hnames hnewest hsame ?_ ?_
  · intro entry hentry addr _ hhigh hin
    have hhdr := (hrep.below entry hentry).2
    rw [holds_mk] at hin
    omega
  · intro addr hlow _ hin
    rw [holds_mk] at hin
    omega

section

variable (hrep : Represents finish dictionary memory entries)

include hrep

/-- A new header above the code and its name below the other names. -/
theorem enter {name : String} (flags code : Cell) (hlen : (encode name).length ≤ maxNameLength)
    (hroom : (encode name).length + 1 ≤ dictionary.names)
    (hmeet : aligned dictionary.here + size <
      dictionary.names - ((encode name).length + 1)) :
    Represents finish
      { dictionary with
        here := aligned dictionary.here + size
        names := dictionary.names - ((encode name).length + 1)
        latest := aligned dictionary.here }
      (entered memory (aligned dictionary.here) (dictionary.names - ((encode name).length + 1))
        dictionary.latest (encode name) flags code)
      (Change.newest entries (Header.token (aligned dictionary.here)) name flags code :: entries) := by
  have hsize := hrep.size_lt
  have hfin := hrep.finish_le
  have hnames := hrep.names_le
  have hstart := hrep.start_le
  have hhere := le_aligned dictionary.here
  have halign := aligned_mod dictionary.here
  have hnew : Change.newest entries (Header.token (aligned dictionary.here)) name flags code =
      { address := aligned dictionary.here, link := dictionary.latest, name, flags, does := 0, code } := by
    rw [Change.newest, hrep.latest_eq, ofToken, Header.token, Nat.add_sub_cancel]
  have hent := @holdsEntry_entered memory _ _ dictionary.latest name flags code hsize halign
    (Nat.le_of_lt hmeet) (by omega) hlen
  rw [Cell.toAddress_ofNat hrep.latest_lt] at hent
  have hsame := sameOutside_entered memory dictionary.latest (encode name) flags code hhere
    hroom hmeet
  rw [hnew]
  constructor
  · rw [hsame.size]
    exact hsize
  · rw [hsame.size]
    exact hfin
  · change dictionary.names - ((encode name).length + 1) ≤ finish
    omega
  · exact hrep.start_pos
  · change dictionary.start ≤ aligned dictionary.here + size
    omega
  · exact fun _ => Nat.le_of_lt hmeet
  · exact ⟨rfl, hrep.linked⟩
  · rw [pairwise_cons]
    refine ⟨fun entry hentry => ?_, hrep.descending⟩
    exact Nat.le_trans (hrep.below entry hentry).2 hhere
  · intro entry hentry
    change dictionary.start ≤ entry.address ∧
      entry.address + size ≤ aligned dictionary.here + size
    rcases List.mem_cons.1 hentry with rfl | holder
    · exact ⟨Nat.le_trans hstart hhere, Nat.le_refl _⟩
    · have hbelow := hrep.below entry holder
      omega
  · intro entry hentry
    rcases List.mem_cons.1 hentry with rfl | holder
    · refine ⟨_, Nat.le_refl _, ?_, hent⟩
      change dictionary.names - _ + ((encode name).length + 1) ≤ finish
      omega
    · obtain ⟨nameAddress, hname, hend, hheld⟩ := hrep.held entry holder
      have hbelow := (hrep.below entry holder).2
      refine ⟨nameAddress, ?_, hend, hheld.frame hsame ?_ ?_ (by omega)⟩
      · change dictionary.names - _ ≤ nameAddress
        omega
      · intro addr _ hhigh hin
        rw [holds_mk] at hin
        omega
      · intro addr hlow _ hin
        rw [holds_mk] at hin
        omega

/-- Changing the flags, the address and the code of one entry. -/
theorem revise {change : Header → Header} (hhdr : header ∈ entries.map Header.address)
    (hsame : SameOutside (Region.mk (flagsField header) (header + Header.size)).Holds
      memory after)
    (hchange : ∀ nameAddress, ∀ entry ∈ entries, entry.address = header →
      HoldsEntry memory nameAddress entry → change entry = rereadTail after entry) :
    Represents finish dictionary after (Dictionary.revise header change entries) := by
  have hfin := hrep.finish_le
  obtain ⟨found, hfound, rfl⟩ := mem_map.1 hhdr
  have hins := hrep.inside hfound
  have hrevised : Dictionary.revise found.address change entries =
      entries.map fun entry =>
        if entry.address = found.address then rereadTail after entry else entry := by
    refine map_congr_left fun entry hentry => ?_
    obtain ⟨nameAddress, _, _, hheld⟩ := hrep.held entry hentry
    split
    · exact hchange nameAddress entry hentry ‹_› hheld
    · rfl
  have hkeeps : ∀ entry : Header,
      (if entry.address = found.address then rereadTail after entry else entry).address =
        entry.address ∧
      (if entry.address = found.address then rereadTail after entry else entry).link = entry.link := by
    intro entry
    split <;> exact ⟨rfl, rfl⟩
  rw [hrevised]
  constructor
  · rw [hsame.size]
    exact hrep.size_lt
  · rw [hsame.size]
    exact hrep.finish_le
  · exact hrep.names_le
  · exact hrep.start_pos
  · exact hrep.start_le
  · exact fun _ => hins.2.2.1
  · exact hrep.linked.map hkeeps
  · rw [pairwise_map]
    refine hrep.descending.imp fun {newer older} hbefore => ?_
    rw [(hkeeps newer).1, (hkeeps older).1]
    exact hbefore
  · intro entry hentry
    obtain ⟨original, horiginal, rfl⟩ := mem_map.1 hentry
    rw [(hkeeps original).1]
    exact hrep.below original horiginal
  · intro entry hentry
    obtain ⟨original, horiginal, rfl⟩ := mem_map.1 hentry
    obtain ⟨nameAddress, hname, hend, hheld⟩ := hrep.held original horiginal
    have habove : ∀ addr, nameAddress ≤ addr →
        ¬ (Region.mk (flagsField found.address) (found.address + Header.size)).Holds addr := by
      intro addr hlow hin
      rw [Region.holds_mk] at hin
      omega
    refine ⟨nameAddress, hname, ?_⟩
    split
    · next hsameHeader =>
      refine ⟨hend, hheld.reread ?_ (by omega) (by omega)⟩
      rw [hsameHeader]
      exact hsame
    · next hother =>
      refine ⟨hend, hheld.frame hsame ?_ (fun addr hlow _ => habove addr hlow) (by omega)⟩
      intro addr hlow hhigh hin
      rw [holds_mk, flagsField] at hin
      have happart := hrep.apart_of_ne horiginal hfound hother
      omega

theorem reflag (hhdr : header ∈ entries.map Header.address) (change : Cell → Cell) :
    Represents finish dictionary
      (memory.setCell (flagsField header) (change (memory.cellAt (flagsField header))))
      (Dictionary.revise header (fun entry => { entry with flags := change entry.flags }) entries) := by
  refine hrep.revise hhdr ?_ ?_
  · refine (sameOutside_setCell _ _ _).mono fun addr hin => ?_
    rw [Region.holds_mk, flagsField] at hin ⊢
    rw [size]
    omega
  · rintro nameAddress entry hentry rfl hheld
    have hins := (hrep.inside hentry).2.2.2
    rw [size] at hins
    have hflags : (memory.setCell (entry.address + 8) (change entry.flags)).cellAt (entry.address + 8) =
        change entry.flags := cellAt_setCell memory _ _ (by omega)
    have hdoes : (memory.setCell (entry.address + 8) (change entry.flags)).cellAt (entry.address + 12) =
        memory.cellAt (entry.address + 12) :=
      cellAt_setCell_of_apart memory _ (.inr (by omega))
    have hcode : (memory.setCell (entry.address + 8) (change entry.flags)).cellAt (entry.address + 16) =
        memory.cellAt (entry.address + 16) :=
      cellAt_setCell_of_apart memory _ (.inr (by omega))
    rw [rereadTail, hheld.flags, flagsField, doesField, Header.token, hflags, hdoes,
      hcode]
    rw [show Cell.toAddress (memory.cellAt (entry.address + 12)) = entry.does from hheld.does,
      show memory.cellAt (entry.address + 16) = entry.code from hheld.code]

theorem setDoes (hhdr : header ∈ entries.map Header.address) (code : Cell) (does : Nat) :
    Represents finish dictionary
      ((memory.setCell (Header.token header) code).setCell (doesField header) (Cell.ofNat does))
      (Dictionary.revise header (fun entry => { entry with code, does := keptAddress does }) entries) := by
  refine hrep.revise hhdr ((sameOutside_setDoes header code _ memory).mono fun addr hin => ?_) ?_
  · rw [Region.holds_mk, doesField] at hin
    rw [Region.holds_mk, flagsField]
    omega
  · rintro nameAddress entry hentry rfl hheld
    exact (rereadTail_setDoes hheld.flags (hrep.inside hentry).2.2.2 code does).symm

end

theorem revise_newest {newest : Header} (hrep : Represents finish dictionary memory (newest :: entries))
    (change : Header → Header) :
    Dictionary.revise newest.address change (newest :: entries) = change newest :: entries := by
  have hdesc := hrep.descending
  rw [List.pairwise_cons] at hdesc
  have hothers : (entries.map fun entry => if entry.address = newest.address then change entry else entry) =
      entries.map id := by
    refine map_congr_left fun entry hentry => if_neg fun hsame => ?_
    have hbefore := hdesc.1 entry hentry
    rw [size] at hbefore
    omega
  rw [Dictionary.revise, map_cons, if_pos rfl, hothers, map_id]

theorem append (hrep : Represents finish dictionary memory entries) {here : Nat}
    (hhere : dictionary.here ≤ here) (hnames : here ≤ dictionary.names)
    (hsame : SameOutside (Region.mk dictionary.here here).Holds memory after) :
    Represents finish { dictionary with here } after entries := by
  refine hrep.move (Nat.le_trans hrep.start_le hhere) hnames ?_ (hsame.mono ?_)
  · intro newest hnewest
    exact Nat.le_trans (hrep.below newest (mem_of_mem_head? hnewest)).2 hhere
  · intro addr hin
    rw [holds_mk] at hin ⊢
    omega

theorem names_le_size (hrep : Represents finish dictionary memory entries) : dictionary.names ≤ memory.size :=
  Nat.le_trans hrep.names_le hrep.finish_le

/-- An operation that may be done and has room keeps the dictionary in step with the entries. -/
theorem outcome (hrep : Represents finish dictionary memory entries) {change : Change}
    (hallowed : change.Allowed dictionary entries) (hfits : change.Fits dictionary) :
    Represents finish (change.outcome dictionary memory).1 (change.outcome dictionary memory).2
      (change.record entries (change.answer dictionary)) := by
  cases change with
  | create name flags code => exact hrep.enter flags code hfits.1 hfits.2.1 hfits.2.2
  | createNameless code => exact @enter _ _ _ _ hrep "" Header.hidden code hfits.1 hfits.2.1 hfits.2.2
  | setFlag header flag => exact hrep.reflag hallowed (· ||| flag)
  | clearFlag header flag => exact hrep.reflag hallowed (· &&& ~~~flag)
  | setDoes header code does => exact hrep.setDoes hallowed code does
  | comma value => exact hrep.append (Nat.le_add_right _ 4) hfits (sameOutside_setCell memory _ value)
  | commaByte value => exact hrep.append (Nat.le_add_right _ 1) hfits (sameOutside_setByte memory _ value)
  | align => exact hrep.append (le_aligned _) hfits (.refl _ memory)
  | allot amount =>
    obtain ⟨hlow, hhigh⟩ := hfits
    have hmoved : dictionary.allot amount = .ok ((Change.allot amount).outcome dictionary memory).1 := by
      rw [allot, if_neg (by omega)]
      rfl
    exact hrep.move (by omega) (by omega) (hallowed _ hmoved) (.refl _ memory)

end Represents

theorem Reached.represents {finish : Nat} {state : Dictionary × Memory} {entries : List Header}
    (hreached : Reached finish state entries) : Represents finish state.1 state.2 entries := by
  induction hreached with
  | new hstart hfin hsize => exact .new hstart hfin hsize
  | done _ hallowed happly ih =>
    obtain ⟨hfits, rfl, rfl⟩ := Change.of_apply_eq_ok ih.names_le_size happly
    exact ih.outcome hallowed hfits
  | failed _ _ happly ih =>
    obtain rfl := Change.of_apply_eq_error ih.names_le_size happly
    exact ih

/-- A dictionary is a list of entries. After any history the chain lists the created words newest
first, each linked to the next older one; every header reads as its entry was last left; a name is
looked up among the visible entries, newest first and without regard to case; exactly the tokens of
the entries are known; and an operation that fails changes neither the cursors nor a byte. -/
theorem reached_refines_entries {finish : Nat} {state : Dictionary × Memory} {entries : List Header}
    (hreached : Reached finish state entries) :
    state.1.headers state.2 = .ok (entries.map Header.address) ∧
      Linked state.1.latest entries ∧
      (∀ entry ∈ entries, header state.2 entry.address = .ok entry) ∧
      (∀ name, state.1.find? state.2 name =
        .ok ((entries.find? fun entry => entry.isVisible && sameName entry.name name).map
          Header.address)) ∧
      (∀ token, state.1.containsToken state.2 token =
        .ok (entries.any fun entry => entry.xt == token)) ∧
      (∀ address < 2 ^ 31, keptAddress address = address) ∧
      ∀ change : Change, change.Allowed state.1 entries → ∀ fault after,
        change.apply state = .error fault after → after = state := by
  have hrepresents := hreached.represents
  exact ⟨hrepresents.headers_eq, hrepresents.linked, fun entry hentry => hrepresents.header_eq hentry,
    hrepresents.find?_eq, hrepresents.containsToken_eq, fun address haddress => keptAddress_eq haddress,
    fun change _ fault after happly => Change.of_apply_eq_error hrepresents.names_le_size happly⟩

/-- Of two words with one name, the older is found while the newer is smudged. -/
theorem reached_refines_entries_smudged :
    ∃ state entries, Reached 64 state entries ∧
      state.1.headers state.2 = .ok [28, 4] ∧ state.1.find? state.2 "Ab" = .ok (some 4) := by
  have hsize : (Memory.ofSize 64).size = 64 := by simp [Memory.ofSize, Memory.size]
  have hempty : Reached 64 (Dictionary.new 4 64, Memory.ofSize 64) [] :=
    .new (by decide) (by omega) (by omega)
  have hone := @Reached.done _ _ _ _ (.create "ab" 0 5) _ hempty trivial rfl
  have htwo := @Reached.done _ _ _ _ (.commaByte 7) _ hone trivial rfl
  have hthree := @Reached.done _ _ _ _ (.create "AB" Header.smudged 6) _ htwo trivial rfl
  refine ⟨_, _, hthree, ?_, ?_⟩
  · exact (reached_refines_entries hthree).1
  · exact ((reached_refines_entries hthree).2.2.2.1 "Ab").trans (congrArg Except.ok (by decide))

end ThreadedForth.Dictionary
