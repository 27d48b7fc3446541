
import ThreadedForth.Proofs.Compiler.Site
import ThreadedForth.Proofs.Interpreter.Lexicon
import ThreadedForth.Proofs.Machine.Calm

/-!
# Pending markers

The machine need not be in the middle of a well-formed definition for its control stack to be in order: after any
error, in any state, a marker with the tag of `:` carries the token of an entry, and a marker that waits for the
target of a branch carries the address of a cell of the dictionary that is part of no header and that no other
marker waits for (`Orderly`). Every control word keeps this, whether or not it succeeds, and of the bytes in use it
changes only the cells that such markers carried before and carry no more (`Appends`).
-/

namespace ThreadedForth

open Dictionary WordM Layout

/-! ### Markers -/

/-- The markers that stand in memory from an address on. -/
def markersFrom (memory : Memory) : Nat → Nat → List Marker
  | 0, _ => []
  | count + 1, top =>
    match Tag.ofCell? (memory.cellAt top) with
    | some tag => ⟨tag, Cell.toAddress (memory.cellAt (top + 4))⟩ :: markersFrom memory count (top + 8)
    | none => markersFrom memory count (top + 8)

namespace Machine

/-- The markers on the control stack, the newest first. -/
def markers (m : Machine) : List Marker :=
  markersFrom m.memory (m.control.depth / 2) m.control.top

/-- The byte is part of the code, with its headers, or of the names. -/
def Used (m : Machine) (address : Nat) : Prop :=
  (dictionaryStart ≤ address ∧ address < m.dictionary.here) ∨
    (m.dictionary.names ≤ address ∧ address < dictionaryEnd)

variable {addr : Nat} {m : Machine}

theorem Used.not_spare (hb : m.Bounded) (hused : m.Used addr) : ¬ m.Spare addr := by
  have hhere := hb.dictionary.here_le
  have hnames : m.dictionary.names ≤ dictionaryEnd := hb.dictionary.names_le
  have hstart : dictionaryStart ≤ m.dictionary.here :=
    Nat.le_trans (Nat.le_of_eq hb.dictionary.start_eq.symm) hb.dictionary.start_le
  have horder := Layout.order
  rintro (hlow | ⟨hlow, hhigh⟩ | hhigh) <;> rcases hused with ⟨hfst, hlast⟩ | ⟨hfst, hlast⟩ <;> omega

theorem Used.lt (hb : m.Bounded) (hused : m.Used addr) : addr < dictionaryEnd := by
  have hhere := hb.dictionary.here_le
  have hnames : m.dictionary.names ≤ dictionaryEnd := hb.dictionary.names_le
  rcases hused with ⟨_, hhigh⟩ | ⟨_, hhigh⟩ <;> omega

end Machine

theorem HoldsMarkers.markersFrom_eq {memory : Memory} {top : Nat} {markers : List Marker}
    (hholds : HoldsMarkers memory top markers) : markersFrom memory markers.length top = markers := by
  induction markers generalizing top with
  | nil => rfl
  | cons marker rest ih =>
    obtain ⟨htag, haddr, hrest⟩ := hholds
    rw [List.length_cons, markersFrom, htag, Tag.ofCell?_toCell]
    simp only [haddr, ih hrest]

theorem HoldsMarkers.markers_eq {m : Machine} {markers : List Marker}
    (hholds : HoldsMarkers m.memory m.control.top markers)
    (htop : m.control.top + 8 * markers.length = m.control.base) : m.markers = markers := by
  have hlen : m.control.depth / 2 = markers.length := by
    rw [Stack.depth]
    omega
  rw [Machine.markers, hlen, hholds.markersFrom_eq]

/-- The markers carry what their tags say: the token of an entry, or the address of a cell below `here` that is part
of no header and that no other marker carries. -/
structure Seated (entries : List Header) (here : Nat) (markers : List Marker) : Prop where
  addresses : ∀ marker ∈ markers, marker.address < 2 ^ 31
  colons : ∀ marker ∈ markers, marker.tag = .colon → ∃ entry ∈ entries, entry.xt = marker.address
  places : ∀ marker ∈ markers, marker.tag.isForward → dictionaryStart ≤ marker.address ∧
    marker.address + 4 ≤ here ∧
    ∀ entry ∈ entries, marker.address + 4 ≤ entry.address ∨ entry.address + Header.size ≤ marker.address
  distinct : markers.Pairwise fun marker other => marker.tag.isForward → other.tag.isForward →
    marker.address + 4 ≤ other.address ∨ other.address + 4 ≤ marker.address

namespace Seated

variable {entries revised : List Header} {here later : Nat} {markers other : List Marker} {marker : Marker}

theorem nil : Seated entries here [] where
  addresses _ hmark := absurd hmark List.not_mem_nil
  colons _ hmark := absurd hmark List.not_mem_nil
  places _ hmark := absurd hmark List.not_mem_nil
  distinct := List.Pairwise.nil

variable (hseated : Seated entries here markers)

include hseated

theorem perm (hperm : markers.Perm other) : Seated entries here other where
  addresses marker hmark := hseated.addresses marker (hperm.mem_iff.2 hmark)
  colons marker hmark := hseated.colons marker (hperm.mem_iff.2 hmark)
  places marker hmark := hseated.places marker (hperm.mem_iff.2 hmark)
  distinct := (hperm.pairwise_iff fun hapart hleft hright => (hapart hright hleft).symm).1 hseated.distinct

theorem sublist (hsub : other.Sublist markers) : Seated entries here other where
  addresses marker hmark := hseated.addresses marker (hsub.subset hmark)
  colons marker hmark := hseated.colons marker (hsub.subset hmark)
  places marker hmark := hseated.places marker (hsub.subset hmark)
  distinct := hseated.distinct.sublist hsub

theorem grow (hhere : here ≤ later) : Seated entries later markers where
  addresses := hseated.addresses
  colons := hseated.colons
  places marker hmark hfwd := by
    obtain ⟨hlow, hhigh, hapart⟩ := hseated.places marker hmark hfwd
    exact ⟨hlow, Nat.le_trans hhigh hhere, hapart⟩
  distinct := hseated.distinct

theorem target (hfwd : marker.tag.isForward = false)
    (hcolon : marker.tag ≠ .colon) (haddr : marker.address < 2 ^ 31) : Seated entries here (marker :: markers) where
  addresses := List.forall_mem_cons.2 ⟨haddr, hseated.addresses⟩
  colons := List.forall_mem_cons.2 ⟨fun htag => absurd htag hcolon, hseated.colons⟩
  places := List.forall_mem_cons.2 ⟨fun htag => absurd (hfwd.symm.trans htag) Bool.false_ne_true, hseated.places⟩
  distinct := List.pairwise_cons.2
    ⟨fun _ _ htag => absurd (hfwd.symm.trans htag) Bool.false_ne_true, hseated.distinct⟩

theorem place (hcolon : marker.tag ≠ .colon)
    (hbelow : ∀ entry ∈ entries, entry.address + Header.size ≤ here) (hstart : dictionaryStart ≤ here)
    (haddr : marker.address = here) (hlater : here + 4 ≤ later) (hrange : later < 2 ^ 31) :
    Seated entries later (marker :: markers) where
  addresses := List.forall_mem_cons.2 ⟨by omega, hseated.addresses⟩
  colons := List.forall_mem_cons.2 ⟨fun htag => absurd htag hcolon, hseated.colons⟩
  places := by
    refine List.forall_mem_cons.2 ⟨fun _ => ⟨by omega, by omega, fun entry hentry => .inr ?_⟩,
      (hseated.grow (by omega)).places⟩
    have hhdr := hbelow entry hentry
    omega
  distinct := by
    refine List.pairwise_cons.2 ⟨fun other hother _ hfwd => .inr ?_, hseated.distinct⟩
    obtain ⟨_, hhigh, _⟩ := hseated.places other hother hfwd
    omega

theorem colon (htag : marker.tag = .colon) {entry : Header}
    (hentry : entry ∈ entries) (hxt : entry.xt = marker.address) (haddr : marker.address < 2 ^ 31) :
    Seated entries here (marker :: markers) where
  addresses := List.forall_mem_cons.2 ⟨haddr, hseated.addresses⟩
  colons := List.forall_mem_cons.2 ⟨fun _ => ⟨entry, hentry, hxt⟩, hseated.colons⟩
  places := List.forall_mem_cons.2 ⟨fun hfwd => absurd hfwd (by rw [htag]; decide), hseated.places⟩
  distinct := List.pairwise_cons.2 ⟨fun _ _ hfwd => absurd hfwd (by rw [htag]; decide), hseated.distinct⟩

theorem revise (hkept : ∀ entry ∈ entries, ∃ other ∈ revised, other.address = entry.address)
    (hfresh : ∀ entry ∈ revised, (∃ other ∈ entries, other.address = entry.address) ∨ here ≤ entry.address) :
    Seated revised here markers where
  addresses := hseated.addresses
  colons marker hmark htag := by
    obtain ⟨entry, hentry, hxt⟩ := hseated.colons marker hmark htag
    obtain ⟨other, hother, haddr⟩ := hkept entry hentry
    exact ⟨other, hother, by rw [Header.xt, haddr]; exact hxt⟩
  places marker hmark hfwd := by
    obtain ⟨hlow, hhigh, hapart⟩ := hseated.places marker hmark hfwd
    refine ⟨hlow, hhigh, fun entry hentry => ?_⟩
    rcases hfresh entry hentry with ⟨other, hother, haddr⟩ | hhere
    · rw [← haddr]
      exact hapart other hother
    · exact .inl (by omega)
  distinct := hseated.distinct

end Seated

/-! ### Order -/

/-- The dictionary holds the entries and the control stack the markers, and both these markers and those that a word
has taken from the stack carry what their tags say. -/
structure Orderly (entries : List Header) (markers inHand : List Marker) (m : Machine) : Prop where
  bounded : m.Bounded
  lexicon : Lexicon entries m
  top_eq : m.control.top + 8 * markers.length = m.control.base
  held : HoldsMarkers m.memory m.control.top markers
  seated : Seated entries m.dictionary.here (markers ++ inHand)

namespace Orderly

variable {entries : List Header} {markers inHand other : List Marker} {m after : Machine}

section

variable (hord : Orderly entries markers inHand m)

include hord

theorem start_le : dictionaryStart ≤ m.dictionary.here :=
  Nat.le_trans (Nat.le_of_eq hord.bounded.dictionary.start_eq.symm) hord.bounded.dictionary.start_le

theorem here_le : m.dictionary.here ≤ m.dictionary.names :=
  hord.bounded.dictionary.here_le

theorem names_le : m.dictionary.names ≤ dictionaryEnd :=
  hord.bounded.dictionary.names_le

theorem base_eq : m.control.base = returnStack :=
  hord.bounded.control.base_eq

theorem top_ge : dictionaryEnd ≤ m.control.top :=
  Nat.le_trans (Nat.le_of_eq hord.bounded.control.limit_eq.symm) hord.bounded.control.limit_le

theorem here_lt : m.dictionary.here < 2 ^ 31 := by
  have hhere := hord.here_le
  have hnames := hord.names_le
  have horder := Layout.order
  omega

theorem markers_eq : m.markers = markers :=
  hord.held.markers_eq hord.top_eq

theorem markerDepth_eq : markerDepth m = .ok markers.length m := by
  have htop := hord.top_eq
  have hlen : m.control.depth / 2 = markers.length := by
    rw [Stack.depth]
    omega
  rw [WordM.markerDepth_eq, hlen]

theorem withHand (hseated : Seated entries m.dictionary.here (markers ++ other)) : Orderly entries markers other m :=
  { hord with seated := hseated }

end

theorem drop (hord : Orderly entries markers inHand m) (hsub : other.Sublist inHand) :
    Orderly entries markers other m :=
  hord.withHand (hord.seated.sublist ((List.Sublist.refl _).append hsub))

/-- Memory that changes away from the headers, the names and the control stack. -/
theorem frame (hord : Orderly entries markers inHand m) {area : Nat → Prop} {here : Nat} {memory : Memory}
    (hb : after.Bounded) (hctl : after.control = m.control)
    (hdict : after.dictionary = { m.dictionary with here }) (hmem : after.memory = memory)
    (hhere : m.dictionary.here ≤ here) (hsame : Memory.SameOutside area m.memory memory)
    (hheaders : ∀ entry ∈ entries, ∀ addr, entry.address ≤ addr → addr < entry.address + Header.size →
      ¬ area addr)
    (hnames : ∀ addr, m.dictionary.names ≤ addr → addr < returnStack → ¬ area addr) :
    Orderly entries markers inHand after := by
  have hnamesLe := hord.names_le
  have htop := hord.top_ge
  have hbase := hord.base_eq
  have htopEq := hord.top_eq
  have hmeet : here ≤ m.dictionary.names := by
    have hlast := hb.dictionary.here_le
    rw [hdict] at hlast
    exact hlast
  subst hmem
  refine ⟨hb, ?_, ?_, ?_, ?_⟩
  · rw [Lexicon, hdict]
    refine Represents.frame hord.lexicon (Nat.le_trans hord.lexicon.start_le hhere) hmeet ?_ hsame hheaders ?_
    · intro newest hnewest
      exact Nat.le_trans (hord.lexicon.below newest (List.mem_of_mem_head? hnewest)).2 hhere
    · intro addr hlow hhigh
      exact hnames addr hlow (by omega)
  · rw [hctl]
    exact htopEq
  · rw [hctl]
    refine hord.held.frame hsame fun addr hlow hhigh => hnames addr (by omega) (by omega)
  · rw [hdict]
    exact hord.seated.grow hhere

theorem calm (hord : Orderly entries markers inHand m) (hcalm : m.Calm after) :
    Orderly entries markers inHand after := by
  refine hord.frame hcalm.bounded hcalm.control hcalm.dictionary rfl hcalm.here_le hcalm.memory ?_ ?_
  · intro entry hentry addr hlow hhigh
    have hstart : dictionaryStart ≤ entry.address :=
      Nat.le_trans (Nat.le_of_eq hord.bounded.dictionary.start_eq.symm) (hord.lexicon.below entry hentry).1
    have hbelow := (hord.lexicon.below entry hentry).2
    exact Machine.Used.not_spare hord.bounded (.inl ⟨by omega, by omega⟩)
  · intro addr hlow hhigh
    have hstart := hord.start_le
    have hhere := hord.here_le
    rintro (hout | ⟨_, hout⟩ | hout) <;> omega

variable {marker : Marker}

theorem withoutMarker (hord : Orderly entries (marker :: markers) inHand m) :
    Orderly entries markers (marker :: inHand) m.withoutMarker := by
  have htop := hord.top_eq
  rw [List.length_cons] at htop
  refine ⟨hord.bounded.withoutMarker (by omega), hord.lexicon, ?_, hord.held.2.2,
    hord.seated.perm List.perm_middle.symm⟩
  change m.control.top + 4 + 4 + 8 * markers.length = m.control.base
  omega

theorem sameOutside_withMarker (hord : Orderly entries markers inHand m) (marker : Marker)
    (hroom : m.control.limit + 8 ≤ m.control.top) :
    Memory.SameOutside (dictionaryEnd ≤ ·) m.memory (m.withMarker marker).memory := by
  have hlimit : m.control.limit = dictionaryEnd := hord.bounded.control.limit_eq
  refine (Machine.sameOutside_withMarker marker hroom).mono fun addr hin => ?_
  rw [Region.holds_mk] at hin
  omega

theorem withMarker (hord : Orderly entries markers (marker :: inHand) m) (hroom : m.control.limit + 8 ≤ m.control.top) :
    Orderly entries (marker :: markers) inHand (m.withMarker marker) := by
  have hperm : (markers ++ marker :: inHand).Perm (marker :: markers ++ inHand) := List.perm_middle
  have haddr := hord.seated.addresses marker (hperm.mem_iff.2 List.mem_cons_self)
  have hdict := m.dictionary_withMarker marker
  have hseated : Seated entries (m.withMarker marker).dictionary.here (marker :: markers ++ inHand) := by
    rw [hdict]
    exact hord.seated.perm hperm
  have hlex : Lexicon entries (m.withMarker marker) :=
    hord.lexicon.transfer hdict (hord.sameOutside_withMarker marker hroom) (fun _ => .inr)
      hord.here_le
  refine ⟨hord.bounded.withMarker marker hroom, hlex, ?_,
    hord.held.withMarker hord.bounded haddr hroom, hseated⟩
  have htop := hord.top_eq
  change m.control.top - 4 - 4 + 8 * (markers.length + 1) = m.control.base
  omega

theorem patch_cases (hord : Orderly entries markers (marker :: inHand) m) (hfwd : marker.tag.isForward = true) :
    (∃ fault, WordM.patch marker.address m = .error fault m) ∨
      ∃ offset, WordM.patch marker.address m =
          .ok () { m with memory := m.memory.setCell marker.address offset } ∧
        Orderly entries markers inHand { m with memory := m.memory.setCell marker.address offset } := by
  have hin : marker ∈ markers ++ marker :: inHand := List.mem_append_right _ List.mem_cons_self
  obtain ⟨hlow, hhigh, hapart⟩ := hord.seated.places marker hin hfwd
  have hdropped := hord.drop (List.sublist_cons_self marker inHand)
  have hnames := hord.here_le
  have hhere : here m = .ok m.dictionary.here m := rfl
  rw [WordM.patch, bind_of_ok hhere, writeCell, onMemory]
  generalize Cell.ofNat m.dictionary.here - Cell.ofNat marker.address = offset
  rcases Memory.guarded_cases (·.checkAligned marker.address 4) (·.setCell marker.address offset) m.memory with
    ⟨_, hok⟩ | ⟨fault, _, herror⟩
  · refine .inr ⟨offset, by rw [Memory.writeCell, hok], ?_⟩
    refine hdropped.frame (hord.bounded.withMemory (Memory.size_setCell _ _ _)) rfl rfl rfl (Nat.le_refl _)
      (Memory.sameOutside_setCell m.memory marker.address offset) ?_ ?_
    · intro entry hentry addr hfst hlast hin
      rw [Region.holds_mk] at hin
      rcases hapart entry hentry with hbelow | habove <;> omega
    · intro addr hfst _ hin
      rw [Region.holds_mk] at hin
      omega
  · exact .inl ⟨fault, by rw [Memory.writeCell, herror]⟩

/-- A cell for an offset that is still to come is appended, and may be marked, or nothing happens. -/
theorem placeholder_cases (hord : Orderly entries markers inHand m) :
    (∃ fault, comma 0 m = .error fault m) ∨
      ∃ grown, comma 0 m = .ok () grown ∧ m.Calm grown ∧ m.dictionary.here % 4 = 0 ∧
        grown.memory.cellAt m.dictionary.here = 0 ∧
        ∀ tag, tag ≠ .colon → Orderly entries markers (⟨tag, m.dictionary.here⟩ :: inHand) grown := by
  rcases m.dictionary.comma_cases 0 m.memory with ⟨fault, herror⟩ | ⟨hroom, hok⟩
  · exact .inl ⟨fault, by rw [WordM.comma, onDictionary, bind_of_error herror]⟩
  · have hcomma : comma 0 m = .ok () { m with
        dictionary := { m.dictionary with here := m.dictionary.here + 4 }
        memory := m.memory.setCell m.dictionary.here 0 } := by
      rw [WordM.comma, onDictionary, bind_of_ok hok]
      rfl
    have hcalm := Machine.Calm.appended hord.bounded (Nat.le_add_right _ 4) hroom
      (Memory.sameOutside_setCell m.memory m.dictionary.here 0)
    have hsize := Nat.le_trans hord.lexicon.names_le hord.lexicon.finish_le
    refine .inr ⟨_, hcomma, hcalm, Dictionary.aligned_of_comma hok,
      Memory.cellAt_setCell _ _ _ (Nat.le_trans hroom hsize), fun tag htag => ?_⟩
    have hperm : (markers ++ ⟨tag, m.dictionary.here⟩ :: inHand).Perm
        (⟨tag, m.dictionary.here⟩ :: (markers ++ inHand)) := List.perm_middle
    have hplaced : Seated entries (m.dictionary.here + 4)
        (⟨tag, m.dictionary.here⟩ :: (markers ++ inHand)) :=
      hord.seated.place htag (fun entry hentry => (hord.lexicon.below entry hentry).2) hord.start_le rfl
        (Nat.le_refl _) (hord.calm hcalm).here_lt
    exact (hord.calm hcalm).withHand (hplaced.perm hperm.symm)

theorem target (hord : Orderly entries markers inHand m) {tag : Tag} (hfwd : tag.isForward = false)
    (hcolon : tag ≠ .colon) : Orderly entries markers (⟨tag, m.dictionary.here⟩ :: inHand) m :=
  hord.withHand ((hord.seated.target hfwd hcolon hord.here_lt).perm List.perm_middle.symm)

end Orderly

/-! ### Appending -/

/-- The byte is one of the four of a cell. -/
def InCell (place address : Nat) : Prop := place ≤ address ∧ address < place + 4

/-- The byte belongs to a cell that a marker waited for and no marker waits for any more. -/
def Resolved (markers later : List Marker) (address : Nat) : Prop :=
  ∃ marker ∈ markers, marker.tag.isForward ∧ InCell marker.address address ∧
    ∀ other ∈ later, other.tag.isForward → other.address ≠ marker.address

/-- The dictionary has grown, every marker is an old one or carries an address above the old code, and of the bytes
that were in use only those in the area and the resolved cells may have changed. -/
structure Appends (area : Nat → Prop) (markers later : List Marker) (before after : Machine) : Prop where
  here_le : before.dictionary.here ≤ after.dictionary.here
  names_le : after.dictionary.names ≤ before.dictionary.names
  fresh : ∀ marker ∈ later, marker ∈ markers ∨ before.dictionary.here ≤ marker.address
  bytes : ∀ address, before.Used address → ¬ area address → ¬ Resolved markers later address →
    after.memory.byteAt address = before.memory.byteAt address

theorem Resolved.mono {markers later fewer : List Marker} {addr : Nat} (hresolved : Resolved markers later addr)
    (hfewer : ∀ marker ∈ fewer, marker ∈ later) : Resolved markers fewer addr := by
  obtain ⟨marker, hmark, hfwd, hin, hgone⟩ := hresolved
  exact ⟨marker, hmark, hfwd, hin, fun other hother => hgone other (hfewer other hother)⟩

namespace Appends

variable {area : Nat → Prop} {entries : List Header} {markers later last inHand : List Marker}
  {before middle after : Machine}

theorem used (happ : Appends area markers later before after) {addr : Nat} (hused : before.Used addr) :
    after.Used addr := by
  have hhere := happ.here_le
  have hnames := happ.names_le
  rcases hused with ⟨hlow, hhigh⟩ | ⟨hlow, hhigh⟩
  · exact .inl ⟨hlow, by omega⟩
  · exact .inr ⟨by omega, hhigh⟩

theorem calm (hb : before.Bounded) (hcalm : before.Calm after) : Appends area markers markers before after where
  here_le := hcalm.here_le
  names_le := Nat.le_of_eq hcalm.names_eq
  fresh _ hmark := .inl hmark
  bytes addr hused _ _ := hcalm.memory.byteAt addr (hused.not_spare hb)

theorem mono (happ : Appends area markers later before after) (hlast : ∀ marker ∈ last, marker ∈ later) :
    Appends area markers last before after where
  here_le := happ.here_le
  names_le := happ.names_le
  fresh marker hmark := happ.fresh marker (hlast marker hmark)
  bytes addr hused harea hresolved :=
    happ.bytes addr hused harea fun hgone => hresolved (hgone.mono hlast)

theorem trans {others : List Header} (hbefore : Seated entries before.dictionary.here markers)
    (hmid : Seated others middle.dictionary.here later) (hb : middle.Bounded)
    (hfst : Appends area markers later before middle) (hsnd : Appends area later last middle after) :
    Appends area markers last before after where
  here_le := Nat.le_trans hfst.here_le hsnd.here_le
  names_le := Nat.le_trans hsnd.names_le hfst.names_le
  fresh marker hmark := by
    rcases hsnd.fresh marker hmark with hlater | hhigh
    · exact hfst.fresh marker hlater
    · exact .inr (Nat.le_trans hfst.here_le hhigh)
  bytes addr hused harea hresolved := by
    have hhere := hfst.here_le
    have hnames := hfst.names_le
    have hmeet := hb.dictionary.here_le
    refine (hsnd.bytes addr (hfst.used hused) harea ?_).trans (hfst.bytes addr hused harea ?_)
    · rintro ⟨marker, hmark, hfwd, hin, hgone⟩
      rcases hfst.fresh marker hmark with hold | hnew
      · exact hresolved ⟨marker, hold, hfwd, hin, hgone⟩
      · -- The cell was appended in between, so it was not in use before.
        obtain ⟨_, hplace, _⟩ := hmid.places marker hmark hfwd
        obtain ⟨_, _⟩ := hin
        rcases hused with ⟨_, hhigh⟩ | ⟨hlow, _⟩ <;> omega
    · rintro ⟨marker, hmark, hfwd, hin, hgone⟩
      refine hresolved ⟨marker, hmark, hfwd, hin, fun other hother hother' => ?_⟩
      rcases hsnd.fresh other hother with hlater | hnew
      · exact hgone other hlater hother'
      · obtain ⟨_, hplace, _⟩ := hbefore.places marker hmark hfwd
        omega

end Appends

/-! ### What an action brings about -/

/-- From a machine where `pre` holds the action ends with an answer and a machine where `post` holds of them, or it
fails and leaves a machine where `fails` holds. -/
def Secures {α : Type} (pre : Machine → Prop) (action : WordM α) (post : α → Machine → Prop)
    (fails : Machine → Prop) : Prop :=
  ∀ m, pre m →
    match action m with
    | .ok answer after => post answer after
    | .error _ after => fails after

namespace Secures

variable {α β : Type} {pre fails : Machine → Prop} {post : α → Machine → Prop} {final : β → Machine → Prop}

theorem pure (answer : α) : Secures (post answer) (Pure.pure answer) post fails := fun _ hpost => hpost

theorem throw (fault : Fault) : Secures fails (MonadExcept.throw fault) post fails := fun _ hfails => hfails

theorem bind {first : WordM α} {rest : α → WordM β} (hfst : Secures pre first post fails)
    (hrest : ∀ answer, Secures (post answer) (rest answer) final fails) : Secures pre (first >>= rest) final fails := by
  intro m hpre
  have hm := hfst m hpre
  cases hres : first m with
  | ok answer middle =>
    rw [hres] at hm
    rw [bind_of_ok hres]
    exact hrest answer middle hm
  | error fault middle =>
    rw [hres] at hm
    rw [bind_of_error hres]
    exact hm

theorem ask (question : Machine → Except Fault α) (hok : ∀ m answer, pre m → question m = .ok answer →
    post answer m) (herror : ∀ m, pre m → fails m) : Secures pre (WordM.ask question) post fails := by
  intro m hpre
  rw [WordM.ask]
  cases hquestion : question m with
  | ok answer => exact hok m answer hpre hquestion
  | error fault => exact herror m hpre

theorem of_keeps (action : WordM α) [Keeps pre action] : Secures pre action (fun _ => pre) pre := by
  intro m hpre
  cases hres : action m with
  | ok answer after =>
    have hafter : pre after := Keeps.of_ok hpre hres
    exact hafter
  | error fault after =>
    have hafter : pre after := Keeps.of_error hpre hres
    exact hafter

theorem discard {action : WordM α} (hact : Secures pre action post fails) :
    Secures pre (Functor.discard action) (fun _ m => ∃ answer, post answer m) fails := by
  rw [Parallel.discard_eq_bind]
  exact hact.bind fun answer m hpost => ⟨answer, hpost⟩

theorem stateAfter {action : WordM α} {holds : Machine → Prop} (hact : Secures pre action (fun _ => holds) holds)
    {m : Machine} (hpre : pre m) : holds (ThreadedForth.stateAfter action m) := by
  have hm := hact m hpre
  rw [ThreadedForth.stateAfter]
  cases hres : action m <;> (rw [hres] at hm; exact hm)

theorem before {weaker : Machine → Prop} {action : WordM α} (hact : Secures weaker action post fails)
    (hpre : ∀ m, pre m → weaker m) : Secures pre action post fails :=
  fun m hm => hact m (hpre m hm)

theorem after {stronger : α → Machine → Prop} {worse : Machine → Prop} {action : WordM α}
    (hact : Secures pre action stronger worse) (hpost : ∀ answer m, stronger answer m → post answer m)
    (hfails : ∀ m, worse m → fails m) : Secures pre action post fails := by
  intro m hm
  have hres := hact m hm
  cases hend : action m with
  | ok answer last =>
    rw [hend] at hres
    exact hpost answer last hres
  | error fault last =>
    rw [hend] at hres
    exact hfails last hres

end Secures

/-! ### Control words -/

/-- What an action does with the markers in hand. An action that fails lets go of all of them. -/
abbrev Handles {α : Type} (holding : List Marker → Machine → Prop) (inHand : List Marker) (action : WordM α)
    (post : α → Machine → Prop) : Prop :=
  Secures (holding inHand) action post (holding [])

/-- A condition on the markers in hand and the machine that is kept by all that control words are made of. A marker
that is taken may have to be let go if it is that of a definition, so a search must not accept one. -/
structure Handling (holding : List Marker → Machine → Prop) : Prop where
  bounded {inHand : List Marker} {m : Machine} : holding inHand m → m.Bounded
  held {inHand : List Marker} {m : Machine} : holding inHand m → ∃ markers,
    m.control.top + 8 * markers.length = m.control.base ∧
      HoldsMarkers m.memory m.control.top markers
  comma {inHand : List Marker} (value : Cell) : Handles holding inHand (comma value) fun _ => holding inHand
  drop {inHand other : List Marker} {m : Machine} : holding inHand m → other.Sublist inHand →
    holding other m
  perm {inHand other : List Marker} {m : Machine} : holding inHand m → inHand.Perm other →
    holding other m
  target {inHand : List Marker} {m : Machine} {tag : Tag} : tag.isForward = false → tag ≠ .colon →
    holding inHand m → holding (⟨tag, m.dictionary.here⟩ :: inHand) m
  popMarker {inHand : List Marker} : Handles holding inHand popMarker fun marker m =>
    holding inHand m ∧ (marker.tag ≠ .colon → holding (marker :: inHand) m)
  pushMarker {inHand : List Marker} {marker : Marker} : Handles holding (marker :: inHand) (pushMarker marker)
    fun _ => holding inHand
  patch {inHand : List Marker} {marker : Marker} : marker.tag.isForward = true →
    Handles holding (marker :: inHand) (patch marker.address) fun _ => holding inHand
  placeholder {inHand : List Marker} {place : Nat} :
    Secures (fun m => holding inHand m ∧ m.dictionary.here = place) (WordM.comma 0)
      (fun _ m => ∀ tag, tag ≠ .colon → holding (⟨tag, place⟩ :: inHand) m) (holding [])
  popUntil {inHand : List Marker} {accept skip : Tag → Bool} (haccept : accept .colon = false) (steps : Nat)
    (passed : List Marker) : Handles holding (passed ++ inHand) (popUntil accept skip steps passed)
      fun found m => accept found.1.tag = true ∧ holding (found.1 :: (found.2 ++ inHand)) m

theorem handles_comma_of_calm {holding : List Marker → Machine → Prop} {inHand : List Marker} (value : Cell)
    (hb : ∀ m, holding inHand m → m.Bounded)
    (hcalm : ∀ m after : Machine, holding inHand m → m.Calm after → holding inHand after)
    (hfails : ∀ m, holding inHand m → holding [] m) :
    Handles holding inHand (comma value) fun _ => holding inHand := by
  intro m hhold
  have hkeeps : Keeps m.Calm (comma value) := inferInstance
  have hafter := hcalm m _ hhold (hkeeps.keeps m (.refl (hb m hhold)))
  rw [stateAfter] at hafter
  cases hcomma : comma value m with
  | ok answer after =>
    rw [hcomma] at hafter
    exact hafter
  | error fault after =>
    rw [hcomma] at hafter
    exact hfails after hafter

namespace Handling

variable {holding : List Marker → Machine → Prop} (hhand : Handling holding) {inHand : List Marker} {α : Type}

include hhand

theorem fails {m : Machine} (hhold : holding inHand m) : holding [] m :=
  hhand.drop hhold (List.nil_sublist _)

theorem ask (question : Machine → Except Fault α) :
    Handles holding inHand (WordM.ask question) fun _ => holding inHand :=
  Secures.ask question (fun _ _ hhold _ => hhold) fun _ => hhand.fails

theorem compile (prim : Prim) : Handles holding inHand (compile prim) fun _ => holding inHand := hhand.comma _

theorem compileBranch (jump : ThreadWord) : Handles holding inHand (compileBranch jump)
    fun place m => ∀ tag, tag ≠ .colon → holding (⟨tag, place⟩ :: inHand) m := by
  refine Secures.bind (hhand.compile (.thread jump)) fun _ m hhold => ?_
  have hhere : here m = .ok m.dictionary.here m := rfl
  rw [bind_of_ok hhere]
  exact Secures.bind hhand.placeholder (fun _ _ hmarked => hmarked) m ⟨hhold, rfl⟩

theorem pushMarkers (passed : List Marker) :
    Handles holding (passed ++ inHand) (passed.forM WordM.pushMarker) fun _ => holding inHand := by
  induction passed with
  | nil => exact fun _ hhold => hhold
  | cons marker rest ih => exact Secures.bind hhand.pushMarker fun _ => ih

variable {tags : List Tag} {tag : Tag}

theorem popExpected (htags : Tag.colon ∉ tags) (pastWhile : Bool) :
    Handles holding inHand (popExpected tags pastWhile) fun addr m =>
      ∃ marker : Marker, marker.address = addr ∧ marker.tag ∈ tags ∧ holding (marker :: inHand) m := by
  have haccept : tags.contains .colon = false := by simpa using htags
  refine Secures.bind (hhand.ask _) fun depth => ?_
  refine Secures.bind (hhand.popUntil haccept (depth + 1) []) ?_
  rintro ⟨marker, passed⟩ m ⟨haccept, hhold⟩
  have hput : Handles holding (passed ++ marker :: inHand) (passed.forM WordM.pushMarker)
      fun _ => holding (marker :: inHand) := hhand.pushMarkers passed
  refine Secures.bind hput (fun _ => ?_) m (hhand.perm hhold List.perm_middle.symm)
  exact (Secures.pure marker.address).before fun last hlast =>
    ⟨marker, rfl, List.contains_iff_mem.1 haccept, hlast⟩

theorem resolveForward (htags : ∀ tag ∈ tags, tag.isForward = true) (pastWhile : Bool) :
    Handles holding inHand (resolveForward tags pastWhile) fun _ => holding inHand := by
  have hcolon : Tag.colon ∉ tags := fun hcolon => absurd (htags .colon hcolon) (by decide)
  refine Secures.bind (hhand.popExpected hcolon pastWhile) fun addr => ?_
  rintro m ⟨marker, rfl, htag, hhold⟩
  exact hhand.patch (htags marker.tag htag) m hhold

theorem resolveRun (htag : tag.isForward = true) (steps : Nat) :
    Handles holding inHand (resolveRun tag steps) fun _ => holding inHand := by
  induction steps with
  | zero => exact fun _ hhold => hhold
  | succ steps ih =>
    intro m hhold
    have hb := hhand.bounded hhold
    obtain ⟨markers, htop, hheld⟩ := hhand.held hhold
    rw [WordM.resolveRun, bind_of_ok (topTag_of_holds hb htop hheld)]
    by_cases hhead : markers.head?.map Marker.tag = some tag
    · rw [if_pos hhead]
      obtain ⟨marker, hmark, rfl⟩ := Option.map_eq_some_iff.1 hhead
      obtain ⟨rest, rfl⟩ := List.head?_eq_some_iff.1 hmark
      have hpop := popMarker_of_holds hb htop hheld
      have hpopped := hhand.popMarker m hhold
      have hcolon : marker.tag ≠ .colon := fun hcolon => absurd (hcolon ▸ htag) (by decide)
      rw [hpop] at hpopped
      rw [bind_of_ok hpop]
      exact Secures.bind (hhand.patch htag) (fun _ => ih) _ (hpopped.2 hcolon)
    · rw [if_neg hhead]
      exact hhold

theorem branchForward (jump : ThreadWord) (htag : tag ≠ .colon) :
    Handles holding inHand (branchForward jump tag) fun _ => holding inHand := by
  refine Secures.bind (hhand.compileBranch jump) fun placeholder => ?_
  exact hhand.pushMarker.before fun m hhold => hhold tag htag

theorem markTarget (hfwd : tag.isForward = false) (hcolon : tag ≠ .colon) :
    Handles holding inHand (markTarget tag) fun _ => holding inHand := by
  intro m hhold
  have hhere : here m = .ok m.dictionary.here m := rfl
  rw [WordM.markTarget, bind_of_ok hhere]
  exact hhand.pushMarker m (hhand.target hfwd hcolon hhold)

theorem branchBack (jump : ThreadWord) (htags : Tag.colon ∉ tags) :
    Handles holding inHand (branchBack jump tags) fun _ => holding inHand := by
  refine Secures.bind (hhand.popExpected htags true) fun target => ?_
  have hrest : Handles holding inHand (do
      WordM.compile (.thread jump)
      WordM.comma (Cell.ofNat target - Cell.ofNat (← here))) fun _ => holding inHand :=
    Secures.bind (hhand.compile (.thread jump)) fun _ => Secures.bind (hhand.ask _) fun _ => hhand.comma _
  refine hrest.before ?_
  rintro m ⟨marker, _, _, hhold⟩
  exact hhand.drop hhold (List.sublist_cons_self _ _)

theorem closeMarker (tag : Tag) : Handles holding inHand (closeMarker tag) fun _ => holding inHand := by
  refine Secures.bind hhand.popMarker fun marker => ?_
  refine Secures.before (?_ : Handles holding inHand _ _) fun m hhold => hhold.1
  split
  · exact (Secures.throw _).before fun _ => hhand.fails
  · exact fun _ hhold => hhold

theorem divide (htags : ∀ tag ∈ tags, tag.isForward = true) (pastWhile : Bool)
    (htag : tag ≠ .colon) :
    Handles holding inHand (ControlWord.divide tags pastWhile tag) fun _ => holding inHand := by
  refine Secures.bind (hhand.compileBranch .branch) fun placeholder => ?_
  have hrest : Handles holding (⟨tag, placeholder⟩ :: inHand) (do
      WordM.resolveForward tags pastWhile
      WordM.pushMarker ⟨tag, placeholder⟩) fun _ => holding inHand :=
    Secures.bind (hhand.resolveForward htags pastWhile) fun _ => hhand.pushMarker
  exact hrest.before fun m hhold => hhold tag htag

theorem openLoop (enter : ThreadWord) :
    Handles holding inHand (ControlWord.openLoop enter) fun _ => holding inHand :=
  Secures.bind (hhand.markTarget (by decide) (by decide)) fun _ =>
    Secures.bind (hhand.branchForward enter (by decide)) fun _ => hhand.markTarget (by decide) (by decide)

theorem closeLoop (step : ThreadWord) :
    Handles holding inHand (ControlWord.closeLoop step) fun _ => holding inHand :=
  Secures.bind (hhand.branchBack step (by decide)) fun _ => Secures.bind (hhand.ask _) fun depth =>
    Secures.bind (hhand.resolveRun (by decide) depth) fun _ =>
      Secures.bind (hhand.resolveForward (by decide) false) fun _ => hhand.closeMarker _

theorem leaveLoop : Handles holding inHand ControlWord.leaveLoop fun _ => holding inHand := by
  refine Secures.bind (hhand.compile (.thread .unloop)) fun _ => ?_
  refine Secures.bind (hhand.compileBranch .branch) fun placeholder => ?_
  have hrest : Handles holding (⟨.leave, placeholder⟩ :: inHand) (do
      let depth ← markerDepth
      let found ← WordM.popUntil (· == .doBack) (fun _ => true) (depth + 1) []
      WordM.pushMarker ⟨.leave, placeholder⟩
      WordM.pushMarker found.1
      found.2.forM WordM.pushMarker) fun _ => holding inHand := by
    refine Secures.bind (hhand.ask _) fun depth => ?_
    refine Secures.bind (hhand.popUntil (by decide) (depth + 1) []) ?_
    rintro ⟨back, above⟩ m ⟨_, hhold⟩
    have hput : Handles holding (⟨.leave, placeholder⟩ :: back :: (above ++ inHand)) (do
        WordM.pushMarker ⟨.leave, placeholder⟩
        WordM.pushMarker back
        above.forM WordM.pushMarker) fun _ => holding inHand :=
      Secures.bind hhand.pushMarker fun _ => Secures.bind hhand.pushMarker fun _ => hhand.pushMarkers above
    exact hput m (hhand.perm hhold ((List.perm_middle.cons back).trans (List.Perm.swap _ _ _)))
  exact hrest.before fun m hhold => hhold .leave (by decide)

theorem control (word : ControlWord) : Handles holding inHand word.perform fun _ => holding inHand := by
  cases word with
  | if_ => exact hhand.branchForward _ (by decide)
  | else_ => exact hhand.divide (by decide) _ (by decide)
  | then_ => exact hhand.resolveForward (by decide) _
  | begin => exact hhand.markTarget (by decide) (by decide)
  | again => exact hhand.branchBack _ (by decide)
  | until_ => exact hhand.branchBack _ (by decide)
  | while_ => exact hhand.branchForward _ (by decide)
  | repeat_ =>
    exact Secures.bind (hhand.branchBack _ (by decide)) fun _ => hhand.resolveForward (by decide) _
  | do_ => exact hhand.openLoop _
  | questionDo => exact hhand.openLoop _
  | loop => exact hhand.closeLoop _
  | plusLoop => exact hhand.closeLoop _
  | leave => exact hhand.leaveLoop
  | case_ => exact hhand.markTarget (by decide) (by decide)
  | of_ => exact hhand.branchForward _ (by decide)
  | endOf => exact hhand.divide (by decide) _ (by decide)
  | endCase =>
    exact Secures.bind (hhand.compile (.stack .drop)) fun _ =>
      Secures.bind (hhand.ask _) fun depth =>
        Secures.bind (hhand.resolveRun (by decide) depth) fun _ => hhand.closeMarker _

end Handling

/-! ### Appending with markers in hand -/

section Holding

variable (area : Nat → Prop) (entries : List Header) (start : List Marker) (origin : Machine)

/-- Since `origin` the machine has only appended and resolved, and the markers are in hand. -/
def Holding (inHand : List Marker) (m : Machine) : Prop :=
  ∃ markers, Orderly entries markers inHand m ∧ Appends area start (markers ++ inHand) origin m

variable {area entries start origin} {inHand other : List Marker} {m after : Machine}

namespace Holding

section

variable (hstart : Seated entries origin.dictionary.here start)

include hstart

theorem step {markers later : List Marker} (hord : Orderly entries markers inHand m)
    (happ : Appends area start (markers ++ inHand) origin m) (hafter : Orderly entries later other after)
    (hstep : Appends area (markers ++ inHand) (later ++ other) m after) :
    Holding area entries start origin other after :=
  ⟨later, hafter, happ.trans hstart hord.seated hord.bounded hstep⟩

theorem calm (hhold : Holding area entries start origin inHand m) (hcalm : m.Calm after) :
    Holding area entries start origin inHand after := by
  obtain ⟨markers, hord, happ⟩ := hhold
  exact step hstart hord happ (hord.calm hcalm) (.calm hord.bounded hcalm)

end

theorem drop (hhold : Holding area entries start origin inHand m) (hsub : other.Sublist inHand) :
    Holding area entries start origin other m := by
  obtain ⟨markers, hord, happ⟩ := hhold
  exact ⟨markers, hord.drop hsub,
    happ.mono fun marker hmark => ((List.Sublist.refl _).append hsub).subset hmark⟩

theorem fails (hhold : Holding area entries start origin inHand m) : Holding area entries start origin [] m :=
  hhold.drop (List.nil_sublist _)

theorem perm (hhold : Holding area entries start origin inHand m) (hperm : inHand.Perm other) :
    Holding area entries start origin other m := by
  obtain ⟨markers, hord, happ⟩ := hhold
  have hall := hperm.append_left markers
  exact ⟨markers, hord.withHand (hord.seated.perm hall), happ.mono fun marker => hall.mem_iff.2⟩

section

variable (hstart : Seated entries origin.dictionary.here start)

include hstart

theorem popMarker : Handles (Holding area entries start origin) inHand popMarker
    fun marker => Holding area entries start origin (marker :: inHand) := by
  rintro m ⟨markers, hord, happ⟩
  cases markers with
  | nil =>
    have hempty : m.control.base ≤ m.control.top := Nat.le_of_eq hord.top_eq.symm
    rw [popMarker_of_empty hempty]
    exact fails ⟨[], hord, happ⟩
  | cons marker rest =>
    rw [popMarker_of_holds hord.bounded hord.top_eq hord.held]
    have hperm : (marker :: rest ++ inHand).Perm (rest ++ marker :: inHand) := List.perm_middle.symm
    exact step hstart hord happ hord.withoutMarker
      ⟨Nat.le_refl _, Nat.le_refl _, fun other hother => .inl (hperm.mem_iff.2 hother), fun _ _ _ _ => rfl⟩

theorem pushMarker {marker : Marker} : Handles (Holding area entries start origin) (marker :: inHand) (pushMarker marker)
    fun _ => Holding area entries start origin inHand := by
  rintro m ⟨markers, hord, happ⟩
  by_cases hroom : m.control.limit + 8 ≤ m.control.top
  · rw [pushMarker_of_room hord.bounded marker hroom]
    have hperm : (markers ++ marker :: inHand).Perm (marker :: markers ++ inHand) := List.perm_middle
    have hdict := m.dictionary_withMarker marker
    refine step hstart hord happ (hord.withMarker hroom)
      ⟨Nat.le_of_eq (congrArg Dictionary.here hdict.symm), Nat.le_of_eq (congrArg names hdict),
        fun other hother => .inl (hperm.mem_iff.2 hother), fun addr hused _ _ => ?_⟩
    exact (hord.sameOutside_withMarker marker hroom).byteAt addr (Nat.not_le.2 (hused.lt hord.bounded))
  · rw [pushMarker_of_full hord.bounded marker (by omega)]
    exact fails ⟨markers, hord, happ⟩

theorem patch {marker : Marker} (hfwd : marker.tag.isForward = true) :
    Handles (Holding area entries start origin) (marker :: inHand) (patch marker.address)
      fun _ => Holding area entries start origin inHand := by
  rintro m ⟨markers, hord, happ⟩
  have hperm : (markers ++ marker :: inHand).Perm (marker :: (markers ++ inHand)) := List.perm_middle
  rcases hord.patch_cases hfwd with ⟨fault, herror⟩ | ⟨offset, hok, hafter⟩
  · rw [herror]
    exact fails ⟨markers, hord, happ⟩
  · rw [hok]
    refine step hstart hord happ hafter ⟨Nat.le_refl _, Nat.le_refl _,
      fun other hother => .inl (hperm.mem_iff.2 (List.mem_cons_of_mem _ hother)), fun addr _ _ hresolved => ?_⟩
    refine (Memory.sameOutside_setCell m.memory marker.address offset).byteAt addr fun hin =>
      hresolved ⟨marker, hperm.mem_iff.2 List.mem_cons_self, hfwd, hin, fun other hother hforward' => ?_⟩
    have hdistinct := (List.pairwise_cons.1 (hord.seated.perm hperm).distinct).1 other hother hfwd hforward'
    omega

theorem target {tag : Tag} (hfwd : tag.isForward = false) (hcolon : tag ≠ .colon)
    (hhold : Holding area entries start origin inHand m) :
    Holding area entries start origin (⟨tag, m.dictionary.here⟩ :: inHand) m := by
  obtain ⟨markers, hord, happ⟩ := hhold
  refine step hstart hord happ (hord.target hfwd hcolon)
    ⟨Nat.le_refl _, Nat.le_refl _, fun other hother => ?_, fun _ _ _ _ => rfl⟩
  rcases List.mem_cons.1 (List.perm_middle.mem_iff.1 hother) with rfl | hold
  · exact .inr (Nat.le_refl _)
  · exact .inl hold

theorem placeholder {place : Nat} :
    Secures (fun m => Holding area entries start origin inHand m ∧ m.dictionary.here = place) (comma 0)
      (fun _ m => ∀ tag, tag ≠ .colon → Holding area entries start origin (⟨tag, place⟩ :: inHand) m)
      (Holding area entries start origin []) := by
  rintro m ⟨⟨markers, hord, happ⟩, rfl⟩
  rcases hord.placeholder_cases with ⟨fault, herror⟩ | ⟨grown, hok, hcalm, -, -, hgrown⟩
  · rw [herror]
    exact fails ⟨markers, hord, happ⟩
  · rw [hok]
    intro tag htag
    refine step hstart hord happ (hgrown tag htag) ⟨hcalm.here_le, Nat.le_of_eq hcalm.names_eq,
      fun other hother => ?_, fun addr hused _ _ => hcalm.memory.byteAt addr (hused.not_spare hord.bounded)⟩
    rcases List.mem_cons.1 (List.perm_middle.mem_iff.1 hother) with rfl | hold
    · exact .inr (Nat.le_refl _)
    · exact .inl hold

theorem popUntil {accept skip : Tag → Bool} (steps : Nat) (passed : List Marker) :
    Handles (Holding area entries start origin) (passed ++ inHand) (popUntil accept skip steps passed)
      fun found m => accept found.1.tag = true ∧
        Holding area entries start origin (found.1 :: (found.2 ++ inHand)) m := by
  induction steps generalizing passed with
  | zero => exact (Secures.throw _).before fun _ => fails
  | succ steps ih =>
    refine Secures.bind (popMarker hstart) fun marker => ?_
    by_cases haccept : accept marker.tag = true
    · rw [if_pos haccept]
      exact (Secures.pure (marker, passed)).before fun _ hhold => ⟨haccept, hhold⟩
    · rw [if_neg haccept]
      by_cases hskip : skip marker.tag = true
      · rw [if_pos hskip]
        exact ih (marker :: passed)
      · rw [if_neg hskip]
        exact (Secures.throw _).before fun _ => fails

theorem handling : Handling (Holding area entries start origin) where
  bounded hhold := hhold.choose_spec.1.bounded
  held hhold := ⟨hhold.choose, hhold.choose_spec.1.top_eq, hhold.choose_spec.1.held⟩
  comma value := handles_comma_of_calm value (fun _ hhold => hhold.choose_spec.1.bounded)
    (fun _ _ hhold hcalm => hhold.calm hstart hcalm) fun _ => fails
  drop := drop
  perm := perm
  target hfwd hcolon hhold := hhold.target hstart hfwd hcolon
  popMarker := (popMarker hstart).after
    (fun _ _ hhold => ⟨hhold.drop (List.sublist_cons_self _ _), fun _ => hhold⟩) fun _ hfails => hfails
  pushMarker := pushMarker hstart
  patch := patch hstart
  placeholder := placeholder hstart
  popUntil _ := popUntil hstart

end

end Holding

end Holding

end ThreadedForth
