
import ThreadedForth.Proofs.Compiler.Pending

/-!
# What words do to the dictionary

A word that does not store at an address of its own choice keeps the machine in order, and does one of a few things
to what the dictionary holds: it appends code, it enters a header, it closes the definition that is open, it marks
the newest word, it gives the newest word new code, or it resolves branches. Nothing else that is in use changes,
and none of it if the word fails.
-/

namespace ThreadedForth

open Dictionary WordM Layout Utf8 Header List Secures

/-- The dictionary has grown: what is new among entries and markers lies above the old code, no entry is gone, and
of the bytes that were in use only those in the area may have changed. -/
structure Evolves (area : Nat → Prop) (entries revised : List Header) (markers later : List Marker)
    (before after : Machine) : Prop where
  here_le : before.dictionary.here ≤ after.dictionary.here
  names_le : after.dictionary.names ≤ before.dictionary.names
  fresh : ∀ marker ∈ later, marker ∈ markers ∨ before.dictionary.here ≤ marker.address
  kept : ∀ entry ∈ entries, ∃ other ∈ revised, other.address = entry.address
  headers : ∀ entry ∈ revised, (∃ other ∈ entries, other.address = entry.address) ∨
    before.dictionary.here ≤ entry.address
  bytes : ∀ address, before.Used address → ¬ area address →
    after.memory.byteAt address = before.memory.byteAt address

variable {entries : List Header}

theorem exists_of_map_address {others : List Header} (hmap : others.map Header.address = entries.map Header.address)
    {entry : Header} (hentry : entry ∈ entries) : ∃ other ∈ others, other.address = entry.address := by
  have hin : entry.address ∈ others.map Header.address := hmap ▸ mem_map_of_mem hentry
  exact mem_map.1 hin

namespace Evolves

variable {area wider : Nat → Prop} {entries revised last : List Header} {markers later final : List Marker}
  {before middle after : Machine}

theorem used (hev : Evolves area entries revised markers later before after) {addr : Nat}
    (hused : before.Used addr) : after.Used addr := by
  have hhere := hev.here_le
  have hnames := hev.names_le
  rcases hused with ⟨hlow, hhigh⟩ | ⟨hlow, hhigh⟩
  · exact .inl ⟨hlow, by omega⟩
  · exact .inr ⟨by omega, hhigh⟩

theorem trans (hfst : Evolves area entries revised markers later before middle)
    (hsnd : Evolves area revised last later final middle after) :
    Evolves area entries last markers final before after where
  here_le := Nat.le_trans hfst.here_le hsnd.here_le
  names_le := Nat.le_trans hsnd.names_le hfst.names_le
  fresh marker hmark := by
    rcases hsnd.fresh marker hmark with hlater | hhigh
    · exact hfst.fresh marker hlater
    · exact .inr (Nat.le_trans hfst.here_le hhigh)
  kept entry hentry := by
    obtain ⟨other, hother, haddr⟩ := hfst.kept entry hentry
    obtain ⟨third, hthird, hsame⟩ := hsnd.kept other hother
    exact ⟨third, hthird, hsame.trans haddr⟩
  headers entry hentry := by
    rcases hsnd.headers entry hentry with ⟨other, hother, hsame⟩ | hhigh
    · rw [← hsame]
      exact hfst.headers other hother
    · exact .inr (Nat.le_trans hfst.here_le hhigh)
  bytes addr hused harea :=
    (hsnd.bytes addr (hfst.used hused) harea).trans (hfst.bytes addr hused harea)

theorem mono (hev : Evolves area entries revised markers later before after)
    (hfinal : ∀ marker ∈ final, marker ∈ later) : Evolves area entries revised markers final before after :=
  { hev with fresh := fun marker hmark => hev.fresh marker (hfinal marker hmark) }

theorem widen (hev : Evolves area entries revised markers later before after)
    (hwider : ∀ addr, area addr → wider addr) : Evolves wider entries revised markers later before after :=
  { hev with bytes := fun addr hused harea => hev.bytes addr hused fun hin => harea (hwider addr hin) }

theorem of_bytes (hdict : after.dictionary = before.dictionary) (hlater : ∀ marker ∈ later, marker ∈ markers)
    (haddrs : revised.map Header.address = entries.map Header.address)
    (hbytes : ∀ addr, before.Used addr → ¬ area addr →
      after.memory.byteAt addr = before.memory.byteAt addr) :
    Evolves area entries revised markers later before after where
  here_le := Nat.le_of_eq (congrArg Dictionary.here hdict.symm)
  names_le := Nat.le_of_eq (congrArg Dictionary.names hdict)
  fresh marker hmark := .inl (hlater marker hmark)
  kept _ hentry := exists_of_map_address haddrs hentry
  headers _ hentry := .inl (exists_of_map_address haddrs.symm hentry)
  bytes := hbytes

theorem cellAt_eq (hev : Evolves area entries revised markers later before after) {place : Nat}
    (hused : ∀ addr, InCell place addr → before.Used addr)
    (harea : ∀ addr, InCell place addr → ¬ area addr) :
    after.memory.cellAt place = before.memory.cellAt place := by
  have hbyte : ∀ offset, offset < 4 →
      after.memory.byteAt (place + offset) = before.memory.byteAt (place + offset) := by
    intro offset hoff
    have hin : InCell place (place + offset) := ⟨by omega, by omega⟩
    exact hev.bytes _ (hused _ hin) (harea _ hin)
  simp only [Memory.cellAt]
  rw [show after.memory.byteAt place = before.memory.byteAt place from hbyte 0 (by omega), hbyte 1 (by omega),
    hbyte 2 (by omega), hbyte 3 (by omega)]

theorem calm (hb : before.Bounded) (hcalm : before.Calm after) :
    Evolves area entries entries markers markers before after where
  here_le := hcalm.here_le
  names_le := Nat.le_of_eq hcalm.names_eq
  fresh _ hmark := .inl hmark
  kept entry hentry := ⟨entry, hentry, rfl⟩
  headers entry hentry := .inl ⟨entry, hentry, rfl⟩
  bytes addr hused _ := hcalm.memory.byteAt addr (hused.not_spare hb)

end Evolves

/-- No byte at all. -/
abbrev Nowhere (_ : Nat) : Prop := False

/-! ### Control words -/

theorem ControlWord.perform_evolves {markers : List Marker} {m : Machine}
    (hord : Orderly entries markers [] m) (word : ControlWord) :
    ∃ later, Orderly entries later [] (stateAfter word.perform m) ∧
      Evolves (Resolved markers later) entries entries markers later m (stateAfter word.perform m) := by
  have hseated : Seated entries m.dictionary.here markers := by simpa using hord.seated
  have hbegin : Holding Nowhere entries markers m [] m := by
    refine ⟨markers, hord, ?_⟩
    rw [append_nil]
    exact .calm hord.bounded (.refl hord.bounded)
  obtain ⟨later, hafter, happ⟩ := ((Holding.handling hseated).control word).stateAfter hbegin
  rw [append_nil] at happ
  refine ⟨later, hafter, happ.here_le, happ.names_le, happ.fresh, fun entry hentry => ⟨entry, hentry, rfl⟩,
    fun entry hentry => .inl ⟨entry, hentry, rfl⟩, fun addr hused hresolved => ?_⟩
  exact happ.bytes addr hused id hresolved

/-! ### Entering headers -/

section Enter

variable {entries : List Header} {markers : List Marker} {origin m after : Machine} {entry : Header}

/-- A header has been entered, and its token is in hand. -/
structure Entered (entries : List Header) (markers : List Marker) (origin : Machine) (entry : Header)
    (m : Machine) : Prop where
  latest_eq : m.dictionary.latest = entry.address
  orderly : Orderly (entry :: entries) markers [⟨.colon, entry.xt⟩] m
  evolves : Evolves Nowhere entries (entry :: entries) markers (markers ++ [⟨.colon, entry.xt⟩]) origin m

/-- A header lies above the old code, and its name below the old names. -/
theorem Entered.enter (hord : Orderly entries markers [] m) {name : String} (flags code : Cell)
    (hlen : (encode name).length ≤ maxNameLength) (hroom : (encode name).length + 1 ≤ m.dictionary.names)
    (hmeet : aligned m.dictionary.here + size < m.dictionary.names - ((encode name).length + 1)) :
    Entered entries markers m
      (Change.newest entries (Header.token (aligned m.dictionary.here)) name flags code)
      { m with
        dictionary := { m.dictionary with
          here := aligned m.dictionary.here + size
          names := m.dictionary.names - ((encode name).length + 1)
          latest := aligned m.dictionary.here }
        memory := entered m.memory (aligned m.dictionary.here)
          (m.dictionary.names - ((encode name).length + 1)) m.dictionary.latest (encode name)
          flags code } := by
  have hhere := le_aligned m.dictionary.here
  have hsame := sameOutside_entered m.memory m.dictionary.latest (encode name) flags code
    hhere hroom hmeet
  have hnames := hord.names_le
  have haddr : (Change.newest entries (Header.token (aligned m.dictionary.here)) name flags code).address =
      aligned m.dictionary.here := Nat.add_sub_cancel _ _
  have hxt : (Change.newest entries (Header.token (aligned m.dictionary.here)) name flags code).xt =
      Header.token (aligned m.dictionary.here) := by rw [xt, haddr]
  have hlex := Represents.enter hord.lexicon flags code hlen hroom hmeet
  generalize hentry : Change.newest entries (Header.token (aligned m.dictionary.here)) name flags code = entry
    at haddr hxt hlex ⊢
  have hkept : ∀ other ∈ entries, ∃ third ∈ entry :: entries, third.address = other.address :=
    fun other hother => ⟨other, mem_cons_of_mem _ hother, rfl⟩
  have hheaders : ∀ other ∈ entry :: entries, (∃ third ∈ entries, third.address = other.address) ∨
      m.dictionary.here ≤ other.address := by
    intro other hother
    rcases List.mem_cons.1 hother with rfl | hold
    · exact .inr (by omega)
    · exact .inl ⟨other, hold, rfl⟩
  have hfits : Dictionary.Fits dictionaryRegion
      { m.dictionary with
        here := aligned m.dictionary.here + size
        names := m.dictionary.names - ((encode name).length + 1)
        latest := aligned m.dictionary.here } := by
    have hfst := hord.bounded.dictionary
    exact ⟨hfst.start_eq, Nat.le_trans hfst.start_le (Nat.le_trans hhere (Nat.le_add_right _ _)),
      Nat.le_of_lt hmeet, Nat.le_trans (Nat.sub_le _ _) hfst.names_le⟩
  have hseated : Seated (entry :: entries) (aligned m.dictionary.here + size)
      (markers ++ [⟨.colon, entry.xt⟩]) := by
    have hold : Seated entries m.dictionary.here markers := by simpa using hord.seated
    have hgrown := (hold.revise hkept hheaders).grow
      (show m.dictionary.here ≤ aligned m.dictionary.here + size by omega)
    have horder := order
    refine (hgrown.colon rfl mem_cons_self rfl ?_).perm (perm_append_singleton _ _).symm
    change entry.xt < 2 ^ 31
    rw [hxt, Header.token]
    omega
  refine ⟨haddr.symm, ⟨(hord.bounded.withDictionary hfits).withMemory hsame.size, hlex, hord.top_eq, ?_,
    hseated⟩, ⟨?_, Nat.sub_le _ _, ?_, hkept, hheaders, ?_⟩⟩
  · refine hord.held.frame hsame fun addr hlow _ hin => ?_
    have htop := hord.top_ge
    rw [Region.holds_mk] at hin
    omega
  · exact Nat.le_trans hhere (Nat.le_add_right _ _)
  · intro marker hmark
    rcases List.mem_append.1 hmark with hold | hnew
    · exact .inl hold
    · rw [mem_singleton.1 hnew]
      refine .inr ?_
      change m.dictionary.here ≤ entry.xt
      rw [hxt, Header.token]
      omega
  · intro addr hused _
    refine hsame.byteAt addr fun hin => ?_
    rw [Region.holds_mk] at hin
    rcases hused with ⟨_, hhigh⟩ | ⟨hlow, _⟩ <;> omega

/-- An operation that enters a header. -/
theorem secures_entering (hord : Orderly entries markers [] origin) {step : Dictionary → MemoryM (Nat × Dictionary)}
    (name : String) (flags code : Cell)
    (hstep : ∀ dictionary memory, step dictionary memory = dictionary.enter (encode name) flags code memory ∨
      ∃ fault, step dictionary memory = .error fault memory) :
    Secures origin.Calm (onDictionary step)
      (fun token m => ∃ entry : Header, token = entry.xt ∧ entry.flags = flags ∧
        Entered entries markers origin entry m) origin.Calm := by
  intro m hcalm
  have hm := hord.calm hcalm
  rw [onDictionary]
  rcases hstep m.dictionary m.memory with henter | ⟨fault, herror⟩
  · have hnames : m.dictionary.names ≤ m.memory.size :=
      Nat.le_trans hm.lexicon.names_le hm.lexicon.finish_le
    rcases enter_cases m.dictionary (encode name) flags code hnames with
      ⟨fault, hfault⟩ | ⟨hlen, hroom, hmeet, hok⟩
    · rw [henter, hfault]
      exact hcalm
    · rw [henter, hok]
      have hent := Entered.enter hm flags code hlen hroom hmeet
      refine ⟨_, ?_, ?_, ⟨hent.latest_eq, hent.orderly,
        .trans (.calm hord.bounded hcalm) hent.evolves⟩⟩
      · rw [xt]
        rfl
      · rfl
  · rw [herror]
    exact hcalm

/-- A header with the flags has been entered, and is the newest. The markers are the same, or that of the new
definition is the only one. -/
def Adds (flags : Cell) (entries : List Header) (markers : List Marker) (origin m : Machine) : Prop :=
  ∃ entry later, entry.flags = flags ∧ m.dictionary.latest = entry.address ∧
    Orderly (entry :: entries) later [] m ∧
    Evolves Nowhere entries (entry :: entries) markers later origin m ∧
    (later = markers ∨ markers = [] ∧ later = [⟨.colon, entry.xt⟩])

theorem Entered.adds (hent : Entered entries markers origin entry m) : Adds entry.flags entries markers origin m :=
  ⟨entry, markers, rfl, hent.latest_eq, hent.orderly.drop (nil_sublist _),
    hent.evolves.mono fun _ hmark => mem_append_left _ hmark, .inl rfl⟩

theorem Adds.calm {flags : Cell} (hadds : Adds flags entries markers origin m) (hcalm : m.Calm after) :
    Adds flags entries markers origin after := by
  obtain ⟨entry, later, hflags, hlatest, hord, hev, hlater⟩ := hadds
  exact ⟨entry, later, hflags, hcalm.latest_eq.trans hlatest, hord.calm hcalm,
    hev.trans (.calm hord.bounded hcalm), hlater⟩

end Enter

namespace DefiningWord

variable {entries : List Header} {markers : List Marker} {origin : Machine}

/-- What a word that makes a header leaves: at most one header more. -/
def Makes (flags : Cell) (entries : List Header) (markers : List Marker) (origin m : Machine) : Prop :=
  origin.Calm m ∨ Adds flags entries markers origin m

variable {flags : Cell}

theorem keeps_makes {α : Type} (action : WordM α) [hkeeps : ∀ m : Machine, Keeps m.Calm action] :
    Keeps (Makes flags entries markers origin) action := by
  refine .of fun m hmakes => ?_
  rcases hmakes with hcalm | hadds
  · exact .inl ((hkeeps origin).keeps m hcalm)
  · have hb : m.Bounded := hadds.choose_spec.choose_spec.2.2.1.bounded
    exact .inr (hadds.calm ((hkeeps m).keeps m (.refl hb)))

theorem secures_define (hord : Orderly entries markers [] origin) (flags : Cell) (code : Code) :
    Secures origin.Calm (define flags code)
      (fun token m => ∃ entry : Header, token = entry.xt ∧ entry.flags = flags ∧
        Entered entries markers origin entry m) origin.Calm := by
  refine bind (of_keeps requireName) fun name => bind (of_keeps (warnIfTaken name)) fun _ => ?_
  refine secures_entering hord name flags code.toCell fun dictionary memory => ?_
  rw [Dictionary.create]
  split
  · exact .inr ⟨_, rfl⟩
  · exact .inl rfl

theorem secures_discard_define (hord : Orderly entries markers [] origin) (flags : Cell) (code : Code) :
    Secures origin.Calm (discard (define flags code)) (fun _ => Makes flags entries markers origin)
      (Makes flags entries markers origin) := by
  refine (secures_define hord flags code).discard.after ?_ fun _ => .inl
  rintro _ m ⟨token, entry, -, rfl, hent⟩
  exact .inr hent.adds

theorem secures_open_then {entry : Header} (hflags : entry.flags = flags) (rest : WordM Unit)
    [∀ m : Machine, Keeps m.Calm rest] :
    Secures (Entered entries [] origin entry) (do pushMarker ⟨.colon, entry.xt⟩; rest)
      (fun _ => Makes flags entries [] origin) (Makes flags entries [] origin) := by
  have : Keeps (Makes flags entries [] origin) rest := keeps_makes rest
  subst hflags
  have hpush : Secures (Entered entries [] origin entry) (pushMarker ⟨.colon, entry.xt⟩)
      (fun _ => Makes entry.flags entries [] origin) (Makes entry.flags entries [] origin) := by
    intro m hent
    have hord := hent.orderly
    by_cases hroom : m.control.limit + 8 ≤ m.control.top
    · rw [pushMarker_of_room hord.bounded _ hroom]
      have hdict := m.dictionary_withMarker ⟨.colon, entry.xt⟩
      refine .inr ⟨entry, _, rfl, ?_, hord.withMarker hroom, hent.evolves.trans (.of_bytes hdict ?_ rfl ?_),
        .inr ⟨rfl, rfl⟩⟩
      · rw [hdict]
        exact hent.latest_eq
      · exact fun marker => (perm_append_singleton _ _).mem_iff.2
      · intro addr hused _
        exact (hord.sameOutside_withMarker _ hroom).byteAt addr (Nat.not_le.2 (hused.lt hord.bounded))
    · rw [pushMarker_of_full hord.bounded _ (by omega)]
      exact .inr hent.adds
  exact hpush.bind fun _ => of_keeps rest

section

variable (hord : Orderly entries markers [] origin)

include hord

theorem secures_needIdle (flags : Cell) :
    Secures origin.Calm needIdle (fun _ m => origin.Calm m ∧ markers = [])
      (Makes flags entries markers origin) := by
  intro m hcalm
  have hdepth := (hord.calm hcalm).markerDepth_eq
  rw [needIdle, bind_of_ok hdepth]
  by_cases hnone : markers.length = 0
  · rw [if_neg (fun hne => hne hnone)]
    exact ⟨hcalm, eq_nil_of_length_eq_zero hnone⟩
  · rw [if_pos hnone]
    exact .inl hcalm

theorem secures_openNamed :
    Secures origin.Calm openNamed (fun _ => Makes smudged entries markers origin)
      (Makes smudged entries markers origin) := by
  refine (secures_needIdle hord _).bind fun _ => ?_
  rintro m ⟨hcalm, rfl⟩
  have hdefine : Secures origin.Calm (define smudged .colon) _ (Makes smudged entries [] origin) :=
    (secures_define hord smudged .colon).after (fun _ _ hent => hent) fun _ => .inl
  refine hdefine.bind (fun token => ?_) m hcalm
  rintro m ⟨entry, rfl, hflags, hent⟩
  exact secures_open_then hflags (setCompiling true) m hent

theorem secures_openNameless :
    Secures origin.Calm openNameless (fun _ => Makes Header.hidden entries markers origin)
      (Makes Header.hidden entries markers origin) := by
  refine (secures_needIdle hord _).bind fun _ => ?_
  rintro m ⟨hcalm, rfl⟩
  have hdefine : Secures origin.Calm (onDictionary fun dictionary => dictionary.createNameless Code.colon.toCell) _
      (Makes Header.hidden entries [] origin) :=
    (secures_entering hord "" Header.hidden Code.colon.toCell fun _ _ => .inl rfl).after
      (fun _ _ hent => hent) fun _ => .inl
  refine hdefine.bind (fun token => ?_) m hcalm
  rintro m ⟨entry, rfl, hflags, hent⟩
  exact secures_open_then hflags (do setCompiling true; pushNat entry.xt) m hent

end

/-- The flags of the header that a word makes. -/
def headerFlags : DefiningWord → Option Cell
  | colon => some smudged
  | nameless => some Header.hidden
  | create | newConstant | newVariable => some 0
  | _ => none

theorem perform_makes (hord : Orderly entries markers [] origin) {word : DefiningWord}
    (hword : word.headerFlags = some flags) : Makes flags entries markers origin (stateAfter word.perform origin) := by
  have hbegin : origin.Calm origin := .refl hord.bounded
  have hcomma (value : Cell) : Keeps (Makes 0 entries markers origin) (WordM.comma value) := keeps_makes _
  cases word with
  | colon =>
    cases hword
    exact (secures_openNamed hord).stateAfter hbegin
  | nameless =>
    cases hword
    exact (secures_openNameless hord).stateAfter hbegin
  | create =>
    cases hword
    exact (secures_discard_define hord 0 .pushBody).stateAfter hbegin
  | newConstant =>
    cases hword
    have hpop : Secures origin.Calm pop (fun _ => origin.Calm) (Makes 0 entries markers origin) :=
      (of_keeps pop).after (fun _ _ hcalm => hcalm) fun _ => .inl
    exact (hpop.bind fun value => (secures_discard_define hord 0 .pushCell).bind fun _ =>
      Secures.of_keeps (WordM.comma value)).stateAfter hbegin
  | newVariable =>
    cases hword
    exact ((secures_discard_define hord 0 .pushBody).bind fun _ =>
      Secures.of_keeps (WordM.comma 0)).stateAfter hbegin
  | _ => cases hword

end DefiningWord

/-! ### Changing headers -/

section Change

variable {entries revised : List Header} {markers inHand : List Marker} {m after : Machine} {header : Nat}

theorem Dictionary.map_address_revise (header : Nat) (change : Header → Header) (entries : List Header)
    (hchange : ∀ entry, (change entry).address = entry.address) : (revise header change entries).map Header.address = entries.map Header.address := by
  rw [revise, map_map]
  refine map_congr_left fun entry _ => ?_
  rw [Function.comp_apply]
  split
  · exact hchange entry
  · rfl

theorem Machine.Calm.cellAt_eq (hcalm : m.Calm after) (hb : m.Bounded) {place : Nat}
    (hstart : dictionaryStart ≤ place) (hhere : place + 4 ≤ m.dictionary.here) :
    after.memory.cellAt place = m.memory.cellAt place :=
  hcalm.memory.cellAt fun other hlow hhigh =>
    Machine.Used.not_spare hb (.inl ⟨Nat.le_trans hstart hlow, by omega⟩)

variable (hord : Orderly entries markers inHand m)

include hord

theorem Orderly.header_inside (hhdr : header ∈ entries.map Header.address) :
    dictionaryStart ≤ header ∧ header + size ≤ m.dictionary.here := by
  obtain ⟨entry, hentry, rfl⟩ := mem_map.1 hhdr
  obtain ⟨hlow, hhigh⟩ := hord.lexicon.below entry hentry
  exact ⟨Nat.le_trans (Nat.le_of_eq hord.bounded.dictionary.start_eq.symm) hlow, hhigh⟩

theorem Orderly.revise {area : Nat → Prop} {memory : Memory} (hhdr : header ∈ entries.map Header.address)
    (hsame : Memory.SameOutside area m.memory memory) (harea : ∀ addr, area addr → addr < header + size)
    (hlex : Lexicon revised { m with memory }) (haddrs : revised.map Header.address = entries.map Header.address) :
    Orderly revised markers inHand { m with memory } := by
  have hins := hord.header_inside hhdr
  have hhere := hord.here_le
  have hnames := hord.names_le
  have htop := hord.top_ge
  refine ⟨hord.bounded.withMemory hsame.size, hlex, hord.top_eq, ?_, ?_⟩
  · refine hord.held.frame hsame fun addr hlow _ hin => ?_
    have hhigh := harea addr hin
    omega
  · exact hord.seated.revise (fun _ hentry => exists_of_map_address haddrs hentry) fun _ hentry =>
      .inl (exists_of_map_address haddrs.symm hentry)

/-- The flags of an entry change, and nothing else. -/
theorem Orderly.reflag_cases (hhdr : header ∈ entries.map Header.address) (change : Cell → Cell) :
    (∃ fault, onMemory (reflag header change) m = .error fault m) ∨
      ∃ after revised, onMemory (reflag header change) m = .ok () after ∧
        after.dictionary = m.dictionary ∧ Orderly revised markers inHand after ∧
        Evolves (InCell (flagsField header)) entries revised (markers ++ inHand) (markers ++ inHand) m after ∧
        after.memory.cellAt (flagsField header) = change (m.memory.cellAt (flagsField header)) := by
  have hins := hord.header_inside hhdr
  have hhere := hord.here_le
  have hsize := Nat.le_trans hord.lexicon.names_le hord.lexicon.finish_le
  rcases Dictionary.reflag_cases header change m.memory with ⟨fault, herror⟩ | hok
  · exact .inl ⟨fault, by rw [onMemory, herror]⟩
  have hset := Memory.sameOutside_setCell m.memory (flagsField header)
    (change (m.memory.cellAt (flagsField header)))
  have hlex := Represents.reflag hord.lexicon hhdr change
  have hvalue := Memory.cellAt_setCell m.memory (flagsField header)
    (change (m.memory.cellAt (flagsField header)))
    (by rw [flagsField]; rw [Header.size] at hins; omega)
  have haddrs : (Dictionary.revise header (fun entry => { entry with flags := change entry.flags }) entries).map
      Header.address = entries.map Header.address := map_address_revise header _ entries fun _ => rfl
  generalize m.memory.setCell (flagsField header)
    (change (m.memory.cellAt (flagsField header))) = memory at hok hset hlex hvalue
  refine .inr ⟨{ m with memory }, _, by rw [onMemory, hok], rfl,
    hord.revise hhdr hset ?_ hlex haddrs,
    .of_bytes rfl (fun _ hmark => hmark) haddrs fun addr _ hout => hset.byteAt addr hout, hvalue⟩
  intro addr hin
  rw [Region.holds_mk, flagsField] at hin
  rw [size]
  omega

/-- The code and the address of an entry change, and nothing else. -/
theorem Orderly.setDoes_cases (hhdr : header ∈ entries.map Header.address) (code : Cell) (does : Nat) :
    (∃ fault, onMemory (setDoes header code does) m = .error fault m) ∨
      ∃ after revised, onMemory (setDoes header code does) m = .ok () after ∧
        Orderly revised markers inHand after ∧
        Evolves (fun addr => InCell (Header.token header) addr ∨ InCell (doesField header) addr)
          entries revised (markers ++ inHand) (markers ++ inHand) m after := by
  rcases Dictionary.setDoes_cases header code does m.memory with ⟨fault, herror⟩ | hok
  · exact .inl ⟨fault, by rw [onMemory, herror]⟩
  have hset : Memory.SameOutside
      (fun addr => InCell (Header.token header) addr ∨ InCell (doesField header) addr) m.memory
      ((m.memory.setCell (Header.token header) code).setCell (doesField header) (Cell.ofNat does)) :=
    ((Memory.sameOutside_setCell _ _ code).mono fun _ => .inl).trans
      ((Memory.sameOutside_setCell _ _ (Cell.ofNat does)).mono fun _ => .inr)
  have haddrs : (Dictionary.revise header (fun entry => { entry with code, does := keptAddress does }) entries).map
      Header.address = entries.map Header.address := map_address_revise header _ entries fun _ => rfl
  have hlex := Represents.setDoes hord.lexicon hhdr code does
  generalize (m.memory.setCell (Header.token header) code).setCell (doesField header)
    (Cell.ofNat does) = memory at hok hset hlex
  refine .inr ⟨{ m with memory }, _, by rw [onMemory, hok],
    hord.revise hhdr hset ?_ hlex haddrs,
    .of_bytes rfl (fun _ hmark => hmark) haddrs fun addr _ hout => hset.byteAt addr hout⟩
  intro addr hin
  rw [size]
  rcases hin with ⟨_, hin⟩ | ⟨_, hin⟩
  · rw [Header.token] at hin
    omega
  · rw [doesField] at hin
    omega

end Change

section Words

variable {entries : List Header} {markers : List Marker} {origin m after : Machine}

/-- What a word that fails to change a header leaves: all that was in use, and all the markers or none. -/
def Spares (entries : List Header) (markers : List Marker) (origin m : Machine) : Prop :=
  ∃ later, (later = [] ∨ later = markers) ∧ Orderly entries later [] m ∧
    Evolves Nowhere entries entries markers later origin m

/-- The smudge of the header is gone, and nothing else that was in use. -/
def Unsmudges (entries : List Header) (markers : List Marker) (origin : Machine) (header : Nat) (m : Machine) : Prop :=
  ∃ revised, Orderly revised [] [] m ∧
    Evolves (InCell (flagsField header)) entries revised markers [] origin m ∧
    m.memory.cellAt (flagsField header) =
      origin.memory.cellAt (flagsField header) &&& ~~~smudged

/-- A definition whose marker has been taken is ended and becomes visible. -/
theorem secures_reveal (hord : Orderly entries [] [] m)
    (hev : Evolves Nowhere entries entries markers [] origin m) {header : Nat}
    (hhdr : header ∈ entries.map Header.address)
    (hflags : m.memory.cellAt (flagsField header) = origin.memory.cellAt (flagsField header)) :
    Secures m.Calm (do onMemory (clearFlag header smudged); setCompiling false)
      (fun _ => Unsmudges entries markers origin header) (Spares entries markers origin) := by
  intro ended hcalm
  have hended := hord.calm hcalm
  have hevolved := hev.trans (Evolves.calm hord.bounded hcalm)
  obtain ⟨hstart, hhere⟩ := hord.header_inside hhdr
  rw [size] at hhere
  have hsame : ended.memory.cellAt (flagsField header) = origin.memory.cellAt (flagsField header) :=
    (hcalm.cellAt_eq hord.bounded (by rw [flagsField]; omega) (by rw [flagsField]; omega)).trans hflags
  rcases hended.reflag_cases hhdr (· &&& ~~~smudged) with
    ⟨fault, herror⟩ | ⟨cleared, revised, hok, hdict, hrevised, hrewritten, hvalue⟩
  · rw [clearFlag_eq, bind_of_error herror]
    exact ⟨[], .inl rfl, hended, hevolved⟩
  · have hset := writeCell_of_low hrevised.bounded (Cell.ofBool false)
      (show state + 4 ≤ dictionaryStart by decide) (by decide)
    have hlast : cleared.Calm (stateAfter (setCompiling false) cleared) := Keeps.keeps inferInstance cleared (.refl hrevised.bounded)
    rw [stateAfter_of_ok (show setCompiling false cleared = _ from hset)] at hlast
    rw [clearFlag_eq, bind_of_ok hok, setCompiling, hset]
    refine ⟨revised, hrevised.calm hlast, ?_, ?_⟩
    · exact (hevolved.widen fun _ => False.elim).trans (hrewritten.trans (.calm hrevised.bounded hlast))
    · rw [hlast.cellAt_eq hrevised.bounded (by rw [flagsField]; omega), hvalue, hsame]
      have hgrown := hcalm.here_le
      rw [hdict, flagsField]
      omega

/-- The definition with the token is visible: its marker was the only one, and is gone. -/
def Reveals (entries : List Header) (markers : List Marker) (origin : Machine) (token : Nat) (m : Machine) : Prop :=
  markers = [⟨.colon, token⟩] ∧ Unsmudges entries markers origin (ofToken token) m

theorem DefiningWord.secures_close (hord : Orderly entries markers [] origin) :
    Secures (· = origin) close (fun _ m => ∃ token, Reveals entries markers origin token m)
      (Spares entries markers origin) := by
  rintro m rfl
  have hseated : Seated entries m.dictionary.here markers := by simpa using hord.seated
  have hspared : Spares entries markers m m :=
    ⟨markers, .inr rfl, hord, .calm hord.bounded (.refl hord.bounded)⟩
  rw [close, bind_of_ok hord.markerDepth_eq]
  by_cases hone : markers.length = 1
  · obtain ⟨marker, rfl⟩ := length_eq_one_iff.1 hone
    rw [if_neg (fun hne => hne hone)]
    dsimp only
    rw [bind_of_ok (popMarker_of_holds hord.bounded hord.top_eq hord.held)]
    have hpop : Orderly entries [] [] m.withoutMarker := hord.withoutMarker.drop (nil_sublist _)
    have hev : Evolves Nowhere entries entries [marker] [] m m.withoutMarker :=
      .of_bytes rfl (fun _ hother => absurd hother not_mem_nil) rfl fun _ _ _ => rfl
    by_cases htag : marker.tag = .colon
    · rw [if_neg (fun hne => hne htag)]
      obtain ⟨entry, hentry, hxt⟩ := hseated.colons marker mem_cons_self htag
      have hhdr : ofToken marker.address = entry.address := by
        rw [← hxt, xt, Header.token, ofToken, Nat.add_sub_cancel]
      have hmem : ofToken marker.address ∈ entries.map Header.address := by
        rw [hhdr]
        exact mem_map_of_mem hentry
      have hcompile : Secures m.withoutMarker.Calm (compile (.thread .exit)) (fun _ => m.withoutMarker.Calm)
          (Spares entries [marker] m) :=
        (of_keeps _).after (fun _ _ hcalm => hcalm) fun ended hcalm =>
          ⟨[], .inl rfl, hpop.calm hcalm, hev.trans (.calm hpop.bounded hcalm)⟩
      have htail := hcompile.bind fun _ => secures_reveal hpop hev hmem rfl
      refine htail.after (fun _ ended hended => ⟨marker.address, ?_, hended⟩) (fun _ => id) m.withoutMarker
        (.refl hpop.bounded)
      rw [← htag]
    · rw [if_pos htag]
      exact ⟨[], .inl rfl, hpop, hev⟩
  · rw [if_pos hone]
    exact hspared

theorem Orderly.latest_mem {inHand : List Marker} (hord : Orderly entries markers inHand m)
    (hents : entries ≠ []) : m.dictionary.latest ∈ entries.map Header.address := by
  rw [Represents.latest_eq hord.lexicon]
  cases entries with
  | nil => exact absurd rfl hents
  | cons entry older => exact mem_cons_self

/-- The newest word has become immediate. -/
def Marks (entries : List Header) (markers : List Marker) (origin m : Machine) : Prop :=
  ∃ revised, Orderly revised markers [] m ∧
    Evolves (InCell (flagsField origin.dictionary.latest)) entries revised markers markers origin m ∧
    m.memory.cellAt (flagsField origin.dictionary.latest) =
      origin.memory.cellAt (flagsField origin.dictionary.latest) ||| immediate

theorem DefiningWord.perform_immediate (hord : Orderly entries markers [] origin) (hents : entries ≠ []) :
    stateAfter (perform .immediate) origin = origin ∨ Marks entries markers origin (stateAfter (perform .immediate) origin) := by
  have hlatest : DefiningWord.latest origin = .ok origin.dictionary.latest origin := rfl
  have hbegin : perform .immediate origin =
      onMemory (reflag origin.dictionary.latest (· ||| Header.immediate)) origin := bind_of_ok hlatest
  rcases hord.reflag_cases (hord.latest_mem hents) (· ||| Header.immediate) with
    ⟨fault, herror⟩ | ⟨after, revised, hok, _, hrevised, hev, hvalue⟩
  · exact .inl (stateAfter_of_error (hbegin.trans herror))
  · rw [stateAfter_of_ok (hbegin.trans hok)]
    rw [append_nil] at hev
    exact .inr ⟨revised, hrevised, hev, hvalue⟩

/-- The newest word may have new code. -/
def Recodes (entries : List Header) (markers : List Marker) (origin m : Machine) : Prop :=
  ∃ revised, Orderly revised markers [] m ∧
    Evolves (fun address => InCell (Header.token origin.dictionary.latest) address ∨
      InCell (doesField origin.dictionary.latest) address) entries revised markers markers origin m

theorem ThreadWord.perform_setDoes (hord : Orderly entries markers [] origin) (hents : entries ≠ []) :
    Recodes entries markers origin (stateAfter (perform .setDoes) origin) := by
  have hip : ask (fun m => .ok m.ip) origin = .ok origin.ip origin := rfl
  have hlatest : ask (fun m => .ok m.dictionary.latest) origin = .ok origin.dictionary.latest origin := rfl
  have hbegin : perform .setDoes origin =
      (do onMemory (Dictionary.setDoes origin.dictionary.latest Code.does.toCell origin.ip)
          returnToCaller
          return none) origin :=
    (bind_of_ok hip).trans (bind_of_ok hlatest)
  rcases hord.setDoes_cases (hord.latest_mem hents) Code.does.toCell origin.ip with
    ⟨fault, herror⟩ | ⟨middle, revised, hok, hrevised, hev⟩
  · rw [stateAfter_of_error (hbegin.trans (bind_of_error herror))]
    exact ⟨entries, hord, .calm hord.bounded (.refl hord.bounded)⟩
  · have hcalm : middle.Calm (stateAfter (do returnToCaller; return none : WordM (Option Request)) middle) :=
      Keeps.keeps inferInstance middle (.refl hrevised.bounded)
    have hend : stateAfter (perform .setDoes) origin =
        stateAfter (do returnToCaller; return none : WordM (Option Request)) middle := by
      rw [stateAfter, stateAfter, hbegin, bind_of_ok hok]
    rw [hend]
    rw [append_nil] at hev
    exact ⟨revised, hrevised.calm hcalm, hev.trans (.calm hrevised.bounded hcalm)⟩

end Words

/-! ### Primitives -/

namespace Prim

/-- The word stores nowhere of its own choice, and does not take back code. -/
def Tame (m : Machine) : Prim → Prop
  | memory word => word.isStore = false
  | defining .allot => ∀ amount, m.data.peek m.memory 0 = .ok amount → ¬ amount < 0
  | _ => True

/-- The word changes a byte that was in use. -/
def Alters (before after : Machine) (address : Nat) : Prim → Prop
  | defining .semicolon => ∃ token, before.markers = [⟨.colon, token⟩] ∧
      InCell (flagsField (ofToken token)) address ∧
      after.memory.cellAt (flagsField (ofToken token)) =
        before.memory.cellAt (flagsField (ofToken token)) &&& ~~~smudged
  | defining .immediate => InCell (flagsField before.dictionary.latest) address ∧
      after.memory.cellAt (flagsField before.dictionary.latest) =
        before.memory.cellAt (flagsField before.dictionary.latest) ||| immediate
  | thread .setDoes => InCell (Header.token before.dictionary.latest) address ∨
      InCell (doesField before.dictionary.latest) address
  | control _ => Resolved before.markers after.markers address
  | _ => False

variable {entries : List Header} {markers : List Marker} {origin : Machine}

theorem peek_of_pop (hb : origin.Bounded) {value : Cell} {after : Machine} (hpop : pop origin = .ok value after) :
    origin.data.peek origin.memory 0 = .ok value := by
  have hwhole := hb.data.whole
  by_cases hitems : origin.data.top < origin.data.base
  · have hread := Stack.pop_of_items hb.data hb.size_eq hitems
    rw [pop, popping, hread] at hpop
    obtain ⟨rfl, -⟩ := EStateM.Result.ok.inj hpop
    have hfin := hb.data.usable.finish_le
    have hbase := hb.data.base_eq
    have hsize := hb.size_eq
    rw [Stack.peek, Stack.check, if_neg (by rw [Stack.depth]; omega)]
    exact Memory.readCell_eq_ok (by omega) hb.data.aligned
  · rw [pop, popping, Stack.pop_of_empty hb.data origin.memory (by omega)] at hpop
    cases hpop

theorem calm_allot (hb : origin.Bounded) (htame : (Prim.defining .allot).Tame origin) :
    origin.Calm (stateAfter (DefiningWord.perform .allot) origin) := by
  have hpop : Keeps origin.Calm pop := inferInstance
  have hcalm := hpop.keeps origin (.refl hb)
  cases hpopped : pop origin with
  | error fault after =>
    rw [stateAfter_of_error hpopped] at hcalm
    rw [stateAfter, DefiningWord.perform, bind_of_error hpopped]
    exact hcalm
  | ok amount after =>
    rw [stateAfter_of_ok hpopped] at hcalm
    have hamount : ¬ amount < 0 := htame amount (peek_of_pop hb hpopped)
    have := @Machine.keeps_calm_allot origin amount hamount
    rw [stateAfter, DefiningWord.perform, bind_of_ok hpopped]
    exact this.keeps after hcalm

variable {prim : Prim}

/-- What a tame word does: it appends, resolves branches, changes the newest header, enters a header, or ends the open
definition or fails to. -/
theorem perform_cases (hord : Orderly entries markers [] origin) (hents : entries ≠ []) (htame : prim.Tame origin) :
    origin.Calm (stateAfter prim.perform origin) ∨
      (∃ word, prim = .control word ∧ stateAfter prim.perform origin = stateAfter word.perform origin) ∨
      (prim = .thread .setDoes ∧ Recodes entries markers origin (stateAfter prim.perform origin)) ∨
      (prim = .defining .immediate ∧ Marks entries markers origin (stateAfter prim.perform origin)) ∨
      (∃ flags, Adds flags entries markers origin (stateAfter prim.perform origin)) ∨
      (prim = .defining .semicolon ∧ ((∃ token, Reveals entries markers origin token (stateAfter prim.perform origin)) ∨
        Spares entries markers origin (stateAfter prim.perform origin))) := by
  by_cases hsteady : prim.isSteady = true
  · have hkeeps : Keeps origin.Calm prim.perform := parallel_of_isSteady hsteady
    exact .inl (hkeeps.keeps origin (.refl hord.bounded))
  cases prim with
  | thread word =>
    obtain rfl : word = .setDoes := by simpa [isSteady] using hsteady
    exact .inr (.inr (.inl ⟨rfl, ThreadWord.perform_setDoes hord hents⟩))
  | memory word =>
    have hstore : word.isStore = false := htame
    simp [isSteady, hstore] at hsteady
  | control word => exact .inr (.inl ⟨word, rfl, stateAfter_complete word.perform origin⟩)
  | defining word =>
    have hcomplete : stateAfter (Prim.defining word).perform origin = stateAfter word.perform origin :=
      stateAfter_complete word.perform origin
    have hmakes : ∀ {flags}, word.headerFlags = some flags →
        origin.Calm (stateAfter word.perform origin) ∨
          ∃ flags, Adds flags entries markers origin (stateAfter word.perform origin) :=
      fun hflags => (DefiningWord.perform_makes hord hflags).imp id fun hadds => ⟨_, hadds⟩
    rw [hcomplete]
    cases word with
    | allot => exact .inl (calm_allot hord.bounded htame)
    | colon | nameless | create | newConstant | newVariable =>
      exact (hmakes rfl).imp id fun hadds => .inr (.inr (.inr (.inl hadds)))
    | semicolon =>
      refine .inr (.inr (.inr (.inr (.inr ⟨rfl, ?_⟩))))
      have hclose := DefiningWord.secures_close hord origin rfl
      rw [stateAfter, DefiningWord.perform]
      cases hres : DefiningWord.close origin with
      | ok answer after =>
        rw [hres] at hclose
        exact .inl hclose
      | error fault after =>
        rw [hres] at hclose
        exact .inr hclose
    | immediate =>
      rcases DefiningWord.perform_immediate hord hents with hsame | hmarks
      · rw [hsame]
        exact .inl (.refl hord.bounded)
      · exact .inr (.inr (.inr (.inl ⟨rfl, hmarks⟩)))
    | _ => exact absurd rfl hsteady
  | _ => exact absurd rfl hsteady

theorem perform_evolves (hord : Orderly entries markers [] origin) (hents : entries ≠ [])
    (htame : prim.Tame origin) :
    ∃ revised later, Orderly revised later [] (stateAfter prim.perform origin) ∧
      Evolves (fun addr => prim.Alters origin (stateAfter prim.perform origin) addr) entries revised markers later
        origin (stateAfter prim.perform origin) := by
  rcases perform_cases hord hents htame with hcalm | ⟨word, rfl, hword⟩ | ⟨rfl, revised, hrevised, hev⟩ |
    ⟨rfl, revised, hrevised, hev, hvalue⟩ | ⟨flags, entry, later, -, -, hlater, hev, -⟩ |
    ⟨rfl, ⟨token, hmarks, revised, hrevised, hev, hvalue⟩ | ⟨later, -, hlater, hev⟩⟩
  · exact ⟨entries, markers, hord.calm hcalm, .calm hord.bounded hcalm⟩
  · obtain ⟨later, hlater, hev⟩ := word.perform_evolves hord
    rw [hword]
    refine ⟨entries, later, hlater, hev.widen fun addr hresolved => ?_⟩
    rw [Alters, hord.markers_eq, hlater.markers_eq]
    exact hresolved
  · exact ⟨revised, markers, hrevised, hev⟩
  · exact ⟨revised, markers, hrevised, hev.widen fun addr hin => ⟨hin, hvalue⟩⟩
  · exact ⟨entry :: entries, later, hlater, hev.widen fun _ => False.elim⟩
  · refine ⟨revised, [], hrevised, hev.widen fun addr hin => ⟨token, ?_, hin, hvalue⟩⟩
    rw [hord.markers_eq, hmarks]
  · exact ⟨entries, later, hlater, hev.widen fun _ => False.elim⟩

end Prim

end ThreadedForth
